import LinuxKernel.Sched.Calm
import LinuxKernel.Sched.Policy

/-!
# Android scheduler — preemption across classes

Whoever makes a task runnable has to ask for a reschedule if the running task is
of a lower class. The requests are spread over `check_preempt_curr`,
`check_class_changed` with the `switched_to` hooks, and the period timer of the
real-time groups.

* `NoLostPreemption`   — while a task of a higher class waits, the running task has
  `TIF_NEED_RESCHED` set.
* `Op.keepsPreemption` — two operations may break that: the running task is moved to
  a lower class other than the fair one, as `switched_to_wrr` asks for nothing then,
  and a waiting real-time task is moved out of a throttled group.
* `no_lost_preemption` — in runs without such steps it holds in every state.
-/

namespace LinuxKernel.Sched

open LinuxKernel.Lib

variable {σ : Type}

/-! ## The property -/

/-- No run queue from the group up to the root is throttled. -/
def groupOpen (rt : RtRqs) (g : TaskGroup) : Bool := g.tails.all fun h => !rtRqThrottled (rt h)

/-- The queued task `q` is of a class above `c`, and no throttled run queue holds it
back. -/
def State.outranks (s : State σ) (q : Pid) (c : SchedClass) : Prop :=
  q ∈ s.queued ∧ (s.tasks q).schedClass.rank < c.rank ∧
    ((s.tasks q).schedClass = .rt → rtEligible s.tasks s.rt q = true)

instance (s : State σ) (q : Pid) (c : SchedClass) : Decidable (s.outranks q c) :=
  inferInstanceAs (Decidable (_ ∧ _ ∧ _))

def NoLostPreemption (s : State σ) : Prop :=
  ∀ q, s.outranks q (s.tasks s.curr).schedClass → s.needResched s.curr = true

/-- The class a task has after a request for another policy. -/
def setschedulerClass (k : Kernel σ) (s : State σ) (p : Pid) (a : SetschedArgs) : SchedClass :=
  ((outlineSetscheduler k s.toBase p a).tasks p).schedClass

/-- The steps that keep it: no priority inheritance; the running task is not moved
to a class other than the fair one below that of a waiting task; and no waiting
real-time task leaves a throttled group. -/
def Op.keepsPreemption (k : Kernel σ) (s : State σ) : Op → Prop
  | .rtMutexSetprio _ _ | .piWaiter _ _ => False
  | .setscheduler p a => p = s.curr → s.needResched s.curr = false →
      setschedulerClass k s p a ≠ .fair →
      ∀ q ∈ s.queued, q ≠ p → ¬ s.outranks q (setschedulerClass k s p a)
  | .schedMoveTask p g => s.needResched s.curr = false → (s.tasks p).schedClass = .rt →
      p ∈ s.queued → SchedClass.rt.rank < (s.tasks s.curr).schedClass.rank →
      groupOpen s.rt g = true → rtEligible s.tasks s.rt p = true
  | _ => True

instance (k : Kernel σ) (s : State σ) : (op : Op) → Decidable (op.keepsPreemption k s)
  | .rtMutexSetprio _ _ | .piWaiter _ _ => inferInstanceAs (Decidable False)
  | .setscheduler p a => inferInstanceAs (Decidable (p = s.curr → s.needResched s.curr = false →
      setschedulerClass k s p a ≠ .fair →
      ∀ q ∈ s.queued, q ≠ p → ¬ s.outranks q (setschedulerClass k s p a)))
  | .schedMoveTask p g => inferInstanceAs (Decidable (s.needResched s.curr = false →
      (s.tasks p).schedClass = .rt → p ∈ s.queued →
      SchedClass.rt.rank < (s.tasks s.curr).schedClass.rank →
      groupOpen s.rt g = true → rtEligible s.tasks s.rt p = true))
  | .setState _ | .schedule _ | .tick | .wakeUp _ _ _ | .wakeUpNewTask _ | .fork _
  | .setUserNice _ _ | .schedYield _ | .rtPeriodTimer _ _ | .setStopTask _ =>
    inferInstanceAs (Decidable True)

theorem Op.keepsPreemption.inherits {k : Kernel σ} {s : State σ} {op : Op}
    (h : op.keepsPreemption k s) : op.inherits = false := by
  cases op with
  | rtMutexSetprio p prio => exact h.elim
  | piWaiter p w => exact h.elim
  | _ => rfl

/-! ## What was not asked for before need not be asked for now -/

section Rule

variable {k : Kernel σ} {s t : State σ} {c c' : SchedClass} {p q : Pid} {g : TaskGroup}

theorem groupOpen_iff {rt : RtRqs} :
    groupOpen rt g = true ↔ ∀ h, h <:+ g → rtRqThrottled (rt h) = false := by
  simp [groupOpen, List.mem_tails]

/-- Without boosts a group that is open was open before. -/
theorem Calm.groupOpen (hC : Calm s t) (hP : PlainInv t) (h : groupOpen t.rt g = true) :
    groupOpen s.rt g = true := by
  rw [groupOpen_iff] at h ⊢
  intro g' hg'
  have ht := h g' hg'
  rw [rtRqThrottled, hP.rt g'] at ht
  rw [rtRqThrottled, Bool.and_eq_false_iff]
  left
  rw [← Bool.not_eq_true]
  intro hs
  rw [hC.throttled g' hs] at ht
  cases ht

theorem Calm.outranks (hC : Calm s t) (hP : PlainInv t) (hq : q ∈ s.queued)
    (hcls : (t.tasks q).schedClass = (s.tasks q).schedClass)
    (hgrp : (t.tasks q).schedTaskGroup = (s.tasks q).schedTaskGroup)
    (hrank : c.rank ≤ c'.rank) (h : t.outranks q c) : s.outranks q c' := by
  obtain ⟨-, hlt, hel⟩ := h
  rw [hcls] at hlt hel
  refine ⟨hq, hlt.trans_le hrank, fun hrt => ?_⟩
  have hopen : Sched.groupOpen t.rt (t.tasks q).schedTaskGroup = true := hel hrt
  rw [hgrp] at hopen
  exact hC.groupOpen hP hopen

/-- **Rule.** If all waiting tasks but `p` waited before, with the same parameters,
and the running task was in no higher class, then only `p` matters. -/
theorem NoLostPreemption.of_calm (hN : NoLostPreemption s) (hC : Calm s t) (hP : PlainInv t)
    (p : Pid)
    (hother : ∀ q ∈ t.queued, q ≠ p → q ∈ s.queued ∧ (t.tasks q).params = (s.tasks q).params)
    (hrank : (t.tasks s.curr).schedClass.rank ≤ (s.tasks s.curr).schedClass.rank)
    (hp : t.outranks p (t.tasks t.curr).schedClass → t.needResched t.curr = true) :
    NoLostPreemption t := by
  intro q hq
  by_cases hqp : q = p
  · subst hqp
    exact hp hq
  · obtain ⟨hmem, hparams⟩ := hother q hq.1 hqp
    have hgrp : (t.tasks q).schedTaskGroup = (s.tasks q).schedTaskGroup := by
      rw [Task.eq_of_params hparams]
    rw [hC.curr] at hq ⊢
    exact hC.resched (hN q (hC.outranks hP hmem (Task.schedClass_eq hparams) hgrp hrank hq))

/-- The running task does not outrank itself. -/
theorem State.not_outranks_curr : ¬ t.outranks t.curr (t.tasks t.curr).schedClass :=
  fun h => Nat.lt_irrefl _ h.2.1

/-- From `b` to `b'` only task `p` is written, and it becomes `u`. -/
structure Base.Writes (b b' : Base) (p : Pid) (u : Task) : Prop where
  nr     : b'.nrTasks = b.nrTasks
  cls    : (b'.tasks p).schedClass = u.schedClass
  grp    : (b'.tasks p).schedTaskGroup = u.schedTaskGroup
  onRq   : (b'.tasks p).onRq = u.onRq
  others : ∀ q, q ≠ p → (b'.tasks q).params = (b.tasks q).params

theorem Base.Writes.of_setTask {b b' : Base} {f : Task → Task}
    (hout : b'.outline = b.outline.setTask p f) : b.Writes b' p (f (b.tasks p).params) := by
  have hself : (b'.tasks p).params = f (b.tasks p).params := by
    have h := congrArg (fun b => Base.tasks b p) hout
    simpa only [Base.setTask_self, Base.outline_tasks] using h
  refine ⟨?_, ?_, ?_, ?_, fun q hqp => ?_⟩
  · rw [← Base.outline_nrTasks, hout, Base.setTask_nrTasks, Base.outline_nrTasks]
  · rw [← hself]
    rfl
  · rw [← hself]
    rfl
  · rw [← hself]
    rfl
  · have h := congrArg (fun b => Base.tasks b q) hout
    simpa only [Base.setTask_of_ne _ _ hqp, Base.outline_tasks] using h

theorem Base.Writes.mem_queued {b b' : Base} {u : Task} (h : b.Writes b' p u)
    (hon : u.onRq = (b.tasks p).onRq) : q ∈ b'.queued ↔ q ∈ b.queued := by
  rw [Base.mem_queued, Base.mem_queued, h.nr]
  by_cases hq : q = p
  · rw [hq, h.onRq, hon]
  · rw [Task.onRq_eq (h.others q hq)]

theorem Base.Writes.class_eq {b b' : Base} {u : Task} (h : b.Writes b' p u)
    (hcls : u.schedClass = (b.tasks p).schedClass) (q : Pid) :
    (b'.tasks q).schedClass = (b.tasks q).schedClass := by
  by_cases hq : q = p
  · rw [hq, h.cls, hcls]
  · rw [Task.schedClass_eq (h.others q hq)]

/-- The rule for an operation that writes the parameters of one task. -/
theorem NoLostPreemption.of_setTask {f : Task → Task} (hN : NoLostPreemption s) (hC : Calm s t)
    (hP : PlainInv t) (hout : t.toBase.outline = s.toBase.outline.setTask p f)
    (hrank : (t.tasks s.curr).schedClass.rank ≤ (s.tasks s.curr).schedClass.rank)
    (hp : t.outranks p (t.tasks t.curr).schedClass → t.needResched t.curr = true) :
    NoLostPreemption t := by
  have hw := Base.Writes.of_setTask hout
  refine hN.of_calm hC hP p (fun q hq hqp => ⟨?_, hw.others q hqp⟩) hrank hp
  rw [Base.mem_queued] at hq ⊢
  rw [← hw.nr, ← Task.onRq_eq (hw.others q hqp)]
  exact hq

/-- A write that leaves class, group and `on_rq` alone. -/
theorem NoLostPreemption.of_keep {f : Task → Task} (hN : NoLostPreemption s) (hC : Calm s t)
    (hP : PlainInv t) (hout : t.toBase.outline = s.toBase.outline.setTask p f)
    (hf : ∀ u : Task, (f u).schedClass = u.schedClass ∧ (f u).schedTaskGroup = u.schedTaskGroup ∧
      (f u).onRq = u.onRq) : NoLostPreemption t := by
  have hw := Base.Writes.of_setTask hout
  obtain ⟨hcls, hgrp, hon⟩ := hf (s.tasks p).params
  have hclass := hw.class_eq hcls
  refine hN.of_setTask hC hP hout (le_of_eq (by rw [hclass])) fun hp => ?_
  have hmem : p ∈ s.queued := (hw.mem_queued hon).mp hp.1
  rw [hC.curr] at hp ⊢
  exact hC.resched (hN p (hC.outranks hP hmem (hclass p) (hw.grp.trans hgrp)
    (le_of_eq (by rw [hclass])) hp))

end Rule

/-! ## Who asks for a reschedule -/

section Requests

variable {k : Kernel σ} {s t : State σ} {p : Pid}

theorem metFirst_of_rank {c d : SchedClass} (h : d.rank < c.rank) :
    metFirst c d forEachClass = true := by
  revert h
  cases c <;> cases d <;> decide

/-- `check_preempt_curr` asks for a task of a higher class. -/
theorem checkPreemptCurr_resched (flags : Nat)
    (h : (s.tasks p).schedClass.rank < (s.tasks s.curr).schedClass.rank) :
    (checkPreemptCurr k s p flags).needResched s.curr = true := by
  have hne : (s.tasks p).schedClass ≠ (s.tasks s.curr).schedClass := fun he => by
    rw [he] at h
    exact Nat.lt_irrefl _ h
  have hskip : ∀ u : State σ, (if (u.tasks u.curr).onRq = true ∧ u.needResched u.curr = true then
      { u with skipClockUpdate := 1 } else u).needResched = u.needResched := by
    intro u
    split <;> rfl
  unfold checkPreemptCurr
  dsimp only
  rw [hskip, if_neg hne, if_pos (metFirst_of_rank h)]
  exact reschedTask_self s s.curr

/-- When `switched_to` asks for a reschedule. -/
def SwitchedToAsks (b : Base) (p : Pid) : Prop :=
  (b.tasks p).onRq = true ∧
  (((b.tasks p).schedClass = .wrr ∧ b.curr ≠ p) ∨
    ((b.tasks p).schedClass = .rt ∧ b.curr ≠ p ∧ (b.tasks p).prio < (b.tasks b.curr).prio) ∨
    ((b.tasks p).schedClass = .fair ∧
      (b.curr = p ∨ (b.tasks b.curr).schedClass = .idle)))

theorem SwitchedToAsks.of_outline {b b' : Base} (h : b'.outline = b.outline)
    (hb : SwitchedToAsks b p) : SwitchedToAsks b' p := by
  have hout : SwitchedToAsks b.outline p := hb
  rw [← h] at hout
  exact hout

theorem switchedTo_resched (h : SwitchedToAsks s.toBase p) :
    (taskHook k .switchedTo s p 0).needResched s.curr = true := by
  obtain ⟨hon, hcase⟩ := h
  unfold taskHook
  rcases hcase with ⟨hc, hne⟩ | ⟨hc, hne, hprio⟩ | ⟨hc, hfair⟩
  · rw [hc]
    show (switchedToWrr k.toConfig s p).needResched s.curr = true
    unfold switchedToWrr
    rw [if_pos ⟨hon, hne⟩]
    exact reschedTask_self s s.curr
  · rw [hc]
    show (switchedToRt s p).needResched s.curr = true
    unfold switchedToRt
    rw [if_pos ⟨hon, hne, hprio⟩]
    exact reschedTask_self s s.curr
  · rw [hc]
    show (if (k.ext.hook .switchedTo .fair s p 0).resched = true then
      Function.update s.needResched s.curr true else s.needResched) s.curr = true
    rw [if_pos (k.ext.switchedTo_fair s p 0 hon hfair)]
    exact Function.update_self ..

/-- A change of class through `__sched_setscheduler`. -/
theorem schedSetscheduler_resched {a : SetschedArgs} {policy : Policy} {reset : Bool}
    (hreq : setschedulerRequest k s.stop p (s.tasks p) a = .ok (some (policy, reset)))
    (ht : (schedSetscheduler k s p a).2 = t)
    (hne : (s.tasks p).schedClass ≠ (t.tasks p).schedClass)
    (h : SwitchedToAsks t.toBase p) : t.needResched t.curr = true := by
  rw [schedSetscheduler, hreq] at ht
  dsimp only at ht
  generalize retask k s p 0 (fun u =>
    u.setTask p (setschedulerTask policy a.schedPriority.toNat reset)) = u at ht
  have hout : t.toBase.outline = u.toBase.outline := by rw [← ht, checkClassChanged_outline]
  have hcls : (s.tasks p).schedClass ≠ (u.tasks p).schedClass := by
    rw [← Task.schedClass_eq (Base.params_eq hout p)]
    exact hne
  rw [checkClassChanged, if_pos hcls] at ht
  -- switched_from changes nothing that switched_to looks at
  have hfrom := hookOf_outline k (s.tasks p).schedClass .switchedFrom u p 0
  have hcurr := Base.curr_eq (hfrom.trans hout.symm)
  have hasks := switchedTo_resched (k := k) (h.of_outline (hfrom.trans hout.symm))
  rw [← ht] at hcurr ⊢
  rwa [hcurr] at hasks

/-- Outside of the real-time class and above, priorities are not real-time ones. -/
theorem BoostedIsRt.prio_curr (hI : Inv k s) (hB : BoostedIsRt s.toBase)
    (h : SchedClass.rt.rank < (s.tasks s.curr).schedClass.rank) :
    maxRtPrio ≤ (s.tasks s.curr).prio := by
  by_contra hlt
  have hr : rtPrio (s.tasks s.curr).prio = true := by
    simp only [rtPrio, decide_eq_true_eq]
    exact Nat.lt_of_not_le hlt
  rcases hB s.curr hI.curr.1 hr with hc | hc
  · rw [hc] at h
    exact absurd h (Nat.lt_irrefl _)
  · rw [hc] at h
    exact absurd h (by decide)

end Requests

/-! ## Wake-ups and changes of policy and group -/

section Operations

variable {k : Kernel σ} {s t : State σ} {p : Pid}

theorem NoLostPreemption.wakeUp {state flags : Nat} (hN : NoLostPreemption s) (hC : Calm s t)
    (hP : PlainInv t) (ht : tryToWakeUp k s p state flags = t) : NoLostPreemption t := by
  unfold tryToWakeUp at ht
  split at ht
  · rw [← ht]
    exact hN
  · have hout : t.toBase.outline = s.toBase.outline.setTask p wakeTask := by
      rw [← ht]
      exact wakeup_outline ..
    -- both ways end in ttwu_do_wakeup
    have hasks : t.outranks p (t.tasks t.curr).schedClass → t.needResched t.curr = true := by
      intro hp
      have hdo : ∀ (u : State σ) (f : Nat), ttwuDoWakeup k u p f = t →
          t.needResched t.curr = true := by
        intro u f hu
        have huout := ttwuDoWakeup_outline k u p f
        rw [hu] at huout
        have hcls := (Base.Writes.of_setTask huout).class_eq rfl
        have hcurr : t.curr = u.curr := by
          rw [← Base.outline_curr, huout, Base.setTask_curr, Base.outline_curr]
        have hrank := hp.2.1
        rw [hcls, hcls, hcurr] at hrank
        have hresched := checkPreemptCurr_resched (k := k) f hrank
        rw [hcurr, ← hu]
        exact hresched
      split at ht
      · exact hdo s _ ht
      · exact hdo _ _ ht
    refine hN.of_setTask hC hP hout (le_of_eq ?_) hasks
    rw [(Base.Writes.of_setTask hout).class_eq rfl]

theorem NoLostPreemption.wakeUpNewTask (hN : NoLostPreemption s) (hC : Calm s t)
    (hP : PlainInv t) (ht : Sched.wakeUpNewTask k s p = t) :
    NoLostPreemption t := by
  unfold Sched.wakeUpNewTask at ht
  dsimp only at ht
  generalize hu : (activateTask k s p 0).setTask p (fun t => { t with onRq := true }) = u at ht
  have huout : u.toBase.outline = s.toBase.outline.setTask p fun t => { t with onRq := true } := by
    rw [← hu, State.setTask_toBase, Base.setTask_outline, activateTask, enqueueTask_outline]
    exact fun t => rfl
  have hout : t.toBase.outline = u.toBase.outline := by rw [← ht, checkPreemptCurr_outline]
  refine hN.of_setTask hC hP (hout.trans huout) (le_of_eq ?_) fun hp => ?_
  · rw [(Base.Writes.of_setTask (hout.trans huout)).class_eq rfl]
  · have hcurr := Base.curr_eq hout
    have hrank := hp.2.1
    rw [Task.schedClass_eq (Base.params_eq hout p), Task.schedClass_eq (Base.params_eq hout _),
      hcurr] at hrank
    have hresched := checkPreemptCurr_resched (k := k) wfFork hrank
    rw [hcurr, ← ht]
    exact hresched

theorem NoLostPreemption.schedMoveTask {g : TaskGroup} (hN : NoLostPreemption s) (hC : Calm s t)
    (hP : PlainInv t) (hok : (Op.schedMoveTask p g).keepsPreemption k s)
    (ht : Sched.schedMoveTask k s p g = t) : NoLostPreemption t := by
  have hout : t.toBase.outline = s.toBase.outline.setTask p fun t =>
      { t with schedTaskGroup := g } := by
    rw [← ht]
    exact schedMoveTask_outline ..
  have hw := Base.Writes.of_setTask hout
  have hcls := hw.class_eq rfl
  refine hN.of_setTask hC hP hout (le_of_eq (by rw [hcls])) fun hp => ?_
  obtain ⟨hmem, hrank, hel⟩ := hp
  have hmem : p ∈ s.queued := (hw.mem_queued rfl).mp hmem
  rw [hcls, hcls, hC.curr] at hrank
  rw [hcls] at hel
  rw [hC.curr]
  refine hC.resched ?_
  by_contra hres
  rw [Bool.not_eq_true] at hres
  -- a real-time task has to be open to running before it is moved
  have hopen : (s.tasks p).schedClass = .rt → rtEligible s.tasks s.rt p = true := by
    intro hrt
    have hg : groupOpen t.rt (t.tasks p).schedTaskGroup = true := hel hrt
    rw [hw.grp] at hg
    rw [hrt] at hrank
    exact hok hres hrt hmem hrank (hC.groupOpen hP hg)
  rw [hN p ⟨hmem, hrank, hopen⟩] at hres
  cases hres

theorem setschedulerTask_class (policy : Policy) (n : Nat) (reset : Bool) (u : Task) :
    (setschedulerTask policy n reset u).schedClass = .wrr ∨
    (setschedulerTask policy n reset u).schedClass = .rt ∨
    (setschedulerTask policy n reset u).schedClass = .fair := by
  simp only [setschedulerTask, setscheduler]
  split
  · exact Or.inl rfl
  · split
    · exact Or.inr (Or.inl rfl)
    · exact Or.inr (Or.inr rfl)

section Setscheduler

variable {a : SetschedArgs} {policy : Policy} {reset : Bool}

/-- The running task gets another class. -/
theorem NoLostPreemption.setscheduler_curr (hI : Inv k s) (hC : Calm s t) (hP : PlainInv t)
    (hne : s.curr ≠ s.idle) (hok : (Op.setscheduler s.curr a).keepsPreemption k s)
    (hreq : setschedulerRequest k s.stop s.curr (s.tasks s.curr) a = .ok (some (policy, reset)))
    (ht : (schedSetscheduler k s s.curr a).2 = t)
    (hw : s.toBase.Writes t.toBase s.curr
      (setschedulerTask policy a.schedPriority.toNat reset (s.tasks s.curr).params))
    (hclass : (t.tasks s.curr).schedClass = setschedulerClass k s s.curr a)
    (hsame : (s.tasks s.curr).schedClass ≠ (t.tasks s.curr).schedClass) : NoLostPreemption t := by
  have hon : (t.tasks s.curr).onRq = true := hw.onRq.trans (hI.curr.2 hne)
  by_cases hfair : (t.tasks s.curr).schedClass = .fair
  · intro q _
    exact schedSetscheduler_resched hreq ht hsame
      ⟨hon, Or.inr (Or.inr ⟨hfair, Or.inl hC.curr⟩)⟩
  · -- switched_to asks for nothing: nothing may wait
    intro q hq
    rw [hC.curr] at hq ⊢
    by_contra hres
    have hqp : q ≠ s.curr := by
      rintro rfl
      exact Nat.lt_irrefl _ hq.2.1
    have hmem : q ∈ s.queued := (hw.mem_queued rfl).mp hq.1
    have hparams := hw.others q hqp
    have hgrp : (t.tasks q).schedTaskGroup = (s.tasks q).schedTaskGroup := by
      rw [Task.eq_of_params hparams]
    have hres' : s.needResched s.curr = false := by
      rw [← Bool.not_eq_true]
      exact fun h => hres (hC.resched h)
    rw [hclass] at hfair hq
    exact hok rfl hres' hfair q hmem hqp
      (hC.outranks hP hmem (Task.schedClass_eq hparams) hgrp le_rfl hq)

/-- Another task does: `switched_to` asks if it is to run at once. -/
theorem switchedToAsks_of_outranks (hI' : Inv k t) (hB : BoostedIsRt t.toBase) (hpc : t.curr ≠ p)
    (hw : s.toBase.Writes t.toBase p
      (setschedulerTask policy a.schedPriority.toNat reset (s.tasks p).params))
    (hp : t.outranks p (t.tasks t.curr).schedClass) : SwitchedToAsks t.toBase p := by
  obtain ⟨hmem, hrank, -⟩ := hp
  refine ⟨(Base.mem_queued.mp hmem).2, ?_⟩
  rcases setschedulerTask_class policy a.schedPriority.toNat reset (s.tasks p).params with
    hc | hc | hc
  · exact Or.inl ⟨hw.cls.trans hc, hpc⟩
  · -- a real-time priority, and the running task has none
    have hrt := hw.cls.trans hc
    rw [hrt] at hrank
    have hlt := (hI'.tasks.task p (Base.mem_queued.mp hmem).1).rt_prio hrt
    exact Or.inr (Or.inl ⟨hrt, hpc, hlt.trans_le (hB.prio_curr hI' hrank)⟩)
  · have hfair := hw.cls.trans hc
    refine Or.inr (Or.inr ⟨hfair, Or.inr ?_⟩)
    rw [hfair] at hrank
    revert hrank
    cases (t.tasks t.curr).schedClass <;> simp [SchedClass.rank]

theorem NoLostPreemption.setscheduler (hI : Inv k s) (hI' : Inv k t)
    (hN : NoLostPreemption s) (hC : Calm s t) (hP : PlainInv t) (hB : BoostedIsRt t.toBase)
    (hne : p ≠ s.idle) (hok : (Op.setscheduler p a).keepsPreemption k s)
    (ht : (schedSetscheduler k s p a).2 = t) : NoLostPreemption t := by
  rcases hreq : setschedulerRequest k s.stop p (s.tasks p) a with e | _ | ⟨policy, reset⟩
  · rw [← ht, schedSetscheduler, hreq]
    exact hN
  · rw [← ht, schedSetscheduler, hreq]
    exact hN
  · have hout := schedSetscheduler_outline k s p a
    have hreq' : setschedulerRequest k s.toBase.outline.stop p (s.toBase.outline.tasks p) a =
        .ok (some (policy, reset)) := hreq
    rw [ht, outlineSetscheduler, hreq'] at hout
    dsimp only at hout
    have hw := Base.Writes.of_setTask hout
    by_cases hsame : (s.tasks p).schedClass = (t.tasks p).schedClass
    · -- only policy and priority change
      have hcls := hw.class_eq (hw.cls.symm.trans hsame.symm)
      refine hN.of_setTask hC hP hout (le_of_eq (by rw [hcls])) fun hp => ?_
      have hmem : p ∈ s.queued := (hw.mem_queued rfl).mp hp.1
      rw [hC.curr] at hp ⊢
      exact hC.resched (hN p (hC.outranks hP hmem hsame.symm hw.grp (le_of_eq (by rw [hcls])) hp))
    · by_cases hpc : p = s.curr
      · subst hpc
        refine NoLostPreemption.setscheduler_curr hI hC hP hne hok hreq ht hw ?_ hsame
        rw [hw.cls, setschedulerClass, outlineSetscheduler, hreq, Base.setTask_self]
        rfl
      · have hcurr : (t.tasks s.curr).schedClass = (s.tasks s.curr).schedClass :=
          Task.schedClass_eq (hw.others _ (Ne.symm hpc))
        have hpc' : t.curr ≠ p := fun h => hpc (by rw [← h, hC.curr])
        refine hN.of_setTask hC hP hout (le_of_eq (by rw [hcurr])) fun hp => ?_
        exact schedSetscheduler_resched hreq ht hsame (switchedToAsks_of_outranks hI' hB hpc' hw hp)

end Setscheduler

/-- Nothing is written. -/
theorem NoLostPreemption.of_outline (hN : NoLostPreemption s) (hC : Calm s t) (hP : PlainInv t)
    (hout : t.toBase.outline = s.toBase.outline) : NoLostPreemption t := by
  refine hN.of_calm hC hP s.curr (fun q hq _ => ⟨?_, Base.params_eq hout q⟩) (le_of_eq ?_) ?_
  · rwa [← Base.queued_eq hout]
  · rw [Task.schedClass_eq (Base.params_eq hout _)]
  · rw [← hC.curr]
    exact fun h => absurd h State.not_outranks_curr

theorem forkedTask_onRq (u : Task) (mm : Bool) : (forkedTask u mm).onRq = false := by
  unfold forkedTask
  dsimp only
  split
  · exact (TaskOk.resetOnFork_frame _).2.2.1
  · exact (TaskOk.resetOnFork_frame _).2.2.1

/-- The child of a fork is not queued yet. -/
theorem NoLostPreemption.fork {mm : Bool} (hI : Inv k s) (hN : NoLostPreemption s) (hC : Calm s t)
    (hP : PlainInv t) (ht : schedFork k s mm = t) : NoLostPreemption t := by
  have hout := schedFork_outline k s mm
  rw [ht] at hout
  have hnr : t.nrTasks = s.nrTasks + 1 := by
    rw [← Base.outline_nrTasks, hout]
    rfl
  have htasks : ∀ q, (t.tasks q).params =
      Function.update (fun q => (s.tasks q).params) s.nrTasks
        (forkedTask (s.tasks s.curr).params mm) q := by
    intro q
    have h := congrArg (fun b => Base.tasks b q) hout
    exact h
  have hother : ∀ q, q ≠ s.nrTasks → (t.tasks q).params = (s.tasks q).params := by
    intro q hq
    rw [htasks, Function.update_of_ne hq]
  refine hN.of_calm hC hP s.nrTasks (fun q hq hne => ⟨?_, hother q hne⟩) (le_of_eq ?_) fun hp => ?_
  · obtain ⟨hlt, hon⟩ := Base.mem_queued.mp hq
    rw [hnr] at hlt
    rw [Task.onRq_eq (hother q hne)] at hon
    exact Base.mem_queued.mpr ⟨Nat.lt_of_le_of_ne (Nat.lt_succ_iff.mp hlt) hne, hon⟩
  · rw [Task.schedClass_eq (hother _ (Nat.ne_of_lt hI.curr.1))]
  · have hon : (t.tasks s.nrTasks).params.onRq = true := (Base.mem_queued.mp hp.1).2
    rw [htasks, Function.update_self, forkedTask_onRq] at hon
    cases hon

theorem NoLostPreemption.setUserNice {nice : Int} (hN : NoLostPreemption s) (hC : Calm s t)
    (hP : PlainInv t) (ht : Sched.setUserNice k s p nice = t) : NoLostPreemption t := by
  have hout := setUserNice_outline k s p nice
  rw [ht, Op.outline] at hout
  split at hout
  · exact hN.of_outline hC hP hout
  · split at hout
    · exact hN.of_keep hC hP hout fun u => ⟨rfl, rfl, rfl⟩
    · exact hN.of_keep hC hP hout fun u => ⟨rfl, rfl, rfl⟩

theorem setStopTask_other {b : Base} {stop : Option Pid} {q : Pid} (hnew : ∀ p ∈ stop, q ≠ p)
    (hold : ∀ p ∈ b.stop, q ≠ p) : ((Op.setStopTask stop).outline k b).tasks q = b.tasks q := by
  have hinstall : (outlineInstall k b stop).tasks q = b.tasks q := by
    cases stop with
    | none => rfl
    | some p =>
      have hne := hnew p rfl
      rw [outlineInstall, Base.setTask_of_ne _ _ hne, TaskInv.outlineSetscheduler_other hne]
  show (outlineRetire { outlineInstall k b stop with stop := stop } b.stop).tasks q = _
  cases hstop : b.stop with
  | none => exact hinstall
  | some p =>
    rw [outlineRetire, Base.setTask_of_ne _ _ (hold p hstop)]
    exact hinstall

/-- Stop tasks come and go while they are off the queue. -/
theorem NoLostPreemption.setStopTask {stop : Option Pid} (hN : NoLostPreemption s)
    (hC : Calm s t) (hP : PlainInv t) (hen : (Op.setStopTask stop).enabled k s)
    (ht : schedSetStopTask k s stop = t) : NoLostPreemption t := by
  have hout := schedSetStopTask_outline k s stop
  rw [ht] at hout
  obtain ⟨hnew, hold⟩ := hen
  have hother : ∀ q, ¬ s.offCpu q → (t.tasks q).params = (s.tasks q).params := by
    intro q hq
    have h := congrArg (fun b => Base.tasks b q) hout
    have hne : ∀ p ∈ stop, q ≠ p := fun p hp he => hq (he ▸ hnew p hp)
    have hne' : ∀ p ∈ s.stop, q ≠ p := fun p hp he => hq (he ▸ hold p hp)
    exact h.trans (setStopTask_other (b := s.toBase.outline) hne hne')
  refine hN.of_calm hC hP s.curr (fun q hq _ => ?_) (le_of_eq ?_) fun hp => ?_
  · have hmem : q ∈ s.queued := by
      rw [← Base.queued_outline, ← setStopTask_queued k s.toBase.outline stop, ← hout]
      exact hq
    refine ⟨hmem, hother q fun hoff => ?_⟩
    have hon := (Base.mem_queued.mp hmem).2
    rw [hoff.2.2.2] at hon
    cases hon
  · rw [Task.schedClass_eq (hother _ fun hoff => hoff.2.2.1 rfl)]
  · rw [← hC.curr] at hp
    exact absurd hp State.not_outranks_curr

end Operations

/-! ## Switches and the period timer -/

section Switch

variable {k : Kernel σ} {s t : State σ} {op : Op}

/-- `schedule` leaves no task waiting that a higher class may pick. -/
theorem NoLostPreemption.switch
    (hfair : ∀ x p, k.ext.queued x .fair p = true → k.ext.eligible x .fair p = true)
    (hI : Inv k s) (hI' : Inv k t) (hsw : op.switches = true) (h : step k s op = some t) :
    NoLostPreemption t := by
  obtain ⟨v, u, hv, hpick, ht⟩ := hI.switch_pick hsw h
  rw [hv.pickNextTask_eq] at hpick
  obtain ⟨c, hc, hhigher⟩ := pickFrom_forEachClass hpick
  have hbase := pickOf_toBase hc
  have htasks : t.tasks = v.tasks := by
    rw [ht, ← hbase]
    rfl
  have hrt : t.rt = v.rt := by
    rw [ht]
    rcases pickOf_cases hc with ⟨-, rfl⟩ | ⟨-, rfl⟩ | ⟨-, -, e, -, rfl⟩ <;> rfl
  have hclass : (t.tasks t.curr).schedClass = c := by
    rcases hv.pick_some hc with ⟨rfl, hidle⟩ | ⟨-, -, hcls, -⟩
    · have hi : t.idle = v.idle := by
        rw [ht, ← hbase]
        rfl
      exact (hI'.tasks.idle_class _ hI'.curr.1).mpr (hidle.trans hi.symm)
    · rw [htasks]
      exact hcls
  rintro q ⟨hmem, hrank, hel⟩
  rw [hclass] at hrank
  rw [htasks] at hrank hel
  rw [hrt] at hel
  -- the class of q picked nothing, so q is not eligible
  have hne : (v.tasks q).schedClass ≠ .idle := by
    intro he
    rw [he] at hrank
    revert hrank
    cases c <;> decide
  have hnot := (hv.pick_none hne).mp (hhigher _ hrank) q hmem rfl
  have hyes : eligible k v q = true := by
    cases hq : (v.tasks q).schedClass with
    | stop =>
      rw [eligible_ext hq (Or.inl rfl)]
      exact k.ext.stop_eligible _ _ ((hv.ext (Or.inl rfl)).mpr ⟨hmem, hq⟩)
    | rt => rw [eligible_rt hq, hel hq]
    | wrr => exact eligible_wrr hq
    | fair =>
      rw [eligible_ext hq (Or.inr rfl)]
      exact hfair _ _ ((hv.ext (Or.inr rfl)).mpr ⟨hmem, hq⟩)
    | idle => exact absurd hq hne
  rw [hyes] at hnot
  cases hnot

/-- A group that gets its run queue back asks for its tasks. -/
theorem schedRtRqEnqueue_resched {g : TaskGroup} (ht : schedRtRqEnqueue s g = t)
    (hnr : (t.rt g).rtNrRunning ≠ 0) (hprio : (t.rt g).highestPrio < (t.tasks t.curr).prio) :
    t.needResched t.curr = true := by
  unfold schedRtRqEnqueue at ht
  split at ht
  · dsimp only at ht
    generalize (if g ≠ [] ∧ ¬ onRtRq s.tasks s.rt (.group g) = true then
      s.setRt (enqueueRtEntity s.tasks s.rt (.group g) false) else s) = u at ht
    split at ht
    · rw [← ht]
      exact reschedTask_self u u.curr
    · next hlow =>
      rw [← ht] at hprio
      exact absurd hprio hlow
  · next hzero =>
    rw [← ht] at hnr
    exact absurd hnr hzero

theorem NoLostPreemption.rtPeriodTimer {g : TaskGroup} {n : Nat} (hI' : Inv k t)
    (hN : NoLostPreemption s) (hP : PlainInv t) (hB : BoostedIsRt t.toBase)
    (ht : doSchedRtPeriodTimer k s g n = t) : NoLostPreemption t := by
  have hframe := doSchedRtPeriodTimer_frame k s g n
  rw [ht] at hframe
  have hbase := hframe.toBase
  intro q hq
  obtain ⟨hmem, hrank, hel⟩ := hq
  by_cases hbefore : (s.tasks q).schedClass = .rt → rtEligible s.tasks s.rt q = true
  · rw [hbase] at hmem hrank ⊢
    exact hframe.resched _ (hN q ⟨hmem, hrank, hbefore⟩)
  · -- a run queue on the way up from q was throttled and is not any more
    rw [Classical.not_imp, Bool.not_eq_true, ← Bool.not_eq_true, rtEligible_iff] at hbefore
    obtain ⟨hrt, hclosed⟩ := hbefore
    push Not at hclosed
    obtain ⟨h, hsuf, hthr⟩ := hclosed
    rw [Bool.ne_false_iff, rtRqThrottled, Bool.and_eq_true] at hthr
    have hrt' : (t.tasks q).schedClass = .rt := by rw [hbase]; exact hrt
    have hopen := hel hrt'
    have hsuf' : h <:+ (t.tasks q).schedTaskGroup := by rw [hbase]; exact hsuf
    have hfree := rtEligible_iff.mp hopen h hsuf'
    rw [rtRqThrottled, hP.rt h] at hfree
    have hfree' : (t.rt h).rtThrottled = false := by simpa using hfree
    obtain ⟨rfl, u, hu⟩ := doSchedRtPeriodTimer_throttled ht hthr.1 hfree'
    have hnr := hI'.queues.rt.nr_ne_zero_of_eligible ⟨hmem, hrt'⟩ hopen h hsuf'
    rw [hrt'] at hrank
    exact schedRtRqEnqueue_resched hu hnr
      (((hI'.queues.rt.rq h).highest_lt hnr).trans_le (hB.prio_curr hI' hrank))

end Switch

/-! ## Runs -/

section Runs

variable {k : Kernel σ} {s t : State σ} {op : Op}

/-- What the proof carries along a run. -/
structure PreemptInv (k : Kernel σ) (s : State σ) : Prop where
  inv     : Inv k s
  plain   : PlainInv s
  boosted : BoostedIsRt s.toBase
  nolost  : NoLostPreemption s

theorem PreemptInv.boot (k : Kernel σ) : PreemptInv k (boot k) where
  inv := Inv.boot k
  plain := ⟨fun q => ⟨rfl, rfl⟩, fun g => rfl⟩
  boosted := by
    intro p hp hr
    cases hr
  nolost := by
    intro q hq
    obtain ⟨hmem, -, -⟩ := hq
    rw [queued_boot] at hmem
    exact absurd hmem (Finset.notMem_empty q)

theorem PreemptInv.step
    (hfair : ∀ x p, k.ext.queued x .fair p = true → k.ext.eligible x .fair p = true)
    (hJ : PreemptInv k s) (hok : op.keepsPreemption k s) (h : step k s op = some t) :
    PreemptInv k t := by
  obtain ⟨hI, hP, hB, hN⟩ := hJ
  have hI' := hI.step h
  have hP' := step_plainInv hI hP hok.inherits h
  have hB' : BoostedIsRt t.toBase := by
    refine (boostedIsRt_step hI hB h).mpr ?_
    cases op with
    | setscheduler p a =>
      -- nobody waits on a lock
      intro reset hreq w hw
      rw [(hP.tasks p).2] at hw
      cases hw
    | _ => trivial
  refine ⟨hI', hP', hB', ?_⟩
  obtain ⟨hen, hout, -⟩ := step_outline h
  have hexec : op.exec k s = some t := by rwa [Sched.step, if_pos hen] at h
  cases hsw : op.switches with
  | true => exact NoLostPreemption.switch hfair hI hI' hsw h
  | false =>
    cases htimer : op.isTimer with
    | true =>
      cases op with
      | rtPeriodTimer g n =>
        exact NoLostPreemption.rtPeriodTimer hI' hN hP' hB' (Option.some.inj hexec)
      | _ => cases htimer
    | false =>
      have hC := step_calm hI hsw htimer h
      cases op with
      | setState st =>
        refine hN.of_keep hC hP' (p := s.curr) (f := fun t => { t with state := st }) ?_
          fun u => ⟨rfl, rfl, rfl⟩
        rw [hout, hC.curr]
        rfl
      | schedule e => cases hsw
      | tick =>
        refine hN.of_outline hC hP' ?_
        rw [hout, hC.curr]
        rfl
      | wakeUp p state flags => exact hN.wakeUp hC hP' (Option.some.inj hexec)
      | wakeUpNewTask p => exact hN.wakeUpNewTask hC hP' (Option.some.inj hexec)
      | fork mm => exact hN.fork hI hC hP' (Option.some.inj hexec)
      | setscheduler p a =>
        exact hN.setscheduler hI hI' hC hP' hB' hen.2 hok (Option.some.inj hexec)
      | rtMutexSetprio p prio => exact hok.elim
      | setUserNice p nice => exact hN.setUserNice hC hP' (Option.some.inj hexec)
      | schedMoveTask p g => exact hN.schedMoveTask hC hP' hok (Option.some.inj hexec)
      | schedYield e => cases hsw
      | piWaiter p w => exact hok.elim
      | rtPeriodTimer g n => cases htimer
      | setStopTask stop => exact hN.setStopTask hC hP' hen (Option.some.inj hexec)

end Runs

/-- **No lost preemption.** Take a run from boot without priority inheritance, in
which the running task is never moved to a class other than the fair one below that of
a waiting task, no waiting real-time task leaves a throttled group, and the fair class
does not hold back its tasks. In every state reached, if a task of a higher class
waits that no throttled run queue holds back, the running task has
`TIF_NEED_RESCHED` set. -/
theorem no_lost_preemption (k : Kernel σ)
    (hfair : ∀ x p, k.ext.queued x .fair p = true → k.ext.eligible x .fair p = true)
    (tr : List (StepRec (State σ) Op)) (t : State σ) (htr : Steps (step k) (boot k) tr t)
    (hok : ∀ r ∈ tr, r.op.keepsPreemption k r.pre) : ∀ r ∈ tr, NoLostPreemption r.post := by
  have hall := htr.invariant (P := PreemptInv k)
    (fun r hr hnext hJ => hJ.step hfair (hok r hr) hnext) (PreemptInv.boot k)
  exact fun r hr => (hall.2 r hr).2.nolost

/-- A WRR task runs when a real-time task is woken. -/
def preemptOps : List Op :=
  [.fork true, .fork true, .setscheduler 1 (request 6#32 0), .setscheduler 2 (request 1#32 50),
    .wakeUpNewTask 1, .schedule ⟨false, false, none⟩, .wakeUpNewTask 2]

theorem no_lost_preemption_wakeup : ∃ s t,
    Steps (step fifoKernel) (boot fifoKernel)
      (trace (step fifoKernel) (boot fifoKernel) preemptOps) t ∧
    s ∈ (trace (step fifoKernel) (boot fifoKernel) preemptOps).map (·.post) ∧
    s.outranks 2 (s.tasks s.curr).schedClass ∧ s.needResched s.curr = true := by
  have hrun : (run (step fifoKernel) (boot fifoKernel) preemptOps).isSome = true := by
    decide +kernel
  have hkeeps : ∀ r ∈ trace (step fifoKernel) (boot fifoKernel) preemptOps,
      r.op.keepsPreemption fifoKernel r.pre := by decide +kernel
  have hwait : ∃ r ∈ trace (step fifoKernel) (boot fifoKernel) preemptOps,
      r.post.outranks 2 (r.post.tasks r.post.curr).schedClass := by decide +kernel
  obtain ⟨t, ht⟩ := Option.isSome_iff_exists.mp hrun
  obtain ⟨r, hr, hout⟩ := hwait
  have hall := no_lost_preemption fifoKernel (fun _ _ h => h) _ t (run_steps ht) hkeeps
  exact ⟨r.post, t, run_steps ht, List.mem_map_of_mem hr, hout, hall r hr 2 hout⟩

/-- Two `SCHED_FIFO` tasks; the one that runs changes to `SCHED_WRR`. -/
def demoteOps : List Op :=
  [.fork true, .fork true, .setscheduler 1 (request 1#32 60), .setscheduler 2 (request 1#32 50),
    .wakeUpNewTask 1, .wakeUpNewTask 2, .schedule ⟨false, false, none⟩,
    .setscheduler 1 (request 6#32 0)]

/-- A `SCHED_FIFO` task uses up the runtime of its group and is moved to another one. -/
def unthrottleOps : List Op :=
  [.fork true, .schedMoveTask 1 [2], .setscheduler 1 (request 1#32 50), .wakeUpNewTask 1,
    .schedule ⟨false, false, none⟩, .tick, .schedule ⟨false, false, none⟩, .schedMoveTask 1 []]

/-- A WRR task runs, and the idle task, while a real-time task waits that no throttled
group holds back, and nobody has asked for a reschedule. -/
theorem no_lost_preemption_fails :
    (∃ s, Reachable (step fifoKernel) (boot fifoKernel) s ∧ ¬ NoLostPreemption s ∧
      s.curr = 1 ∧ (s.tasks 1).schedClass = .wrr ∧
      s.outranks 2 .wrr ∧ (s.tasks 2).schedClass = .rt ∧ s.needResched 1 = false) ∧
    ∃ s, Reachable (step fifoKernel) (boot fifoKernel) s ∧ ¬ NoLostPreemption s ∧
      s.curr = 0 ∧ (s.tasks 0).schedClass = .idle ∧
      s.outranks 1 .idle ∧ (s.tasks 1).schedClass = .rt ∧ s.needResched 0 = false := by
  -- whoever waits in such a state is a counterexample
  have hlost : ∀ {s : State (SchedClass → List Pid)} {p q : Pid} {c : SchedClass}, s.curr = p →
      (s.tasks p).schedClass = c → s.outranks q c → s.needResched p = false →
      ¬ NoLostPreemption s := by
    intro s p q c hcurr hclass hq hres hN
    have hset := hN q (by rw [hcurr, hclass]; exact hq)
    rw [hcurr, hres] at hset
    cases hset
  have hdemote : (run (step fifoKernel) (boot fifoKernel) demoteOps).any (fun s =>
      s.curr = 1 ∧ (s.tasks 1).schedClass = .wrr ∧ s.outranks 2 .wrr ∧
      (s.tasks 2).schedClass = .rt ∧ s.needResched 1 = false) = true := by decide +kernel
  have hunthrottle : (run (step fifoKernel) (boot fifoKernel) unthrottleOps).any (fun s =>
      s.curr = 0 ∧ (s.tasks 0).schedClass = .idle ∧ s.outranks 1 .idle ∧
      (s.tasks 1).schedClass = .rt ∧ s.needResched 0 = false) = true := by decide +kernel
  constructor
  · obtain ⟨s, hs, hcond⟩ := (Option.any_eq_true _ _).mp hdemote
    obtain ⟨hcurr, hclass, hq, hrt, hres⟩ := of_decide_eq_true hcond
    exact ⟨s, run_reachable hs, hlost hcurr hclass hq hres, hcurr, hclass, hq, hrt, hres⟩
  · obtain ⟨s, hs, hcond⟩ := (Option.any_eq_true _ _).mp hunthrottle
    obtain ⟨hcurr, hclass, hq, hrt, hres⟩ := of_decide_eq_true hcond
    exact ⟨s, run_reachable hs, hlost hcurr hclass hq hres, hcurr, hclass, hq, hrt, hres⟩

end LinuxKernel.Sched

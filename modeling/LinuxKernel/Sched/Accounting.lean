import LinuxKernel.Sched.WrrStep
import Mathlib.Algebra.Order.BigOperators.Group.List

/-!
# Android scheduler — run-time accounting of the WRR class

`update_curr_wrr` charges the current task for `clock_task - exec_start` and
restarts `exec_start`. What a task is due but not yet charged is added to its
counters in `balance`; for a WRR task only two things change that quantity:

* time that passes while the task is `rq->curr`;
* `schedule` making it `rq->curr`. `put_prev_task_wrr` writes 0 to `exec_start`
  and `pick_next_task_wrr` does not restart it, so all the time since
  `exec_start` becomes due.

## Results

* `ClockInv`           — `exec_start` is never ahead of `clock_task`.
* `step_balance`       — what one operation does to the balance.
* `wrr_charged`        — over a run, the charge is the time run and the sum of
  what the switches made due.
* `wrr_accounting_iff` — so the charge is the time run exactly if every switch
  to the task finds its `exec_start` at `clock_task`.
-/

namespace LinuxKernel.Sched

open LinuxKernel.Lib

variable {σ : Type}

/-! ## The clock -/

structure ClockInv (s : State σ) : Prop where
  task  : s.clockTask = s.clock
  bound : s.clock < 2 ^ 63
  start : ∀ q, (s.se q).execStart ≤ s.clockTask

section Entities

variable {k : Kernel σ} {s t : State σ} {c : SchedClass} {h : Hook} {p q : Pid} {a : Nat}

/-- Neither the subtraction nor the sign test of `update_curr` matters. -/
theorem ClockInv.deltaExec (hK : ClockInv s) :
    s.deltaExec = s.clockTask - (s.se s.curr).execStart := by
  have hle := hK.start s.curr
  have hlt : s.clockTask < 2 ^ 63 := hK.task ▸ hK.bound
  unfold State.deltaExec
  rw [usub_of_le hle]
  dsimp only
  rw [if_neg (by omega)]

theorem chargeCurr_of_ne (hq : q ≠ s.curr) : s.chargeCurr.se q = s.se q :=
  Function.update_of_ne hq _ _

theorem chargeCurr_start : (s.chargeCurr.se s.curr).execStart = s.clockTask := by
  simp [State.chargeCurr, State.setSe]

theorem setExecStart_of_ne (hq : q ≠ p) (n : Nat) : (s.setExecStart p n).se q = s.se q :=
  Function.update_of_ne hq _ _

theorem setExecStart_self (n : Nat) :
    (s.setExecStart p n).se p = { s.se p with execStart := n } :=
  Function.update_self ..

theorem updateCurrWrr_se (q : Pid) : (updateCurrWrr s).se q = s.se q ∨
    q = s.curr ∧ (updateCurrWrr s).se q = s.chargeCurr.se q := by
  unfold updateCurrWrr
  split
  · exact Or.inl rfl
  · by_cases hq : q = s.curr
    · exact Or.inr ⟨hq, rfl⟩
    · exact Or.inl (chargeCurr_of_ne hq)

/-! ## What the hooks do to the accounting fields -/

/-- The hooks of the WRR class, seen from the accounting fields. -/
def wrrSe (h : Hook) (s : State σ) (p : Pid) : State σ :=
  match h with
  | .dequeueTask | .taskTick => updateCurrWrr s
  | .putPrevTask => (updateCurrWrr s).setExecStart p 0
  | .setCurrTask => s.setExecStart s.curr s.clockTask
  | _ => s

theorem wrrHook_se (c : Config) (h : Hook) (s : State σ) (p : Pid) (a : Nat) :
    (wrrHook c h s p a).se = (wrrSe h s p).se := by
  cases h with
  | taskTick =>
    show (taskTickWrr c s p).se = (updateCurrWrr s).se
    unfold taskTickWrr
    dsimp only
    split
    · rfl
    · split <;> rfl
  | switchedTo =>
    show (switchedToWrr c s p).se = s.se
    unfold switchedToWrr
    split <;> rfl
  | _ => rfl

theorem RtFrame.accounts (hf : RtFrame s t) : (t.clock = s.clock ∧ t.clockTask = s.clockTask) ∧
    ∀ q, t.se q = s.se q ∨ (s.tasks q).schedClass = .rt ∧ (t.se q).execStart = s.clockTask := by
  refine ⟨⟨hf.clock, hf.clockTask⟩, fun q => ?_⟩
  by_cases hq : (s.tasks q).schedClass = .rt
  · exact (hf.start q).imp_right fun hs => ⟨hq, hs⟩
  · exact Or.inl (hf.se q hq)

theorem rtHook_accounts (k : Kernel σ) (h : Hook) (s : State σ) (p : Pid) (a : Nat)
    (hset : h = .setCurrTask → (s.tasks s.curr).schedClass = .rt) :
    ((rtHook k h s p a).clock = s.clock ∧ (rtHook k h s p a).clockTask = s.clockTask) ∧
    ∀ q, (rtHook k h s p a).se q = s.se q ∨
      (s.tasks q).schedClass = .rt ∧ ((rtHook k h s p a).se q).execStart = s.clockTask := by
  by_cases he : h = .enqueueTask
  · subst he
    exact ⟨⟨rfl, rfl⟩, fun q => Or.inl rfl⟩
  · by_cases hd : h = .dequeueTask
    · subst hd
      exact (updateCurrRt_quiet k s).accounts
    · exact (rtHook_quiet k h s p a he hd hset).accounts

theorem hookOf_clock (k : Kernel σ) (c : SchedClass) (h : Hook) (s : State σ) (p : Pid)
    (a : Nat) : (hookOf k c h s p a).clock = s.clock ∧
      (hookOf k c h s p a).clockTask = s.clockTask := by
  have hwrr : (updateCurrWrr s).clock = s.clock ∧ (updateCurrWrr s).clockTask = s.clockTask := by
    obtain ⟨se, hse⟩ := updateCurrWrr_eq s
    rw [hse]
    exact ⟨rfl, rfl⟩
  cases c with
  | rt =>
    by_cases hset : h = .setCurrTask
    · subst hset
      exact ⟨rfl, rfl⟩
    · exact (rtHook_accounts k h s p a fun hh => absurd hh hset).1
  | wrr =>
    cases h with
    | dequeueTask => exact hwrr
    | putPrevTask => exact hwrr
    | taskTick =>
      show (taskTickWrr k.toConfig s p).clock = s.clock ∧
        (taskTickWrr k.toConfig s p).clockTask = s.clockTask
      unfold taskTickWrr
      dsimp only
      split
      · exact hwrr
      · split
        · exact hwrr
        · exact hwrr
    | switchedTo =>
      show (switchedToWrr k.toConfig s p).clock = s.clock ∧
        (switchedToWrr k.toConfig s p).clockTask = s.clockTask
      unfold switchedToWrr
      split <;> exact ⟨rfl, rfl⟩
    | _ => exact ⟨rfl, rfl⟩
  | stop => exact ⟨rfl, rfl⟩
  | fair => exact ⟨rfl, rfl⟩
  | idle => exact ⟨rfl, rfl⟩

/-- The other classes write the accounting fields of their own tasks, and
restart `exec_start` when they do. -/
theorem hookOf_se_other (hc : c ≠ .wrr)
    (hset : h = .setCurrTask → (s.tasks s.curr).schedClass = c) (q : Pid) :
    (hookOf k c h s p a).se q = s.se q ∨
      (s.tasks q).schedClass = c ∧ ((hookOf k c h s p a).se q).execStart = s.clockTask := by
  by_cases hrt : c = .rt
  · subst hrt
    exact (rtHook_accounts k h s p a hset).2 q
  · rw [hookOf_ext hrt hc]
    by_cases hq : (s.tasks q).schedClass = c
    · have he : (s.applyExt c (k.ext.hook h c s p a)).se q = (k.ext.hook h c s p a).se q :=
        if_pos hq
      rw [he]
      exact (k.ext.start_hook h c s p a q).imp_right fun hs => ⟨hq, hs⟩
    · exact Or.inl (if_neg hq)

theorem ClockInv.hook (hK : ClockInv s)
    (hset : h = .setCurrTask → (s.tasks s.curr).schedClass = c) :
    ClockInv (hookOf k c h s p a) := by
  obtain ⟨hclock, htask⟩ := hookOf_clock k c h s p a
  refine ⟨by rw [hclock, htask, hK.task], by rw [hclock]; exact hK.bound, fun q => ?_⟩
  rw [htask]
  by_cases hc : c = .wrr
  · subst hc
    have hcharge : ((updateCurrWrr s).se q).execStart ≤ s.clockTask := by
      rcases updateCurrWrr_se (s := s) q with he | ⟨rfl, he⟩
      · rw [he]
        exact hK.start q
      · rw [he, chargeCurr_start]
    have hwrite : ∀ (u : State σ) (n : Nat), n ≤ s.clockTask →
        (u.se q).execStart ≤ s.clockTask → ∀ r, ((u.setExecStart r n).se q).execStart ≤
          s.clockTask := by
      intro u n hn hu r
      by_cases hr : q = r
      · rw [hr, setExecStart_self]
        exact hn
      · rw [setExecStart_of_ne hr]
        exact hu
    show ((wrrHook k.toConfig h s p a).se q).execStart ≤ s.clockTask
    rw [wrrHook_se]
    cases h with
    | dequeueTask => exact hcharge
    | taskTick => exact hcharge
    | putPrevTask => exact hwrite _ 0 (Nat.zero_le _) hcharge p
    | setCurrTask => exact hwrite s _ le_rfl (hK.start q) s.curr
    | _ => exact hK.start q
  · rcases hookOf_se_other (k := k) (p := p) (a := a) hc hset q with he | ⟨-, he⟩
    · rw [he]
      exact hK.start q
    · rw [he]

theorem ClockInv.clockUpdate (hK : ClockInv s) : ClockInv (updateRqClock k s) := by
  unfold updateRqClock
  split
  · exact hK
  · have htask := hK.task
    have hbound := hK.bound
    have hlt := k.schedClock_lt s.clockReads
    refine ⟨?_, ?_, fun q => ?_⟩
    · dsimp only
      omega
    · dsimp only
      omega
    · exact Nat.le_add_right_of_le (hK.start q)

end Entities

/-! ## Small steps -/

/-- A small step that is no reading of the clock: a WRR task is charged, if it is
the current one, or left alone. -/
structure AccStep (X : Pid → Prop) (s t : State σ) : Prop where
  curr      : t.curr = s.curr
  nrTasks   : s.nrTasks ≤ t.nrTasks
  cls       : ∀ q, q < s.nrTasks → ¬ X q → (t.tasks q).schedClass = (s.tasks q).schedClass
  clockInv  : ClockInv t
  clockTask : t.clockTask = s.clockTask
  se        : ∀ q, q < s.nrTasks → ¬ X q → (s.tasks q).schedClass = .wrr →
    t.se q = s.se q ∨ q = s.curr ∧ t.se q = s.chargeCurr.se q

section Small

variable {k : Kernel σ} {X : Pid → Prop} {s t : State σ} {c : SchedClass} {h : Hook}
  {p q : Pid} {arg : Nat}

theorem AccStep.of_se (hK : ClockInv s) (hcurr : t.curr = s.curr) (hnr : t.nrTasks = s.nrTasks)
    (hcls : ∀ q, ¬ X q → (t.tasks q).schedClass = (s.tasks q).schedClass)
    (hclock : t.clock = s.clock) (htask : t.clockTask = s.clockTask) (hse : t.se = s.se) :
    AccStep X s t where
  curr := hcurr
  nrTasks := le_of_eq hnr.symm
  cls q _ hq := hcls q hq
  clockInv := ⟨by rw [hclock, htask, hK.task], by rw [hclock]; exact hK.bound,
    fun q => by rw [hse, htask]; exact hK.start q⟩
  clockTask := htask
  se q _ _ _ := Or.inl (by rw [hse])

theorem AccStep.hook (hK : ClockInv s) (hput : h ≠ .putPrevTask) (hset : h ≠ .setCurrTask) :
    AccStep X s (hookOf k c h s p arg) where
  curr := Base.curr_eq (hookOf_outline ..)
  nrTasks := le_of_eq (Base.nrTasks_eq (hookOf_outline ..)).symm
  cls q _ _ := Task.schedClass_eq (Base.params_eq (hookOf_outline ..) q)
  clockInv := hK.hook fun hh => absurd hh hset
  clockTask := (hookOf_clock ..).2
  se q _ _ hq := by
    by_cases hc : c = .wrr
    · subst hc
      show (wrrHook k.toConfig h s p arg).se q = _ ∨ _ ∧ (wrrHook k.toConfig h s p arg).se q = _
      rw [wrrHook_se]
      cases h with
      | dequeueTask => exact updateCurrWrr_se q
      | taskTick => exact updateCurrWrr_se q
      | putPrevTask => exact absurd rfl hput
      | setCurrTask => exact absurd rfl hset
      | _ => exact Or.inl rfl
    · rcases hookOf_se_other (k := k) (p := p) (a := arg) hc (fun hh => absurd hh hset) q
        with he | ⟨he, -⟩
      · exact Or.inl he
      · exact absurd (he.symm.trans hq) hc

/-- `put_prev_task` for the current task, as a WRR task sees it. -/
theorem putPrev_se (hq : (s.tasks q).schedClass = .wrr) :
    (taskHook k .putPrevTask s s.curr 0).se q =
      if q = s.curr then { s.chargeCurr.se q with execStart := 0 } else s.se q := by
  unfold taskHook
  split
  · next hcurr =>
    subst hcurr
    rw [hq]
    show ((updateCurrWrr s).setExecStart s.curr 0).se s.curr = _
    rw [setExecStart_self, updateCurrWrr, if_neg (not_not.mpr hq)]
  · next hcurr =>
    by_cases hc : (s.tasks s.curr).schedClass = .wrr
    · rw [hc]
      show ((updateCurrWrr s).setExecStart s.curr 0).se q = _
      rw [setExecStart_of_ne hcurr]
      exact (updateCurrWrr_se q).resolve_right fun h => hcurr h.1
    · refine (hookOf_se_other (h := .putPrevTask) hc (by simp) q).resolve_right fun he => hc ?_
      rw [← he.1, hq]

/-- `set_curr_task` for the current task, as a WRR task sees it. -/
theorem setCurr_se (hq : (s.tasks q).schedClass = .wrr) :
    (taskHook k .setCurrTask s s.curr 0).se q =
      if q = s.curr then { s.se q with execStart := s.clockTask } else s.se q := by
  unfold taskHook
  split
  · next hcurr =>
    subst hcurr
    rw [hq]
    show (s.setExecStart s.curr s.clockTask).se s.curr = _
    rw [setExecStart_self]
  · next hcurr =>
    by_cases hc : (s.tasks s.curr).schedClass = .wrr
    · rw [hc]
      show (s.setExecStart s.curr s.clockTask).se q = _
      rw [setExecStart_of_ne hcurr]
    · refine (hookOf_se_other (h := .setCurrTask) hc (fun _ => rfl) q).resolve_right fun he => hc ?_
      rw [← he.1, hq]

-- The move between groups changes nothing that is accounted.
section Move

variable (moved : Option Nat)

theorem moveHook_clockTask : (moveHook k moved s p).clockTask = s.clockTask := by
  cases moved with
  | none => rfl
  | some arg => exact (hookOf_clock ..).2

theorem ClockInv.moveHook (hK : ClockInv s) : ClockInv (moveHook k moved s p) := by
  cases moved with
  | none => exact hK
  | some arg => exact hK.hook (by simp)

theorem moveHook_se (hq : (s.tasks q).schedClass = .wrr) :
    (moveHook k moved s p).se q = s.se q := by
  cases moved with
  | none => rfl
  | some arg =>
    show (hookOf k _ .taskMoveGroup s p arg).se q = _
    by_cases hc : (s.tasks p).schedClass = .wrr
    · rw [hc]
      rfl
    · exact (hookOf_se_other (h := .taskMoveGroup) hc (by simp) q).resolve_right fun he =>
        hc (he.1 ▸ hq)

end Move

/-- The running task put and set again: it is charged, and the others are left
alone. -/
theorem AccStep.cycle {f : Task → Task} {moved : Option Nat} (hK : ClockInv s)
    (hcurr : s.curr = p)
    (hcls : (f (s.tasks p)).schedClass = (s.tasks p).schedClass ∨ X p) :
    AccStep X s (cycleCurr k s p f moved) := by
  subst hcurr
  unfold cycleCurr
  have hput := hookOf_plain k (s.tasks s.curr).schedClass (h := .putPrevTask) rfl s s.curr 0
  have hK₁ : ClockInv (taskHook k .putPrevTask s s.curr 0) := hK.hook (by simp)
  have hclock₁ := (hookOf_clock k (s.tasks s.curr).schedClass .putPrevTask s s.curr 0).2
  have hse₁ := fun q (hq : (s.tasks q).schedClass = .wrr) => putPrev_se (k := k) hq
  change (taskHook k .putPrevTask s s.curr 0).toBase = _ at hput
  change (taskHook k .putPrevTask s s.curr 0).clockTask = _ at hclock₁
  generalize taskHook k .putPrevTask s s.curr 0 = v at *
  -- the change and the move between groups
  have hK₂ : ClockInv (moveHook k moved (v.setTask s.curr f) s.curr) :=
    ClockInv.moveHook moved ⟨hK₁.task, hK₁.bound, hK₁.start⟩
  have hmove : (moveHook k moved (v.setTask s.curr f) s.curr).toBase =
      s.toBase.setTask s.curr f := by
    rw [moveHook_toBase, State.setTask_toBase, hput]
  have hclock₂ : (moveHook k moved (v.setTask s.curr f) s.curr).clockTask = s.clockTask :=
    (moveHook_clockTask moved).trans hclock₁
  have hse₂ : ∀ q, ((s.toBase.setTask s.curr f).tasks q).schedClass = .wrr →
      (moveHook k moved (v.setTask s.curr f) s.curr).se q = v.se q := by
    intro q hq
    refine moveHook_se (s := v.setTask s.curr f) moved ?_
    rwa [State.setTask_toBase, hput]
  generalize moveHook k moved (v.setTask s.curr f) s.curr = w at hmove hclock₂ hK₂ hse₂
  have hwcurr : w.curr = s.curr := by rw [hmove]; rfl
  rw [← hwcurr]
  have hset : (taskHook k .setCurrTask w w.curr 0).toBase = w.toBase :=
    hookOf_plain k (w.tasks w.curr).schedClass (h := .setCurrTask) rfl w w.curr 0
  have hclass : ∀ q, ¬ X q →
      ((s.toBase.setTask s.curr f).tasks q).schedClass = (s.tasks q).schedClass := by
    intro q hX
    rw [Base.setTask_tasks]
    split
    · next hq =>
      subst hq
      exact hcls.resolve_right hX
    · rfl
  refine ⟨?_, ?_, fun q _ hX => ?_, hK₂.hook fun _ => rfl, ?_, fun q _ hX hq => ?_⟩
  · rw [hset, hwcurr]
  · rw [hset, hmove]
    exact le_rfl
  · rw [hset, hmove]
    exact hclass q hX
  · exact (hookOf_clock ..).2.trans hclock₂
  · have hqf : ((s.toBase.setTask s.curr f).tasks q).schedClass = .wrr := (hclass q hX).trans hq
    have hwq : (w.tasks q).schedClass = .wrr := by rw [hmove]; exact hqf
    rw [setCurr_se hwq, hse₂ q hqf, hse₁ q hq, hwcurr]
    by_cases hqc : q = s.curr
    · -- charged, and exec_start set to 0 and then to the clock
      subst hqc
      refine Or.inr ⟨rfl, ?_⟩
      rw [if_pos rfl, if_pos rfl, hclock₂]
      show ({ s.chargeCurr.se s.curr with execStart := s.clockTask } : SchedEntity) = _
      rw [← chargeCurr_start]
    · rw [if_neg hqc, if_neg hqc]
      exact Or.inl rfl

/-- A new task starts with nothing charged. -/
theorem AccStep.fork (hK : ClockInv s) (mm : Bool)
    (hc : (forkedTask (s.tasks s.curr) mm).schedClass ≠ .wrr) :
    AccStep X s (schedFork k s mm) := by
  unfold schedFork
  dsimp only
  generalize hu : ({ s with
    tasks := Function.update s.tasks s.nrTasks (forkedTask (s.tasks s.curr) mm)
    nrTasks := s.nrTasks + 1
    se := Function.update s.se s.nrTasks ⟨0, 0, 0, 0⟩
    rtTimeSlice := Function.update s.rtTimeSlice s.nrTasks (s.rtTimeSlice s.curr)
    needResched := Function.update s.needResched s.nrTasks false } : State σ) = u
  -- the new task is the only one written before the class hook runs
  have hse : ∀ q, q ≠ s.nrTasks → u.se q = s.se q := by
    intro q hq
    rw [← hu]
    exact Function.update_of_ne hq _ _
  have htasks : ∀ q, q ≠ s.nrTasks → u.tasks q = s.tasks q := by
    intro q hq
    rw [← hu]
    exact Function.update_of_ne hq _ _
  have hclass : (u.tasks s.nrTasks).schedClass ≠ .wrr := by
    rw [← hu]
    exact (congrArg Task.schedClass (Function.update_self ..)).trans_ne hc
  have htask : u.clockTask = s.clockTask := by rw [← hu]
  have hKu : ClockInv u := by
    refine ⟨by rw [← hu]; exact hK.task, by rw [← hu]; exact hK.bound, fun q => ?_⟩
    rw [htask]
    by_cases hq : q = s.nrTasks
    · rw [← hu, hq]
      exact (congrArg SchedEntity.execStart (Function.update_self ..)).trans_le (Nat.zero_le _)
    · rw [hse q hq]
      exact hK.start q
  -- the class hook charges at most the running task
  have hout := taskHook_outline k .taskFork u s.nrTasks 0
  refine ⟨?_, ?_, fun q hq _ => ?_, hKu.hook (by simp), (hookOf_clock ..).2.trans htask,
    fun q hq _ hwrr => ?_⟩
  · rw [Base.curr_eq hout, ← hu]
  · rw [Base.nrTasks_eq hout, ← hu]
    exact Nat.le_succ _
  · rw [Task.schedClass_eq (Base.params_eq hout q), htasks q (Nat.ne_of_lt hq)]
  · rw [← hse q (Nat.ne_of_lt hq)]
    left
    refine (hookOf_se_other (h := .taskFork) hclass (by simp) q).resolve_right fun he => hclass ?_
    rw [← he.1, htasks q (Nat.ne_of_lt hq), hwrr]

theorem Micro.accStep {A : Scope} {c d : Cfg σ}
    (hA : ∀ p u u', A.edit p u u' → u'.schedClass = u.schedClass ∨ X p) (hm : Micro k A c d)
    (hK : ClockInv c.state) :
    d.state = updateRqClock k c.state ∨ AccStep X c.state d.state := by
  cases hm with
  | clock s R => exact Or.inl rfl
  | flags s R resched skip hresched =>
    exact Or.inr (.of_se hK rfl rfl (fun _ _ => rfl) rfl rfl rfl)
  | edit s R p f hwrr hon hedit =>
    refine Or.inr (.of_se hK rfl rfl (fun q hX => ?_) rfl rfl rfl)
    rw [State.setTask_toBase, Base.setTask_tasks]
    split
    · next hq =>
      subst hq
      exact (hA _ _ _ hedit).resolve_right hX
    · rfl
  | enqueue s R p flags hp hq hhead =>
    exact Or.inr (AccStep.hook (h := .enqueueTask) hK (by simp) (by simp))
  | dequeue s R flags ha => exact Or.inr (AccStep.hook (h := .dequeueTask) hK (by simp) (by simp))
  | hook s R c hk p arg hh =>
    refine Or.inr (AccStep.hook hK ?_ ?_) <;>
    · rintro rfl
      cases hh
  | switchedTo s R p hp => exact Or.inr (AccStep.hook (h := .switchedTo) hK (by simp) (by simp))
  | cycle s R p f moved hcurr hp hwrr hedit =>
    exact Or.inr (AccStep.cycle hK hcurr (hA _ _ _ hedit))
  | yield s R ha hR => exact Or.inr (AccStep.hook (h := .yieldTask) hK (by simp) (by simp))
  | tick s R ha hR => exact Or.inr (AccStep.hook (h := .taskTick) hK (by simp) (by simp))
  | fork s R mm hR hc => exact Or.inr (AccStep.fork hK mm hc)
  | periodTimer s R g n htimer =>
    have hf := doSchedRtPeriodTimer_frame k s g n
    refine Or.inr ⟨?_, ?_, fun q _ _ => ?_, ⟨?_, ?_, fun q => ?_⟩, hf.clockTask,
      fun q _ _ hq => Or.inl (hf.se q (by rw [hq]; simp))⟩
    · rw [hf.toBase]
    · rw [hf.toBase]
    · rw [hf.toBase]
    · rw [hf.clockTask, hf.clock]
      exact hK.task
    · rw [hf.clock]
      exact hK.bound
    · rw [hf.clockTask]
      rcases hf.start q with he | he
      · rw [he]
        exact hK.start q
      · rw [he]
  | setStop s R stop => exact Or.inr (.of_se hK rfl rfl (fun _ _ => rfl) rfl rfl rfl)

theorem Micro.clockInv {A : Scope} {c d : Cfg σ} (hm : Micro k A c d) (hK : ClockInv c.state) :
    ClockInv d.state := by
  rcases hm.accStep (X := fun _ => True) (fun _ _ _ _ => Or.inr trivial) hK with he | hs
  · rw [he]
    exact hK.clockUpdate
  · exact hs.clockInv

end Small

/-! ## Switches -/

section Switch

variable {k : Kernel σ} {s t u : State σ} {c : SchedClass} {p next : Pid} {R : Finset Pid}

theorem pickOf_accounts (hpick : pickOf k c s = some (next, u)) :
    (u.clock = s.clock ∧ u.clockTask = s.clockTask) ∧
    ∀ q, u.se q = s.se q ∨ (u.se q).execStart = s.clockTask := by
  rcases pickOf_cases hpick with ⟨-, rfl⟩ | ⟨-, rfl⟩ | ⟨-, -, e, he, rfl⟩
  · refine ⟨⟨rfl, rfl⟩, fun q => ?_⟩
    by_cases hq : q = next
    · subst hq
      exact Or.inr (by rw [setExecStart_self])
    · exact Or.inl (setExecStart_of_ne hq _)
  · exact ⟨⟨rfl, rfl⟩, fun q => Or.inl rfl⟩
  · refine ⟨⟨rfl, rfl⟩, fun q => ?_⟩
    by_cases hq : (s.tasks q).schedClass = c
    · have hse : (s.applyExt c e).se q = e.se q := if_pos hq
      rw [hse]
      exact k.ext.start_pick c s next e q he
    · exact Or.inl (if_neg hq)

/-- Picking a task does not touch a WRR task. -/
theorem pickOf_se (hQ : QInv k s R) (hpick : pickOf k c s = some (next, u))
    (hp : (s.tasks p).schedClass = .wrr) : u.se p = s.se p := by
  rcases pickOf_cases hpick with ⟨rfl, rfl⟩ | ⟨-, rfl⟩ | ⟨-, hwrr, e, -, rfl⟩
  · refine setExecStart_of_ne ?_ _
    rintro rfl
    rcases hQ.pick_some hpick with ⟨hidle, -⟩ | ⟨-, -, hcls, -⟩
    · cases hidle
    · rw [hp] at hcls
      cases hcls
  · rfl
  · exact if_neg fun hc => hwrr (hc.symm.trans hp)

theorem Switches.clockInv (hs : Switches k s t) (hK : ClockInv s) : ClockInv t := by
  obtain ⟨c, next, u, hpick, rfl⟩ := hs
  have hv : ClockInv (taskHook k .putPrevTask s s.curr 0) := hK.hook (by simp)
  obtain ⟨⟨hclock, htask⟩, hse⟩ := pickOf_accounts hpick
  refine ⟨?_, ?_, fun q => ?_⟩
  · exact htask.trans (hv.task.trans hclock.symm)
  · exact hclock.trans_lt hv.bound
  · show (u.se q).execStart ≤ u.clockTask
    rw [htask]
    rcases hse q with he | he
    · rw [he]
      exact hv.start q
    · rw [he]

theorem ClockInv.reachable (hs : Reachable (step k) (boot k) s) : ClockInv s :=
  Inv.small_steps (P := fun c => ClockInv c.state)
    ⟨rfl, Nat.two_pow_pos 63, fun _ => le_rfl⟩
    (fun _ _ _ _ hK hm => hm.clockInv hK) (fun _ _ _ _ hK hw => hw.clockInv hK) hs

end Switch

/-! ## Balances -/

/-- One of the three counters that are charged together. -/
structure Counter where
  read   : SchedEntity → Nat
  charge : ∀ e n d, read ⟨n, e.sumExecRuntime + d, e.groupExecRuntime + d, e.cpuacctUsage + d⟩ =
    read e + d

def Counter.sumExec : Counter := ⟨SchedEntity.sumExecRuntime, fun _ _ _ => rfl⟩
def Counter.groupExec : Counter := ⟨SchedEntity.groupExecRuntime, fun _ _ _ => rfl⟩
def Counter.cpuacct : Counter := ⟨SchedEntity.cpuacctUsage, fun _ _ _ => rfl⟩

theorem Counter.read_start (ct : Counter) (e : SchedEntity) (n : Nat) :
    ct.read { e with execStart := n } = ct.read e := ct.charge e n 0

theorem Counter.read_chargeCurr (ct : Counter) (s : State σ) :
    ct.read (s.chargeCurr.se s.curr) = ct.read (s.se s.curr) + s.deltaExec :=
  (congrArg ct.read (Function.update_self ..)).trans (ct.charge ..)

/-- What `p` has been charged, and what it is due if it is running. -/
def balance (ct : Counter) (p : Pid) (s : State σ) : Nat :=
  ct.read (s.se p) + if s.curr = p then s.clockTask - (s.se p).execStart else 0

/-- From `s` to `t`, with the same task running: `p` becomes due for the time that
passes if it is the one, and is left alone if not. -/
structure Accounted (ct : Counter) (p : Pid) (s t : State σ) : Prop where
  curr    : t.curr = s.curr
  le      : s.clockTask ≤ t.clockTask
  waiting : s.curr ≠ p → t.se p = s.se p
  running : s.curr = p → balance ct p t = balance ct p s + (t.clockTask - s.clockTask)

/-- What p must be for its balance to be followed. -/
structure Tracked (p : Pid) (s : State σ) : Prop where
  clock : ClockInv s
  lt    : p < s.nrTasks
  wrr   : (s.tasks p).schedClass = .wrr

section Balance

variable {k : Kernel σ} {ct : Counter} {X : Pid → Prop} {s t u : State σ} {p : Pid}

namespace Accounted

theorem refl : Accounted ct p s s :=
  ⟨rfl, le_rfl, fun _ => rfl, fun _ => by omega⟩

theorem trans (h₁ : Accounted ct p s t) (h₂ : Accounted ct p t u) : Accounted ct p s u where
  curr := h₂.curr.trans h₁.curr
  le := h₁.le.trans h₂.le
  waiting hp := (h₂.waiting (h₁.curr ▸ hp)).trans (h₁.waiting hp)
  running hp := by
    have h₁' := h₁.running hp
    have h₂' := h₂.running (h₁.curr ▸ hp)
    have hle₁ := h₁.le
    have hle₂ := h₂.le
    omega

theorem clockUpdate (hK : ClockInv s) : Accounted ct p s (updateRqClock k s) := by
  unfold updateRqClock
  split
  · exact refl
  · refine ⟨rfl, Nat.le_add_right _ _, fun _ => rfl, fun hp => ?_⟩
    have hle := hK.start p
    simp only [balance, hp, if_true]
    omega

theorem of_accStep (hs : AccStep X s t) (hT : Tracked p s) (hX : ¬ X p) :
    Accounted ct p s t := by
  refine ⟨hs.curr, le_of_eq hs.clockTask.symm, fun hp => ?_, fun hp => ?_⟩
  · exact (hs.se p hT.lt hX hT.wrr).resolve_right fun h => hp h.1.symm
  · have hle := hT.clock.start p
    have hdelta := hT.clock.deltaExec
    subst hp
    simp only [balance, hs.curr, hs.clockTask, if_true]
    rcases hs.se _ hT.lt hX hT.wrr with he | ⟨-, he⟩
    · rw [he]
      omega
    · rw [he, ct.read_chargeCurr, chargeCurr_start]
      omega

end Accounted

/-- Along the small steps of an operation. -/
theorem Path.accounted (ct : Counter) {A : Scope} {c d : Cfg σ} (hpath : Path k A c d)
    (hA : ∀ p u u', A.edit p u u' → u'.schedClass = u.schedClass ∨ X p) (hT : Tracked p c.state)
    (hX : ¬ X p) : Tracked p d.state ∧ Accounted ct p c.state d.state := by
  induction hpath with
  | refl => exact ⟨hT, .refl⟩
  | tail _ hm ih =>
    obtain ⟨hT', hacc⟩ := ih
    have hK := hm.clockInv hT'.clock
    rcases hm.accStep hA hT'.clock with he | hs
    · refine ⟨⟨hK, ?_, ?_⟩, ?_⟩
      · rw [he, updateRqClock_toBase]
        exact hT'.lt
      · rw [he, updateRqClock_toBase]
        exact hT'.wrr
      · rw [he]
        exact hacc.trans (.clockUpdate hT'.clock)
    · exact ⟨⟨hK, hT'.lt.trans_le hs.nrTasks, (hs.cls p hT'.lt hX).trans hT'.wrr⟩,
        hacc.trans (.of_accStep hs hT' hX)⟩

/-- The `exec_start` with which `schedule` leaves a WRR task it makes current. -/
def startWhenPicked (p : Pid) (s : State σ) : Nat :=
  if s.curr = p then 0 else (s.se p).execStart

/-- A switch charges what is due, and resets `exec_start` of the task that ran. -/
theorem Switches.accounts (ct : Counter) {R : Finset Pid} (hs : Switches k s t) (hQ : QInv k s R)
    (hT : Tracked p s) : t.clockTask = s.clockTask ∧ ct.read (t.se p) = balance ct p s ∧
      (t.se p).execStart = startWhenPicked p s := by
  obtain ⟨c, next, u, hpick, rfl⟩ := hs
  have hput := putPrev_se (k := k) (s := s) hT.wrr
  have hplain : (taskHook k .putPrevTask s s.curr 0).toBase = s.toBase :=
    hookOf_plain k _ (h := .putPrevTask) rfl s s.curr 0
  have hQ' : QInv k (taskHook k .putPrevTask s s.curr 0) R := hQ.hook rfl _ s.curr 0
  have hse := pickOf_se (p := p) hQ' hpick (by rw [hplain]; exact hT.wrr)
  have hclock := (pickOf_accounts hpick).1.2.trans (hookOf_clock ..).2
  refine ⟨hclock, ?_⟩
  show ct.read (u.se p) = _ ∧ (u.se p).execStart = _
  rw [hse, hput]
  unfold balance startWhenPicked
  by_cases hp : s.curr = p
  · subst hp
    rw [if_pos rfl, if_pos rfl, if_pos rfl, ct.read_start, ct.read_chargeCurr, hT.clock.deltaExec]
    exact ⟨rfl, rfl⟩
  · rw [if_neg (Ne.symm hp), if_neg hp, if_neg hp]
    exact ⟨rfl, rfl⟩

/-- The time `p` was `rq->curr` during a step. -/
def ranFor (p : Pid) (r : StepRec (State σ) Op) : Nat :=
  if r.pre.curr = p then r.post.clockTask - r.pre.clockTask else 0

/-- What becomes due when a step makes `p` the current task. -/
def overcharge (p : Pid) (r : StepRec (State σ) Op) : Nat :=
  if r.op.switches = true ∧ r.post.curr = p then
    r.post.clockTask - startWhenPicked p r.pre
  else 0

/-- **One operation.** The balance of a WRR task grows by the time it was running,
and by what the switch to it makes due. -/
theorem step_balance (ct : Counter) {op : Op} (hI : Inv k s) (hT : Tracked p s)
    (h : step k s op = some t)
    (hwrr : (t.tasks p).schedClass = .wrr) :
    Tracked p t ∧ startWhenPicked p s ≤ t.clockTask ∧
      balance ct p t = balance ct p s + (ranFor p ⟨s, op, t⟩ + overcharge p ⟨s, op, t⟩) := by
  obtain ⟨a, w, hpath, hend⟩ := step_path hI.tasks hI.curr h
  have hX : ¬ changed s t p := fun hc => hc.elim (fun h => h hT.wrr) fun h => h hwrr
  obtain ⟨hTw, hacc⟩ := hpath.accounted ct (fun _ _ _ he => he.1) hT hX
  -- up to the switch `p` is charged for what it runs
  have hstart : startWhenPicked p w = startWhenPicked p s := by
    unfold startWhenPicked
    rw [hacc.curr]
    split
    · rfl
    · next hp => rw [hacc.waiting hp]
  have hbal : balance ct p w = balance ct p s + if s.curr = p then
      w.clockTask - s.clockTask else 0 := by
    split
    · next hp => exact hacc.running hp
    · next hp =>
      unfold balance
      rw [hacc.waiting hp, hacc.curr, if_neg hp, if_neg hp]
  have hle : startWhenPicked p w ≤ w.clockTask := by
    unfold startWhenPicked
    split
    · exact Nat.zero_le _
    · exact hTw.clock.start p
  -- the switch itself, if there is one, moves the start of the next stretch
  rcases hend with ⟨hsw, hs⟩ | ⟨hsw, rfl⟩
  · obtain ⟨hclock, hread, hexec⟩ := hs.accounts ct (hI.queues.path hpath) hTw
    refine ⟨⟨hs.clockInv hTw.clock, ?_, hwrr⟩, ?_, ?_⟩
    · rw [hs.toBase]
      exact hTw.lt
    · rw [hclock, ← hstart]
      exact hle
    · rw [balance, hread, hexec, hbal, hstart]
      simp only [ranFor, overcharge, hsw, true_and, hclock]
      omega
  · refine ⟨hTw, hstart ▸ hle, ?_⟩
    rw [hbal]
    simp [ranFor, overcharge, hsw]

/-- **A whole run** in which `p` stays in the class. -/
theorem wrr_charged (ct : Counter) {tr : List (StepRec (State σ) Op)} (hI : Inv k s)
    (hT : Tracked p s)
    (htr : Steps (step k) s tr t) (hstay : ∀ r ∈ tr, (r.post.tasks p).schedClass = .wrr) :
    balance ct p t = balance ct p s + (tr.map (ranFor p)).sum + (tr.map (overcharge p)).sum ∧
    ∀ r ∈ tr, startWhenPicked p r.pre ≤ r.post.clockTask := by
  have hall := (htr.invariant (P := fun s => Inv k s ∧ Tracked p s)
    (fun r hr hstep ⟨hI, hT⟩ =>
      ⟨hI.step hstep, (step_balance ct hI hT hstep (hstay r hr)).1⟩) ⟨hI, hT⟩).2
  have hone := fun r hr => step_balance ct (hall r hr).1.1 (hall r hr).1.2
    (htr.step_of_mem hr) (hstay r hr)
  refine ⟨?_, fun r hr => (hone r hr).2.1⟩
  have htel := htr.telescope (balance ct p)
    (fun r => ranFor p r + overcharge p r) fun r hr => (hone r hr).2.2
  rw [htel, List.sum_map_add, Nat.add_assoc]

end Balance

/-- **When the accounting is exact.** Take a run, from a reachable state, in which
`p` stays in the WRR class and is not running at either end. The three counters
have grown by the time `p` was running if and only if every `schedule` that made
it the running task found its `exec_start` (0, if it was the one put before)
equal to `clock_task`. -/
theorem wrr_accounting_iff (k : Kernel σ) (s t : State σ)
    (hs : Reachable (step k) (boot k) s) (tr : List (StepRec (State σ) Op))
    (htr : Steps (step k) s tr t) (p : Pid) (hp : p < s.nrTasks)
    (hwrr : (s.tasks p).schedClass = .wrr)
    (hstay : ∀ r ∈ tr, (r.post.tasks p).schedClass = .wrr)
    (hcurr : s.curr ≠ p) (hcurr' : t.curr ≠ p) :
    ((t.se p).sumExecRuntime = (s.se p).sumExecRuntime + (tr.map (ranFor p)).sum ∧
      (t.se p).groupExecRuntime = (s.se p).groupExecRuntime + (tr.map (ranFor p)).sum ∧
      (t.se p).cpuacctUsage = (s.se p).cpuacctUsage + (tr.map (ranFor p)).sum) ↔
    ∀ r ∈ tr, r.op.switches = true → r.post.curr = p →
      startWhenPicked p r.pre = r.post.clockTask := by
  have hI := Inv.reachable hs
  have hT : Tracked p s := ⟨ClockInv.reachable hs, hp, hwrr⟩
  -- each counter, with nothing due at the two ends
  have hcount : ∀ ct : Counter, ct.read (t.se p) =
      ct.read (s.se p) + (tr.map (ranFor p)).sum + (tr.map (overcharge p)).sum := by
    intro ct
    have h := (wrr_charged ct hI hT htr hstay).1
    simpa only [balance, if_neg hcurr, if_neg hcurr', Nat.add_zero] using h
  have hsum : (t.se p).sumExecRuntime = _ := hcount .sumExec
  have hgroup : (t.se p).groupExecRuntime = _ := hcount .groupExec
  have hacct : (t.se p).cpuacctUsage = _ := hcount .cpuacct
  have hle := (wrr_charged .sumExec hI hT htr hstay).2
  have hzero : (tr.map (overcharge p)).sum = 0 ↔ ∀ r ∈ tr, r.op.switches = true →
      r.post.curr = p → startWhenPicked p r.pre = r.post.clockTask := by
    rw [List.sum_eq_zero_iff_forall_eq_nat]
    simp only [List.mem_map, forall_exists_index, and_imp, forall_apply_eq_imp_iff₂]
    refine forall₂_congr fun r hr => ?_
    have hler := hle r hr
    unfold overcharge
    split
    · next hsw =>
      refine ⟨fun h _ _ => by omega, fun h => ?_⟩
      have := h hsw.1 hsw.2
      omega
    · next hsw => exact ⟨fun _ h₁ h₂ => absurd ⟨h₁, h₂⟩ hsw, fun _ => rfl⟩
  rw [← hzero, hsum, hgroup, hacct]
  show (SchedEntity.sumExecRuntime _ + _ + _ = _ ∧ SchedEntity.groupExecRuntime _ + _ + _ = _ ∧
    SchedEntity.cpuacctUsage _ + _ + _ = _) ↔ _
  omega

/-- One WRR task, woken while the clock still reads 0. -/
def accountOps : List Op := [.fork true, .setscheduler 1 (request 6#32 0), .wakeUpNewTask 1]

/-- It runs for two ticks and sleeps; it is woken, runs for one tick and sleeps. -/
def firstTurn : List Op :=
  [.schedule ⟨false, false, none⟩, .tick, .tick, .setState 1, .schedule ⟨false, false, none⟩]
def secondTurn : List Op :=
  [.wakeUp 1 3 0, .schedule ⟨false, false, none⟩, .tick, .setState 1,
    .schedule ⟨false, false, none⟩]

theorem wrr_accounting_first_turn : ∃ s t tr,
    Reachable (step fifoKernel) (boot fifoKernel) s ∧ Steps (step fifoKernel) s tr t ∧
    (tr.map (ranFor 1)).sum = 30 ∧
    (t.se 1).sumExecRuntime = (s.se 1).sumExecRuntime + (tr.map (ranFor 1)).sum := by
  have hrun : (run (step fifoKernel) (boot fifoKernel) accountOps).any (fun s =>
      1 < s.nrTasks ∧ (s.tasks 1).schedClass = .wrr ∧ s.curr ≠ 1 ∧
      ((trace (step fifoKernel) s firstTurn).map (ranFor 1)).sum = 30 ∧
      (∀ r ∈ trace (step fifoKernel) s firstTurn, (r.post.tasks 1).schedClass = .wrr ∧
        (r.op.switches = true → r.post.curr = 1 → startWhenPicked 1 r.pre = r.post.clockTask)) ∧
      (run (step fifoKernel) s firstTurn).any (fun t => t.curr ≠ 1)) = true := by decide +kernel
  obtain ⟨s, hs, hcond⟩ := (Option.any_eq_true _ _).mp hrun
  obtain ⟨hlt, hwrr, hcurr, hsum, htrace, hend⟩ := of_decide_eq_true hcond
  obtain ⟨t, ht, hcurr'⟩ := (Option.any_eq_true _ _).mp hend
  have hreach := run_reachable hs
  have hiff := wrr_accounting_iff fifoKernel s t hreach _ (run_steps ht) 1 hlt hwrr
    (fun r hr => (htrace r hr).1) hcurr (of_decide_eq_true hcurr')
  exact ⟨s, t, _, hreach, run_steps ht, hsum, (hiff.mpr fun r hr => (htrace r hr).2).1⟩

/-- Over both turns the task runs for 50 ns and is charged 90: at the start of
the second turn `exec_start` is 0 and the clock 40. -/
theorem wrr_accounting_fails : ∃ s t tr,
    Reachable (step fifoKernel) (boot fifoKernel) s ∧ Steps (step fifoKernel) s tr t ∧
    1 < s.nrTasks ∧ (s.tasks 1).schedClass = .wrr ∧
    (∀ r ∈ tr, (r.post.tasks 1).schedClass = .wrr) ∧ s.curr ≠ 1 ∧ t.curr ≠ 1 ∧
    (s.se 1).sumExecRuntime = 0 ∧ (tr.map (ranFor 1)).sum = 50 ∧
    (t.se 1).sumExecRuntime = 90 ∧ (t.se 1).groupExecRuntime = 90 ∧
    (t.se 1).cpuacctUsage = 90 := by
  have hrun : (run (step fifoKernel) (boot fifoKernel) accountOps).any (fun s =>
      1 < s.nrTasks ∧ (s.tasks 1).schedClass = .wrr ∧ s.curr ≠ 1 ∧
      (s.se 1).sumExecRuntime = 0 ∧
      ((trace (step fifoKernel) s (firstTurn ++ secondTurn)).map (ranFor 1)).sum = 50 ∧
      (∀ r ∈ trace (step fifoKernel) s (firstTurn ++ secondTurn),
        (r.post.tasks 1).schedClass = .wrr) ∧
      (run (step fifoKernel) s (firstTurn ++ secondTurn)).any (fun t => t.curr ≠ 1 ∧
        (t.se 1).sumExecRuntime = 90 ∧ (t.se 1).groupExecRuntime = 90 ∧
        (t.se 1).cpuacctUsage = 90)) = true := by decide +kernel
  obtain ⟨s, hs, hcond⟩ := (Option.any_eq_true _ _).mp hrun
  obtain ⟨hlt, hwrr, hcurr, hzero, hsum, hstay, hend⟩ := of_decide_eq_true hcond
  obtain ⟨t, ht, hcond'⟩ := (Option.any_eq_true _ _).mp hend
  obtain ⟨hcurr', hcharged⟩ := of_decide_eq_true hcond'
  exact ⟨s, t, _, run_reachable hs, run_steps ht, hlt, hwrr, hstay, hcurr, hcurr', hzero, hsum,
    hcharged⟩

end LinuxKernel.Sched

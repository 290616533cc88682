import LinuxKernel.Sched.Invariant

/-!
# Android scheduler — policy, priority and class

The class of a task is derived from policy and priority in `sched_fork`,
`rt_mutex_setprio` and `__setscheduler`, each in its own way.

* `TaskWrite`             — what an operation can do to policy, priority and
  class of a task; `Op.outline_write` is the inversion.
* `policyMatchesClass_iff` — in exactly which runs policy and class agree.
* `boostedIsRt_iff`        — in exactly which runs a real-time priority means the
  real-time class.
-/

namespace LinuxKernel.Sched

open LinuxKernel.Lib

variable {σ : Type}

/-- What an operation makes of task `q`, as far as policy, priority and class are
concerned. -/
inductive TaskWrite (k : Kernel σ) (b : Base) (op : Op) (q : Pid) : Task → Prop
  | keep (t : Task) (hpolicy : t.policy = (b.tasks q).policy) (hprio : t.prio = (b.tasks q).prio)
      (hclass : t.schedClass = (b.tasks q).schedClass) : TaskWrite k b op q t
  | setscheduler (a : SetschedArgs) (policy : Policy) (reset : Bool) (hop : op = .setscheduler q a)
      (hreq : setschedulerRequest k b.stop q (b.tasks q) a = .ok (some (policy, reset))) :
      TaskWrite k b op q (setschedulerTask policy a.schedPriority.toNat reset (b.tasks q))
  | setprio (prio : Nat) (hop : op = .rtMutexSetprio q prio) (hne : q ≠ b.idle) :
      TaskWrite k b op q (setprioTask prio (b.tasks q))
  | nice (n : Int) (hn : maxRtPrio ≤ niceToPrio n) (hpol : rtPolicy (b.tasks q).policy = false) :
      TaskWrite k b op q (effectivePrio { b.tasks q with staticPrio := niceToPrio n })
  | fork (mm : Bool) (hop : op = .fork mm) (hq : q = b.nrTasks) :
      TaskWrite k b op q (forkedTask (b.tasks b.curr) mm)
  -- a stop task, coming or going
  | stop (t : Task) (hpolicy : t.policy = .fifo)
      (hclass : t.schedClass = .stop ∨ t.schedClass = .rt) : TaskWrite k b op q t

section Inversion

variable {k : Kernel σ} {b : Base} {op : Op} {q : Pid} {D : Nat}

theorem TaskWrite.refl : TaskWrite k b op q (b.tasks q) := .keep _ rfl rfl rfl

theorem TaskWrite.setTask {p : Pid} {f : Task → Task}
    (h : q = p → TaskWrite k b op q (f (b.tasks q))) :
    TaskWrite k b op q ((b.setTask p f).tasks q) := by
  rw [Base.setTask_tasks]
  split
  · next hq =>
    subst hq
    exact h rfl
  · exact .refl

theorem outlinePrev_write (e : SchedEnv) : TaskWrite k b op q ((outlinePrev b e).tasks q) := by
  have hoff : TaskWrite k b op q ((b.setTask b.curr fun t => { t with onRq := false }).tasks q) :=
    .setTask fun _ => .keep _ rfl rfl rfl
  unfold outlinePrev
  split
  · split
    · exact .setTask fun _ => .keep _ rfl rfl rfl
    · cases e.toWakeup with
      | none => exact hoff
      | some w =>
        dsimp only
        rcases outlineWakeLocal_cases (b.setTask b.curr fun t => { t with onRq := false }) w
          with hno | ⟨-, -, hyes⟩
        · rw [hno]
          exact hoff
        · -- both writes only concern the run state
          have hsame : ∀ (c : Base) (f : Task → Task), (∀ t, (f t).policy = t.policy ∧
              (f t).prio = t.prio ∧ (f t).schedClass = t.schedClass) → ∀ p,
              ((c.setTask p f).tasks q).policy = (c.tasks q).policy ∧
              ((c.setTask p f).tasks q).prio = (c.tasks q).prio ∧
              ((c.setTask p f).tasks q).schedClass = (c.tasks q).schedClass := by
            intro c f hf p
            rw [Base.setTask_tasks]
            split
            · next hq =>
              rw [hq]
              exact hf _
            · exact ⟨rfl, rfl, rfl⟩
          obtain ⟨h1, h2, h3⟩ := hsame (b.setTask b.curr fun t => { t with onRq := false }) wakeTask
            (fun t => ⟨rfl, rfl, rfl⟩) w
          obtain ⟨h4, h5, h6⟩ := hsame b (fun t => { t with onRq := false })
            (fun t => ⟨rfl, rfl, rfl⟩) b.curr
          rw [hyes]
          exact .keep _ (h1.trans h4) (h2.trans h5) (h3.trans h6)
  · exact .refl

theorem setStopTask_write (h : TaskInv D b) (stop : Option Pid) :
    TaskWrite k b op q ((Op.setStopTask stop).outline k b |>.tasks q) := by
  have hinstall : TaskWrite k b op q ((outlineInstall k b stop).tasks q) ∧
      (b.stop = some q → ((outlineInstall k b stop).tasks q).policy = .fifo) := by
    cases stop with
    | none => exact ⟨.refl, fun hq => (h.stop_ok q hq).2.2⟩
    | some p =>
      by_cases hqp : q = p
      · subst hqp
        have hpol := h.policy_stopArgs (k := k) q
        rw [outlineInstall, Base.setTask_self]
        exact ⟨.stop _ hpol (Or.inl rfl), fun _ => hpol⟩
      · rw [outlineInstall, Base.setTask_of_ne _ _ hqp, TaskInv.outlineSetscheduler_other hqp]
        exact ⟨.refl, fun hq => (h.stop_ok q hq).2.2⟩
  show TaskWrite k b op q
    ((outlineRetire { outlineInstall k b stop with stop := stop } b.stop).tasks q)
  cases hold : b.stop with
  | none => exact hinstall.1
  | some p =>
    rw [outlineRetire, Base.setTask_tasks]
    split
    · next hq =>
      subst hq
      exact .stop _ (hinstall.2 hold) (Or.inr rfl)
    · exact hinstall.1

/-- **Inversion.** These are all the writes to policy, priority and class. -/
theorem Op.outline_write (h : TaskInv D b) : TaskWrite k b op q ((op.outline k b).tasks q) := by
  cases op with
  | setState st =>
    rw [Op.outline]
    exact .setTask fun _ => .keep _ rfl rfl rfl
  | schedule e => exact outlinePrev_write e
  | tick => exact .refl
  | wakeUp p state flags =>
    rw [Op.outline]
    split
    · exact .refl
    · exact .setTask fun _ => .keep _ rfl rfl rfl
  | wakeUpNewTask p =>
    rw [Op.outline]
    exact .setTask fun _ => .keep _ rfl rfl rfl
  | fork mm =>
    show TaskWrite k b _ q (Function.update b.tasks b.nrTasks (forkedTask (b.tasks b.curr) mm) q)
    by_cases hq : q = b.nrTasks
    · rw [hq, Function.update_self]
      exact .fork mm rfl rfl
    · rw [Function.update_of_ne hq]
      exact .refl
  | setscheduler p a =>
    show TaskWrite k b _ q ((outlineSetscheduler k b p a).tasks q)
    rcases outlineSetscheduler_cases k b p a with he | ⟨policy, reset, hreq, he⟩
    · rw [he]
      exact .refl
    · rw [he]
      refine .setTask fun hq => ?_
      subst hq
      exact .setscheduler a policy reset rfl hreq
  | rtMutexSetprio p prio =>
    rw [Op.outline]
    split
    · exact .refl
    · next hne =>
      refine .setTask fun hq => ?_
      subst hq
      exact .setprio prio rfl hne
  | setUserNice p nice =>
    rw [Op.outline]
    split
    · exact .refl
    · next hrange =>
      split
      · exact .setTask fun _ => .keep _ rfl rfl rfl
      · next hpol =>
        refine .setTask fun hq => .nice nice ?_ (by rw [hq]; simpa using hpol)
        unfold niceToPrio maxRtPrio
        omega
  | schedMoveTask p g =>
    rw [Op.outline]
    exact .setTask fun _ => .keep _ rfl rfl rfl
  | schedYield e => exact outlinePrev_write e
  | piWaiter p w =>
    rw [Op.outline]
    exact .setTask fun _ => .keep _ rfl rfl rfl
  | rtPeriodTimer g n => exact .refl
  | setStopTask stop => exact setStopTask_write h stop

/-- The number of tasks grows by the new one of a fork. -/
theorem Op.outline_nrTasks (k : Kernel σ) (b : Base) (op : Op) :
    (op.outline k b).nrTasks = b.nrTasks ∨
      (∃ mm, op = .fork mm) ∧ (op.outline k b).nrTasks = b.nrTasks + 1 := by
  have hprev : ∀ e, (outlinePrev b e).nrTasks = b.nrTasks := by
    intro e
    unfold outlinePrev
    split
    · split
      · rfl
      · cases e.toWakeup with
        | none => rfl
        | some w =>
          dsimp only
          rcases outlineWakeLocal_cases (b.setTask b.curr fun t => { t with onRq := false }) w
            with hno | ⟨-, -, hyes⟩
          · rw [hno]
            rfl
          · rw [hyes]
            rfl
    · rfl
  cases op with
  | fork mm => exact Or.inr ⟨⟨mm, rfl⟩, rfl⟩
  | schedule e => exact Or.inl (hprev e)
  | schedYield e => exact Or.inl (hprev e)
  | setscheduler p a => exact Or.inl (TaskInv.outlineSetscheduler_nrTasks k b p a)
  | wakeUp p state flags =>
    left
    rw [Op.outline]
    split <;> rfl
  | rtMutexSetprio p prio =>
    left
    rw [Op.outline]
    split <;> rfl
  | setUserNice p nice =>
    left
    rw [Op.outline]
    split
    · rfl
    · split <;> rfl
  | setStopTask stop =>
    left
    have hinstall : (outlineInstall k b stop).nrTasks = b.nrTasks := by
      cases stop with
      | none => rfl
      | some p => exact TaskInv.outlineSetscheduler_nrTasks k b p stopArgs
    show (outlineRetire { outlineInstall k b stop with stop := stop } b.stop).nrTasks = _
    cases b.stop <;> exact hinstall
  | _ => exact Or.inl rfl

end Inversion

/-! ## Policy and class -/

/-- Outside of the real-time range the class of a task is the one its policy asks
for. -/
def PolicyMatchesClass (b : Base) : Prop :=
  ∀ p < b.nrTasks, p ≠ b.idle → b.stop ≠ some p → rtPrio (b.tasks p).prio = false →
    ((b.tasks p).policy = .wrr → (b.tasks p).schedClass = .wrr) ∧
    ((b.tasks p).policy = .normal ∨ (b.tasks p).policy = .batch ∨ (b.tasks p).policy = .idle →
      (b.tasks p).schedClass = .fair)

/-- The steps that keep it: no fork by a `SCHED_WRR` task, and no priority outside
of the real-time range for such a task by `rt_mutex_setprio`. -/
def Op.keepsClass (b : Base) : Op → Prop
  | .fork _ => (b.tasks b.curr).policy ≠ .wrr
  | .rtMutexSetprio p prio => p ≠ b.idle → rtPrio prio = false → (b.tasks p).policy ≠ .wrr
  | _ => True

instance (b : Base) : (op : Op) → Decidable (op.keepsClass b)
  | .fork _ => inferInstanceAs (Decidable (_ ≠ _))
  | .rtMutexSetprio _ _ => inferInstanceAs (Decidable (_ ≠ _ → _ = _ → _ ≠ _))
  | .setState _ | .schedule _ | .tick | .wakeUp _ _ _ | .wakeUpNewTask _ | .setscheduler _ _
  | .setUserNice _ _ | .schedMoveTask _ _ | .schedYield _ | .piWaiter _ _ | .rtPeriodTimer _ _
  | .setStopTask _ => inferInstanceAs (Decidable True)

theorem forkedTask_policy (t : Task) (mm : Bool) :
    (forkedTask t mm).policy = t.policy ∨
      rtPolicy t.policy = true ∧ (forkedTask t mm).policy = .normal := by
  have hreset : ∀ u : Task, (resetOnFork u).policy = u.policy ∨
      rtPolicy u.policy = true ∧ (resetOnFork u).policy = .normal := by
    intro u
    unfold resetOnFork
    split
    · dsimp only
      split
      · next hpol => exact Or.inr ⟨hpol, rfl⟩
      · split <;> exact Or.inl rfl
    · exact Or.inl rfl
  unfold forkedTask
  dsimp only
  split <;> exact hreset _

theorem forkedTask_fair {t : Task} {mm : Bool} (h : rtPrio (forkedTask t mm).prio = false) :
    (forkedTask t mm).schedClass = .fair := by
  unfold forkedTask at h ⊢
  dsimp only at h ⊢
  split
  · next hr =>
    rw [if_pos hr, hr] at h
    cases h
  · rfl

/-- A child starts at its normal priority, which fits its policy. -/
theorem forkedTask_prio {D : Nat} {t : Task} (h : TaskOk D t) (mm : Bool)
    (hidle : t.schedClass = .idle → rtPolicy t.policy = false) :
    rtPrio (forkedTask t mm).prio = rtPolicy (forkedTask t mm).policy := by
  have hok := (h.forkedTask mm hidle).1
  have hprio : (forkedTask t mm).prio = (forkedTask t mm).normalPrio := by
    generalize hu : ({ t with
      onRq := false, state := taskRunning, prio := t.normalPrio, mm := mm,
      piTopWaiter := none } : Task) = u
    have hreset : (resetOnFork u).prio = (resetOnFork u).normalPrio := by
      rcases TaskOk.resetOnFork_cases (t := u) (by rw [← hu]; exact h.static)
        with he | ⟨-, -, h3, -⟩
      · rw [he, ← hu]
      · exact h3
    unfold forkedTask
    dsimp only
    rw [hu]
    split <;> exact hreset
  rw [hprio]
  exact hok.rtPrio_normal

section Policy

variable {k : Kernel σ} {b : Base} {s t : State σ} {op : Op} {p : Pid} {u : Task} {D : Nat}

theorem PolicyMatchesClass.write (h : TaskInv D b) (hP : PolicyMatchesClass b)
    (hok : op.keepsClass b) (hp : p < b.nrTasks) (hne : p ≠ b.idle)
    (hw : TaskWrite k b op p u) (hr : rtPrio u.prio = false) :
    (u.policy = .wrr → u.schedClass = .wrr) ∧
      (u.policy = .normal ∨ u.policy = .batch ∨ u.policy = .idle → u.schedClass = .fair) := by
  have hfifo : u.policy = .fifo → (u.policy = .wrr → u.schedClass = .wrr) ∧
      (u.policy = .normal ∨ u.policy = .batch ∨ u.policy = .idle → u.schedClass = .fair) := by
    intro hf
    simp [hf]
  cases hw with
  | keep _ hpolicy hprio hclass =>
    by_cases hstop : b.stop = some p
    · exact hfifo (hpolicy.trans (h.stop_ok p hstop).2.2)
    · rw [hprio] at hr
      rw [hpolicy, hclass]
      exact hP p hp hne hstop hr
  | setscheduler a policy reset hop hreq =>
    have hclass : (setschedulerTask policy a.schedPriority.toNat reset (b.tasks p)).schedClass =
        if policy = .wrr then .wrr else .fair := by
      simp only [setschedulerTask, setscheduler] at hr ⊢
      rw [hr]
      rfl
    rw [hclass]
    show (policy = .wrr → _) ∧ (policy = .normal ∨ policy = .batch ∨ policy = .idle → _)
    refine ⟨fun hpol => if_pos hpol, fun hpol => if_neg ?_⟩
    rcases hpol with rfl | rfl | rfl <;> simp
  | setprio prio hop hne' =>
    subst hop
    have hr' : rtPrio prio = false := hr
    have hclass : (setprioTask prio (b.tasks p)).schedClass = .fair := by
      simp only [setprioTask, hr']
      rfl
    exact ⟨fun hpol => absurd hpol (hok hne hr'), fun _ => hclass⟩
  | nice n hn hpol =>
    have hstop : b.stop ≠ some p := by
      intro hs
      rw [(h.stop_ok p hs).2.2] at hpol
      cases hpol
    refine hP p hp hne hstop ?_
    -- a boosted task keeps its priority
    cases hb : rtPrio (b.tasks p).prio with
    | false => rfl
    | true =>
      simp only [effectivePrio, hb, if_true] at hr
      cases hr
  | fork mm hop hq => exact absurd hq (Nat.ne_of_lt hp)
  | stop _ hpolicy hclass => exact hfifo hpolicy

/-- The child of a task with `SCHED_WRR` is a counterexample. -/
theorem PolicyMatchesClass.fork_keeps {mm : Bool} (h : TaskInv D b) (hcurr : b.curr < b.nrTasks)
    (hP : PolicyMatchesClass (Op.outline k b (.fork mm))) : (b.tasks b.curr).policy ≠ .wrr := by
  intro hpol
  have hself : (Op.outline k b (.fork mm)).tasks b.nrTasks = forkedTask (b.tasks b.curr) mm :=
    Function.update_self ..
  have hpolicy : (forkedTask (b.tasks b.curr) mm).policy = .wrr := by
    rcases forkedTask_policy (b.tasks b.curr) mm with he | ⟨hr, -⟩
    · rw [he, hpol]
    · rw [hpol] at hr
      cases hr
  have hprio := forkedTask_prio (h.task _ hcurr) mm (h.idle_not_rt hcurr)
  rw [hpolicy] at hprio
  have hall := hP b.nrTasks (Nat.lt_succ_self _) (Nat.ne_of_gt h.idle_lt)
    (fun hs => Nat.lt_irrefl _ (h.stop_ok _ hs).1)
  rw [hself] at hall
  have hclass := (hall hprio).1 hpolicy
  rw [forkedTask_fair hprio] at hclass
  cases hclass

/-- A task with `SCHED_WRR` that gets a priority of the others is a counterexample, too. -/
theorem PolicyMatchesClass.setprio_keeps {p : Pid} {prio : Nat} (h : TaskInv D b)
    (hp : p < b.nrTasks)
    (hne : p ≠ b.idle) (hr : rtPrio prio = false)
    (hP : PolicyMatchesClass (Op.outline k b (.rtMutexSetprio p prio))) :
    (b.tasks p).policy ≠ .wrr := by
  intro hpol
  have hout : Op.outline k b (.rtMutexSetprio p prio) = b.setTask p (setprioTask prio) := by
    rw [Op.outline, if_neg hne]
  have hstop : b.stop ≠ some p := by
    intro hs
    rw [(h.stop_ok p hs).2.2] at hpol
    cases hpol
  rw [hout] at hP
  have hall := hP p hp hne hstop
  rw [Base.setTask_self] at hall
  have hclass := (hall hr).1 hpol
  simp only [setprioTask, hr] at hclass
  cases hclass

theorem PolicyMatchesClass.outline_iff (h : TaskInv D b) (hcurr : b.curr < b.nrTasks)
    (hP : PolicyMatchesClass b) (hen : ∀ p prio, op = .rtMutexSetprio p prio → p < b.nrTasks) :
    PolicyMatchesClass (op.outline k b) ↔ op.keepsClass b := by
  have hidle := (Op.outline_curr k b op).2
  constructor
  · intro hP'
    cases op with
    | fork mm => exact PolicyMatchesClass.fork_keeps h hcurr hP'
    | rtMutexSetprio p prio =>
      intro hne hr
      exact PolicyMatchesClass.setprio_keeps h (hen p prio rfl) hne hr hP'
    | _ => trivial
  · intro hok p hp hne hstop hr
    rw [hidle] at hne
    rcases Op.outline_nrTasks k b op with hnr | ⟨⟨mm, rfl⟩, hnr⟩
    · exact PolicyMatchesClass.write h hP hok (hnr ▸ hp) hne (Op.outline_write h) hr
    · rw [hnr] at hp
      rcases Nat.lt_succ_iff_lt_or_eq.mp hp with hp | rfl
      · exact PolicyMatchesClass.write h hP hok hp hne (Op.outline_write h) hr
      · have hself : (Op.outline k b (.fork mm)).tasks b.nrTasks =
            forkedTask (b.tasks b.curr) mm := Function.update_self ..
        rw [hself] at hr ⊢
        refine ⟨fun hpol => ?_, fun _ => forkedTask_fair hr⟩
        -- the policy of the child is that of its parent, or SCHED_NORMAL
        rcases forkedTask_policy (b.tasks b.curr) mm with he | ⟨-, he⟩
        · exact absurd (he.symm.trans hpol) hok
        · rw [he] at hpol
          cases hpol

theorem policyMatchesClass_step (hI : Inv k s) (hP : PolicyMatchesClass s.toBase)
    (hstep : step k s op = some t) : PolicyMatchesClass t.toBase ↔ op.keepsClass s.toBase := by
  obtain ⟨hen, hout, -⟩ := step_outline hstep
  have hiff : PolicyMatchesClass t.toBase ↔ PolicyMatchesClass (op.outline k s.toBase.outline) := by
    show PolicyMatchesClass t.toBase.outline ↔ _
    rw [hout]
    rfl
  have hsame : op.keepsClass s.toBase.outline ↔ op.keepsClass s.toBase := by
    cases op <;> rfl
  rw [hiff, ← hsame]
  refine PolicyMatchesClass.outline_iff hI.tasks.to_outline hI.curr.1 hP fun p prio hop => ?_
  subst hop
  exact hen.1

end Policy

/-- **Policy and class.** In a run from boot, policy and class agree in every
state reached exactly if every step keeps them so: no task is forked by a
`SCHED_WRR` task, and `rt_mutex_setprio` never takes such a task out of the
real-time range. -/
theorem policyMatchesClass_iff (k : Kernel σ) (tr : List (StepRec (State σ) Op)) (t : State σ)
    (htr : Steps (step k) (boot k) tr t) :
    (∀ r ∈ tr, PolicyMatchesClass r.post.toBase) ↔ ∀ r ∈ tr, r.op.keepsClass r.pre.toBase := by
  have hboot : PolicyMatchesClass (boot k).toBase := by
    intro p hp hne
    exact absurd (Nat.lt_one_iff.mp hp) hne
  exact htr.all_iff (P := fun s => PolicyMatchesClass s.toBase)
    (C := fun s op => op.keepsClass s.toBase) (fun _ _ _ hI h => Inv.step hI h)
    (fun _ _ _ hI hP h => policyMatchesClass_step hI hP h) (Inv.boot k) hboot

/-- Two `SCHED_WRR` tasks that do not fork: policy and class agree all along. -/
theorem policyMatchesClass_two_tasks : ∃ t,
    Steps (step fifoKernel) (boot fifoKernel) (trace (step fifoKernel) (boot fifoKernel) wrrOps) t ∧
    (t.tasks 1).policy = .wrr ∧
    ∀ r ∈ trace (step fifoKernel) (boot fifoKernel) wrrOps, PolicyMatchesClass r.post.toBase := by
  have hrun : (run (step fifoKernel) (boot fifoKernel) wrrOps).any (fun s =>
      (s.tasks 1).policy = .wrr) = true := by decide +kernel
  have hkeeps : ∀ r ∈ trace (step fifoKernel) (boot fifoKernel) wrrOps,
      r.op.keepsClass r.pre.toBase := by decide +kernel
  obtain ⟨t, ht, hpol⟩ := (Option.any_eq_true _ _).mp hrun
  have htr := run_steps ht
  exact ⟨t, htr, of_decide_eq_true hpol, (policyMatchesClass_iff fifoKernel _ t htr).mpr hkeeps⟩

/-- A `SCHED_WRR` task forks a task 2. -/
def wrrForkOps : List Op :=
  [.fork true, .setscheduler 1 (request 6#32 0), .wakeUpNewTask 1,
    .schedule ⟨false, false, none⟩, .fork true]

/-- A `SCHED_WRR` task is boosted to priority 50 and deboosted. -/
def wrrBoostOps : List Op :=
  [.fork true, .setscheduler 1 (request 6#32 0), .rtMutexSetprio 1 50, .rtMutexSetprio 1 120]

/-- A child of a `SCHED_WRR` task is in the fair class; asking for `SCHED_WRR`
again succeeds and changes nothing. A deboosted task stays in the fair class. -/
theorem policyMatchesClass_fails :
    (∃ s, Reachable (step fifoKernel) (boot fifoKernel) s ∧ ¬ PolicyMatchesClass s.toBase ∧
      (s.tasks 2).policy = .wrr ∧ (s.tasks 2).schedClass = .fair ∧
      (schedSetscheduler fifoKernel s 2 (request 6#32 0)).1 = 0 ∧
      ((schedSetscheduler fifoKernel s 2 (request 6#32 0)).2.tasks 2).schedClass = .fair) ∧
    ∃ s, Reachable (step fifoKernel) (boot fifoKernel) s ∧ ¬ PolicyMatchesClass s.toBase ∧
      (s.tasks 1).policy = .wrr ∧ (s.tasks 1).schedClass = .fair := by
  have hfork : (run (step fifoKernel) (boot fifoKernel) wrrForkOps).any (fun s =>
      2 < s.nrTasks ∧ 2 ≠ s.idle ∧ s.stop ≠ some 2 ∧ rtPrio (s.tasks 2).prio = false ∧
      (s.tasks 2).policy = .wrr ∧ (s.tasks 2).schedClass = .fair ∧
      (schedSetscheduler fifoKernel s 2 (request 6#32 0)).1 = 0 ∧
      ((schedSetscheduler fifoKernel s 2 (request 6#32 0)).2.tasks 2).schedClass = .fair) =
        true := by decide +kernel
  have hboost : (run (step fifoKernel) (boot fifoKernel) wrrBoostOps).any (fun s =>
      1 < s.nrTasks ∧ 1 ≠ s.idle ∧ s.stop ≠ some 1 ∧ rtPrio (s.tasks 1).prio = false ∧
      (s.tasks 1).policy = .wrr ∧ (s.tasks 1).schedClass = .fair) = true := by decide +kernel
  constructor
  · obtain ⟨s, hs, hq⟩ := (Option.any_eq_true _ _).mp hfork
    obtain ⟨hlt, hidle, hstop, hprio, hpol, hclass, hres, hafter⟩ := of_decide_eq_true hq
    refine ⟨s, run_reachable hs, fun hP => ?_, hpol, hclass, hres, hafter⟩
    have hwrr := (hP 2 hlt hidle hstop hprio).1 hpol
    rw [hclass] at hwrr
    cases hwrr
  · obtain ⟨s, hs, hq⟩ := (Option.any_eq_true _ _).mp hboost
    obtain ⟨hlt, hidle, hstop, hprio, hpol, hclass⟩ := of_decide_eq_true hq
    refine ⟨s, run_reachable hs, fun hP => ?_, hpol, hclass⟩
    have hwrr := (hP 1 hlt hidle hstop hprio).1 hpol
    rw [hclass] at hwrr
    cases hwrr

/-! ## Priority inheritance -/

/-- A task with a real-time priority, its own or inherited, is in the real-time
class or above. -/
def BoostedIsRt (b : Base) : Prop :=
  ∀ p < b.nrTasks, rtPrio (b.tasks p).prio = true →
    (b.tasks p).schedClass = .rt ∨ (b.tasks p).schedClass = .stop

/-- The steps that keep it: no change to `SCHED_WRR` of a task that inherits a
real-time priority. -/
def Op.keepsBoost (k : Kernel σ) (b : Base) : Op → Prop
  | .setscheduler p a => ∀ reset,
      setschedulerRequest k b.stop p (b.tasks p) a = .ok (some (.wrr, reset)) →
      ∀ w ∈ (b.tasks p).piTopWaiter, rtPrio w = false
  | _ => True

instance (k : Kernel σ) (b : Base) : (op : Op) → Decidable (op.keepsBoost k b)
  | .setscheduler p a => inferInstanceAs (Decidable (∀ reset,
      setschedulerRequest k b.stop p (b.tasks p) a = .ok (some (.wrr, reset)) →
      ∀ w ∈ (b.tasks p).piTopWaiter, rtPrio w = false))
  | .setState _ | .schedule _ | .tick | .wakeUp _ _ _ | .wakeUpNewTask _ | .fork _
  | .rtMutexSetprio _ _ | .setUserNice _ _ | .schedMoveTask _ _ | .schedYield _ | .piWaiter _ _
  | .rtPeriodTimer _ _ | .setStopTask _ => inferInstanceAs (Decidable True)

theorem forkedTask_class {t : Task} {mm : Bool} (h : rtPrio (forkedTask t mm).prio = true) :
    (forkedTask t mm).schedClass = t.schedClass := by
  unfold forkedTask at h ⊢
  dsimp only at h ⊢
  split
  · exact (TaskOk.resetOnFork_frame _).1
  · next hr =>
    rw [if_neg hr] at h
    exact absurd h hr

section Boost

variable {k : Kernel σ} {b : Base} {s t : State σ} {op : Op} {p : Pid} {u : Task} {D : Nat}

/-- The priority `__setscheduler` gives for `SCHED_WRR`. -/
theorem rtPrio_setscheduler_wrr (h : TaskOk D u) (n : Nat) (reset : Bool) :
    rtPrio (setschedulerTask .wrr n reset u).prio = true ↔
      ∃ w, u.piTopWaiter = some w ∧ rtPrio w = true := by
  have hstatic := h.static
  have hprio : (setschedulerTask .wrr n reset u).prio =
      rtMutexGetprio { u with normalPrio := u.staticPrio } := rfl
  rw [hprio, rtMutexGetprio]
  dsimp only
  cases u.piTopWaiter with
  | none =>
    simp only [rtPrio, decide_eq_true_eq]
    refine iff_of_false (Nat.not_lt.mpr hstatic) ?_
    rintro ⟨w, hw, -⟩
    cases hw
  | some w =>
    simp only [rtPrio, decide_eq_true_eq, Option.some.injEq, exists_eq_left']
    omega

theorem BoostedIsRt.write (h : TaskInv D b) (hP : BoostedIsRt b)
    (hok : op.keepsBoost k b) (hp : p < b.nrTasks) (hw : TaskWrite k b op p u)
    (hr : rtPrio u.prio = true) : u.schedClass = .rt ∨ u.schedClass = .stop := by
  cases hw with
  | keep _ hpolicy hprio hclass =>
    rw [hprio] at hr
    rw [hclass]
    exact hP p hp hr
  | setscheduler a policy reset hop hreq =>
    subst hop
    have hne : policy ≠ .wrr := by
      rintro rfl
      obtain ⟨w, hw, hwr⟩ := (rtPrio_setscheduler_wrr (h.task p hp) _ reset).mp hr
      rw [hok reset hreq w hw] at hwr
      cases hwr
    left
    simp only [setschedulerTask, setscheduler] at hr ⊢
    rw [if_neg hne, if_pos hr]
  | setprio prio hop hne =>
    left
    have hr' : rtPrio prio = true := hr
    simp only [setprioTask, hr', if_true]
  | nice n hn hpol =>
    -- only a priority that was inherited before is a real-time one
    cases hb : rtPrio (b.tasks p).prio with
    | true => exact hP p hp hb
    | false =>
      have hprio : (effectivePrio { b.tasks p with staticPrio := niceToPrio n }).prio =
          niceToPrio n := by
        simp [effectivePrio, hb, normalPrio, hpol]
      rw [hprio, rtPrio, decide_eq_true_eq] at hr
      exact absurd hr (Nat.not_lt.mpr hn)
  | fork mm hop hq => exact absurd hq (Nat.ne_of_lt hp)
  | stop _ hpolicy hclass => exact hclass.symm

/-- A child has a real-time priority only if its parent has a real-time policy. -/
theorem BoostedIsRt.fork (h : TaskInv D b) (hcurr : b.curr < b.nrTasks) (hP : BoostedIsRt b)
    {mm : Bool} (hr : rtPrio (forkedTask (b.tasks b.curr) mm).prio = true) :
    (forkedTask (b.tasks b.curr) mm).schedClass = .rt ∨
      (forkedTask (b.tasks b.curr) mm).schedClass = .stop := by
  have hok := h.task _ hcurr
  have hidle := h.idle_not_rt hcurr
  have hpol : rtPolicy (b.tasks b.curr).policy = true := by
    have hchild := (forkedTask_prio hok mm hidle).symm.trans hr
    rcases forkedTask_policy (b.tasks b.curr) mm with he | ⟨hrt, -⟩
    · rwa [he] at hchild
    · exact hrt
  have hparent : rtPrio (b.tasks b.curr).prio = true := by
    have hnormal := hok.rtPrio_normal.trans hpol
    have hle := hok.prio_le
    simp only [rtPrio, decide_eq_true_eq] at hnormal ⊢
    omega
  rw [forkedTask_class hr]
  exact hP _ hcurr hparent

theorem BoostedIsRt.outline_iff (h : TaskInv D b) (hcurr : b.curr < b.nrTasks)
    (hP : BoostedIsRt b) (hen : ∀ p a, op = .setscheduler p a → p < b.nrTasks) :
    BoostedIsRt (op.outline k b) ↔ op.keepsBoost k b := by
  constructor
  · intro hP'
    cases op with
    | setscheduler p a =>
      intro reset hreq w hw
      by_contra hwr
      rw [Bool.not_eq_false] at hwr
      -- p itself is a counterexample
      have hself : outlineSetscheduler k b p a =
          b.setTask p (setschedulerTask .wrr a.schedPriority.toNat reset) := by
        rw [outlineSetscheduler, hreq]
      have hlt := hen p a rfl
      have hrt := (rtPrio_setscheduler_wrr (h.task p hlt) a.schedPriority.toNat reset).mpr
        ⟨w, hw, hwr⟩
      have hclass := hP' p ((TaskInv.outlineSetscheduler_nrTasks k b p a).symm ▸ hlt)
      simp only [Op.outline, hself, Base.setTask_self] at hclass
      rcases hclass hrt with hc | hc <;> cases hc
    | _ => trivial
  · intro hok p hp hr
    rcases Op.outline_nrTasks k b op with hnr | ⟨⟨mm, rfl⟩, hnr⟩
    · exact hP.write h hok (hnr ▸ hp) (Op.outline_write h) hr
    · rw [hnr] at hp
      rcases Nat.lt_succ_iff_lt_or_eq.mp hp with hp | rfl
      · exact hP.write h hok hp (Op.outline_write h) hr
      · have hself : (Op.outline k b (.fork mm)).tasks b.nrTasks =
            forkedTask (b.tasks b.curr) mm := Function.update_self ..
        rw [hself] at hr ⊢
        exact hP.fork h hcurr hr

theorem boostedIsRt_step (hI : Inv k s) (hP : BoostedIsRt s.toBase)
    (hstep : step k s op = some t) : BoostedIsRt t.toBase ↔ op.keepsBoost k s.toBase := by
  obtain ⟨hen, hout, -⟩ := step_outline hstep
  have hiff : BoostedIsRt t.toBase ↔ BoostedIsRt (op.outline k s.toBase.outline) := by
    show BoostedIsRt t.toBase.outline ↔ _
    rw [hout]
    rfl
  have hsame : op.keepsBoost k s.toBase.outline ↔ op.keepsBoost k s.toBase := by
    cases op <;> rfl
  rw [hiff, ← hsame]
  refine BoostedIsRt.outline_iff hI.tasks.to_outline hI.curr.1 hP fun p a hop => ?_
  subst hop
  exact hen.1

end Boost

/-- **Priority inheritance.** In a run from boot, every task with a real-time
priority is in the real-time class or above in every state reached, exactly if no
step changes the policy of a task to `SCHED_WRR` while it inherits a real-time
priority. -/
theorem boostedIsRt_iff (k : Kernel σ) (tr : List (StepRec (State σ) Op)) (t : State σ)
    (htr : Steps (step k) (boot k) tr t) :
    (∀ r ∈ tr, BoostedIsRt r.post.toBase) ↔ ∀ r ∈ tr, r.op.keepsBoost k r.pre.toBase := by
  have hboot : BoostedIsRt (boot k).toBase := by
    intro p hp hr
    cases hr
  exact htr.all_iff (P := fun s => BoostedIsRt s.toBase)
    (C := fun s op => op.keepsBoost k s.toBase) (fun _ _ _ hI h => Inv.step hI h)
    (fun _ _ _ hI hP h => boostedIsRt_step hI hP h) (Inv.boot k) hboot

/-- A task is boosted to priority 50 by a lock waiter. -/
def boostOps : List Op :=
  [.fork true, .setscheduler 1 (request 3#32 0), .wakeUpNewTask 1, .piWaiter 1 (some 50),
    .rtMutexSetprio 1 50]

theorem boostedIsRt_boost : ∃ t,
    Steps (step fifoKernel) (boot fifoKernel)
      (trace (step fifoKernel) (boot fifoKernel) boostOps) t ∧
    (t.tasks 1).prio = 50 ∧
    ∀ r ∈ trace (step fifoKernel) (boot fifoKernel) boostOps, BoostedIsRt r.post.toBase := by
  have hrun : (run (step fifoKernel) (boot fifoKernel) boostOps).any (fun s =>
      (s.tasks 1).prio = 50) = true := by decide +kernel
  have hkeeps : ∀ r ∈ trace (step fifoKernel) (boot fifoKernel) boostOps,
      r.op.keepsBoost fifoKernel r.pre.toBase := by decide +kernel
  obtain ⟨t, ht, hprio⟩ := (Option.any_eq_true _ _).mp hrun
  have htr := run_steps ht
  exact ⟨t, htr, of_decide_eq_true hprio, (boostedIsRt_iff fifoKernel _ t htr).mpr hkeeps⟩

/-- A boosted task asks for `SCHED_WRR`: it keeps the real-time priority and goes
to the WRR class. -/
theorem boostedIsRt_fails : ∃ s, Reachable (step fifoKernel) (boot fifoKernel) s ∧
    ¬ BoostedIsRt s.toBase ∧ (s.tasks 1).prio = 50 ∧ (s.tasks 1).schedClass = .wrr := by
  have hrun : (run (step fifoKernel) (boot fifoKernel)
      (boostOps ++ [.setscheduler 1 (request 6#32 0)])).any (fun s =>
        1 < s.nrTasks ∧ (s.tasks 1).prio = 50 ∧ (s.tasks 1).schedClass = .wrr) = true := by
    decide +kernel
  obtain ⟨s, hs, hq⟩ := (Option.any_eq_true _ _).mp hrun
  obtain ⟨hlt, hprio, hclass⟩ := of_decide_eq_true hq
  refine ⟨s, run_reachable hs, fun hP => ?_, hprio, hclass⟩
  have hr := hP 1 hlt (by rw [hprio]; rfl)
  rw [hclass] at hr
  rcases hr with hr | hr <;> cases hr

end LinuxKernel.Sched

import LinuxKernel.Sched.WrrStep

/-!
# Android scheduler — reschedule requests, throttling and boosts

What the small steps leave alone between two calls of `schedule`:

* `Calm s t`   — the same task runs, a reschedule request stays, and no real-time
  run queue is unthrottled. `step_calm`: so it is for every operation but
  `schedule` and the period timer of the real-time groups.
* `PlainInv s` — no task is boosted by priority inheritance, and no run queue
  counts one that is. `step_plainInv`: kept by all operations outside of priority
  inheritance.
-/

namespace LinuxKernel.Sched

open LinuxKernel.Lib

variable {σ : Type}

/-- A step that keeps the running task, drops no request to reschedule it and unthrottles no run
queue. -/
structure Calm (s t : State σ) : Prop where
  curr      : t.curr = s.curr
  nrTasks   : s.nrTasks ≤ t.nrTasks
  resched   : s.needResched s.curr = true → t.needResched s.curr = true
  throttled : ∀ g, (s.rt g).rtThrottled = true → (t.rt g).rtThrottled = true

/-- No task is boosted, and no run queue counts a boosted entity. -/
structure PlainInv (s : State σ) : Prop where
  tasks : ∀ q, (s.tasks q).plain
  rt    : Unboosted s.rt

/-! ## Hooks -/

section Hooks

variable {k : Kernel σ} {s t u : State σ} {c : SchedClass} {h : Hook} {p : Pid} {arg : Nat}

/-- A request to reschedule does not take another one back. -/
theorem reschedTask_mono (s : State σ) (p : Pid) {q : Pid} (hq : s.needResched q = true) :
    (s.reschedTask p).needResched q = true := by
  show Function.update s.needResched p true q = true
  rw [Function.update_apply]
  split
  · rfl
  · exact hq

theorem reschedTask_self (s : State σ) (p : Pid) : (s.reschedTask p).needResched p = true :=
  Function.update_self ..

namespace Calm

theorem refl (s : State σ) : Calm s s := ⟨rfl, le_rfl, fun h => h, fun _ h => h⟩

theorem trans (h₁ : Calm s t) (h₂ : Calm t u) : Calm s u where
  curr := h₂.curr.trans h₁.curr
  nrTasks := h₁.nrTasks.trans h₂.nrTasks
  resched hr := by
    have ht := h₁.resched hr
    rw [← h₁.curr] at ht ⊢
    exact h₂.resched ht
  throttled g hg := h₂.throttled g (h₁.throttled g hg)

/-- A step that touches neither requests nor run queues. -/
theorem of_eq (hcurr : t.curr = s.curr) (hnr : t.nrTasks = s.nrTasks)
    (hresched : t.needResched = s.needResched) (hrt : t.rt = s.rt) : Calm s t :=
  ⟨hcurr, le_of_eq hnr.symm, fun h => hresched ▸ h, fun _ h => hrt ▸ h⟩

end Calm

/-- The hooks of the WRR class leave the real-time run queues as they are. -/
theorem wrrHook_rt (c : Config) (h : Hook) (s : State σ) (p : Pid) (a : Nat) :
    (wrrHook c h s p a).rt = s.rt := by
  have hupdate : (updateCurrWrr s).rt = s.rt := by
    obtain ⟨se, hse⟩ := updateCurrWrr_eq s
    rw [hse]
  cases h with
  | dequeueTask => exact hupdate
  | putPrevTask => exact hupdate
  | taskTick =>
    show (taskTickWrr c s p).rt = s.rt
    unfold taskTickWrr
    dsimp only
    split
    · exact hupdate
    · split
      · exact hupdate
      · exact hupdate
  | switchedTo =>
    show (switchedToWrr c s p).rt = s.rt
    unfold switchedToWrr
    split <;> rfl
  | _ => rfl

/-- So do those of every class but the real-time one. -/
theorem hookOf_rt_of_ne (hc : c ≠ .rt) : (hookOf k c h s p arg).rt = s.rt := by
  cases c with
  | rt => exact absurd rfl hc
  | wrr => exact wrrHook_rt ..
  | stop => rfl
  | fair => rfl
  | idle => rfl

/-- No hook withdraws a reschedule request. -/
theorem hookOf_resched {q : Pid} (hq : s.needResched q = true) :
    (hookOf k c h s p arg).needResched q = true := by
  by_cases hrt : c = .rt
  · subst hrt
    exact rtHook_cases (Q := fun u => u.needResched q = true) k h s p arg hq
      ((updateCurrRt_quiet k s).resched q hq) hq fun u hu => hu.resched q hq
  · by_cases hwrr : c = .wrr
    · subst hwrr
      have hupdate : (updateCurrWrr s).needResched q = true := by
        obtain ⟨se, hse⟩ := updateCurrWrr_eq s
        rw [hse]
        exact hq
      show (wrrHook k.toConfig h s p arg).needResched q = true
      cases h with
      | dequeueTask => exact hupdate
      | putPrevTask => exact hupdate
      | taskTick =>
        show (taskTickWrr k.toConfig s p).needResched q = true
        unfold taskTickWrr
        dsimp only
        split
        · exact hupdate
        · split
          · exact reschedTask_mono _ p hupdate
          · exact hupdate
      | switchedTo =>
        show (switchedToWrr k.toConfig s p).needResched q = true
        unfold switchedToWrr
        split
        · exact reschedTask_mono s s.curr hq
        · exact hq
      | _ => exact hq
    · rw [hookOf_ext hrt hwrr]
      show (if _ then Function.update s.needResched s.curr true else s.needResched) q = true
      split
      · exact reschedTask_mono s s.curr hq
      · exact hq

/-- No hook unthrottles a run queue. -/
theorem hookOf_throttled (g : TaskGroup) (hg : (s.rt g).rtThrottled = true) :
    ((hookOf k c h s p arg).rt g).rtThrottled = true := by
  by_cases hrt : c = .rt
  · subst hrt
    exact rtHook_cases (Q := fun u => (u.rt g).rtThrottled = true) k h s p arg
      ((enqueueRtEntity_throttled ..).trans hg)
      ((dequeueRtEntity_throttled ..).trans ((updateCurrRt_quiet k s).throttled g hg)) hg
      fun u hu => hu.throttled g hg
  · rw [hookOf_rt_of_ne hrt]
    exact hg

/-- **Every hook is calm.** -/
theorem hookOf_calm (k : Kernel σ) (c : SchedClass) (h : Hook) (s : State σ) (p : Pid)
    (arg : Nat) : Calm s (hookOf k c h s p arg) :=
  ⟨Base.curr_eq (hookOf_outline ..), le_of_eq (Base.nrTasks_eq (hookOf_outline ..)).symm,
    hookOf_resched, hookOf_throttled⟩

/-- Whether a task is boosted does not depend on its WRR entity. -/
theorem Task.plain_of_params {u u' : Task} (h : u.plain) (he : u'.params = u.params) :
    u'.plain := by
  rw [Task.eq_of_params he]
  exact h

/-- Hooks boost no task. -/
theorem PlainInv.hook (hP : PlainInv s) : PlainInv (hookOf k c h s p arg) where
  tasks q := Task.plain_of_params (hP.tasks q) (Base.params_eq (hookOf_outline ..) q)
  rt := by
    by_cases hrt : c = .rt
    · subst hrt
      refine rtHook_cases (Q := fun u => Unboosted u.rt) k h s p arg
        (hP.rt.enqueueRtEntity (show plainSe s.tasks (.task p) from (hP.tasks p).1) _) ?_ hP.rt
        fun u hu => hu.unboosted hP.rt
      have hplain : plainSe (updateCurrRt k s).tasks (.task p) := by
        rw [updateCurrRt_toBase]
        exact (hP.tasks p).1
      exact ((updateCurrRt_quiet k s).unboosted hP.rt).dequeueRtEntity hplain
    · rw [hookOf_rt_of_ne hrt]
      exact hP.rt

end Hooks

/-! ## Small steps -/

section Small

variable {k : Kernel σ} {s t : State σ} {p : Pid} {A : Scope}

/-- A write to a task that does not boost it. -/
theorem PlainInv.setTask {f : Task → Task} (hP : PlainInv s) (hf : (f (s.tasks p)).plain) :
    PlainInv (s.setTask p f) := by
  refine ⟨fun q => ?_, hP.rt⟩
  rw [State.setTask_toBase, Base.setTask_tasks]
  split
  · exact hf
  · exact hP.tasks q

/-- A new task is not boosted. -/
theorem forkedTask_plain (t : Task) (mm : Bool) : (forkedTask t mm).plain := by
  have hreset : ∀ u : Task, u.plain → (resetOnFork u).plain := by
    intro u hu
    unfold resetOnFork
    split
    · refine ⟨rfl, ?_⟩
      dsimp only
      split
      · exact hu.2
      · split <;> exact hu.2
    · exact hu
  unfold forkedTask
  dsimp only
  split
  · exact hreset _ ⟨rfl, rfl⟩
  · exact hreset _ ⟨rfl, rfl⟩

/-- What holds for the edits of a micro step holds for the step. -/
theorem Micro.plainInv {c d : Cfg σ} (hA : ∀ p u u', A.edit p u u' → u.plain → u'.plain)
    (hm : Micro k A c d) (hP : PlainInv c.state) : PlainInv d.state := by
  cases hm with
  | clock s R =>
    unfold updateRqClock
    split
    · exact hP
    · exact ⟨hP.tasks, hP.rt⟩
  | flags s R resched skip hresched => exact ⟨hP.tasks, hP.rt⟩
  | edit s R p f hwrr hon hedit => exact hP.setTask (hA _ _ _ hedit (hP.tasks p))
  | enqueue s R p flags hp hq hhead => exact hP.hook
  | dequeue s R flags ha => exact hP.hook
  | hook s R c hk p arg hh => exact hP.hook
  | switchedTo s R p hp => exact hP.hook
  | cycle s R p f moved hcurr hp hwrr hedit =>
    have hput : (taskHook k .putPrevTask s p 0).toBase = s.toBase :=
      hookOf_plain k _ (h := .putPrevTask) rfl s p 0
    have hset : PlainInv ((taskHook k .putPrevTask s p 0).setTask p f) := by
      refine PlainInv.setTask (PlainInv.hook hP) ?_
      rw [hput]
      exact hA _ _ _ hedit (hP.tasks p)
    refine PlainInv.hook ?_
    cases moved with
    | none => exact hset
    | some arg => exact PlainInv.hook hset
  | yield s R ha hR => exact hP.hook
  | tick s R ha hR => exact hP.hook
  | fork s R mm hR hc =>
    refine PlainInv.hook ⟨fun q => ?_, hP.rt⟩
    show (Function.update s.tasks s.nrTasks (forkedTask (s.tasks s.curr) mm) q).plain
    rw [Function.update_apply]
    split
    · exact forkedTask_plain _ mm
    · exact hP.tasks q
  | periodTimer s R g n htimer =>
    refine ⟨fun q => ?_, doSchedRtPeriodTimer_unboosted k s g n hP.rt⟩
    rw [doSchedRtPeriodTimer_toBase]
    exact hP.tasks q
  | setStop s R stop => exact ⟨hP.tasks, hP.rt⟩

/-- **Every micro step is calm** but one of the period timer. -/
theorem Micro.calm {c d : Cfg σ} (hm : Micro k A c d) (htimer : ¬ A.timer)
    (hcurr : c.state.curr < c.state.nrTasks) : Calm c.state d.state := by
  cases hm with
  | clock s R =>
    unfold updateRqClock
    split
    · exact Calm.refl s
    · exact Calm.of_eq rfl rfl rfl rfl
  | flags s R resched skip hresched => exact ⟨rfl, le_rfl, hresched s.curr, fun _ h => h⟩
  | edit s R p f hwrr hon hedit => exact Calm.of_eq rfl rfl rfl rfl
  | enqueue s R p flags hp hq hhead => exact hookOf_calm ..
  | dequeue s R flags ha => exact hookOf_calm ..
  | hook s R c hk p arg hh => exact hookOf_calm ..
  | switchedTo s R p hp => exact hookOf_calm ..
  | cycle s R p f moved hcurr' hp hwrr hedit =>
    have hput : Calm s (taskHook k .putPrevTask s p 0) := hookOf_calm ..
    have hset : Calm s ((taskHook k .putPrevTask s p 0).setTask p f) :=
      hput.trans (Calm.of_eq rfl rfl rfl rfl)
    have hmove : Calm s (moveHook k moved ((taskHook k .putPrevTask s p 0).setTask p f) p) := by
      cases moved with
      | none => exact hset
      | some arg => exact hset.trans (hookOf_calm ..)
    exact hmove.trans (hookOf_calm ..)
  | yield s R ha hR => exact hookOf_calm ..
  | tick s R ha hR => exact hookOf_calm ..
  | fork s R mm hR hc =>
    refine Calm.trans ⟨?_, ?_, fun hr => ?_, ?_⟩ (hookOf_calm ..)
    · rfl
    · exact Nat.le_succ _
    · exact (Function.update_of_ne (Nat.ne_of_lt hcurr) _ _).trans hr
    · exact fun g hg => hg
  | periodTimer s R g n ht => exact absurd ht htimer
  | setStop s R stop => exact Calm.of_eq rfl rfl rfl rfl

/-- A choice of the next task boosts none. -/
theorem Switches.plainInv (hs : Switches k s t) (hP : PlainInv s) : PlainInv t := by
  obtain ⟨c, next, u, hpick, rfl⟩ := hs
  have hput : PlainInv (taskHook k .putPrevTask s s.curr 0) := hP.hook
  refine ⟨fun q => ?_, ?_⟩
  · show (u.tasks q).plain
    rw [pickOf_toBase hpick]
    exact hput.tasks q
  · rcases pickOf_cases hpick with ⟨-, rfl⟩ | ⟨-, rfl⟩ | ⟨-, -, e, -, rfl⟩
    · exact hput.rt
    · exact hput.rt
    · exact hput.rt

end Small

/-! ## Operations -/

section Operations

variable {k : Kernel σ} {s t : State σ} {op : Op}

/-- **No task is boosted** by an operation that is not one of priority inheritance. -/
theorem step_plainInv (hI : Inv k s) (hP : PlainInv s) (hop : op.inherits = false)
    (h : step k s op = some t) : PlainInv t := by
  obtain ⟨a, w, hpath, hend⟩ := step_path hI.tasks hI.curr h
  have hall : ∀ {d : Cfg σ}, Path k (op.scope s t a) ⟨s, s.queued⟩ d → PlainInv d.state := by
    intro d hd
    induction hd with
    | refl => exact hP
    | tail _ hm ih =>
      refine hm.plainInv (fun p u u' he => ?_) ih
      obtain ⟨-, hplain⟩ := he
      exact hplain hop
  rcases hend with ⟨-, hs⟩ | ⟨-, rfl⟩
  · exact hs.plainInv (hall hpath)
  · exact hall hpath

/-- **Operations are calm** unless they end in a choice of the next task or run the period timer. -/
theorem step_calm (hI : Inv k s) (hsw : op.switches = false) (hop : op.isTimer = false)
    (h : step k s op = some t) : Calm s t := by
  obtain ⟨a, w, hpath, hend⟩ := step_path hI.tasks hI.curr h
  have htimer : ¬ (op.scope s t a).timer := by
    show ¬ op.isTimer = true
    rw [hop]
    simp
  have hall : ∀ {d : Cfg σ}, Path k (op.scope s t a) ⟨s, s.queued⟩ d → Calm s d.state := by
    intro d hd
    induction hd with
    | refl => exact Calm.refl s
    | tail _ hm ih =>
      refine ih.trans (hm.calm htimer ?_)
      rw [ih.curr]
      exact hI.curr.1.trans_le ih.nrTasks
  rcases hend with ⟨hs, -⟩ | ⟨-, rfl⟩
  · rw [hs] at hsw
    cases hsw
  · exact hall hpath

end Operations

end LinuxKernel.Sched

import LinuxKernel.Sched.RtOrder
import LinuxKernel.Sched.Calm

/-!
# Android scheduler — budgets of the real-time groups

`update_curr_rt` charges the running task to its group and to every group above
it; a group that has used more than its `rt_runtime` is throttled until the period
timer has paid enough of `rt_time` back.

* `QueueBlind`        — what the list operations do not touch.
* `updateCurrRt_budget` — the charge, for all run queues at once.
* `BudgetInv`         — an unthrottled group is within its runtime and a throttled
  one is not, in every reachable state.
* `rt_throttle_enforced` — a tick asks a task of a throttled group to leave, and
  `schedule` does not pick one.
-/

namespace LinuxKernel.Sched

open LinuxKernel.Lib

variable {σ : Type}

/-! ## Fields the list operations leave alone -/

/-- A part of `rt_rq` that queueing and unqueueing do not write. -/
structure QueueBlind {α : Type} (F : RtRq → α) : Prop where
  active : ∀ r a, F { r with active := a } = F r
  inc    : ∀ r prio b, F (incRtTasks r prio b) = F r
  dec    : ∀ r prio b, F (decRtTasks r prio b) = F r

namespace QueueBlind

variable {α : Type} {F : RtRq → α} (hF : QueueBlind F)
include hF

theorem enqueueRaw (tasks : Pid → Task) (head : Bool) (rt : RtRqs) (se : RtSe) (g : TaskGroup) :
    F (enqueueRtEntityRaw tasks head rt se g) = F (rt g) := by
  unfold enqueueRtEntityRaw
  split
  · rfl
  · by_cases hg : g = rtRqOfSe tasks se
    · subst hg
      dsimp only
      rw [Function.update_self, hF.inc, hF.active]
    · dsimp only
      rw [Function.update_of_ne hg]

theorem dequeueRaw (tasks : Pid → Task) (rt : RtRqs) (se : RtSe) (g : TaskGroup) :
    F (dequeueRtEntityRaw tasks rt se g) = F (rt g) := by
  unfold dequeueRtEntityRaw
  by_cases hg : g = rtRqOfSe tasks se
  · subst hg
    dsimp only
    rw [Function.update_self, hF.dec, hF.active]
  · dsimp only
    rw [Function.update_of_ne hg]

theorem stack (tasks : Pid → Task) (rt : RtRqs) (se : RtSe) (g : TaskGroup) :
    F (dequeueRtStack tasks rt se g) = F (rt g) := by
  unfold dequeueRtStack
  induction forEachSchedRtEntity tasks se with
  | nil => rfl
  | cons e l ih =>
    rw [List.foldr_cons]
    split
    · rw [hF.dequeueRaw, ih]
    · exact ih

theorem enqueue (tasks : Pid → Task) (rt : RtRqs) (se : RtSe) (head : Bool) (g : TaskGroup) :
    F (enqueueRtEntity tasks rt se head g) = F (rt g) := by
  have hfold : ∀ (l : List RtSe) (rt : RtRqs),
      F (l.foldl (enqueueRtEntityRaw tasks head) rt g) = F (rt g) := by
    intro l
    induction l with
    | nil => exact fun rt => rfl
    | cons e l ih => exact fun rt => (ih _).trans (hF.enqueueRaw ..)
  rw [enqueueRtEntity, hfold, hF.stack]

theorem dequeue (tasks : Pid → Task) (rt : RtRqs) (se : RtSe) (g : TaskGroup) :
    F (dequeueRtEntity tasks rt se g) = F (rt g) := by
  have hfold : ∀ (l : List RtSe) (rt : RtRqs),
      F (l.foldl (reenqueueGroup tasks) rt g) = F (rt g) := by
    intro l
    induction l with
    | nil => exact fun rt => rfl
    | cons e l ih =>
      intro rt
      refine (ih _).trans ?_
      cases e with
      | task p => rfl
      | group k =>
        rw [reenqueueGroup]
        split
        · exact hF.enqueueRaw ..
        · rfl
  rw [dequeueRtEntity, hfold, hF.stack]

end QueueBlind

/-- Moving a task inside its lists writes nothing but the lists. -/
theorem requeueTaskRt_field {α : Type} {F : RtRq → α}
    (hF : ∀ r a, F { r with active := a } = F r) (tasks : Pid → Task) (rt : RtRqs) (p : Pid)
    (head : Bool) (g : TaskGroup) : F (requeueTaskRt tasks rt p head g) = F (rt g) := by
  unfold requeueTaskRt
  induction forEachSchedRtEntity tasks (.task p) generalizing rt with
  | nil => rfl
  | cons se l ih =>
    rw [List.foldl_cons, ih, requeueRtEntity]
    split
    · by_cases hg : g = rtRqOfSe tasks se
      · subst hg
        dsimp only
        rw [Function.update_self, hF]
      · dsimp only
        rw [Function.update_of_ne hg]
    · rfl

/-! ## The charge -/

/-- `rt_time` and `rt_throttled` -/
def budget (r : RtRq) : Nat × Bool := (r.rtTime, r.rtThrottled)

theorem budget_queueBlind : QueueBlind budget where
  active _ _ := rfl
  inc r prio b := by
    unfold incRtTasks incRtGroup incRtPrio
    split <;> split <;> rfl
  dec r prio b := by
    unfold decRtTasks decRtGroup decRtPrio
    split <;> split <;> (try split) <;> rfl

/-- The runtime of the group limits it: `sched_rt_runtime_exceeded` passes its first
two tests. -/
def Kernel.limits (k : Kernel σ) (g : TaskGroup) : Prop :=
  k.rtRuntime g < k.rtPeriod g ∧ k.rtRuntime g ≠ runtimeInf

instance (k : Kernel σ) (g : TaskGroup) : Decidable (k.limits g) :=
  inferInstanceAs (Decidable (_ ∧ _))

/-- What charging `d` makes of the budget of group `g`. -/
def charged (k : Kernel σ) (g : TaskGroup) (d : Nat) (b : Nat × Bool) : Nat × Bool :=
  if k.rtRuntime g = runtimeInf then b
  else if b.2 = false ∧ k.limits g ∧ k.rtRuntime g < b.1 + d then
    -- a group without runtime is not throttled; its time is taken back
    if k.rtRuntime g ≠ 0 then (b.1 + d, true) else (0, false)
  else (b.1 + d, b.2)

theorem schedRtRqDequeue_budget (s : State σ) (g h : TaskGroup) :
    budget ((schedRtRqDequeue s g).rt h) = budget (s.rt h) := by
  unfold schedRtRqDequeue
  split
  · exact budget_queueBlind.dequeue ..
  · rfl

theorem schedRtRqEnqueue_budget (s : State σ) (g h : TaskGroup) :
    budget ((schedRtRqEnqueue s g).rt h) = budget (s.rt h) := by
  rcases schedRtRqEnqueue_rt s g with he | he
  · rw [he]
  · rw [he]
    exact budget_queueBlind.enqueue ..

theorem setRtRq_budget (s : State σ) (g h : TaskGroup) (f : RtRq → RtRq) :
    budget ((s.setRtRq g f).rt h) = if h = g then budget (f (s.rt g)) else budget (s.rt h) := by
  by_cases hg : h = g
  · subst hg
    simp [State.setRtRq, State.setRt]
  · simp [State.setRtRq, State.setRt, hg]

theorem chargeRtRq_budget (k : Kernel σ) (d : Nat) (s : State σ) (g h : TaskGroup) :
    budget ((chargeRtRq k d s g).rt h) =
      if h = g then charged k g d (budget (s.rt g)) else budget (s.rt h) := by
  unfold chargeRtRq charged
  by_cases hinf : k.rtRuntime g = runtimeInf
  · rw [if_neg (not_not.mpr hinf), if_pos hinf]
    split
    · next hh => rw [hh]
    · rfl
  · rw [if_pos hinf, if_neg hinf]
    -- the reschedule request does not matter
    have hresched : ∀ r : State σ × Bool,
        (if r.2 then r.1.reschedTask r.1.curr else r.1).rt = r.1.rt := by
      intro r
      split <;> rfl
    dsimp only
    rw [hresched]
    set u := s.setRtRq g fun r => { r with rtTime := r.rtTime + d } with hu
    have hug : u.rt g = { s.rt g with rtTime := (s.rt g).rtTime + d } := by
      simp [hu, State.setRtRq, State.setRt]
    have hubudget : ∀ h, budget (u.rt h) =
        if h = g then ((budget (s.rt g)).1 + d, (budget (s.rt g)).2) else budget (s.rt h) :=
      fun h => setRtRq_budget s g h _
    unfold schedRtRuntimeExceeded
    by_cases hthr : (s.rt g).rtThrottled = true
    · have hbt : ¬ ((budget (s.rt g)).2 = false ∧ k.limits g ∧
          k.rtRuntime g < (budget (s.rt g)).1 + d) := by
        simp [budget, hthr]
      rw [if_pos (by rw [hug]; exact hthr), if_neg hbt]
      exact hubudget h
    · rw [if_neg (by rw [hug]; exact hthr)]
      have hbf : (budget (s.rt g)).2 = false := by simpa [budget] using hthr
      by_cases hover : k.limits g ∧ k.rtRuntime g < (s.rt g).rtTime + d
      · have hcond : (budget (s.rt g)).2 = false ∧ k.limits g ∧
            k.rtRuntime g < (budget (s.rt g)).1 + d := ⟨hbf, hover⟩
        rw [if_neg (by have := hover.1.1; omega), if_neg hover.1.2,
          if_pos (by rw [hug]; exact hover.2), if_pos hcond]
        dsimp only
        have hexceeded : ∀ v : State σ, budget
            ((if rtRqThrottled (v.rt g) = true then (schedRtRqDequeue v g, true)
              else (v, false)).1.rt h) = budget (v.rt h) := by
          intro v
          split
          · exact schedRtRqDequeue_budget v g h
          · rfl
        rw [hexceeded, setRtRq_budget, hug]
        split
        · split
          · rfl
          · simp only [budget, Prod.mk.injEq, true_and]
            simpa using hthr
        · next hh =>
          rw [hubudget, if_neg hh]
      · have hcond : ¬ ((budget (s.rt g)).2 = false ∧ k.limits g ∧
            k.rtRuntime g < (budget (s.rt g)).1 + d) := fun hc => hover hc.2
        rw [if_neg hcond, ← hubudget h]
        split
        · rfl
        · next hlt =>
          have hlim : k.limits g := ⟨by omega, hinf⟩
          rw [if_neg]
          rw [hug]
          exact fun hgt => hover ⟨hlim, hgt⟩

/-- The run queues the loop of `update_curr_rt` visits are those of the task's group
and of all groups above it. -/
theorem forEachSchedRtEntity_groups (tasks : Pid → Task) (p : Pid) :
    (forEachSchedRtEntity tasks (.task p)).map (rtRqOfSe tasks) =
      (tasks p).schedTaskGroup.tails := by
  have hstack : ∀ g : TaskGroup, g :: (groupStack g).map (rtRqOfSe tasks) = g.tails := by
    intro g
    induction g with
    | nil => rfl
    | cons n g ih =>
      rw [groupStack, List.map_cons, List.tails_cons, ← ih]
      rfl
  rw [forEachSchedRtEntity, List.map_cons]
  exact hstack _

theorem foldl_chargeRtRq_budget (k : Kernel σ) (d : Nat) (l : List TaskGroup) (s : State σ)
    (h : TaskGroup) (hl : l.Nodup) :
    budget ((l.foldl (chargeRtRq k d) s).rt h) =
      if h ∈ l then charged k h d (budget (s.rt h)) else budget (s.rt h) := by
  induction l generalizing s with
  | nil => rfl
  | cons g l ih =>
    obtain ⟨hg, hl⟩ := List.nodup_cons.mp hl
    rw [List.foldl_cons, ih _ hl, chargeRtRq_budget]
    by_cases hh : h = g
    · subst hh
      simp [hg]
    · simp [hh]

theorem nodup_tails (g : TaskGroup) : g.tails.Nodup := by
  induction g with
  | nil => simp
  | cons n g ih =>
    rw [List.tails_cons, List.nodup_cons, List.mem_tails]
    refine ⟨fun h => ?_, ih⟩
    have := h.length_le
    simp at this

/-- The loop, as one over groups. -/
theorem updateCurrRt_eq (k : Kernel σ) (s : State σ) :
    updateCurrRt k s =
      if (s.tasks s.curr).schedClass ≠ .rt then s
      else if k.rtBandwidthEnabled = false then s.chargeCurr
      else (s.tasks s.curr).schedTaskGroup.tails.foldl (chargeRtRq k s.deltaExec) s.chargeCurr := by
  unfold updateCurrRt
  rw [← forEachSchedRtEntity_groups, List.foldl_map]
  cases k.rtBandwidthEnabled <;> rfl

/-- **The charge.** Exactly the groups from that of the current task up to the root
are charged, each once. -/
theorem updateCurrRt_budget (k : Kernel σ) (s : State σ) (h : TaskGroup) :
    budget ((updateCurrRt k s).rt h) =
      if (s.tasks s.curr).schedClass = .rt ∧ k.rtBandwidthEnabled = true ∧
          h <:+ (s.tasks s.curr).schedTaskGroup then
        charged k h s.deltaExec (budget (s.rt h))
      else budget (s.rt h) := by
  rw [updateCurrRt_eq]
  by_cases hc : (s.tasks s.curr).schedClass = .rt
  · cases hb : k.rtBandwidthEnabled with
    | false => simp [hc, State.chargeCurr, State.setSe]
    | true =>
      rw [if_neg (not_not.mpr hc), if_neg (by simp),
        foldl_chargeRtRq_budget _ _ _ _ _ (nodup_tails _)]
      simp [hc, State.chargeCurr, State.setSe]
  · simp [hc]

/-! ## Hooks, small steps and runs -/

theorem taskTickRt_rt (k : Kernel σ) (s : State σ) (p : Pid) :
    (taskTickRt k s p).rt = (updateCurrRt k s).rt ∨
      (taskTickRt k s p).rt =
        requeueTaskRt s.tasks (updateCurrRt k s).rt p false := by
  unfold taskTickRt
  dsimp only
  split
  · exact Or.inl rfl
  · split
    · exact Or.inl rfl
    · split
      · refine Or.inr ?_
        show requeueTaskRt (updateCurrRt k s).tasks _ p false = _
        rw [updateCurrRt_toBase]
      · exact Or.inl rfl

/-- A hook of the class charges the current task, or leaves budgets and accounts alone. -/
theorem rtHook_charges (k : Kernel σ) (h : Hook) (s : State σ) (p : Pid) (a : Nat)
    (hset : h ≠ .setCurrTask) :
    ((∀ g, budget ((rtHook k h s p a).rt g) = budget (s.rt g)) ∧ (rtHook k h s p a).se = s.se) ∨
      ((∀ g, budget ((rtHook k h s p a).rt g) = budget ((updateCurrRt k s).rt g)) ∧
        (rtHook k h s p a).se = (updateCurrRt k s).se) := by
  have hresched : ∀ (c : Prop) [Decidable c] (q : Pid),
      (∀ g, budget ((if c then s.reschedTask q else s).rt g) = budget (s.rt g)) ∧
        (if c then s.reschedTask q else s).se = s.se := by
    intro c _ q
    split
    · exact ⟨fun g => rfl, rfl⟩
    · exact ⟨fun g => rfl, rfl⟩
  -- each hook leaves the budgets alone or has run `update_curr_rt` first
  cases h with
  | enqueueTask => exact Or.inl ⟨fun g => budget_queueBlind.enqueue .., rfl⟩
  | dequeueTask => exact Or.inr ⟨fun g => budget_queueBlind.dequeue .., rfl⟩
  | yieldTask => exact Or.inl ⟨fun g => requeueTaskRt_field budget_queueBlind.active .., rfl⟩
  | checkPreemptCurr => exact Or.inl (hresched _ _)
  | putPrevTask => exact Or.inr ⟨fun g => rfl, rfl⟩
  | setCurrTask => exact absurd rfl hset
  | taskTick =>
    refine Or.inr ⟨fun g => ?_, ?_⟩
    · show budget ((taskTickRt k s p).rt g) = _
      rcases taskTickRt_rt k s p with he | he
      · rw [he]
      · rw [he]
        exact requeueTaskRt_field budget_queueBlind.active ..
    · show (taskTickRt k s p).se = _
      unfold taskTickRt
      dsimp only
      split
      · rfl
      · split
        · rfl
        · split <;> rfl
  | switchedTo => exact Or.inl (hresched _ _)
  | prioChanged =>
    refine Or.inl ?_
    show (∀ g, budget ((prioChangedRt s p a).rt g) = _) ∧ (prioChangedRt s p a).se = _
    unfold prioChangedRt
    split
    · exact ⟨fun g => rfl, rfl⟩
    · split
      · exact hresched _ _
      · exact hresched _ _
  | _ => exact Or.inl ⟨fun g => rfl, rfl⟩

theorem hookOf_budget (k : Kernel σ) (c : SchedClass) (h : Hook) (s : State σ) (p : Pid)
    (a : Nat) : (∀ g, budget ((hookOf k c h s p a).rt g) = budget (s.rt g)) ∨
      ∀ g, budget ((hookOf k c h s p a).rt g) = budget ((updateCurrRt k s).rt g) := by
  by_cases hc : c = .rt
  · subst hc
    by_cases hset : h = .setCurrTask
    · subst hset
      exact Or.inl fun g => rfl
    · exact (rtHook_charges k h s p a hset).imp And.left And.left
  · refine Or.inl fun g => ?_
    rw [hookOf_rt_of_ne hc]

/-- What the period timer of a group makes of a budget. -/
def refilled (k : Kernel σ) (g : TaskGroup) (overrun : Nat) (b : Nat × Bool) : Nat × Bool :=
  let time := b.1 - min b.1 (overrun * k.rtRuntime g)
  (time, b.2 && !(b.1 != 0 && decide (time < k.rtRuntime g)))

theorem doSchedRtPeriodTimer_budget (k : Kernel σ) (s : State σ) (g : TaskGroup) (n : Nat)
    (h : TaskGroup) : budget ((doSchedRtPeriodTimer k s g n).rt h) =
      if h = g then refilled k g n (budget (s.rt g)) else budget (s.rt h) := by
  unfold doSchedRtPeriodTimer
  by_cases h0 : (s.rt g).rtTime = 0
  · rw [if_neg (not_not.mpr h0)]
    have hstay : budget (s.rt h) =
        if h = g then refilled k g n (budget (s.rt g)) else budget (s.rt h) := by
      split
      · next hh =>
        subst hh
        simp [refilled, budget, h0]
      · rfl
    rw [← hstay]
    split
    · exact schedRtRqEnqueue_budget ..
    · rfl
  · rw [if_pos h0]
    dsimp only
    have hset := fun h' => setRtRq_budget s g h' fun r =>
      { r with rtTime := r.rtTime - min r.rtTime (n * k.rtRuntime g) }
    generalize (s.setRtRq g fun r =>
      { r with rtTime := r.rtTime - min r.rtTime (n * k.rtRuntime g) }) = u at hset ⊢
    obtain ⟨htime, hthr⟩ := Prod.mk.inj ((hset g).trans (if_pos rfl))
    have hother : h ≠ g → budget (u.rt h) = budget (s.rt h) :=
      fun hh => (hset h).trans (if_neg hh)
    split
    · next hend =>
      -- throttling ends
      have hskip : ∀ v : State σ, (if (v.rt g).rtNrRunning ≠ 0 ∧ v.curr = v.idle then
          { v with skipClockUpdate := -1 } else v).rt = v.rt := by
        intro v
        split <;> rfl
      rw [schedRtRqEnqueue_budget, hskip, setRtRq_budget]
      split
      · obtain ⟨h1, h2⟩ := hend
        rw [htime] at h2
        simp [budget, refilled, htime, h0, h2]
      · next hh => exact hother hh
    · next hstay =>
      split
      · next hh =>
        subst hh
        rw [hthr, htime] at hstay
        simp only [budget, refilled, htime, hthr, Prod.mk.injEq, true_and]
        cases hb : (s.rt h).rtThrottled with
        | false => rfl
        | true =>
          rw [hb] at hstay
          simp only [true_and] at hstay
          simp [hstay]
      · next hh => exact hother hh

/-- The budgets of all groups: only groups with a limit get throttled, a throttled
group has used its runtime up, and any other is within it. -/
structure BudgetInv (k : Kernel σ) (rt : RtRqs) : Prop where
  throttled : ∀ g, (rt g).rtThrottled = true → k.rtBandwidthEnabled = true ∧ k.limits g ∧
    k.rtRuntime g ≠ 0 ∧ k.rtRuntime g ≤ (rt g).rtTime
  within    : ∀ g, k.limits g → (rt g).rtThrottled = false → (rt g).rtTime ≤ k.rtRuntime g

section Invariant

variable {k : Kernel σ} {s t : State σ}

/-- The same, of one pair. -/
def BudgetOk (k : Kernel σ) (g : TaskGroup) (b : Nat × Bool) : Prop :=
  (b.2 = true → k.rtBandwidthEnabled = true ∧ k.limits g ∧ k.rtRuntime g ≠ 0 ∧
    k.rtRuntime g ≤ b.1) ∧
  (k.limits g → b.2 = false → b.1 ≤ k.rtRuntime g)

theorem budgetInv_iff {rt : RtRqs} : BudgetInv k rt ↔ ∀ g, BudgetOk k g (budget (rt g)) :=
  ⟨fun h g => ⟨h.throttled g, h.within g⟩, fun h => ⟨fun g => (h g).1, fun g => (h g).2⟩⟩

theorem BudgetOk.charged {g : TaskGroup} {b : Nat × Bool} (h : BudgetOk k g b) (d : Nat)
    (hen : k.rtBandwidthEnabled = true) : BudgetOk k g (charged k g d b) := by
  obtain ⟨hthr, hin⟩ := h
  unfold Sched.charged
  split
  · exact ⟨hthr, hin⟩
  · next hinf =>
    split
    · next hover =>
      split
      · next h0 => exact ⟨fun _ => ⟨hen, hover.2.1, h0, hover.2.2.le⟩, fun _ hf => (by cases hf)⟩
      · exact ⟨fun hf => (by cases hf), fun _ _ => Nat.zero_le _⟩
    · next hover =>
      refine ⟨fun hb => ?_, fun hlim hb => ?_⟩
      · obtain ⟨h1, h2, h3, h4⟩ := hthr hb
        exact ⟨h1, h2, h3, Nat.le_add_right_of_le h4⟩
      · exact Nat.le_of_not_lt fun hlt => hover ⟨hb, hlim, hlt⟩

theorem BudgetOk.refilled {g : TaskGroup} {b : Nat × Bool} (h : BudgetOk k g b) (n : Nat) :
    BudgetOk k g (refilled k g n b) := by
  obtain ⟨hthr, hin⟩ := h
  refine ⟨fun hb => ?_, fun hlim hb => ?_⟩
  · simp only [Sched.refilled, Bool.and_eq_true, Bool.not_eq_true', Bool.and_eq_false_iff,
      bne_eq_false_iff_eq, decide_eq_false_iff_not, Nat.not_lt] at hb ⊢
    obtain ⟨h1, h2, h3, h4⟩ := hthr hb.1
    exact ⟨h1, h2, h3, hb.2.resolve_left fun h0 => h3 (by omega)⟩
  · cases hbt : b.2 with
    | false => exact (Nat.sub_le _ _).trans (hin hlim hbt)
    | true =>
      -- it was throttled: the timer has found the time below the runtime
      simp only [Sched.refilled, hbt, Bool.true_and, Bool.not_eq_false', Bool.and_eq_true,
        decide_eq_true_eq] at hb ⊢
      exact hb.2.le

theorem BudgetInv.hook (h : BudgetInv k s.rt) (c : SchedClass) (hk : Hook) (p : Pid) (a : Nat) :
    BudgetInv k (hookOf k c hk s p a).rt := by
  rw [budgetInv_iff] at h ⊢
  intro g
  rcases hookOf_budget k c hk s p a with he | he
  · rw [he]
    exact h g
  · rw [he, updateCurrRt_budget]
    split
    · next hc => exact (h g).charged _ hc.2.1
    · exact h g

theorem BudgetInv.timer (h : BudgetInv k s.rt) (g : TaskGroup) (n : Nat) :
    BudgetInv k (doSchedRtPeriodTimer k s g n).rt := by
  rw [budgetInv_iff] at h ⊢
  intro g'
  rw [doSchedRtPeriodTimer_budget]
  split
  · next hg => exact hg ▸ (h g).refilled n
  · exact h g'

theorem moveHook_budgetInv (h : BudgetInv k s.rt) (moved : Option Nat) (p : Pid) :
    BudgetInv k (moveHook k moved s p).rt := by
  cases moved with
  | none => exact h
  | some a => exact h.hook ..

/-- **Budgets.** In every reachable state an unthrottled group with a limit is within
its runtime, and a throttled one has used it up. -/
theorem BudgetInv.reachable (hs : Reachable (step k) (boot k) s) : BudgetInv k s.rt := by
  refine Inv.small_steps (P := fun c => BudgetInv k c.state.rt) ⟨fun g hg => ?_, fun g _ _ => ?_⟩
    (fun A c d hQ hP hm => ?_) (fun s t R hQ hP hw => ?_) hs
  · cases hg
  · exact Nat.zero_le _
  · cases hm with
    | clock s R =>
      have hrt : (updateRqClock k s).rt = s.rt := by
        unfold updateRqClock
        split <;> rfl
      show BudgetInv k (updateRqClock k s).rt
      rw [hrt]
      exact hP
    | cycle s R p f moved hcurr hp hwrr hedit =>
      exact (moveHook_budgetInv (s := (taskHook k .putPrevTask s p 0).setTask p f)
        (hP.hook ..) moved p).hook ..
    | fork s R mm hR hc =>
      refine BudgetInv.hook ?_ ..
      exact hP
    | periodTimer s R g n htimer => exact hP.timer g n
    | flags s R resched skip hresched => exact hP
    | edit s R p f hwrr hon hedit => exact hP
    | setStop s R stop => exact hP
    | enqueue s R p flags hp hq hhead => exact hP.hook ..
    | dequeue s R flags ha => exact hP.hook ..
    | hook s R c hk p arg hh => exact hP.hook ..
    | switchedTo s R p hp => exact hP.hook ..
    | yield s R ha hR => exact hP.hook ..
    | tick s R ha hR => exact hP.hook ..
  · obtain ⟨c, next, u, hpick, rfl⟩ := hw
    have hrt : u.rt = (taskHook k .putPrevTask s s.curr 0).rt := by
      rcases pickOf_cases hpick with ⟨-, rfl⟩ | ⟨-, rfl⟩ | ⟨-, -, e, -, rfl⟩ <;> rfl
    show BudgetInv k u.rt
    rw [hrt]
    exact hP.hook ..

end Invariant

/-! ## Throttled groups leave the cpu -/

/-- Unqueueing the entity of a group writes the run queues above the group only. -/
theorem dequeueRtEntity_group_of_ne (tasks : Pid → Task) (rt : RtRqs) {g h : TaskGroup}
    (hh : ∀ n k, n :: k <:+ g → h ≠ k) : dequeueRtEntity tasks rt (.group g) h = rt h := by
  have hse : ∀ se ∈ groupStack g, h ≠ rtRqOfSe tasks se := by
    intro se hse
    obtain ⟨n, k, rfl, hk⟩ := mem_groupStack.mp hse
    exact hh n k hk
  rw [dequeueRtEntity, dequeueRtStack, forEachSchedRtEntity, foldl_reenqueueGroup]
  generalize groupStack g = stack at hse
  have hdown : stack.foldr
      (fun e rt => if onRtRq tasks rt e then dequeueRtEntityRaw tasks rt e else rt) rt h =
        rt h := by
    induction stack with
    | nil => rfl
    | cons e l ih =>
      obtain ⟨he, hl⟩ := List.forall_mem_cons.mp hse
      rw [List.foldr_cons]
      split
      · rw [RtInv.dequeueRtEntityRaw_of_ne he, ih hl]
      · exact ih hl
  rw [← hdown]
  generalize stack.foldr
    (fun e rt => if onRtRq tasks rt e then dequeueRtEntityRaw tasks rt e else rt) rt = rt'
  clear hdown
  induction stack generalizing rt' with
  | nil => rfl
  | cons e l ih =>
    obtain ⟨he, hl⟩ := List.forall_mem_cons.mp hse
    rw [List.foldl_cons, ih hl, RtInv.enqueueRtEntityRaw_of_ne _ he]

section Enforcement

variable {k : Kernel σ} {s t : State σ} {d : Nat} {g h : TaskGroup}

theorem schedRtRqDequeue_rt_of_ne (hh : ∀ n k, n :: k <:+ g → h ≠ k) :
    (schedRtRqDequeue s g).rt h = s.rt h := by
  unfold schedRtRqDequeue
  split
  · exact dequeueRtEntity_group_of_ne s.tasks s.rt hh
  · rfl

/-- Either nothing is done, or the group is written and, if that throttles it, leaves
its parent's array. -/
theorem schedRtRuntimeExceeded_cases (k : Kernel σ) (s : State σ) (g : TaskGroup) :
    schedRtRuntimeExceeded k s g = (s, rtRqThrottled (s.rt g)) ∨
      ∃ f, schedRtRuntimeExceeded k s g = if rtRqThrottled ((s.setRtRq g f).rt g) then
        (schedRtRqDequeue (s.setRtRq g f) g, true) else (s.setRtRq g f, false) := by
  unfold schedRtRuntimeExceeded
  split
  · exact Or.inl rfl
  · next hf =>
    have hopen : rtRqThrottled (s.rt g) = false := by simp [rtRqThrottled, hf]
    rw [hopen]
    split
    · exact Or.inl rfl
    · split
      · exact Or.inl rfl
      · split
        · exact Or.inr ⟨_, rfl⟩
        · exact Or.inl rfl

/-- Charging a group leaves the run queues of other groups alone, unless they are
above it. -/
theorem chargeRtRq_rt_of_not_suffix (hh : ¬ h <:+ g) : (chargeRtRq k d s g).rt h = s.rt h := by
  have hne : h ≠ g := by
    rintro rfl
    exact hh List.suffix_rfl
  have habove : ∀ n k, n :: k <:+ g → h ≠ k := by
    rintro n k hk rfl
    exact hh ((List.suffix_cons n h).trans hk)
  have hset : ∀ (u : State σ) (f : RtRq → RtRq), (u.setRtRq g f).rt h = u.rt h := by
    intro u f
    exact Function.update_of_ne hne _ _
  have hresched : ∀ r : State σ × Bool,
      (if r.2 then r.1.reschedTask r.1.curr else r.1).rt = r.1.rt := by
    intro r
    split <;> rfl
  unfold chargeRtRq
  split
  · dsimp only
    rw [hresched, ← hset s fun r => { r with rtTime := r.rtTime + d }]
    generalize (s.setRtRq g fun r => { r with rtTime := r.rtTime + d }) = u
    rcases schedRtRuntimeExceeded_cases k u g with he | ⟨f, he⟩
    · rw [he]
    · rw [he]
      split
      · rw [schedRtRqDequeue_rt_of_ne habove, hset]
      · exact hset ..
  · rfl

/-- A group that is throttled after the charge has asked the current task to leave. -/
theorem chargeRtRq_resched (hinf : k.rtRuntime g ≠ runtimeInf)
    (hthr : rtRqThrottled ((chargeRtRq k d s g).rt g) = true) :
    (chargeRtRq k d s g).needResched s.curr = true := by
  have hresched : ∀ r : State σ × Bool,
      (if r.2 then r.1.reschedTask r.1.curr else r.1).rt = r.1.rt := by
    intro r
    split <;> rfl
  unfold chargeRtRq at hthr ⊢
  rw [if_pos hinf] at hthr ⊢
  dsimp only at hthr ⊢
  rw [hresched] at hthr
  have hbase : ∀ u : State σ, (schedRtRuntimeExceeded k u g).1.curr = u.curr :=
    fun u => congrArg Base.curr (schedRtRuntimeExceeded_toBase k u g)
  have hexceeded : ∀ u : State σ,
      rtRqThrottled ((schedRtRuntimeExceeded k u g).1.rt g) = true →
      (schedRtRuntimeExceeded k u g).2 = true := by
    intro u hu
    rcases schedRtRuntimeExceeded_cases k u g with he | ⟨f, he⟩
    · rw [he] at hu ⊢
      exact hu
    · rw [he] at hu ⊢
      split at hu
      · next hin => rw [if_pos hin]
      · next hin => exact absurd hu hin
  rw [if_pos (hexceeded _ hthr), hbase]
  exact reschedTask_self _ _

/-- The loop of `update_curr_rt`, from a group up to the root. -/
theorem foldl_chargeRtRq_resched (s : State σ) (g : TaskGroup) (hh : h <:+ g)
    (hinf : k.rtRuntime h ≠ runtimeInf)
    (hthr : rtRqThrottled ((g.tails.foldl (chargeRtRq k d) s).rt h) = true) :
    (g.tails.foldl (chargeRtRq k d) s).needResched s.curr = true := by
  -- the rest of the way up takes no request back
  have hkeep : ∀ (l : List TaskGroup) (u : State σ) (q : Pid), u.needResched q = true →
      (l.foldl (chargeRtRq k d) u).needResched q = true := by
    intro l
    induction l with
    | nil => exact fun u q hq => hq
    | cons g l ih => exact fun u q hq => ih _ q ((chargeRtRq_quiet k d u g).resched q hq)
  -- and writes nothing below
  have hbelow : ∀ (g h : TaskGroup) (u : State σ), ¬ h <:+ g →
      (g.tails.foldl (chargeRtRq k d) u).rt h = u.rt h := by
    intro g h
    induction g with
    | nil => exact fun u hn => chargeRtRq_rt_of_not_suffix hn
    | cons n g ih =>
      intro u hn
      rw [List.tails_cons, List.foldl_cons,
        ih _ fun hs => hn (List.suffix_cons_iff.mpr (Or.inr hs)), chargeRtRq_rt_of_not_suffix hn]
  induction g generalizing s with
  | nil =>
    obtain rfl := List.suffix_nil.mp hh
    exact chargeRtRq_resched hinf hthr
  | cons n g ih =>
    rw [List.tails_cons, List.foldl_cons] at hthr ⊢
    rcases List.suffix_cons_iff.mp hh with rfl | hh
    · rw [hbelow g (n :: g) _ fun hs => by simpa using hs.length_le] at hthr
      exact hkeep _ _ _ (chargeRtRq_resched hinf hthr)
    · have hcurr : (chargeRtRq k d s (n :: g)).curr = s.curr :=
        congrArg Base.curr (chargeRtRq_toBase k d s (n :: g))
      have hrest := ih (chargeRtRq k d s (n :: g)) hh hthr
      rwa [hcurr] at hrest

/-- A tick of a real-time task: a throttled run queue above it asks it to leave. -/
theorem taskTickRt_resched (hc : (s.tasks s.curr).schedClass = .rt)
    (hen : k.rtBandwidthEnabled = true) (hh : h <:+ (s.tasks s.curr).schedTaskGroup)
    (hinf : k.rtRuntime h ≠ runtimeInf)
    (hthr : rtRqThrottled ((taskTickRt k s s.curr).rt h) = true) :
    (taskTickRt k s s.curr).needResched s.curr = true := by
  have hrt : rtRqThrottled ((updateCurrRt k s).rt h) = true := by
    rcases taskTickRt_rt k s s.curr with he | he
    · rwa [he] at hthr
    · rw [he, requeueTaskRt_field (F := rtRqThrottled) fun _ _ => rfl] at hthr
      exact hthr
  have hres : (updateCurrRt k s).needResched s.curr = true := by
    rw [updateCurrRt_eq, if_neg (not_not.mpr hc), if_neg (by simp [hen])] at hrt ⊢
    exact foldl_chargeRtRq_resched s.chargeCurr _ hh hinf hrt
  unfold taskTickRt
  dsimp only
  split
  · exact hres
  · split
    · exact hres
    · split
      · exact reschedTask_self _ _
      · exact hres

end Enforcement

/-- **A tick.** A real-time task that runs after it and is held back by a throttled run queue has
been asked to leave the cpu. -/
theorem needResched_of_tick {k : Kernel σ} {s t : State σ} (hs : Reachable (step k) (boot k) s)
    (hstep : step k s .tick = some t) (hc : (t.tasks t.curr).schedClass = .rt)
    (hel : ¬ rtEligible t.tasks t.rt t.curr = true) : t.needResched t.curr = true := by
  have hB : BudgetInv k t.rt := BudgetInv.reachable (hs.step hstep)
  rw [rtEligible_iff] at hel
  push Not at hel
  obtain ⟨h, hh, hthr⟩ := hel
  rw [ne_eq, Bool.not_eq_false] at hthr
  have hflag : (t.rt h).rtThrottled = true := by
    simp only [rtRqThrottled, Bool.and_eq_true] at hthr
    exact hthr.1
  obtain ⟨hen, hlim, -⟩ := hB.throttled h hflag
  -- the tick, at the updated clock
  obtain rfl : schedulerTick k s = t := Option.some.inj (step_exec hstep).2
  have hout : (schedulerTick k s).toBase.outline = (updateRqClock k s).toBase.outline :=
    taskHook_outline ..
  have hcurr : (schedulerTick k s).curr = (updateRqClock k s).curr := Base.curr_eq hout
  rw [hcurr] at hc hh ⊢
  have hc' : ((updateRqClock k s).tasks (updateRqClock k s).curr).schedClass = .rt :=
    (Task.schedClass_eq (Base.params_eq hout _)).symm.trans hc
  have hg : ((schedulerTick k s).tasks (updateRqClock k s).curr).schedTaskGroup =
      ((updateRqClock k s).tasks (updateRqClock k s).curr).schedTaskGroup := by
    rw [Task.eq_of_params (Base.params_eq hout _)]
  rw [hg] at hh
  have htick : schedulerTick k s = taskTickRt k (updateRqClock k s) (updateRqClock k s).curr := by
    show taskHook k .taskTick (updateRqClock k s) (updateRqClock k s).curr 0 = _
    unfold taskHook
    rw [hc']
    rfl
  rw [htick] at hthr ⊢
  exact taskTickRt_resched hc' hen hh hlim.2 hthr

/-- **A run of `schedule`** does not pick a real-time task that is held back. -/
theorem rtEligible_of_switch {k : Kernel σ} {s t : State σ} {op : Op}
    (hs : Reachable (step k) (boot k) s) (hstep : step k s op = some t) (hsw : op.switches = true)
    (hc : (t.tasks t.curr).schedClass = .rt) : rtEligible t.tasks t.rt t.curr = true := by
  obtain ⟨v, u, c, hv, hpick, -, htasks, hi, hrts⟩ := (Inv.reachable hs).switch_class hsw hstep
  rcases hv.pick_some hpick with ⟨rfl, hidle⟩ | ⟨-, -, -, hel⟩
  · -- the idle task is not of the class
    have hI := Inv.reachable (hs.step hstep)
    rw [(hI.tasks.idle_class _ hI.curr.1).mpr (hidle.trans hi.symm)] at hc
    cases hc
  · rw [htasks] at hc
    rw [htasks, hrts]
    rwa [eligible_rt hc] at hel

/-- **Throttling is enforced.** Take a step from a reachable state, after which a real-time task
runs. If the step is a tick, no throttled run queue above the task holds it back, or it has been
asked to leave the cpu; if it is a run of `schedule`, none holds it back. -/
theorem rt_throttle_enforced {k : Kernel σ} {s t : State σ} {op : Op}
    (hs : Reachable (step k) (boot k) s) (hstep : step k s op = some t)
    (hc : (t.tasks t.curr).schedClass = .rt) :
    (op = .tick → rtEligible t.tasks t.rt t.curr = true ∨ t.needResched t.curr = true) ∧
      (op.switches = true → rtEligible t.tasks t.rt t.curr = true) := by
  refine ⟨?_, fun hsw => rtEligible_of_switch hs hstep hsw hc⟩
  rintro rfl
  exact or_iff_not_imp_left.mpr (needResched_of_tick hs hstep hc)

/-- A `SCHED_FIFO` task runs in the group with 5 ns of runtime. -/
def overrunOps : List Op :=
  [.fork true, .schedMoveTask 1 [2], .setscheduler 1 (request 1#32 50), .wakeUpNewTask 1,
    .schedule ⟨false, false, none⟩]

theorem rt_throttle_enforced_tick : ∃ s t, Reachable (step fifoKernel) (boot fifoKernel) s ∧
    step fifoKernel s .tick = some t ∧ t.curr = 1 ∧
    rtEligible t.tasks t.rt 1 = false ∧ t.needResched 1 = true := by
  have hrun : (run (step fifoKernel) (boot fifoKernel) overrunOps).any (fun s =>
      (step fifoKernel s .tick).any fun t => t.curr = 1 ∧ (t.tasks 1).schedClass = .rt ∧
        rtEligible t.tasks t.rt 1 = false) = true := by decide +kernel
  obtain ⟨s, hs, hnext⟩ := (Option.any_eq_true _ _).mp hrun
  obtain ⟨t, ht, hcond⟩ := (Option.any_eq_true _ _).mp hnext
  obtain ⟨hcurr, hc, hel⟩ := of_decide_eq_true hcond
  have hreach := run_reachable hs
  have h := (rt_throttle_enforced hreach ht (by rw [hcurr]; exact hc)).1 rfl
  rw [hcurr, hel] at h
  exact ⟨s, t, hreach, ht, hcurr, hel, h.resolve_left (by simp)⟩

end LinuxKernel.Sched

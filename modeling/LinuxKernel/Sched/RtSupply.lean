import LinuxKernel.Sched.RtBudget
import LinuxKernel.Sched.Accounting
import Mathlib.Algebra.BigOperators.Ring.List
import Mathlib.Algebra.Ring.Nat

/-!
# Android scheduler — how much time a real-time group gets

For a group `g` with a runtime, the time its real-time tasks have run is in three
places: paid back by the period timer, still in `rt_time`, or not yet charged to the
running task. `rtUsed` is the sum of the last two.

* `Spends`           — with the same task running, `rtUsed` grows by the time that
  passes if the task is below `g`, and stays if not.
* `retask_used`      — the running task may change class or group in between.
* `step_used`        — no operation but the period timer lowers `rtUsed`.
* `rt_supply_bound`  — so over any run that leaves the group unthrottled, its tasks
  ran for at most one `rt_runtime` more than the timer has paid back.
-/

namespace LinuxKernel.Sched

open LinuxKernel.Lib

variable {σ : Type}

/-- The group is charged, and gets throttled if it uses too much. -/
structure Kernel.Charges (k : Kernel σ) (g : TaskGroup) : Prop where
  enabled : k.rtBandwidthEnabled = true
  inf     : k.rtRuntime g ≠ runtimeInf
  zero    : k.rtRuntime g ≠ 0

/-- A real-time task of the group or of a group below it. -/
def Task.rtBelow (t : Task) (g : TaskGroup) : Prop := t.schedClass = .rt ∧ g <:+ t.schedTaskGroup

instance (t : Task) (g : TaskGroup) : Decidable (t.rtBelow g) :=
  inferInstanceAs (Decidable (_ ∧ _))

theorem Task.rtBelow_congr {t u : Task} {g : TaskGroup} (hc : t.schedClass = u.schedClass)
    (hg : t.schedTaskGroup = u.schedTaskGroup) : t.rtBelow g ↔ u.rtBelow g := by
  unfold Task.rtBelow
  rw [hc, hg]

/-- What the running task is due, if the group pays for it. -/
def rtDue (g : TaskGroup) (s : State σ) : Nat :=
  if (s.tasks s.curr).rtBelow g then s.clockTask - (s.se s.curr).execStart else 0

/-- The time charged to the group that has not been paid back, and what the running
task is due. -/
def rtUsed (g : TaskGroup) (s : State σ) : Nat := (s.rt g).rtTime + rtDue g s

/-- The clock when an operation takes the running task off its queue, to change its class
or group and put it back. -/
def changeClock (k : Kernel σ) (s : State σ) : Nat :=
  (if (s.tasks s.curr).onRq then dequeueTask k s s.curr 0 else s).clockTask

/-- For how much of the time from `s` to `t` the task that ran at `s` was a real-time task
of the group or below it: all of the time if it is before and after, up to the change if it
has left, and from the change on if it has come. -/
def ranBelow (k : Kernel σ) (g : TaskGroup) (s t : State σ) : Nat :=
  if (s.tasks s.curr).rtBelow g ∧ (t.tasks s.curr).rtBelow g then t.clockTask - s.clockTask
  else if (s.tasks s.curr).rtBelow g then changeClock k s - s.clockTask
  else if (t.tasks s.curr).rtBelow g then t.clockTask - changeClock k s
  else 0

/-- From `s` to `t`, with the same task running in the same place: the group has used
the time that passed, if the task is below it. -/
structure Spends (g : TaskGroup) (s t : State σ) : Prop where
  curr  : t.curr = s.curr
  below : (t.tasks t.curr).rtBelow g ↔ (s.tasks s.curr).rtBelow g
  clock : ClockInv t
  le    : s.clockTask ≤ t.clockTask
  used  : rtUsed g t =
    rtUsed g s + if (s.tasks s.curr).rtBelow g then t.clockTask - s.clockTask else 0

section Small

variable {k : Kernel σ} {g : TaskGroup} {s t u : State σ} {p : Pid}

namespace Spends

theorem refl (hK : ClockInv s) : Spends g s s := ⟨rfl, Iff.rfl, hK, le_rfl, by simp⟩

theorem trans (h₁ : Spends g s t) (h₂ : Spends g t u) : Spends g s u where
  curr := h₂.curr.trans h₁.curr
  below := h₂.below.trans h₁.below
  clock := h₂.clock
  le := h₁.le.trans h₂.le
  used := by
    have hle₁ := h₁.le
    have hle₂ := h₂.le
    rw [h₂.used, h₁.used]
    by_cases hb : (s.tasks s.curr).rtBelow g
    · rw [if_pos hb, if_pos hb, if_pos (h₁.below.mpr hb)]
      omega
    · rw [if_neg hb, if_neg hb, if_neg fun h => hb (h₁.below.mp h)]

/-- Nothing passes and nothing is written that matters. -/
theorem of_eq (hcurr : t.curr = s.curr)
    (hbelow : (t.tasks t.curr).rtBelow g ↔ (s.tasks s.curr).rtBelow g)
    (hrt : (t.rt g).rtTime = (s.rt g).rtTime)
    (hse : (s.tasks s.curr).rtBelow g → t.se s.curr = s.se s.curr)
    (hclock : t.clockTask = s.clockTask) (hinv : ClockInv t) : Spends g s t where
  curr := hcurr
  below := hbelow
  clock := hinv
  le := hclock.ge
  used := by
    unfold rtUsed rtDue
    rw [hclock, Nat.sub_self, ite_self, hrt, Nat.add_zero]
    by_cases hb : (s.tasks s.curr).rtBelow g
    · rw [if_pos hb, if_pos (hbelow.mpr hb), hcurr, hse hb]
    · rw [if_neg hb, if_neg fun h => hb (hbelow.mp h)]

theorem clockUpdate (hK : ClockInv s) : Spends g s (updateRqClock k s) := by
  have hinv : ClockInv (updateRqClock k s) := hK.clockUpdate
  have hle := hK.start s.curr
  unfold updateRqClock at hinv ⊢
  split at hinv
  · next hskip =>
    rw [if_pos hskip]
    exact refl hK
  · next hskip =>
    rw [if_neg hskip]
    refine ⟨rfl, Iff.rfl, hinv, Nat.le_add_right _ _, ?_⟩
    unfold rtUsed rtDue
    dsimp only
    split
    · omega
    · rfl

/-- A write to the parameters of a task keeps the running one where it is. -/
theorem write (hK : ClockInv s) (f : Task → Task)
    (hf : s.curr = p → (f (s.tasks p)).schedClass = (s.tasks p).schedClass ∧
      (f (s.tasks p)).schedTaskGroup = (s.tasks p).schedTaskGroup) :
    Spends g s (s.setTask p f) := by
  refine of_eq rfl ?_ rfl (fun _ => rfl) rfl ⟨hK.task, hK.bound, hK.start⟩
  show ((s.toBase.setTask p f).tasks s.curr).rtBelow g ↔ _
  rw [Base.setTask_tasks]
  split
  · next hp =>
    obtain ⟨hc, hg⟩ := hf hp
    rw [hp]
    exact Task.rtBelow_congr hc hg
  · exact Iff.rfl

end Spends

/-! ## The charge -/

theorem chargeRtRq_se (k : Kernel σ) (d : Nat) (s : State σ) (g : TaskGroup) :
    (chargeRtRq k d s g).se = s.se := by
  have hresched : ∀ r : State σ × Bool,
      (if r.2 then r.1.reschedTask r.1.curr else r.1).se = r.1.se := by
    intro r
    split <;> rfl
  have hdeq : ∀ u : State σ, (schedRtRqDequeue u g).se = u.se := by
    intro u
    unfold schedRtRqDequeue
    split <;> rfl
  unfold chargeRtRq
  split
  · dsimp only
    rw [hresched]
    rcases schedRtRuntimeExceeded_cases k
      (s.setRtRq g fun r => { r with rtTime := r.rtTime + d }) g with he | ⟨f, he⟩
    · rw [he]
      rfl
    · rw [he]
      split
      · exact hdeq _
      · rfl
  · rfl

theorem updateCurrRt_se (hc : (s.tasks s.curr).schedClass = .rt) :
    (updateCurrRt k s).se = s.chargeCurr.se := by
  rw [updateCurrRt_eq, if_neg (not_not.mpr hc)]
  split
  · rfl
  · generalize s.chargeCurr = u
    generalize (s.tasks s.curr).schedTaskGroup.tails = l
    induction l generalizing u with
    | nil => rfl
    | cons g l ih => rw [List.foldl_cons, ih, chargeRtRq_se]

/-- For a group with a runtime the charge is added to `rt_time`. -/
theorem Kernel.Charges.charged (hg : k.Charges g) (d : Nat) (b : Nat × Bool) :
    (charged k g d b).1 = b.1 + d := by
  unfold Sched.charged
  rw [if_neg hg.inf]
  split
  · rw [if_pos hg.zero]
  · rfl

theorem updateCurrRt_rtTime (hg : k.Charges g) :
    ((updateCurrRt k s).rt g).rtTime =
      (s.rt g).rtTime + if (s.tasks s.curr).rtBelow g then s.deltaExec else 0 := by
  have h := congrArg Prod.fst (updateCurrRt_budget k s g)
  rw [show (budget ((updateCurrRt k s).rt g)).1 = ((updateCurrRt k s).rt g).rtTime from rfl] at h
  rw [h]
  by_cases hb : (s.tasks s.curr).rtBelow g
  · rw [if_pos ⟨hb.1, hg.enabled, hb.2⟩, if_pos hb, hg.charged]
    rfl
  · rw [if_neg fun hc => hb ⟨hc.1, hc.2.2⟩, if_neg hb]
    rfl

/-- After the charge nothing is due. -/
theorem updateCurrRt_due (hb : (s.tasks s.curr).rtBelow g) :
    ((updateCurrRt k s).se s.curr).execStart = s.clockTask := by
  rw [updateCurrRt_se hb.1]
  exact chargeCurr_start

/-- What is due moves to `rt_time`. -/
theorem updateCurrRt_used (hg : k.Charges g) (hK : ClockInv s) :
    ((updateCurrRt k s).rt g).rtTime = rtUsed g s := by
  rw [updateCurrRt_rtTime hg, hK.deltaExec]
  rfl

/-! ## Hooks -/

theorem hookOf_below {c : SchedClass} {h : Hook} {a : Nat} (q : Pid) :
    (((hookOf k c h s p a).tasks q).rtBelow g ↔ (s.tasks q).rtBelow g) := by
  rw [Task.eq_of_params (Base.params_eq (hookOf_outline k c h s p a) q)]
  exact Iff.rfl

/-- The other classes do not touch the account of a real-time task. -/
theorem hookOf_se_rt {c : SchedClass} {h : Hook} {a : Nat} (hc : c ≠ .rt)
    (hset : h ≠ .setCurrTask) (hput : h = .putPrevTask → (s.tasks p).schedClass = c)
    (hrt : (s.tasks s.curr).schedClass = .rt) :
    (hookOf k c h s p a).se s.curr = s.se s.curr := by
  by_cases hwrr : c = .wrr
  · subst hwrr
    have hkeep : (updateCurrWrr s).se s.curr = s.se s.curr := by
      rw [updateCurrWrr, if_pos (by rw [hrt]; simp)]
    show (wrrHook k.toConfig h s p a).se s.curr = _
    rw [wrrHook_se]
    cases h with
    | dequeueTask => exact hkeep
    | taskTick => exact hkeep
    | putPrevTask =>
      have hne : s.curr ≠ p := by
        rintro rfl
        rw [hput rfl] at hrt
        cases hrt
      exact (setExecStart_of_ne hne 0).trans hkeep
    | setCurrTask => exact absurd rfl hset
    | _ => rfl
  · refine (hookOf_se_other hwrr (fun h => absurd h hset) s.curr).resolve_right fun h => ?_
    exact hc (h.1.symm.trans hrt)

/-- **Hooks.** No hook but `set_curr_task` changes what the group has used. -/
theorem Spends.hook (hg : k.Charges g) (hK : ClockInv s) {c : SchedClass} {h : Hook} {a : Nat}
    (hset : h ≠ .setCurrTask) (hput : h = .putPrevTask → (s.tasks p).schedClass = c) :
    Spends g s (hookOf k c h s p a) := by
  have hinv : ClockInv (hookOf k c h s p a) := hK.hook fun hh => absurd hh hset
  have hcurr : (hookOf k c h s p a).curr = s.curr := Base.curr_eq (hookOf_outline ..)
  have hclock := (hookOf_clock k c h s p a).2
  have hbelow : ((hookOf k c h s p a).tasks (hookOf k c h s p a).curr).rtBelow g ↔
      (s.tasks s.curr).rtBelow g := by
    rw [hcurr]
    exact hookOf_below _
  by_cases hc : c = .rt
  · subst hc
    rcases rtHook_charges k h s p a hset with ⟨hb, hse⟩ | ⟨hb, hse⟩
    · exact .of_eq hcurr hbelow (congrArg Prod.fst (hb g)) (fun _ => congrFun hse _) hclock hinv
    · refine ⟨hcurr, hbelow, hinv, hclock.ge, ?_⟩
      have htime : ((hookOf k .rt h s p a).rt g).rtTime = rtUsed g s :=
        (congrArg Prod.fst (hb g)).trans (updateCurrRt_used hg hK)
      have hdue : rtDue g (hookOf k .rt h s p a) = 0 := by
        unfold rtDue
        split
        · next hb' =>
          have hstart := updateCurrRt_due (k := k) (hbelow.mp hb')
          have hse' : (hookOf k .rt h s p a).se s.curr = (updateCurrRt k s).se s.curr :=
            congrFun hse _
          rw [hcurr, hse', hstart, hclock]
          exact Nat.sub_self _
        · rfl
      rw [rtUsed, htime, hdue, hclock, Nat.sub_self, ite_self]
  · refine .of_eq hcurr hbelow ?_ (fun hb => hookOf_se_rt hc hset hput hb.1) hclock hinv
    rw [hookOf_rt_of_ne hc]

theorem Spends.taskHook (hg : k.Charges g) (hK : ClockInv s) {h : Hook} {a : Nat}
    (hset : h ≠ .setCurrTask) : Spends g s (taskHook k h s p a) :=
  .hook hg hK hset fun _ => rfl

end Small

/-! ## Pieces of the core -/

section Pieces

variable {k : Kernel σ} {g : TaskGroup} {s t : State σ} {p : Pid}

/-- Only flags are written. -/
theorem Spends.flags (hK : ClockInv s) (resched : Pid → Bool) (skip : Int) :
    Spends g s { s with needResched := resched, skipClockUpdate := skip } :=
  .of_eq rfl Iff.rfl rfl (fun _ => rfl) rfl ⟨hK.task, hK.bound, hK.start⟩

theorem enqueueTask_spends (hg : k.Charges g) (hK : ClockInv s) (flags : Nat) :
    Spends g s (enqueueTask k s p flags) :=
  (Spends.clockUpdate hK).trans (.taskHook hg hK.clockUpdate (by simp))

theorem dequeueTask_spends (hg : k.Charges g) (hK : ClockInv s) (flags : Nat) :
    Spends g s (dequeueTask k s p flags) :=
  (Spends.clockUpdate hK).trans (.taskHook hg hK.clockUpdate (by simp))

theorem checkPreemptCurr_spends (hg : k.Charges g) (hK : ClockInv s) (flags : Nat) :
    Spends g s (checkPreemptCurr k s p flags) := by
  have hskip : ∀ u : State σ, Spends g s u → Spends g s
      (if (u.tasks u.curr).onRq = true ∧ u.needResched u.curr = true then
        { u with skipClockUpdate := 1 } else u) := by
    intro u hu
    split
    · exact hu.trans (.flags hu.clock u.needResched 1)
    · exact hu
  unfold checkPreemptCurr
  refine hskip _ ?_
  split
  · exact .hook hg hK (h := .checkPreemptCurr) (by simp) (by simp)
  · split
    · exact .flags hK _ s.skipClockUpdate
    · exact .refl hK

theorem checkClassChanged_spends (hg : k.Charges g) (hK : ClockInv s) (c : SchedClass)
    (oldprio : Nat) : Spends g s (checkClassChanged k s p c oldprio) := by
  unfold checkClassChanged
  split
  · have hfrom : Spends g s (hookOf k c .switchedFrom s p 0) :=
      .hook hg hK (by simp) (by simp)
    exact hfrom.trans (.taskHook hg hfrom.clock (by simp))
  · split
    · exact .taskHook hg hK (by simp)
    · exact .refl hK

theorem ttwuActivate_spends (hg : k.Charges g) (hK : ClockInv s) (flags : Nat) :
    Spends g s (ttwuActivate k s p flags) := by
  have henq := enqueueTask_spends (p := p) hg hK flags
  exact henq.trans (.write henq.clock _ fun _ => ⟨rfl, rfl⟩)

theorem ttwuDoWakeup_spends (hg : k.Charges g) (hK : ClockInv s) (flags : Nat) :
    Spends g s (ttwuDoWakeup k s p flags) := by
  have hcheck := checkPreemptCurr_spends (p := p) hg hK flags
  exact hcheck.trans (.write hcheck.clock _ fun _ => ⟨rfl, rfl⟩)

theorem tryToWakeUp_spends (hg : k.Charges g) (hK : ClockInv s) (state flags : Nat) :
    Spends g s (tryToWakeUp k s p state flags) := by
  unfold tryToWakeUp
  split
  · exact .refl hK
  · split
    · exact ttwuDoWakeup_spends hg hK flags
    · have hact := ttwuActivate_spends (p := p) hg hK enqueueWakeup
      exact hact.trans (ttwuDoWakeup_spends hg hact.clock 0)

theorem tryToWakeUpLocal_spends (hg : k.Charges g) (hK : ClockInv s) :
    Spends g s (tryToWakeUpLocal k s p) := by
  unfold tryToWakeUpLocal
  split
  · exact .refl hK
  · split
    · exact .refl hK
    · dsimp only
      split
      · exact ttwuDoWakeup_spends hg hK 0
      · have hact := ttwuActivate_spends (p := p) hg hK enqueueWakeup
        exact hact.trans (ttwuDoWakeup_spends hg hact.clock 0)

theorem wakeUpNewTask_spends (hg : k.Charges g) (hK : ClockInv s) :
    Spends g s (wakeUpNewTask k s p) := by
  have hact := ttwuActivate_spends (p := p) hg hK 0
  exact hact.trans (checkPreemptCurr_spends hg hact.clock wfFork)

theorem schedulePrev_spends (hg : k.Charges g) (hK : ClockInv s) (e : SchedEnv) :
    Spends g s (schedulePrev k s e) := by
  unfold schedulePrev
  dsimp only
  split
  · split
    · exact .write hK _ fun _ => ⟨rfl, rfl⟩
    · have hdeq := dequeueTask_spends (p := s.curr) hg hK dequeueSleep
      have hprev := hdeq.trans
        (.write (p := s.curr) hdeq.clock (fun t => { t with onRq := false }) fun _ => ⟨rfl, rfl⟩)
      cases e.toWakeup with
      | none => exact hprev
      | some w => exact hprev.trans (tryToWakeUpLocal_spends hg hprev.clock)
  · exact .refl hK

/-- The new task is not the running one. -/
theorem schedFork_spends (hg : k.Charges g) (hK : ClockInv s) (hcurr : s.curr < s.nrTasks)
    (mm : Bool) : Spends g s (schedFork k s mm) := by
  have hne : s.curr ≠ s.nrTasks := Nat.ne_of_lt hcurr
  unfold schedFork
  dsimp only
  generalize hu : ({ s with
    tasks := Function.update s.tasks s.nrTasks (forkedTask (s.tasks s.curr) mm)
    nrTasks := s.nrTasks + 1
    se := Function.update s.se s.nrTasks ⟨0, 0, 0, 0⟩
    rtTimeSlice := Function.update s.rtTimeSlice s.nrTasks (s.rtTimeSlice s.curr)
    needResched := Function.update s.needResched s.nrTasks false } : State σ) = u
  have hnew : Spends g s u := by
    subst hu
    refine .of_eq rfl ?_ rfl (fun _ => ?_) rfl ⟨hK.task, hK.bound, fun q => ?_⟩
    · show (Function.update s.tasks s.nrTasks _ s.curr).rtBelow g ↔ _
      rw [Function.update_of_ne hne]
    · exact Function.update_of_ne hne _ _
    · show (Function.update s.se s.nrTasks _ q).execStart ≤ s.clockTask
      rw [Function.update_apply]
      split
      · exact Nat.zero_le _
      · exact hK.start q
  exact hnew.trans (.taskHook hg hnew.clock (by simp))

theorem setUserNice_spends (hg : k.Charges g) (hK : ClockInv s) (nice : Int) :
    Spends g s (setUserNice k s p nice) := by
  unfold setUserNice
  split
  · exact .refl hK
  · split
    · exact .write hK _ fun _ => ⟨rfl, rfl⟩
    · dsimp only
      have hnice : ∀ u : State σ, Spends g s u → Spends g s
          (u.setTask p fun t => effectivePrio { t with staticPrio := niceToPrio nice }) :=
        fun u hu => hu.trans (.write hu.clock _ fun _ => ⟨rfl, rfl⟩)
      have hdeq := dequeueTask_spends (p := p) hg hK 0
      cases (s.tasks p).onRq with
      | false => exact hnice s (.refl hK)
      | true =>
        simp only [if_true]
        have hset := hnice _ hdeq
        have henq := hset.trans (enqueueTask_spends (p := p) hg hset.clock 0)
        split
        · exact henq.trans (.flags henq.clock _ _)
        · exact henq

/-! ## Changes of parameters -/

theorem moveHook_spends (hg : k.Charges g) (hK : ClockInv s) (moved : Option Nat) :
    Spends g s (moveHook k moved s p) := by
  cases moved with
  | none => exact .refl hK
  | some a => exact .taskHook hg hK (by simp)

/-- A change to a task that does not run. -/
theorem retask_spends (hg : k.Charges g) (hK : ClockInv s) (hp : s.curr ≠ p) (flags : Nat)
    {f : Task → Task} {change : State σ → State σ}
    (hchange : ∀ u : State σ, ∃ moved, change u = moveHook k moved (u.setTask p f) p) :
    Spends g s (retask k s p flags change) := by
  have hmid : ∀ u : State σ, Spends g s u → Spends g s (change u) := by
    intro u hu
    obtain ⟨moved, hm⟩ := hchange u
    have hset : Spends g u (u.setTask p f) := .write hu.clock f fun h => absurd (hu.curr ▸ h) hp
    rw [hm]
    exact hu.trans (hset.trans (moveHook_spends hg hset.clock moved))
  have hdeq := dequeueTask_spends (p := p) hg hK 0
  unfold retask
  simp only [hp, decide_false, Bool.false_eq_true, if_false]
  cases (s.tasks p).onRq with
  | false => exact hmid s (.refl hK)
  | true =>
    have hset := hmid _ hdeq
    exact hset.trans (enqueueTask_spends hg hset.clock flags)

/-- What a step that ends with the same task running makes of the time used. -/
structure Used (k : Kernel σ) (g : TaskGroup) (s t : State σ) : Prop where
  curr  : t.curr = s.curr
  clock : ClockInv t
  used  : rtUsed g t = rtUsed g s + ranBelow k g s t

/-- The whole time of a step counts, or none of it, if the running task stays where it is. -/
theorem ranBelow_of_iff (h : (t.tasks s.curr).rtBelow g ↔ (s.tasks s.curr).rtBelow g) :
    ranBelow k g s t =
      if (s.tasks s.curr).rtBelow g then t.clockTask - s.clockTask else 0 := by
  by_cases hb : (s.tasks s.curr).rtBelow g <;> simp [ranBelow, h, hb]

theorem Spends.toUsed (h : Spends g s t) : Used k g s t where
  curr := h.curr
  clock := h.clock
  used := by
    have hbelow := h.below
    rw [h.curr] at hbelow
    rw [h.used, ranBelow_of_iff hbelow]

/-- A piece in which the running task may change place, between two in which it does
not: the piece takes no time and charges all that is due. -/
theorem Used.between {u v : State σ} (h₁ : Spends g s u) (h₂ : Spends g v t)
    (hchange : u.clockTask = changeClock k s) (hcurr : v.curr = u.curr)
    (hclock : v.clockTask = u.clockTask) (hused : rtUsed g v = rtUsed g u) : Used k g s t where
  curr := h₂.curr.trans (hcurr.trans h₁.curr)
  clock := h₂.clock
  used := by
    have hle₁ := h₁.le
    have hle₂ := h₂.le
    have hbelow : (v.tasks v.curr).rtBelow g ↔ (t.tasks s.curr).rtBelow g := by
      rw [← h₂.below, h₂.curr, hcurr, h₁.curr]
    rw [h₂.used, hused, h₁.used, ranBelow, ← hchange, hclock, Nat.add_assoc]
    rw [hclock] at hle₂
    congr 1
    by_cases hb : (s.tasks s.curr).rtBelow g <;> by_cases ha : (t.tasks s.curr).rtBelow g <;>
      simp only [hbelow, hb, ha, and_self, and_true, and_false, if_true, if_false] <;> omega

/-- Putting the running task charges it. -/
theorem putPrev_used (hg : k.Charges g) (hK : ClockInv s) :
    ((taskHook k .putPrevTask s s.curr 0).rt g).rtTime = rtUsed g s := by
  by_cases hc : (s.tasks s.curr).schedClass = .rt
  · have he : taskHook k .putPrevTask s s.curr 0 = updateCurrRt k s := by
      unfold taskHook
      rw [hc]
      rfl
    rw [he]
    exact updateCurrRt_used hg hK
  · have he : (taskHook k .putPrevTask s s.curr 0).rt = s.rt := hookOf_rt_of_ne hc
    rw [he, rtUsed, rtDue, if_neg fun hb => hc hb.1, Nat.add_zero]

/-- Setting the running task again leaves nothing due. -/
theorem setCurr_used : rtUsed g (taskHook k .setCurrTask s s.curr 0) = (s.rt g).rtTime := by
  have hcurr : (taskHook k .setCurrTask s s.curr 0).curr = s.curr :=
    Base.curr_eq (taskHook_outline ..)
  have hrt : ((taskHook k .setCurrTask s s.curr 0).rt g).rtTime = (s.rt g).rtTime := by
    by_cases hc : (s.tasks s.curr).schedClass = .rt
    · unfold taskHook
      rw [hc]
      rfl
    · exact congrArg (fun rt => RtRq.rtTime (rt g)) (hookOf_rt_of_ne hc)
  have hdue : rtDue g (taskHook k .setCurrTask s s.curr 0) = 0 := by
    unfold rtDue
    split
    · next hb =>
      rw [hcurr] at hb
      have hc : (s.tasks s.curr).schedClass = .rt := ((hookOf_below s.curr).mp hb).1
      have he : taskHook k .setCurrTask s s.curr 0 = s.setExecStart s.curr s.clockTask := by
        unfold taskHook
        rw [hc]
        rfl
      rw [he]
      show s.clockTask - ((s.setExecStart s.curr s.clockTask).se s.curr).execStart = 0
      rw [setExecStart_self]
      exact Nat.sub_self _
    · rfl
  rw [rtUsed, hrt, hdue, Nat.add_zero]

/-- **A change of parameters**, of the running task or of another one. -/
theorem retask_used (hg : k.Charges g) (hK : ClockInv s) (flags : Nat) {f : Task → Task}
    {change : State σ → State σ} (after : State σ → State σ)
    (hchange : ∀ u : State σ, ∃ moved, change u = moveHook k moved (u.setTask p f) p)
    (hafter : ∀ u, ClockInv u → Spends g u (after u)) :
    Used k g s (after (retask k s p flags change)) := by
  by_cases hp : s.curr = p
  · subst hp
    unfold retask
    simp only [decide_true, if_true]
    -- off the queue and off the cpu
    have hdeq : Spends g s (if (s.tasks s.curr).onRq = true then
        dequeueTask k s s.curr 0 else s) := by
      split
      · exact dequeueTask_spends hg hK 0
      · exact .refl hK
    have hmid : (if (s.tasks s.curr).onRq = true then dequeueTask k s s.curr 0 else s).clockTask =
        changeClock k s := rfl
    generalize (if (s.tasks s.curr).onRq = true then dequeueTask k s s.curr 0 else s) =
      u at hdeq hmid
    rw [← hdeq.curr]
    have hput := putPrev_used (k := k) hg hdeq.clock
    have hputK : ClockInv (taskHook k .putPrevTask u u.curr 0) := hdeq.clock.hook (by simp)
    have hputClock : (taskHook k .putPrevTask u u.curr 0).clockTask = u.clockTask :=
      (hookOf_clock ..).2
    have hputCurr : (taskHook k .putPrevTask u u.curr 0).curr = u.curr :=
      Base.curr_eq (taskHook_outline ..)
    generalize taskHook k .putPrevTask u u.curr 0 = v at hput hputK hputClock hputCurr
    -- changed and moved
    obtain ⟨moved, hm⟩ := hchange v
    rw [hdeq.curr] at hputCurr ⊢
    rw [hm]
    have hsetK : ClockInv (v.setTask s.curr f) := ⟨hputK.task, hputK.bound, hputK.start⟩
    have hmoveK : ClockInv (moveHook k moved (v.setTask s.curr f) s.curr) :=
      ClockInv.moveHook moved hsetK
    have hmoveClock : (moveHook k moved (v.setTask s.curr f) s.curr).clockTask = u.clockTask :=
      (moveHook_clockTask moved).trans hputClock
    have hmoveCurr : (moveHook k moved (v.setTask s.curr f) s.curr).curr = s.curr :=
      (Base.curr_eq (moveHook_outline ..)).trans hputCurr
    have hmoveRt : ((moveHook k moved (v.setTask s.curr f) s.curr).rt g).rtTime = rtUsed g u := by
      have hrt : (moveHook k moved (v.setTask s.curr f) s.curr).rt = v.rt := by
        cases moved with
        | none => rfl
        | some a =>
          show (hookOf k _ .taskMoveGroup _ _ _).rt = _
          by_cases hc : ((v.setTask s.curr f).tasks s.curr).schedClass = .rt
          · rw [hc]
            rfl
          · exact hookOf_rt_of_ne hc
      rw [hrt, hput]
    generalize moveHook k moved (v.setTask s.curr f) s.curr =
      w at hmoveK hmoveClock hmoveCurr hmoveRt
    -- set again
    rw [← hmoveCurr]
    have hset := setCurr_used (k := k) (g := g) (s := w)
    have hsetK : ClockInv (taskHook k .setCurrTask w w.curr 0) := hmoveK.hook fun _ => rfl
    have hsetClock : (taskHook k .setCurrTask w w.curr 0).clockTask = w.clockTask :=
      (hookOf_clock ..).2
    have hsetCurr : (taskHook k .setCurrTask w w.curr 0).curr = w.curr :=
      Base.curr_eq (taskHook_outline ..)
    generalize taskHook k .setCurrTask w w.curr 0 = x at hset hsetK hsetClock hsetCurr
    have henq : Spends g x (if (s.tasks w.curr).onRq = true then enqueueTask k x w.curr flags
        else x) := by
      split
      · exact enqueueTask_spends hg hsetK flags
      · exact .refl hsetK
    refine .between hdeq (henq.trans (hafter _ henq.clock)) hmid ?_ (hsetClock.trans hmoveClock) ?_
    · rw [hsetCurr, hmoveCurr, hdeq.curr]
    · rw [hset, hmoveRt]
  · have h := retask_spends hg hK hp flags hchange
    exact (h.trans (hafter _ h.clock)).toUsed

/-! ## Operations -/

theorem schedSetscheduler_used (hg : k.Charges g) (hK : ClockInv s) (a : SetschedArgs) :
    Used k g s (schedSetscheduler k s p a).2 := by
  unfold schedSetscheduler
  split
  · exact (Spends.refl hK).toUsed
  · exact (Spends.refl hK).toUsed
  · exact retask_used hg hK 0 (fun u => checkClassChanged k u p _ _)
      (fun u => ⟨none, rfl⟩) fun u hu => checkClassChanged_spends hg hu _ _

theorem schedSetscheduler_spends (hg : k.Charges g) (hK : ClockInv s) (hp : s.curr ≠ p)
    (a : SetschedArgs) : Spends g s (schedSetscheduler k s p a).2 := by
  unfold schedSetscheduler
  split
  · exact .refl hK
  · exact .refl hK
  · next policy reset _ =>
    have h := retask_spends hg hK hp 0
      (f := setschedulerTask policy a.schedPriority.toNat reset) fun u => ⟨none, rfl⟩
    exact h.trans (checkClassChanged_spends hg h.clock _ _)

theorem schedSetStopTask_spends (hg : k.Charges g) (hK : ClockInv s) {stop : Option Pid}
    (hnew : ∀ q ∈ stop, s.offCpu q) (hold : ∀ q ∈ s.stop, s.offCpu q) :
    Spends g s (schedSetStopTask k s stop) := by
  have hinstall : Spends g s (installStopTask k s stop) := by
    cases stop with
    | none => exact .refl hK
    | some p =>
      have hp : s.curr ≠ p := (hnew p rfl).2.2.1.symm
      have h := schedSetscheduler_spends hg hK hp stopArgs
      exact h.trans (.write h.clock _ fun hc => absurd (h.curr ▸ hc) hp)
  have hset : Spends g s { installStopTask k s stop with stop := stop } :=
    hinstall.trans (.of_eq rfl Iff.rfl rfl (fun _ => rfl) rfl
      ⟨hinstall.clock.task, hinstall.clock.bound, hinstall.clock.start⟩)
  show Spends g s (retireStopTask _ s.stop)
  cases hq : s.stop with
  | none => exact hset
  | some q =>
    have hne : s.curr ≠ q := (hold q hq).2.2.1.symm
    exact hset.trans (.write hset.clock _ fun hc => absurd (hset.curr ▸ hc) hne)

/-- An operation that neither switches tasks nor pays back. -/
theorem step_keep_used {op : Op} (hg : k.Charges g) (hI : Inv k s) (hK : ClockInv s)
    (h : step k s op = some t) (hsw : op.switches = false) (htimer : op.isTimer = false) :
    Used k g s t := by
  obtain ⟨hen, hexec⟩ := step_exec h
  -- a call that moves or reclasses the running task puts it down first; all others only spend time
  cases op with
  | setState st =>
    obtain rfl := Option.some.inj hexec
    exact (Spends.write hK _ fun _ => ⟨rfl, rfl⟩).toUsed
  | schedule e => cases hsw
  | tick =>
    obtain rfl := Option.some.inj hexec
    exact ((Spends.clockUpdate hK).trans (.taskHook hg hK.clockUpdate (by simp))).toUsed
  | wakeUp p state flags =>
    obtain rfl := Option.some.inj hexec
    exact (tryToWakeUp_spends hg hK state flags).toUsed
  | wakeUpNewTask p =>
    obtain rfl := Option.some.inj hexec
    exact (wakeUpNewTask_spends hg hK).toUsed
  | fork mm =>
    obtain rfl := Option.some.inj hexec
    exact (schedFork_spends hg hK hI.curr.1 mm).toUsed
  | setscheduler p a =>
    obtain rfl := Option.some.inj hexec
    exact schedSetscheduler_used hg hK a
  | rtMutexSetprio p prio =>
    obtain rfl := Option.some.inj hexec
    unfold rtMutexSetprio
    split
    · exact (Spends.refl hK).toUsed
    · exact retask_used hg hK _ (fun u => checkClassChanged k u p _ _)
        (fun u => ⟨none, rfl⟩) fun u hu => checkClassChanged_spends hg hu _ _
  | setUserNice p nice =>
    obtain rfl := Option.some.inj hexec
    exact (setUserNice_spends hg hK nice).toUsed
  | schedMoveTask p dest =>
    obtain rfl := Option.some.inj hexec
    exact retask_used hg hK 0 id (f := fun t => { t with schedTaskGroup := dest })
      (fun u => ⟨some _, rfl⟩) fun u hu => .refl hu
  | schedYield e => cases hsw
  | piWaiter p w =>
    obtain rfl := Option.some.inj hexec
    exact (Spends.write hK _ fun _ => ⟨rfl, rfl⟩).toUsed
  | rtPeriodTimer _ n => cases htimer
  | setStopTask stop =>
    obtain rfl := Option.some.inj hexec
    exact (schedSetStopTask_spends hg hK hen.1 hen.2).toUsed

/-- A switch charges the task that ran, and the next one starts with nothing due. -/
theorem schedule_used {e : SchedEnv} (hg : k.Charges g) (hI : Inv k s) (hI' : Inv k t)
    (hK : ClockInv s) (he : e.valid s) (h : schedule k s e = some t) :
    ((t.tasks s.curr).rtBelow g ↔ (s.tasks s.curr).rtBelow g) ∧ rtUsed g t =
      rtUsed g s + if (s.tasks s.curr).rtBelow g then t.clockTask - s.clockTask else 0 := by
  have hprev := schedulePrev_spends hg hK e
  have hQ := hI.queues_putPrev he
  unfold schedule at h
  dsimp only at h
  unfold putPrevTask at h hQ
  dsimp only at h hQ
  have hw : Spends g s (if ((schedulePrev k s e).tasks s.curr).onRq = true ∨
      (schedulePrev k s e).skipClockUpdate < 0 then updateRqClock k (schedulePrev k s e)
      else schedulePrev k s e) := by
    split
    · exact hprev.trans (.clockUpdate hprev.clock)
    · exact hprev
  generalize (if ((schedulePrev k s e).tasks s.curr).onRq = true ∨
    (schedulePrev k s e).skipClockUpdate < 0 then updateRqClock k (schedulePrev k s e)
    else schedulePrev k s e) = w at h hQ hw
  rw [← hw.curr] at h hQ
  have hput := putPrev_used (k := k) hg hw.clock
  have hclock : (taskHook k .putPrevTask w w.curr 0).clockTask = w.clockTask := (hookOf_clock ..).2
  have hstays : ((taskHook k .putPrevTask w w.curr 0).tasks s.curr).rtBelow g ↔
      (s.tasks s.curr).rtBelow g := by
    refine (hookOf_below s.curr).trans ?_
    rw [← hw.below, hw.curr]
  generalize taskHook k .putPrevTask w w.curr 0 = x at h hQ hput hclock hstays
  split at h
  · cases h
  · next next u hpick =>
    obtain rfl := Option.some.inj h
    obtain ⟨c, hc⟩ := pickNextTask_pickOf hpick
    have hrt : u.rt = x.rt := by
      rcases pickOf_cases hc with ⟨-, rfl⟩ | ⟨-, rfl⟩ | ⟨-, -, e, -, rfl⟩ <;> rfl
    have huclock : u.clockTask = w.clockTask := (pickOf_accounts hc).1.2.trans hclock
    have hbase := pickOf_toBase hc
    -- a real-time task is picked by its class, which restarts its account
    have hdue : (u.tasks next).rtBelow g → u.clockTask - (u.se next).execStart = 0 := by
      intro hb
      rcases hQ.pick_some hc with ⟨rfl, hidle⟩ | ⟨-, -, hcls, -⟩
      · have hi : u.idle = x.idle := by rw [hbase]
        have hclass := (hI'.tasks.idle_class _ hI'.curr.1).mpr (hidle.trans hi.symm)
        exact absurd (hb.1.symm.trans hclass) (by simp)
      · rw [← hbase] at hcls
        obtain rfl : SchedClass.rt = c := hb.1.symm.trans hcls
        rcases pickOf_cases hc with ⟨-, rfl⟩ | ⟨hf, -⟩ | ⟨hf, -⟩
        · show x.clockTask - ((x.setExecStart next x.clockTask).se next).execStart = 0
          rw [setExecStart_self]
          exact Nat.sub_self _
        · cases hf
        · exact absurd rfl hf
    refine ⟨?_, ?_⟩
    · show (u.toBase.tasks s.curr).rtBelow g ↔ _
      rw [hbase]
      exact hstays
    show (u.rt g).rtTime + (if (u.tasks next).rtBelow g then _ else 0) = _
    have hzero : (if (u.tasks next).rtBelow g then u.clockTask - (u.se next).execStart else 0) =
        0 := by
      split
      · next hb => exact hdue hb
      · rfl
    rw [hrt, hput]
    refine (congrArg (rtUsed g w + ·) hzero).trans ?_
    rw [Nat.add_zero, hw.used]
    show _ = _ + if _ then u.clockTask - s.clockTask else 0
    rw [huclock]

end Pieces

/-! ## Runs -/

/-- The periods the timer of the group pays for in a step. -/
def overrun (g : TaskGroup) (r : StepRec (State σ) Op) : Nat :=
  match r.op with
  | .rtPeriodTimer h n => if h = g then n else 0
  | _ => 0

section Runs

variable {k : Kernel σ} {g : TaskGroup} {s t : State σ} {op : Op}

theorem doSchedRtPeriodTimer_used (h : TaskGroup) (n : Nat) :
    rtUsed g s ≤ rtUsed g (doSchedRtPeriodTimer k s h n) +
      (if h = g then n else 0) * k.rtRuntime g := by
  have hframe := doSchedRtPeriodTimer_frame k s h n
  have hse : (doSchedRtPeriodTimer k s h n).se = s.se := by
    have henq : ∀ u : State σ, (schedRtRqEnqueue u h).se = u.se := by
      intro u
      unfold schedRtRqEnqueue
      split
      · dsimp only
        split <;> split <;> rfl
      · rfl
    unfold doSchedRtPeriodTimer
    split
    · dsimp only
      split
      · rw [henq]
        split <;> rfl
      · rfl
    · split
      · exact henq s
      · rfl
  have hdue : rtDue g (doSchedRtPeriodTimer k s h n) = rtDue g s := by
    unfold rtDue
    rw [hframe.toBase, hframe.clockTask, hse]
  have htime := congrArg Prod.fst (doSchedRtPeriodTimer_budget k s h n g)
  change ((doSchedRtPeriodTimer k s h n).rt g).rtTime = _ at htime
  unfold rtUsed
  rw [hdue, htime]
  by_cases hg : h = g
  · subst hg
    simp only [if_true, refilled, budget]
    have := Nat.min_le_right (s.rt h).rtTime (n * k.rtRuntime h)
    omega
  · rw [if_neg (Ne.symm hg)]
    exact Nat.le_add_right _ _

theorem Inv.yield (hI : Inv k s) (hne : s.curr ≠ s.idle) : Inv k (yieldTask k s) := by
  have hout : (yieldTask k s).toBase.outline = s.toBase.outline := taskHook_outline ..
  refine ⟨TaskInv.of_outline ?_, CurrOk.of_outline hout hI.curr, ?_⟩
  · rw [hout]
    exact hI.tasks.to_outline
  · rw [Base.queued_eq hout]
    exact hI.queues.yield (hI.curr.mem_queued hne)

/-- **One operation.** The time the group got is used, and only the timer pays back. -/
theorem step_used (hg : k.Charges g) (hI : Inv k s) (hK : ClockInv s) (h : step k s op = some t) :
    rtUsed g s + ranBelow k g s t ≤ rtUsed g t + overrun g ⟨s, op, t⟩ * k.rtRuntime g := by
  have hI' := hI.step h
  -- a run of schedule() charges all of the time
  have hswitch : ((t.tasks s.curr).rtBelow g ↔ (s.tasks s.curr).rtBelow g) ∧ (rtUsed g t =
      rtUsed g s + if (s.tasks s.curr).rtBelow g then t.clockTask - s.clockTask else 0) →
      rtUsed g s + ranBelow k g s t ≤ rtUsed g t + overrun g ⟨s, op, t⟩ * k.rtRuntime g := by
    rintro ⟨hbelow, hused⟩
    rw [hused, ranBelow_of_iff hbelow]
    exact Nat.le_add_right _ _
  cases hsw : op.switches with
  | true =>
    obtain ⟨hen, hexec⟩ := step_exec h
    cases op with
    | schedule e => exact hswitch (schedule_used hg hI hI' hK hen hexec)
    | schedYield e =>
      obtain ⟨he, -, hnidle⟩ := hen
      have hne : s.curr ≠ s.idle := fun hi => hnidle ((hI.tasks.idle_class _ hI.curr.1).mpr hi)
      have hy : Spends g s (yieldTask k s) := .taskHook hg hK (by simp)
      have hyout : (yieldTask k s).toBase.outline = s.toBase.outline := taskHook_outline ..
      have hyclock : (yieldTask k s).clockTask = s.clockTask := (hookOf_clock ..).2
      obtain ⟨hstays, hused⟩ := schedule_used hg (hI.yield hne) hI' hy.clock
        (fun w hw => (Base.nrTasks_eq hyout).symm ▸ he w hw) hexec
      have hbelow := hy.below
      rw [hy.curr] at hbelow hstays hused
      refine hswitch ⟨hstays.trans hbelow, ?_⟩
      rw [hused, hy.used, hyclock, Nat.sub_self, ite_self, Nat.add_zero]
      by_cases hb : (s.tasks s.curr).rtBelow g
      · rw [if_pos hb, if_pos (hbelow.mpr hb)]
      · rw [if_neg hb, if_neg fun h => hb (hbelow.mp h)]
    | _ => cases hsw
  | false =>
    cases htimer : op.isTimer with
    | true =>
      obtain ⟨-, hexec⟩ := step_exec h
      cases op with
      | rtPeriodTimer g' n =>
        obtain rfl := Option.some.inj hexec
        have hframe := doSchedRtPeriodTimer_frame k s g' n
        have hran : ranBelow k g s (doSchedRtPeriodTimer k s g' n) = 0 := by
          rw [ranBelow_of_iff (by rw [hframe.toBase]), hframe.clockTask, Nat.sub_self, ite_self]
        rw [hran]
        exact doSchedRtPeriodTimer_used g' n
      | _ => cases htimer
    | false =>
      have hused := (step_keep_used hg hI hK h hsw htimer).used
      exact Nat.le_add_right_of_le hused.ge

end Runs

/-- **Supply bound.** With bandwidth control enabled, take a group with a runtime below its
period and a run from a reachable state that leaves the group unthrottled. Then the time its
real-time tasks and those of the groups below it were running is at most `rt_runtime` for
every period the timer has paid for, one `rt_runtime` more, and what the running task has yet
to be charged for. Time used beyond the budget, also by boosted tasks, is paid for later; a
task that changes its class or group while it runs counts up to the change or from it on. -/
theorem rt_supply_bound (k : Kernel σ) (g : TaskGroup) (hg : k.Charges g)
    (hlim : k.rtRuntime g < k.rtPeriod g) (s t : State σ) (hs : Reachable (step k) (boot k) s)
    (tr : List (StepRec (State σ) Op)) (htr : Steps (step k) s tr t)
    (hopen : (t.rt g).rtThrottled = false) :
    (tr.map fun r => ranBelow k g r.pre r.post).sum ≤
      ((tr.map (overrun g)).sum + 1) * k.rtRuntime g + rtDue g t := by
  have hall := (htr.invariant (P := fun s => Reachable (step k) (boot k) s)
    (fun r _ hstep hr => hr.step hstep) hs)
  have hsum := htr.balance_le (rtUsed g) (fun r => ranBelow k g r.pre r.post)
    (fun r => overrun g r * k.rtRuntime g) fun r hr => by
      have hpre := (hall.2 r hr).1
      exact step_used hg (Inv.reachable hpre) (ClockInv.reachable hpre) (htr.step_of_mem hr)
  have hin := (BudgetInv.reachable hall.1).within g ⟨hlim, hg.inf⟩ hopen
  rw [List.sum_map_mul_right tr (overrun g) (k.rtRuntime g)] at hsum
  have hend : rtUsed g t = (t.rt g).rtTime + rtDue g t := rfl
  rw [Nat.succ_mul]
  omega

/-- The task runs until the group is throttled; its timer then pays for four periods. -/
def supplyOps : List Op :=
  overrunOps ++ [.tick, .schedule ⟨false, false, none⟩, .rtPeriodTimer [2] 4]

theorem rt_supply_bound_four_periods : ∃ t tr,
    Steps (step fifoKernel) (boot fifoKernel) tr t ∧ (t.rt [2]).rtThrottled = false ∧
    (tr.map fun r => ranBelow fifoKernel [2] r.pre r.post).sum = 20 ∧
    (tr.map (overrun [2])).sum = 4 ∧
    (tr.map fun r => ranBelow fifoKernel [2] r.pre r.post).sum ≤ (4 + 1) * 5 + rtDue [2] t := by
  have hrun : (run (step fifoKernel) (boot fifoKernel) supplyOps).any (fun t =>
      (t.rt [2]).rtThrottled = false) = true := by decide +kernel
  have hran : ((trace (step fifoKernel) (boot fifoKernel) supplyOps).map fun r =>
      ranBelow fifoKernel [2] r.pre r.post).sum = 20 := by
    decide +kernel
  have hpaid : ((trace (step fifoKernel) (boot fifoKernel) supplyOps).map (overrun [2])).sum =
      4 := by
    decide +kernel
  obtain ⟨t, ht, hopen⟩ := (Option.any_eq_true _ _).mp hrun
  have hbound := rt_supply_bound fifoKernel [2] ⟨rfl, by decide, by decide⟩ (by decide) _ t
    (Reachable.init _) _ (run_steps ht) (of_decide_eq_true hopen)
  refine ⟨t, _, run_steps ht, of_decide_eq_true hopen, hran, hpaid, ?_⟩
  rw [hpaid] at hbound
  exact hbound

end LinuxKernel.Sched

import LinuxKernel.Ctx.Schedule
import Mathlib.Algebra.BigOperators.Group.Finset.Basic
import Mathlib.Algebra.Order.BigOperators.Group.Finset
import Mathlib.Data.BitVec
import Mathlib.Data.Fintype.BigOperators

/-!
# Context switch counters — every dispatch is counted once

* `step_cases`        — what an operation does to the counters: a call of `__schedule` counts, a new
  task starts with zeros, and everything else leaves them alone.
* `step_total`, `step_rqTotal` — what it adds to a total over all tasks or all run queues.
* `ctx_counts_picks`  — `ctx` of a task.
* `dispatch_counts`   — all counters at the end of a run.
-/

namespace LinuxKernel.Ctx

open LinuxKernel.Lib

variable {Cpu : Type}

/-! ## What is counted -/

abbrev Step (Cpu : Type) := StepRec (State Cpu) (Op Cpu)

/-- The task that `pick_next_task` returned in a call of `__schedule`. -/
def Op.picked : Op Cpu → Option Pid
  | .schedule _ _ _ next => some next
  | _ => none

/-- A call of `__schedule` in which the previous task was picked again. -/
def repicked (r : Step Cpu) : Bool :=
  match r.op with
  | .schedule cpu _ _ next => (r.pre.rq cpu).curr == some next
  | _ => false

/-- A call of `__schedule` in which another task was picked. -/
def switched (r : Step Cpu) : Bool := r.op.picked.isSome && !repicked r

def picks (p : Pid) (tr : List (Step Cpu)) : Nat := tr.countP fun r => r.op.picked == some p
def calls (tr : List (Step Cpu)) : Nat := tr.countP fun r => r.op.picked.isSome
def repicks (tr : List (Step Cpu)) : Nat := tr.countP repicked

section Gain

variable {A : Type} [AddCommMonoid A]

/-- What a step adds. -/
def gain (pick : Pid → A) (switch : A) (r : Step Cpu) : A :=
  (match r.op.picked with
    | none => 0
    | some p => pick p) +
  if switched r then switch else 0

theorem switched_schedule {s t : State Cpu} {cpu : Cpu} {preempt signal : Bool} {next : Pid} :
    switched ⟨s, .schedule cpu preempt signal next, t⟩ = true ↔ (s.rq cpu).curr ≠ some next := by
  simp [switched, repicked, Op.picked]

theorem gain_schedule (pick : Pid → A) (switch : A) (s t : State Cpu) (cpu : Cpu)
    (preempt signal : Bool) (next : Pid) :
    gain pick switch ⟨s, .schedule cpu preempt signal next, t⟩ =
      pick next + if (s.rq cpu).curr = some next then 0 else switch := by
  simp only [gain, switched_schedule, Op.picked]
  by_cases heq : (s.rq cpu).curr = some next
  · simp [heq]
  · simp [heq]

theorem gain_quiet (pick : Pid → A) (switch : A) {r : Step Cpu} (h : r.op.picked = none) :
    gain pick switch r = 0 := by
  simp [gain, switched, h]

end Gain

theorem gain_switched {r : Step Cpu} (h : switched r = true) : 1 ≤ gain (fun _ => 0) 1 r := by
  simp [gain, h]

/-- What adds one in some steps counts them. -/
theorem sum_gain {A : Type} [AddCommMonoidWithOne A] {pick : Pid → A} {switch : A}
    (P : Step Cpu → Bool) (h : ∀ r, gain pick switch r = if P r then 1 else 0)
    (tr : List (Step Cpu)) : (tr.map (gain pick switch)).sum = (tr.countP P : A) := by
  induction tr with
  | nil => simp
  | cons r tr ih =>
    rw [List.map_cons, List.sum_cons, ih, List.countP_cons, h]
    cases P r with
    | true => simp [add_comm]
    | false => simp

theorem sum_gain_switch {A : Type} [AddCommMonoidWithOne A] (tr : List (Step Cpu)) :
    (tr.map (gain (fun _ => (0 : A)) 1)).sum = (tr.countP switched : A) := by
  refine sum_gain switched (fun r => ?_) tr
  cases hpicked : r.op.picked <;> simp [gain, hpicked]

/-- A call either switches or picks the previous task again. -/
theorem countP_switched (tr : List (Step Cpu)) : tr.countP switched + repicks tr = calls tr := by
  unfold calls repicks
  induction tr with
  | nil => rfl
  | cons r tr ih =>
    have hcall : repicked r = true → r.op.picked.isSome = true := by
      obtain ⟨pre, op, post⟩ := r
      cases op <;> simp [repicked, Op.picked]
    have hswitched : switched r = true ↔ r.op.picked.isSome = true ∧ ¬ repicked r = true := by
      simp [switched]
    simp only [List.countP_cons, hswitched]
    by_cases hre : repicked r = true
    · simp [hre, hcall hre]
      omega
    · simp [hre]
      omega

/-! ## One operation -/

/-- Only tasks that were created run. -/
def CurrCreated (s : State Cpu) : Prop := ∀ cpu p, (s.rq cpu).curr = some p → p < s.nrTasks

/-- The counters of a task, which do not depend on its state. -/
def Task.SameCounters (t u : Task) : Prop :=
  t.ctx = u.ctx ∧ t.nvcsw = u.nvcsw ∧ t.nivcsw = u.nivcsw

/-- What a call of `__schedule` does to the tasks and to its run queue. -/
structure Dispatch [DecidableEq Cpu] (s : State Cpu) (cpu : Cpu) (next : Pid) (t : State Cpu) :
    Prop where
  created : next < s.nrTasks
  nrTasks : t.nrTasks = s.nrTasks
  effect  : ∃ prev voluntary, ∃ u : State Cpu, (s.rq cpu).curr = some prev ∧
    u.nrTasks = s.nrTasks ∧ (∀ p, (u.tasks p).SameCounters (s.tasks p)) ∧
    (prev = next ∧ t.tasks = (u.setTask next Task.countPick).tasks ∧ t.rq = s.rq ∨
      prev ≠ next ∧
        t.tasks = ((u.setTask next Task.countPick).setTask prev (·.countSwitch voluntary)).tasks ∧
        t.rq = Function.update s.rq cpu
          { curr := some next, nrSwitches := (s.rq cpu).nrSwitches + 1 })

/-- The tasks there were are counted as before, and a new one has zeros. -/
structure Quiet (s t : State Cpu) : Prop where
  old        : ∀ p, p < s.nrTasks → (t.tasks p).SameCounters (s.tasks p)
  new        : t.nrTasks = s.nrTasks ∨ t.nrTasks = s.nrTasks + 1 ∧
    (t.tasks s.nrTasks).SameCounters ⟨0, 0, 0, 0⟩
  nrSwitches : ∀ cpu, (t.rq cpu).nrSwitches = (s.rq cpu).nrSwitches
  curr       : ∀ cpu p, (t.rq cpu).curr = some p → (s.rq cpu).curr = some p ∨ p < s.nrTasks

theorem Task.SameCounters.refl (t : Task) : t.SameCounters t := ⟨rfl, rfl, rfl⟩

theorem setTask_state_same (s : State Cpu) (p : Pid) (st : Nat) (q : Pid) :
    ((s.setTask p fun t => { t with state := st }).tasks q).SameCounters (s.tasks q) := by
  rcases eq_or_ne q p with rfl | hne
  · simp [State.setTask, Task.SameCounters]
  · simp [State.setTask, Task.SameCounters, hne]

theorem Fork.advance_eq_none {f : Fork} (h : f.advance = none) :
    f.task.SameCounters ⟨0, 0, 0, 0⟩ := by
  unfold Fork.advance at h
  split at h
  · simp at h
  · simp at h
  · next hstage => exact ⟨f.ctx_zero (by rw [hstage]; simp), f.switches_zero hstage⟩

theorem Quiet.setFork (s : State Cpu) (p : Pid) (f : Option Fork) : Quiet s (s.setFork p f) where
  old _ _ := .refl _
  new := Or.inl rfl
  nrSwitches _ := rfl
  curr _ _ h := Or.inl h

theorem Quiet.create (s : State Cpu) (parent : Pid) {t : Task}
    (ht : t.SameCounters ⟨0, 0, 0, 0⟩) : Quiet s (s.create parent t) where
  old p hp := by simp [State.create, Function.update_of_ne (Nat.ne_of_lt hp), Task.SameCounters]
  new := Or.inr ⟨rfl, by simpa [State.create] using ht⟩
  nrSwitches _ := rfl
  curr _ _ h := Or.inl h

/-- One value of a sum changes. -/
theorem sum_update {ι β A : Type} [DecidableEq ι] [AddCommMonoid A] {S : Finset ι} {i : ι}
    (hi : i ∈ S) (g : ι → β → A) (f : ι → β) (x : β) (d : A) (h : g i x = g i (f i) + d) :
    ∑ j ∈ S, g j (Function.update f i x j) = ∑ j ∈ S, g j (f j) + d := by
  have hrest : ∑ j ∈ S.erase i, g j (Function.update f i x j) = ∑ j ∈ S.erase i, g j (f j) := by
    refine Finset.sum_congr rfl fun j hj => ?_
    rw [Function.update_of_ne (Finset.ne_of_mem_erase hj)]
  rw [← Finset.add_sum_erase S _ hi, ← Finset.add_sum_erase S (fun j => g j (f j)) hi, hrest,
    Function.update_self, h]
  rw [add_right_comm]

/-- A value of all tasks, added up. -/
def total {A : Type} [AddCommMonoid A] (value : Pid → Task → A) (s : State Cpu) : A :=
  ∑ p ∈ Finset.range s.nrTasks, value p (s.tasks p)

theorem Quiet.total {A : Type} [AddCommMonoid A] {value : Pid → Task → A} {s t : State Cpu}
    (h : Quiet s t)
    (hsame : ∀ p t u, t.SameCounters u → value p t = value p u)
    (hzero : ∀ p, value p ⟨0, 0, 0, 0⟩ = 0) : total value t = total value s := by
  have hold : ∑ p ∈ Finset.range s.nrTasks, value p (t.tasks p) =
      ∑ p ∈ Finset.range s.nrTasks, value p (s.tasks p) :=
    Finset.sum_congr rfl fun p hp => hsame _ _ _ (h.old p (Finset.mem_range.mp hp))
  unfold Ctx.total
  rcases h.new with hnr | ⟨hnr, hnew⟩
  · rw [hnr, hold]
  · rw [hnr, Finset.sum_range_succ, hold, hsame _ _ _ hnew, hzero, add_zero]

variable [DecidableEq Cpu]

theorem schedule_dispatch {s t : State Cpu} {cpu : Cpu} {preempt signal : Bool} {next : Pid}
    (h : schedule s cpu preempt signal next = some t) : Dispatch s cpu next t := by
  unfold schedule at h
  cases hcurr : (s.rq cpu).curr with
  | none => simp [hcurr] at h
  | some prev =>
    simp only [hcurr] at h
    split at h
    · next hnext =>
      generalize (!preempt && (s.tasks prev).state != 0) = voluntary at h
      -- the state of the previous task may have been changed
      obtain ⟨u, hu, hnr, hrq, hsame⟩ : ∃ u : State Cpu,
          (if voluntary && signal then s.setTask prev fun t => { t with state := 0 } else s) = u ∧
          u.nrTasks = s.nrTasks ∧ u.rq = s.rq ∧
          ∀ p, (u.tasks p).SameCounters (s.tasks p) := by
        refine ⟨_, rfl, ?_⟩
        split
        · exact ⟨rfl, rfl, setTask_state_same s prev 0⟩
        · exact ⟨rfl, rfl, fun p => .refl _⟩
      rw [hu] at h
      by_cases heq : prev = next
      · rw [if_neg (by simp [heq])] at h
        obtain rfl := Option.some.inj h
        exact ⟨hnext, hnr, prev, voluntary, u, hcurr, hnr, hsame, Or.inl ⟨heq, rfl, hrq⟩⟩
      · rw [if_pos heq] at h
        obtain rfl := Option.some.inj h
        refine ⟨hnext, hnr, prev, voluntary, u, hcurr, hnr, hsame, Or.inr ⟨heq, rfl, ?_⟩⟩
        simp [hrq]
    · simp at h

/-- **An operation** is a call of `__schedule`, or quiet. -/
theorem step_cases {s t : State Cpu} {op : Op Cpu} (h : step s op = some t) :
    (∃ cpu preempt signal next, op = .schedule cpu preempt signal next ∧ Dispatch s cpu next t) ∨
      op.picked = none ∧ Quiet s t := by
  cases op with
  | schedule cpu preempt signal next =>
    exact Or.inl ⟨cpu, preempt, signal, next, rfl, schedule_dispatch h⟩
  | dup cpu =>
    obtain ⟨p, -, h⟩ := Option.bind_eq_some_iff.mp h
    split at h
    · obtain rfl := Option.some.inj h
      exact Or.inr ⟨rfl, .setFork s p _⟩
    · simp at h
  | copy cpu =>
    obtain ⟨p, -, h⟩ := Option.bind_eq_some_iff.mp h
    unfold copyProcess at h
    split at h
    · simp at h
    · next f hf =>
      split at h
      · obtain rfl := Option.some.inj h
        exact Or.inr ⟨rfl, .setFork s p _⟩
      · next hend =>
        obtain rfl := Option.some.inj h
        exact Or.inr ⟨rfl, .create s p (Fork.advance_eq_none hend)⟩
  | fail cpu =>
    obtain ⟨p, -, rfl⟩ := Option.map_eq_some_iff.mp h
    exact Or.inr ⟨rfl, .setFork s p none⟩
  | setState p st =>
    rw [step] at h
    split at h
    · obtain rfl := Option.some.inj h
      exact Or.inr ⟨rfl, fun q _ => setTask_state_same s p st q, Or.inl rfl, fun _ => rfl,
        fun _ _ hc => Or.inl hc⟩
    · simp at h
  | initIdle cpu idle =>
    rw [step] at h
    split at h
    · next hidle =>
      obtain rfl := Option.some.inj h
      refine Or.inr ⟨rfl, fun q _ => setTask_state_same s idle 0 q, Or.inl rfl, fun c => ?_,
        fun c p hc => ?_⟩
      · rcases eq_or_ne c cpu with rfl | hne
        · simp
        · simp [hne]
      · rcases eq_or_ne c cpu with rfl | hne
        · simp only [State.setRq_rq, Function.update_self, Option.some.injEq] at hc
          exact Or.inr (hc ▸ hidle)
        · simp only [State.setRq_rq, Function.update_of_ne hne, State.setTask_rq] at hc
          exact Or.inl hc
    · simp at h

theorem CurrCreated.boot (cpu : Cpu) : CurrCreated (boot cpu) := by
  intro c p h
  simp only [Ctx.boot] at h ⊢
  split at h
  · obtain rfl := Option.some.inj h
    exact Nat.one_pos
  · simp at h

theorem CurrCreated.step {s t : State Cpu} {op : Op Cpu} (hs : CurrCreated s)
    (h : step s op = some t) : CurrCreated t := by
  intro c p hc
  rcases step_cases h with ⟨cpu, preempt, signal, next, rfl, hd⟩ | ⟨-, hq⟩
  · rw [hd.nrTasks]
    obtain ⟨prev, voluntary, u, -, -, -, ⟨-, -, hrq⟩ | ⟨-, -, hrq⟩⟩ := hd.effect
    · exact hs c p (hrq ▸ hc)
    · rw [hrq] at hc
      rcases eq_or_ne c cpu with rfl | hne
      · simp only [Function.update_self, Option.some.injEq] at hc
        exact hc ▸ hd.created
      · rw [Function.update_of_ne hne] at hc
        exact hs c p hc
  · have hle : s.nrTasks ≤ t.nrTasks := by
      rcases hq.new with hnew | ⟨hnew, -⟩ <;> omega
    rcases hq.curr c p hc with hold | hlt
    · exact Nat.lt_of_lt_of_le (hs c p hold) hle
    · exact Nat.lt_of_lt_of_le hlt hle

/-! ## Totals -/

section Totals

variable {A : Type} [AddCommMonoid A] {value : Pid → Task → A} {pick : Pid → A}
  {s t : State Cpu} {cpu : Cpu} {next : Pid}

/-- A call of `__schedule` adds something for the task it picked, and something for the one before
if that is another. -/
theorem Dispatch.total (h : Dispatch s cpu next t) (hcurr : CurrCreated s) (switch : A)
    (hsame : ∀ p t u, t.SameCounters u → value p t = value p u)
    (hpick : ∀ p t, value p t.countPick = value p t + pick p)
    (hswitch : ∀ p t v, p < s.nrTasks → t.SameCounters (s.tasks p) → (s.rq cpu).curr ≠ some next →
      value p (t.countSwitch v) = value p t + switch) :
    total value t = total value s +
      (pick next + if (s.rq cpu).curr = some next then 0 else switch) := by
  obtain ⟨prev, voluntary, u, hprev, hnr, hu, heffect⟩ := h.effect
  have hstart : ∑ p ∈ Finset.range s.nrTasks, value p (u.tasks p) = Ctx.total value s :=
    Finset.sum_congr rfl fun p _ => hsame _ _ _ (hu p)
  have hpicked : ∑ p ∈ Finset.range s.nrTasks, value p ((u.setTask next Task.countPick).tasks p) =
      Ctx.total value s + pick next := by
    rw [State.setTask_tasks, sum_update (Finset.mem_range.mpr h.created) value u.tasks _ (pick next)
      (hpick next _), hstart]
  rcases heffect with ⟨rfl, htasks, -⟩ | ⟨hne, htasks, -⟩
  · rw [if_pos hprev, add_zero, ← hpicked, Ctx.total, h.nrTasks, htasks]
  · have hother : (s.rq cpu).curr ≠ some next := by
      rw [hprev]
      exact fun heq => hne (Option.some.inj heq)
    have hlt : prev < s.nrTasks := hcurr cpu prev hprev
    have hcounts : ((u.setTask next Task.countPick).tasks prev).SameCounters (s.tasks prev) := by
      rw [State.setTask_tasks, Function.update_of_ne hne]
      exact hu prev
    rw [if_neg hother, ← add_assoc, ← hpicked, Ctx.total, h.nrTasks, htasks, State.setTask_tasks,
      sum_update (Finset.mem_range.mpr hlt) value _ _ switch
        (hswitch prev _ voluntary hlt hcounts hother)]

/-- **One step** changes a total by its gain. -/
theorem step_total (switch : A) {r : Step Cpu} (hstep : step r.pre r.op = some r.post)
    (hcurr : CurrCreated r.pre)
    (hsame : ∀ p t u, t.SameCounters u → value p t = value p u)
    (hzero : ∀ p, value p ⟨0, 0, 0, 0⟩ = 0)
    (hpick : ∀ p t, value p t.countPick = value p t + pick p)
    (hswitch : ∀ p t v, p < r.pre.nrTasks → t.SameCounters (r.pre.tasks p) → switched r = true →
      value p (t.countSwitch v) = value p t + switch) :
    total value r.post = total value r.pre + gain pick switch r := by
  obtain ⟨pre, op, post⟩ := r
  rcases step_cases hstep with ⟨cpu, preempt, signal, next, rfl, hd⟩ | ⟨hop, hq⟩
  · rw [gain_schedule]
    refine hd.total hcurr switch hsame hpick fun p t v hp ht hne => ?_
    exact hswitch p t v hp ht (switched_schedule.mpr hne)
  · rw [gain_quiet pick switch hop, add_zero, hq.total hsame hzero]

/-- The switches of all run queues, added up. -/
def rqTotal [Fintype Cpu] (value : BitVec 64 → A) (s : State Cpu) : A :=
  ∑ cpu, value (s.rq cpu).nrSwitches

theorem step_rqTotal [Fintype Cpu] (value : BitVec 64 → A) (switch : A) {r : Step Cpu}
    (hstep : step r.pre r.op = some r.post)
    (hswitch : ∀ cpu, switched r = true →
      value ((r.pre.rq cpu).nrSwitches + 1) = value (r.pre.rq cpu).nrSwitches + switch) :
    rqTotal value r.post = rqTotal value r.pre + gain (fun _ => 0) switch r := by
  obtain ⟨pre, op, post⟩ := r
  rcases step_cases hstep with ⟨cpu, preempt, signal, next, rfl, hd⟩ | ⟨hop, hq⟩
  · rw [gain_schedule, zero_add]
    obtain ⟨prev, voluntary, u, hprev, -, -, ⟨rfl, -, hrq⟩ | ⟨hne, -, hrq⟩⟩ := hd.effect
    · rw [if_pos hprev, add_zero, rqTotal, hrq]
      rfl
    · have hother : (pre.rq cpu).curr ≠ some next := by
        rw [hprev]
        exact fun heq => hne (Option.some.inj heq)
      rw [if_neg hother, rqTotal, hrq]
      exact sum_update (Finset.mem_univ cpu) (fun _ rq => value rq.nrSwitches) pre.rq
        { curr := some next, nrSwitches := (pre.rq cpu).nrSwitches + 1 } switch
        (hswitch cpu (switched_schedule.mpr hother))
  · rw [gain_quiet _ switch hop, add_zero]
    exact Finset.sum_congr rfl fun cpu _ => congrArg value (hq.nrSwitches cpu)

end Totals

/-! ## Whole runs -/

section Runs

variable {cpu : Cpu} {s : State Cpu} {tr : List (Step Cpu)}

theorem steps_currCreated (h : Steps step (boot cpu) tr s) :
    ∀ r ∈ tr, step r.pre r.op = some r.post ∧ CurrCreated r.pre := by
  intro r hr
  have hall := (h.invariant (fun _ _ hstep hpre => CurrCreated.step hpre hstep)
    (CurrCreated.boot cpu)).2
  exact ⟨h.step_of_mem hr, (hall r hr).1⟩

/-- A total of counters at the end of a run. -/
theorem run_total {A : Type} [AddCommMonoid A] (value : Pid → Task → A)
    (pick : Pid → A) (switch : A)
    (h : Steps step (boot cpu) tr s)
    (hsame : ∀ p t u, t.SameCounters u → value p t = value p u)
    (hzero : ∀ p, value p ⟨0, 0, 0, 0⟩ = 0)
    (hpick : ∀ p t, value p t.countPick = value p t + pick p)
    (hswitch : ∀ p t v, value p (Task.countSwitch t v) = value p t + switch) :
    total value s = (tr.map (gain pick switch)).sum := by
  have hboot : total value (boot cpu) = 0 := Finset.sum_eq_zero fun p _ => hzero p
  rw [h.telescope (total value) (gain pick switch), hboot, zero_add]
  intro r hr
  obtain ⟨hstep, hcurr⟩ := steps_currCreated h r hr
  exact step_total switch hstep hcurr hsame hzero hpick fun p t v _ _ _ => hswitch p t v

/-! ## The counters -/

/-- **`ctx` of a task** is the number of times it was picked. -/
theorem ctx_counts_picks (h : Steps step (boot cpu) tr s) {p : Pid} (hp : p < s.nrTasks) :
    (s.tasks p).ctx = (picks p tr : BitVec 32) := by
  have htotal : total (fun q t => if q = p then t.ctx else 0) s = _ :=
    run_total _ (fun q => if q = p then 1 else 0) 0 h
      (fun q t u hsame => by rw [hsame.1]) (by simp)
      (fun q t => by by_cases hq : q = p <;> simp [hq, Task.countPick])
      (fun q t v => by cases v <;> simp [Task.countSwitch])
  rw [total, Finset.sum_ite_eq', if_pos (Finset.mem_range.mpr hp)] at htotal
  rw [htotal]
  refine sum_gain _ (fun r => ?_) tr
  cases hpicked : r.op.picked <;> simp [gain, hpicked]

theorem ctx_total (h : Steps step (boot cpu) tr s) :
    total (fun _ t => t.ctx) s = (calls tr : BitVec 32) := by
  rw [run_total (fun _ t => t.ctx) (fun _ => 1) 0 h (fun _ _ _ hsame => hsame.1) (fun _ => rfl)
    (fun _ _ => rfl) (fun _ _ v => by cases v <;> simp [Task.countSwitch])]
  refine sum_gain _ (fun r => ?_) tr
  cases hpicked : r.op.picked <;> simp [gain, hpicked]

theorem switches_total (h : Steps step (boot cpu) tr s) :
    total (fun _ t => t.nvcsw + t.nivcsw) s = (tr.countP switched : BitVec 64) := by
  rw [run_total (fun _ t => t.nvcsw + t.nivcsw) (fun _ => 0) 1 h
    (fun _ _ _ hsame => by rw [hsame.2.1, hsame.2.2]) (fun _ => by simp)
    (fun _ _ => by simp [Task.countPick]) ?_]
  · exact sum_gain_switch tr
  · intro p t v
    cases v with
    | true => exact add_right_comm _ _ _
    | false => exact (add_assoc _ _ _).symm

theorem nrSwitches_total [Fintype Cpu] (h : Steps step (boot cpu) tr s) :
    rqTotal id s = (tr.countP switched : BitVec 64) := by
  have hboot : rqTotal id (boot cpu) = 0 := Finset.sum_eq_zero fun _ _ => rfl
  rw [h.telescope (rqTotal id) (gain (fun _ => 0) 1), hboot, zero_add]
  · exact sum_gain_switch tr
  · intro r hr
    exact step_rqTotal id 1 (h.step_of_mem hr) fun _ _ => rfl

/-- A counter that does not wrap. -/
theorem toNat_add_one {x : BitVec 64} (h : x.toNat + 1 < 2 ^ 64) : (x + 1).toNat = x.toNat + 1 := by
  rw [BitVec.toNat_add]
  exact Nat.mod_eq_of_lt h

theorem switches_total_toNat (h : Steps step (boot cpu) tr s)
    (hbelow : tr.countP switched < 2 ^ 64) :
    total (fun _ t => t.nvcsw.toNat + t.nivcsw.toNat) s = tr.countP switched := by
  let value : Pid → Task → Nat := fun _ t => t.nvcsw.toNat + t.nivcsw.toNat
  have hboot : total value (boot cpu) = 0 := Finset.sum_eq_zero fun p _ => by simp [value, boot]
  have hsum : (tr.map (gain (fun _ => 0) 1)).sum = tr.countP switched := sum_gain_switch tr
  have htotal : total value s = _ :=
    h.telescope_below (total value) (gain (fun _ => 0) 1) (2 ^ 64) ?_ (by omega)
  · rw [htotal, hboot, hsum, zero_add]
  · intro r hr hlt
    obtain ⟨hstep, hcurr⟩ := steps_currCreated h r hr
    refine step_total 1 hstep hcurr (fun _ _ _ hsame => by simp [value, hsame.2.1, hsame.2.2])
      (fun _ => rfl) (fun _ _ => rfl) ?_
    intro p t v hp hsame hswitch
    -- the counters of one task are not above the total
    have hle : t.nvcsw.toNat + t.nivcsw.toNat ≤ total value r.pre := by
      rw [hsame.2.1, hsame.2.2]
      exact Finset.single_le_sum (f := fun q => value q (r.pre.tasks q)) (fun _ _ => Nat.zero_le _)
        (Finset.mem_range.mpr hp)
    have hgain := gain_switched hswitch
    cases v with
    | true =>
      have hsucc : (t.nvcsw + 1).toNat = t.nvcsw.toNat + 1 := toNat_add_one (by omega)
      simp only [value, Task.countSwitch, if_true, hsucc]
      omega
    | false =>
      have hsucc : (t.nivcsw + 1).toNat = t.nivcsw.toNat + 1 := toNat_add_one (by omega)
      simp only [value, Task.countSwitch, Bool.false_eq_true, if_false, hsucc]
      omega

theorem nrSwitches_total_toNat [Fintype Cpu] (h : Steps step (boot cpu) tr s)
    (hbelow : tr.countP switched < 2 ^ 64) : rqTotal BitVec.toNat s = tr.countP switched := by
  have hboot : rqTotal BitVec.toNat (boot cpu) = 0 := Finset.sum_eq_zero fun _ _ => rfl
  have hsum : (tr.map (gain (fun _ => 0) 1)).sum = tr.countP switched := sum_gain_switch tr
  rw [h.telescope_below (rqTotal BitVec.toNat) (gain (fun _ => 0) 1) (2 ^ 64) ?_ (by omega), hboot,
    hsum, zero_add]
  intro r hr hlt
  refine step_rqTotal BitVec.toNat 1 (h.step_of_mem hr) fun c hswitch => toNat_add_one ?_
  have hle : (r.pre.rq c).nrSwitches.toNat ≤ rqTotal BitVec.toNat r.pre :=
    Finset.single_le_sum (f := fun c => (r.pre.rq c).nrSwitches.toNat) (fun _ _ => Nat.zero_le _)
      (Finset.mem_univ c)
  have hgain := gain_switched hswitch
  omega

/-- **Every dispatch is recorded once.** Over any run from the boot of a machine, on any cpus: only
tasks that were created are picked, `/proc/pid/ctx` shows how often, these counters add up to the
calls of `__schedule`, and the other counters of the tasks and those of the run queues to the calls
that did not pick the previous task again — as machine words, and as numbers if there were less than
2^64 calls. -/
theorem dispatch_counts [Fintype Cpu] (h : Steps step (boot cpu) tr s) :
    (∀ r ∈ tr, ∀ p, r.op.picked = some p → p < r.pre.nrTasks) ∧
    (∀ p < s.nrTasks, procPidCtx (s.tasks p) = numeral 10 (picks p tr % 2 ^ 32) ++ [10]) ∧
    ∑ p ∈ Finset.range s.nrTasks, (s.tasks p).ctx = (calls tr : BitVec 32) ∧
    ∑ p ∈ Finset.range s.nrTasks, ((s.tasks p).nvcsw + (s.tasks p).nivcsw) =
      ∑ c, (s.rq c).nrSwitches ∧
    ∑ c, (s.rq c).nrSwitches = (calls tr : BitVec 64) - (repicks tr : BitVec 64) ∧
    (calls tr < 2 ^ 64 →
      ∑ p ∈ Finset.range s.nrTasks, ((s.tasks p).nvcsw.toNat + (s.tasks p).nivcsw.toNat) =
        ∑ c, (s.rq c).nrSwitches.toNat ∧
      ∑ c, (s.rq c).nrSwitches.toNat + repicks tr = calls tr) := by
  have hsplit := countP_switched tr
  have htasks : ∑ p ∈ Finset.range s.nrTasks, ((s.tasks p).nvcsw + (s.tasks p).nivcsw) = _ :=
    switches_total h
  have hrqs : ∑ c, (s.rq c).nrSwitches = _ := nrSwitches_total h
  refine ⟨fun r hr p hp => ?_, fun p hp => ?_, ctx_total h, htasks.trans hrqs.symm, ?_,
    fun hlt => ?_⟩
  · rcases step_cases (h.step_of_mem hr) with ⟨c, preempt, signal, next, hop, hd⟩ | ⟨hop, -⟩
    · rw [hop] at hp
      obtain rfl := Option.some.inj hp
      exact hd.created
    · rw [hop] at hp
      simp at hp
  · rw [procPidCtx, ctx_counts_picks h hp]
    simp
  · rw [hrqs, ← hsplit, Nat.cast_add, add_sub_cancel_right]
  · have htasks' : ∑ p ∈ Finset.range s.nrTasks,
        ((s.tasks p).nvcsw.toNat + (s.tasks p).nivcsw.toNat) = _ :=
      switches_total_toNat h (by omega)
    have hrqs' : ∑ c, (s.rq c).nrSwitches.toNat = _ := nrSwitches_total_toNat h (by omega)
    exact ⟨htasks'.trans hrqs'.symm, by omega⟩

/-- Task 0 makes task 1, which becomes idle on a second cpu, and task 2, with a preemption on the
way. Task 2 fails to fork, sleeps, and goes on on the second cpu, where it is picked again. -/
def twoCpus : List (Op Bool) :=
  [.dup false, .copy false, .copy false, .copy false, .dup false, .schedule false true false 0,
    .copy false, .copy false, .copy false, .initIdle true 1,
    .schedule false true false 2, .dup false,
    .fail false, .setState 2 1, .schedule false false false 0, .setState 2 0,
    .schedule true false false 2, .schedule true true false 2]

theorem dispatch_counts_two_cpus :
    ∃ s, Steps step (boot false) (trace step (boot false) twoCpus) s ∧ s.nrTasks = 3 ∧
      (calls (trace step (boot false) twoCpus), repicks (trace step (boot false) twoCpus)) =
        (5, 2) ∧
      procPidCtx (s.tasks 0) = [50, 10] ∧ procPidCtx (s.tasks 2) = [51, 10] ∧
      ∑ c, (s.rq c).nrSwitches.toNat + 2 = 5 := by
  obtain ⟨s, hs⟩ : ∃ s, run step (boot false) twoCpus = some s :=
    Option.isSome_iff_exists.mp (by decide +kernel)
  have hsteps := run_steps hs
  have hnr : (run step (boot false) twoCpus).map State.nrTasks = some 3 := by decide +kernel
  rw [hs] at hnr
  have hnr : s.nrTasks = 3 := Option.some.inj hnr
  obtain ⟨-, hctx, -, -, -, hrqs⟩ := dispatch_counts hsteps
  have hcalls : calls (trace step (boot false) twoCpus) = 5 := by decide +kernel
  have hrepicks : repicks (trace step (boot false) twoCpus) = 2 := by decide +kernel
  refine ⟨s, hsteps, hnr, by rw [hcalls, hrepicks], ?_, ?_, ?_⟩
  · rw [hctx 0 (by omega)]
    decide +kernel
  · rw [hctx 2 (by omega)]
    decide +kernel
  · have hsum := (hrqs (by rw [hcalls]; decide)).2
    rwa [hrepicks, hcalls] at hsum

end Runs

end LinuxKernel.Ctx

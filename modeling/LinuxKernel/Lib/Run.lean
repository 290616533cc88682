import Mathlib.Algebra.BigOperators.Group.List.Basic
import Mathlib.Algebra.GroupWithZero.Nat
import Mathlib.Data.List.Basic
import Mathlib.Data.List.Forall2
import Mathlib.Data.List.Iterate

/-!
# Runs of a partial step function

A system is a step function `next : S → O → Option S`: an operation either is
not possible in a state or leads to exactly one next state. A run is recorded
as the list of its steps, each with the state before it, the operation and the
state after it.

## Results

* `Steps.invariant`    — what every step of a run keeps holds all along it.
* `Steps.recorded`     — the same for what depends on the steps made so far.
* `Steps.all_iff`      — if a property is kept by exactly the steps that meet a
  condition, then it holds all along a run iff every step of it meets the
  condition.
* `Steps.telescope`    — a quantity that changes by `gain` in every step has
  changed by the sum of the gains over a run.
* `Steps.telescope_below` — the same for a number that is right below a bound.
* `Steps.balance_below` — the same for a number that steps raise and lower.
* `Steps.balance_le`    — and with an inequality at every step.
* `run_steps`          — running a list of operations gives a recorded run.
* `run_simulates`      — it follows an abstract machine if every step does.
* `run_history`        — the state agrees with a summary of the operations made.
* `run_each_iff`       — what each operation of a run does, by the operations before it.
* `run_all_iff`        — whether all operations are possible, by the operations before each.
-/

namespace LinuxKernel.Lib

variable {S O : Type*} {next : S → O → Option S}

/-- One recorded step: the state before, the operation, the state after. -/
structure StepRec (S O : Type*) where
  pre  : S
  op   : O
  post : S

/-- `Steps next s tr u`: the run `tr` leads from `s` to `u`. -/
inductive Steps (next : S → O → Option S) : S → List (StepRec S O) → S → Prop
  | nil (s : S) : Steps next s [] s
  | cons {s t u : S} {o : O} {tr : List (StepRec S O)} (h : next s o = some t)
      (rest : Steps next t tr u) : Steps next s (⟨s, o, t⟩ :: tr) u

/-- The states some run from `init` ends in. -/
def Reachable (next : S → O → Option S) (init s : S) : Prop :=
  ∃ tr, Steps next init tr s

theorem Reachable.init (s : S) : Reachable next s s := ⟨[], .nil s⟩

theorem Steps.append {s t u : S} {a b : List (StepRec S O)}
    (ha : Steps next s a t) (hb : Steps next t b u) : Steps next s (a ++ b) u := by
  induction ha with
  | nil s => exact hb
  | cons h _ ih => exact .cons h (ih hb)

/-- A step from a reachable state leads to a reachable state. -/
theorem Reachable.step {init s t : S} {o : O} (hs : Reachable next init s)
    (h : next s o = some t) : Reachable next init t := by
  obtain ⟨tr, htr⟩ := hs
  exact ⟨tr ++ [⟨s, o, t⟩], htr.append (.cons h (.nil t))⟩

theorem Reachable.trans {s t u : S} (hst : Reachable next s t) (htu : Reachable next t u) :
    Reachable next s u := by
  obtain ⟨a, ha⟩ := hst
  obtain ⟨b, hb⟩ := htu
  exact ⟨a ++ b, ha.append hb⟩

/-- Every recorded step of a run is a step. -/
theorem Steps.step_of_mem {s u : S} {tr : List (StepRec S O)}
    (h : Steps next s tr u) {r : StepRec S O} (hr : r ∈ tr) :
    next r.pre r.op = some r.post := by
  induction h with
  | nil s => cases hr
  | cons h _ ih =>
    rcases List.mem_cons.mp hr with rfl | hr
    · exact h
    · exact ih hr

/-- **Invariant rule.** What every step of a run keeps holds before and after
every step of it, and at its end. -/
theorem Steps.invariant {P : S → Prop} {s u : S} {tr : List (StepRec S O)}
    (h : Steps next s tr u)
    (hstep : ∀ r ∈ tr, next r.pre r.op = some r.post → P r.pre → P r.post) (hs : P s) :
    P u ∧ ∀ r ∈ tr, P r.pre ∧ P r.post := by
  induction h with
  | nil s => exact ⟨hs, fun r hr => by cases hr⟩
  | cons h _ ih =>
    have ht := hstep _ (List.mem_cons_self ..) h hs
    obtain ⟨hu, hall⟩ := ih (fun r hr => hstep r (List.mem_cons_of_mem _ hr)) ht
    refine ⟨hu, fun r hr => ?_⟩
    rcases List.mem_cons.mp hr with rfl | hr
    · exact ⟨hs, ht⟩
    · exact hall r hr

theorem Reachable.invariant {P : S → Prop}
    (hstep : ∀ s o t, P s → next s o = some t → P t)
    {init s : S} (hs : Reachable next init s) (hinit : P init) : P s := by
  obtain ⟨tr, htr⟩ := hs
  exact (htr.invariant (fun r _ hr h => hstep _ _ _ h hr) hinit).1

/-- **Record rule.** An invariant that also speaks of the steps made so far. -/
theorem Steps.recorded {P : List (StepRec S O) → S → Prop} {s u : S} {tr : List (StepRec S O)}
    (h : Steps next s tr u)
    (hstep : ∀ before, ∀ r ∈ tr, next r.pre r.op = some r.post → P before r.pre →
      P (before ++ [r]) r.post)
    (hs : P [] s) : P tr u := by
  suffices hgen : ∀ before, P before s → P (before ++ tr) u by simpa using hgen [] hs
  clear hs
  induction h with
  | nil s =>
    intro before hs
    simpa using hs
  | cons h _ ih =>
    intro before hs
    have ht := hstep before _ (List.mem_cons_self ..) h hs
    simpa using ih (fun before r hr => hstep before r (List.mem_cons_of_mem _ hr)) _ ht

/-- **Exact condition rule.** Let `I` be an invariant of all runs. If, from a
state with `I` and `P`, a step leads to a state with `P` exactly when it meets
`C`, then `P` holds after every step of a run iff every step meets `C`. -/
theorem Steps.all_iff {I P : S → Prop} {C : S → O → Prop}
    (hI : ∀ s o t, I s → next s o = some t → I t)
    (hP : ∀ s o t, I s → P s → next s o = some t → (P t ↔ C s o))
    {s u : S} {tr : List (StepRec S O)} (h : Steps next s tr u)
    (hIs : I s) (hPs : P s) :
    (∀ r ∈ tr, P r.post) ↔ ∀ r ∈ tr, C r.pre r.op := by
  induction h with
  | nil s => simp
  | cons h _ ih =>
    have hiff := hP _ _ _ hIs hPs h
    simp only [List.mem_cons, forall_eq_or_imp]
    constructor
    · rintro ⟨hp, hrest⟩
      exact ⟨hiff.mp hp, (ih (hI _ _ _ hIs h) hp).mp hrest⟩
    · rintro ⟨hok, hrest⟩
      have hp := hiff.mpr hok
      exact ⟨hp, (ih (hI _ _ _ hIs h) hp).mpr hrest⟩

/-- **Telescoping rule.** A quantity that every step of a run changes by
`gain` has changed by the sum of the gains at its end. -/
theorem Steps.telescope {A : Type*} [AddCommMonoid A] {s u : S} {tr : List (StepRec S O)}
    (h : Steps next s tr u) (q : S → A) (gain : StepRec S O → A)
    (hq : ∀ r ∈ tr, q r.post = q r.pre + gain r) :
    q u = q s + (tr.map gain).sum := by
  induction h with
  | nil s => simp
  | cons _ _ ih =>
    have hhead := hq _ (List.mem_cons_self ..)
    rw [ih fun r hr => hq r (List.mem_cons_of_mem _ hr), List.map_cons, List.sum_cons]
    simp only at hhead
    rw [hhead, add_assoc]

/-- **Telescoping rule below a bound.** The same for a number whose steps are right as long as it
stays below a bound. -/
theorem Steps.telescope_below {s u : S} {tr : List (StepRec S O)} (h : Steps next s tr u)
    (q : S → Nat) (gain : StepRec S O → Nat) (bound : Nat)
    (hq : ∀ r ∈ tr, q r.pre + gain r < bound → q r.post = q r.pre + gain r)
    (hbound : q s + (tr.map gain).sum < bound) : q u = q s + (tr.map gain).sum := by
  induction h with
  | nil s => simp
  | cons _ _ ih =>
    rw [List.map_cons, List.sum_cons] at hbound ⊢
    have hhead := hq _ (List.mem_cons_self ..) (by simp only; omega)
    simp only at hhead
    rw [ih (fun r hr => hq r (List.mem_cons_of_mem _ hr)) (by omega), hhead, Nat.add_assoc]

/-- **Balance rule.** A number that every step raises by `gain` and lowers by `loss` as long as it
stays below a bound. -/
theorem Steps.balance_below {s u : S} {tr : List (StepRec S O)} (h : Steps next s tr u)
    (q : S → Nat) (gain loss : StepRec S O → Nat) (bound : Nat)
    (hq : ∀ r ∈ tr, q r.pre + gain r < bound → q r.post + loss r = q r.pre + gain r)
    (hbound : q s + (tr.map gain).sum < bound) :
    q u + (tr.map loss).sum = q s + (tr.map gain).sum := by
  induction h with
  | nil s => simp
  | cons _ _ ih =>
    rw [List.map_cons, List.sum_cons] at hbound
    have hhead := hq _ (List.mem_cons_self ..) (by simp only; omega)
    simp only at hhead
    have hrest := ih (fun r hr => hq r (List.mem_cons_of_mem _ hr)) (by omega)
    simp only [List.map_cons, List.sum_cons]
    omega

/-- **Inequality rule.** If no step gains more than it raises the number by and takes back, no run
does. -/
theorem Steps.balance_le {s u : S} {tr : List (StepRec S O)} (h : Steps next s tr u)
    (q : S → Nat) (gain loss : StepRec S O → Nat)
    (hq : ∀ r ∈ tr, q r.pre + gain r ≤ q r.post + loss r) :
    q s + (tr.map gain).sum ≤ q u + (tr.map loss).sum := by
  induction h with
  | nil s => simp
  | cons _ _ ih =>
    have hhead := hq _ (List.mem_cons_self ..)
    simp only at hhead
    have hrest := ih fun r hr => hq r (List.mem_cons_of_mem _ hr)
    simp only [List.map_cons, List.sum_cons]
    omega

/-! ## Lists of operations -/

/-- Run a list of operations; `none` if one of them is not possible. -/
def run (next : S → O → Option S) (s : S) : List O → Option S
  | [] => some s
  | o :: os => (next s o).bind fun t => run next t os

/-- The steps made on the way, up to the first operation that is not possible. -/
def trace (next : S → O → Option S) (s : S) : List O → List (StepRec S O)
  | [] => []
  | o :: os =>
    match next s o with
    | none => []
    | some t => ⟨s, o, t⟩ :: trace next t os

theorem run_steps {s u : S} {os : List O} (h : run next s os = some u) :
    Steps next s (trace next s os) u := by
  induction os generalizing s with
  | nil =>
    obtain rfl := Option.some.inj h
    exact .nil s
  | cons o os ih =>
    obtain ⟨t, ht, hrest⟩ := Option.bind_eq_some_iff.mp h
    rw [trace, ht]
    exact .cons ht (ih hrest)

/-- **Simulation rule.** If every step from a state that follows `a` is possible and
leads to one that follows `f a`, a run of `n` steps follows `f^[n]`. -/
theorem run_simulates {A : Type*} {R : S → A → Prop} {f : A → A} {os : List O}
    (hstep : ∀ o ∈ os, ∀ s a, R s a → ∃ t, next s o = some t ∧ R t (f a)) {s : S} {a : A}
    (h : R s a) : ∃ t, run next s os = some t ∧ R t (f^[os.length] a) ∧
      List.Forall₂ (fun r b => R r.pre b) (trace next s os) (List.iterate f a os.length) := by
  induction os generalizing s a with
  | nil => exact ⟨s, rfl, h, .nil⟩
  | cons o os ih =>
    obtain ⟨u, hu, hR⟩ := hstep o (List.mem_cons_self ..) s a h
    obtain ⟨t, ht, hend, htr⟩ := ih (fun o' ho' => hstep o' (List.mem_cons_of_mem o ho')) hR
    refine ⟨t, ?_, ?_, ?_⟩
    · rw [run, hu, Option.bind_some, ht]
    · rwa [List.length_cons, Function.iterate_succ_apply]
    · rw [trace, hu]
      exact .cons h htr

theorem run_append (s : S) (as bs : List O) :
    run next s (as ++ bs) = (run next s as).bind fun t => run next t bs := by
  induction as generalizing s with
  | nil => rfl
  | cons o os ih =>
    rw [List.cons_append, run, run, Option.bind_assoc]
    exact congrArg _ (funext fun t => ih t)

section History

variable {H : Type*} {note : H → O → H} {I : S → H → Prop}

/-- **History rule.** If every step keeps the state in agreement with a summary of the
operations made so far, a run does. -/
theorem run_history (hstep : ∀ s h o t, I s h → next s o = some t → I t (note h o))
    {s t : S} {h : H} {os : List O} (hs : I s h) (hrun : run next s os = some t) :
    I t (os.foldl note h) := by
  induction os generalizing s h with
  | nil =>
    obtain rfl := Option.some.inj hrun
    exact hs
  | cons o os ih =>
    obtain ⟨u, hu, hrest⟩ := Option.bind_eq_some_iff.mp hrun
    exact ih (hstep _ _ _ _ hs hu) hrest

/-- **Exact condition by history.** If an operation has the effect `P` exactly when the
operations before it meet `C`, then all operations of a run have it iff each is made after
such operations. -/
theorem run_each_iff {P : O → S → Prop} {C : H → O → Prop}
    (hstep : ∀ s h o t, I s h → next s o = some t → I t (note h o))
    (hP : ∀ s h o t, I s h → next s o = some t → (P o t ↔ C h o))
    {s u : S} {h : H} {os : List O} (hs : I s h) (hrun : run next s os = some u) :
    (∀ before o after t, os = before ++ o :: after → run next s (before ++ [o]) = some t → P o t) ↔
      ∀ before o after, os = before ++ o :: after → C (before.foldl note h) o := by
  -- the step that o makes after the operations before it
  have hmid : ∀ before o after, os = before ++ o :: after → ∃ t v,
      run next s before = some t ∧ next t o = some v ∧ run next s (before ++ [o]) = some v := by
    rintro before o after rfl
    rw [run_append] at hrun
    obtain ⟨t, ht, hrest⟩ := Option.bind_eq_some_iff.mp hrun
    obtain ⟨v, hv, -⟩ := Option.bind_eq_some_iff.mp hrest
    refine ⟨t, v, ht, hv, ?_⟩
    rw [run_append, ht, Option.bind_some, run, hv]
    rfl
  constructor
  · intro hall before o after heq
    obtain ⟨t, v, ht, hv, hrun'⟩ := hmid before o after heq
    exact (hP _ _ _ _ (run_history hstep hs ht) hv).mp (hall before o after v heq hrun')
  · intro hall before o after v' heq hrun'
    obtain ⟨t, v, ht, hv, hrunv⟩ := hmid before o after heq
    obtain rfl := Option.some.inj (hrunv.symm.trans hrun')
    exact (hP _ _ _ _ (run_history hstep hs ht) hv).mpr (hall before o after heq)

/-- **Exact condition for success.** If an operation is possible and has the effect `P` exactly
when the operations before it meet `C`, then all operations of a list are possible one after another
and have it iff each stands after such operations. -/
theorem run_all_iff {P : O → S → Prop} {C : H → O → Prop}
    (hstep : ∀ s h o t, I s h → next s o = some t → I t (note h o))
    (hP : ∀ s h o, I s h → ((∃ t, next s o = some t ∧ P o t) ↔ C h o))
    {s : S} {h : H} (hs : I s h) (os : List O) :
    (∀ before o after, os = before ++ o :: after →
      ∃ t, run next s (before ++ [o]) = some t ∧ P o t) ↔
      ∀ before o after, os = before ++ o :: after → C (before.foldl note h) o := by
  constructor
  · intro hall before o after heq
    obtain ⟨t, hrun, hPt⟩ := hall before o after heq
    rw [run_append] at hrun
    obtain ⟨u, hu, hrest⟩ := Option.bind_eq_some_iff.mp hrun
    obtain ⟨v, hv, hend⟩ := Option.bind_eq_some_iff.mp hrest
    obtain rfl := Option.some.inj hend
    exact (hP _ _ _ (run_history hstep hs hu)).mp ⟨v, hv, hPt⟩
  · -- by induction on the operations before o, each of which is possible
    intro hall before o after heq
    induction before generalizing s h os with
    | nil =>
      obtain ⟨t, ht, hPt⟩ := (hP _ _ _ hs).mpr (hall [] o after heq)
      refine ⟨t, ?_, hPt⟩
      rw [List.nil_append, run, ht]
      rfl
    | cons b before ih =>
      obtain ⟨u, hu, -⟩ := (hP _ _ _ hs).mpr (hall [] b _ heq)
      obtain ⟨t, ht, hPt⟩ := ih (hstep _ _ _ _ hs hu) (before ++ o :: after)
        (fun pre x post hsplit => hall (b :: pre) x post
          (by rw [heq, List.cons_append, hsplit]; rfl)) rfl
      refine ⟨t, ?_, hPt⟩
      rw [List.cons_append, run, hu, Option.bind_some, ht]

end History

theorem run_reachable {s u : S} {os : List O} (h : run next s os = some u) :
    Reachable next s u :=
  ⟨_, run_steps h⟩

end LinuxKernel.Lib

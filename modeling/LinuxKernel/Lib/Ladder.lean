import Mathlib.Algebra.BigOperators.Group.List.Basic
import Mathlib.Data.List.Chain

/-!
# Error ladders

A function acquires one thing after another. Where a step fails, it jumps to a label, and falls
through the releases from there on.

* `fallThrough_balance`  — the releases take back the sum of what each of them takes back.
* `attempt_spec`         — steps that lead from level to level, each of which may fail.
-/

namespace LinuxKernel.Lib

section Release

variable {L S A : Type*} [AddCommGroup A] {release : L → S → S} {balance : S → A} {owed : L → S → A}

/-- Falling through the releases of a ladder. -/
def fallThrough (release : L → S → S) (ladder : List L) (s : S) : S :=
  ladder.foldl (fun s l => release l s) s

/-- **Release rule.** If each release takes back what is owed at its label, and leaves what is owed
at the labels after it as it is, the ladder takes back all that is owed. -/
theorem fallThrough_balance (hrel : ∀ l s, balance (release l s) = balance s - owed l s)
    {ladder : List L} (hkeep : ladder.Pairwise fun l l' => ∀ s, owed l' (release l s) = owed l' s)
    (s : S) :
    balance (fallThrough release ladder s) = balance s - (ladder.map (owed · s)).sum := by
  induction ladder generalizing s with
  | nil => simp [fallThrough]
  | cons l ladder ih =>
    obtain ⟨hl, hrest⟩ := List.pairwise_cons.mp hkeep
    have hsame : (ladder.map (owed · (release l s))) = ladder.map (owed · s) :=
      List.map_congr_left fun l' hl' => hl l' hl' s
    have := ih hrest (release l s)
    rw [hsame, hrel] at this
    rw [List.map_cons, List.sum_cons, ← sub_sub]
    exact this

end Release

section Attempt

variable {P L S E : Type*} {step : P → S → Except E S}

/-- A computation that ends well ends in `R`, and one that fails ends in `Q`. -/
def Ends (R : S → Prop) (Q : E → Prop) : Except E S → Prop
  | .ok s => R s
  | .error e => Q e

@[simp] theorem ends_ok {R : S → Prop} {Q : E → Prop} {s : S} : Ends R Q (.ok s) ↔ R s := Iff.rfl

@[simp] theorem ends_error {R : S → Prop} {Q : E → Prop} {e : E} :
    Ends R Q (.error e) ↔ Q e := Iff.rfl

/-- The steps one after another, up to the first that fails. -/
def attempt (step : P → S → Except E S) : List P → S → Except E S
  | [], s => .ok s
  | p :: ps, s =>
    match step p s with
    | .error e => .error e
    | .ok t => attempt step ps t

/-- **Level rule.** Each step starts at a level and ends at another one, where the next one
starts. -/
theorem attempt_spec {start finish : P → L} {I : L → S → Prop} {Q : E → Prop}
    (hstep : ∀ p s, I (start p) s → Ends (I (finish p)) Q (step p s))
    {p : P} {ps : List P} (hchain : (p :: ps).IsChain fun p q => finish p = start q) {s : S}
    (hs : I (start p) s) :
    Ends (I (finish ((p :: ps).getLast (by simp)))) Q (attempt step (p :: ps) s) := by
  induction ps generalizing p s with
  | nil =>
    have h := hstep p s hs
    rw [attempt]
    cases hp : step p s with
    | error e => rw [hp] at h; exact h
    | ok t => rw [hp] at h; exact h
  | cons q ps ih =>
    obtain ⟨hpq, hrest⟩ := List.isChain_cons_cons.mp hchain
    have h := hstep p s hs
    rw [attempt]
    cases hp : step p s with
    | error e => rw [hp] at h; exact h
    | ok t =>
      rw [hp, ends_ok, hpq] at h
      rw [List.getLast_cons (by simp)]
      exact ih hrest h

end Attempt

end LinuxKernel.Lib

import Mathlib.Data.Nat.Basic

/-!
# `do … while`

A loop that runs its body once, and again as long as a condition holds then. It
is run for at most `fuel` rounds; a loop ends if it does for some `fuel`.

## Results

* `doWhile_ends`    — with an invariant and a variant it ends.
* `doWhile_partial` — where it ends the invariant holds and the condition does not.
* `doWhile_endless` — with an invariant that implies the condition it does not end.
-/

namespace LinuxKernel.Lib

universe u

/-- The state after the loop, if it ends within `fuel` rounds. -/
def doWhile {S : Type u} (body : S → S) (cond : S → Bool) : Nat → S → Option S
  | 0, _ => none
  | fuel + 1, s => if cond (body s) then doWhile body cond fuel (body s) else some (body s)

variable {S : Type u} {body : S → S} {cond : S → Bool} {I Q : S → Prop} {s t : S} {fuel : Nat}

/-- **Total correctness.** Every round after which the condition holds keeps the invariant and
lowers the variant; one after which it does not has the result. -/
theorem doWhile_ends (variant : S → Nat)
    (hagain : ∀ s, I s → cond (body s) = true → I (body s) ∧ variant (body s) < variant s)
    (hend : ∀ s, I s → cond (body s) = false → Q (body s)) (hs : I s) :
    ∃ fuel t, doWhile body cond fuel s = some t ∧ Q t := by
  induction hv : variant s using Nat.strong_induction_on generalizing s with
  | _ v ih =>
    cases hc : cond (body s) with
    | false => exact ⟨1, body s, by simp [doWhile, hc], hend s hs hc⟩
    | true =>
      obtain ⟨hI, hlt⟩ := hagain s hs hc
      obtain ⟨fuel, t, hrun, hQ⟩ := ih _ (hv ▸ hlt) hI rfl
      refine ⟨fuel + 1, t, ?_, hQ⟩
      rw [doWhile, if_pos hc, hrun]

/-- **Partial correctness.** -/
theorem doWhile_partial (hstep : ∀ s, I s → I (body s)) (hs : I s)
    (hrun : doWhile body cond fuel s = some t) : I t ∧ cond t = false := by
  induction fuel generalizing s with
  | zero => simp [doWhile] at hrun
  | succ fuel ih =>
    rw [doWhile] at hrun
    cases hc : cond (body s) with
    | false =>
      rw [hc, if_neg Bool.false_ne_true] at hrun
      obtain rfl := Option.some.inj hrun
      exact ⟨hstep s hs, hc⟩
    | true =>
      rw [hc, if_pos rfl] at hrun
      exact ih (hstep s hs) hrun

theorem doWhile_endless (hstep : ∀ s, I s → I (body s) ∧ cond (body s) = true) (hs : I s)
    (fuel : Nat) : doWhile body cond fuel s = none := by
  induction fuel generalizing s with
  | zero => rfl
  | succ fuel ih =>
    obtain ⟨hI, hc⟩ := hstep s hs
    rw [doWhile, if_pos hc, ih hI]

end LinuxKernel.Lib

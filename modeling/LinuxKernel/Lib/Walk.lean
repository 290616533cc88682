import Mathlib.Computability.StateTransition
import Mathlib.Data.Set.Finite.Basic
import Mathlib.Data.Fintype.Pigeonhole

/-!
# Following links

A loop that follows links, `f : α → Option α`, from one place to the next until there is none. If
only finitely many places can be reached, it ends unless it comes to a cycle.

## Results

* `reaches_of_walkEnd`, `walkEnd_of_reaches` — where the walk ends.
* `walkEnd_mono`      — more rounds change nothing once it has ended.
* `Goes.trans`        — stretches of a walk put together.
* `walk_ends_iff`     — it ends iff it does not come to a cycle.
-/

namespace LinuxKernel.Lib

open Relation StateTransition

variable {α : Type*} {f : α → Option α} {a b c : α}

instance finite_bitVec (w : Nat) : Finite (BitVec w) :=
  Finite.of_injective BitVec.toFin fun _ _ => BitVec.toFin_inj.mp

/-- The place where the walk ends, if it does within `n` rounds. -/
def walkEnd (f : α → Option α) : Nat → α → Option α
  | 0, _ => none
  | n + 1, a =>
    match f a with
    | none => some a
    | some b => walkEnd f n b

/-- The walk comes to a place that it comes back to. -/
def Cycles (f : α → Option α) (a : α) : Prop := ∃ b, Reaches f a b ∧ Reaches₁ f b b

theorem walkEnd_succ_none (h : f a = none) (n : Nat) : walkEnd f (n + 1) a = some a := by
  rw [walkEnd, h]

theorem walkEnd_succ_some (h : f a = some b) (n : Nat) : walkEnd f (n + 1) a = walkEnd f n b := by
  rw [walkEnd, h]

theorem reaches_of_walkEnd {n : Nat} (h : walkEnd f n a = some b) : Reaches f a b ∧ f b = none := by
  induction n generalizing a with
  | zero => simp [walkEnd] at h
  | succ n ih =>
    cases hf : f a with
    | none =>
      rw [walkEnd_succ_none hf] at h
      obtain rfl := Option.some.inj h
      exact ⟨.refl, hf⟩
    | some c =>
      rw [walkEnd_succ_some hf] at h
      obtain ⟨hreach, hend⟩ := ih h
      exact ⟨.head hf hreach, hend⟩

theorem walkEnd_of_reaches (h : Reaches f a b) (hend : f b = none) :
    ∃ n, walkEnd f n a = some b := by
  induction h using ReflTransGen.head_induction_on with
  | refl => exact ⟨1, walkEnd_succ_none hend 0⟩
  | head hstep _ ih =>
    obtain ⟨n, hn⟩ := ih
    exact ⟨n + 1, by rw [walkEnd_succ_some hstep, hn]⟩

theorem walkEnd_mono {m n : Nat} (h : walkEnd f n a = some b) (hle : n ≤ m) :
    walkEnd f m a = some b := by
  induction n generalizing a m with
  | zero => simp [walkEnd] at h
  | succ n ih =>
    obtain ⟨m, rfl⟩ : ∃ k, m = k + 1 := ⟨m - 1, by omega⟩
    cases hf : f a with
    | none =>
      rw [walkEnd_succ_none hf] at h ⊢
      exact h
    | some c =>
      rw [walkEnd_succ_some hf] at h ⊢
      exact ih h (by omega)

/-- From `a` the walk comes to `b` in `j` rounds. -/
def Goes (f : α → Option α) (j : Nat) (a b : α) : Prop := ∀ m, walkEnd f (m + j) a = walkEnd f m b

theorem Goes.step (h : f a = some b) : Goes f 1 a b := fun m => walkEnd_succ_some h m

theorem Goes.trans {i j : Nat} (hab : Goes f i a b) (hbc : Goes f j b c) : Goes f (i + j) a c := by
  intro m
  rw [← hbc m, ← hab (m + j), Nat.add_assoc, Nat.add_comm i j]

/-- The places of a cycle stay on it. -/
theorem cycle_of_reaches (hcycle : Reaches₁ f b b) (h : Reaches f b c) : Reaches₁ f c c := by
  induction h with
  | refl => exact hcycle
  | tail _ hstep ih => exact TransGen.tail' (reaches₁_fwd ih hstep) hstep

/-- From a place of a cycle the walk goes on. -/
theorem ne_none_of_cycle (h : Reaches₁ f b b) : f b ≠ none := by
  intro hnone
  obtain ⟨c, hstep, -⟩ := TransGen.head'_iff.mp h
  rw [hnone] at hstep
  simp at hstep

theorem not_cycles_of_walkEnd {n : Nat} (h : walkEnd f n a = some c) : ¬ Cycles f a := by
  obtain ⟨hreach, hend⟩ := reaches_of_walkEnd h
  rintro ⟨b, hb, hcycle⟩
  rcases reaches_total hb hreach with hbc | hcb
  · exact ne_none_of_cycle (cycle_of_reaches hcycle hbc) hend
  · -- the end is on the way to the cycle
    rcases ReflTransGen.cases_head hcb with rfl | ⟨d, hstep, -⟩
    · exact ne_none_of_cycle hcycle hend
    · rw [hend] at hstep
      simp at hstep

theorem walkEnd_of_cycles (h : Cycles f a) (n : Nat) : walkEnd f n a = none := by
  rw [Option.eq_none_iff_forall_ne_some]
  intro b hb
  exact not_cycles_of_walkEnd hb h

/-- A walk through finitely many places that never ends comes back to one. -/
theorem cycles_of_endless (hfin : {b | Reaches f a b}.Finite)
    (hgo : ∀ b, Reaches f a b → f b ≠ none) : Cycles f a := by
  let next : α → α := fun b => (f b).getD b
  have hnext : ∀ {b}, Reaches f a b → f b = some (next b) := by
    intro b hb
    obtain ⟨c, hc⟩ := Option.ne_none_iff_exists'.mp (hgo b hb)
    simp [next, hc]
  have hreach : ∀ n, Reaches f a (next^[n] a) := by
    intro n
    induction n with
    | zero => exact .refl
    | succ n ih =>
      rw [Function.iterate_succ_apply']
      exact .tail ih (hnext ih)
  have hpath : ∀ i k, Reaches₁ f (next^[i] a) (next^[i + (k + 1)] a) := by
    intro i k
    induction k with
    | zero =>
      rw [zero_add, Function.iterate_succ_apply']
      exact .single (hnext (hreach i))
    | succ k ih =>
      rw [← Nat.add_assoc i, Function.iterate_succ_apply']
      exact .tail ih (hnext (hreach _))
  -- two of the places are the same
  have := hfin.to_subtype
  obtain ⟨i, j, hne, heq⟩ := Finite.exists_ne_map_eq_of_infinite
    (fun n => (⟨next^[n] a, hreach n⟩ : {b | Reaches f a b}))
  have heq : next^[i] a = next^[j] a := congrArg Subtype.val heq
  rcases Nat.lt_or_gt_of_ne hne with hlt | hlt
  · obtain ⟨k, rfl⟩ := Nat.exists_eq_add_of_lt hlt
    exact ⟨_, hreach i, heq ▸ hpath i k⟩
  · obtain ⟨k, rfl⟩ := Nat.exists_eq_add_of_lt hlt
    exact ⟨_, hreach j, heq ▸ hpath j k⟩

/-- **A walk ends** iff it does not come to a cycle. -/
theorem walk_ends_iff (hfin : {b | Reaches f a b}.Finite) :
    (∃ n b, walkEnd f n a = some b) ↔ ¬ Cycles f a := by
  constructor
  · rintro ⟨n, b, h⟩
    exact not_cycles_of_walkEnd h
  · intro hacyclic
    by_contra hendless
    refine hacyclic (cycles_of_endless hfin ?_)
    intro b hb hnone
    obtain ⟨n, hn⟩ := walkEnd_of_reaches hb hnone
    exact hendless ⟨n, b, hn⟩

end LinuxKernel.Lib

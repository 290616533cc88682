import Mathlib.Data.List.Iterate
import Mathlib.Data.List.Nodup
import Mathlib.Algebra.BigOperators.Group.List.Basic
import Mathlib.Algebra.GroupWithZero.Nat

/-!
# Round robin with quotas

The element at the head of a queue has the turn. Every step uses up one unit of what
is left to it; with the last unit it gets its quota again and goes to the end.

## Results

* `RoundRobin.iterate_turn`  — one turn: as many steps as are left to the head.
* `RoundRobin.iterate_round` — a round from full quotas: everybody has one turn, in
  the order of the queue, and the state is as before.
* `count_turns`              — how many steps of a round belong to one element.
-/

namespace LinuxKernel.Lib

variable {α : Type*}

/-- The queue and what is left to each element. -/
structure RoundRobin (α : Type*) where
  queue : List α
  left  : α → Nat

/-- The order in which the elements have their turns in a round. -/
def turns (quota : α → Nat) (ps : List α) : List α :=
  ps.flatMap fun p => List.replicate (quota p) p

theorem turns_cons (quota : α → Nat) (p : α) (ps : List α) :
    turns quota (p :: ps) = List.replicate (quota p) p ++ turns quota ps :=
  List.flatMap_cons

theorem count_turns [DecidableEq α] (quota : α → Nat) {p : α} {ps : List α} (hd : ps.Nodup)
    (hp : p ∈ ps) : (turns quota ps).count p = quota p := by
  have hnone : ∀ {qs : List α}, p ∉ qs → (turns quota qs).count p = 0 := by
    intro qs hq
    refine List.count_eq_zero.mpr fun hmem => ?_
    obtain ⟨q, hqs, hrep⟩ := List.mem_flatMap.mp hmem
    exact hq (List.eq_of_mem_replicate hrep ▸ hqs)
  induction ps with
  | nil => cases hp
  | cons q ps ih =>
    obtain ⟨hq, hd'⟩ := List.nodup_cons.mp hd
    rw [turns_cons, List.count_append]
    by_cases hpq : q = p
    · subst hpq
      rw [List.count_replicate_self, hnone hq, Nat.add_zero]
    · have hp' : p ∈ ps := (List.mem_cons.mp hp).resolve_left (Ne.symm hpq)
      rw [List.count_replicate, if_neg (by simpa using hpq), ih hd' hp', Nat.zero_add]

namespace RoundRobin

variable [DecidableEq α] {quota left : α → Nat} {p : α} {ps : List α}

def next (quota : α → Nat) (a : RoundRobin α) : RoundRobin α :=
  match a.queue with
  | [] => a
  | p :: ps =>
    if a.left p ≤ 1 then ⟨ps ++ [p], Function.update a.left p (quota p)⟩
    else ⟨p :: ps, Function.update a.left p (a.left p - 1)⟩

theorem next_of_le (h : left p ≤ 1) :
    next quota ⟨p :: ps, left⟩ = ⟨ps ++ [p], Function.update left p (quota p)⟩ :=
  if_pos h

theorem next_of_lt (h : 1 < left p) :
    next quota ⟨p :: ps, left⟩ = ⟨p :: ps, Function.update left p (left p - 1)⟩ :=
  if_neg (Nat.not_le.mpr h)

theorem mem_next {a : RoundRobin α} {q : α} : q ∈ (next quota a).queue ↔ q ∈ a.queue := by
  obtain ⟨queue, left⟩ := a
  cases queue with
  | nil => rfl
  | cons p ps =>
    by_cases h : left p ≤ 1
    · rw [next_of_le h, List.mem_append, List.mem_singleton, List.mem_cons, or_comm]
    · rw [next_of_lt (Nat.lt_of_not_le h)]

/-- Nobody runs out of units. -/
theorem next_pos {a : RoundRobin α} (hquota : ∀ q, 1 ≤ quota q)
    (h : ∀ q ∈ a.queue, 1 ≤ a.left q) : ∀ q ∈ (next quota a).queue, 1 ≤ (next quota a).left q := by
  intro q hq
  have hold := h q (mem_next.mp hq)
  obtain ⟨queue, left⟩ := a
  cases queue with
  | nil => exact hold
  | cons p ps =>
    by_cases hp : left p ≤ 1
    · rw [next_of_le hp]
      show 1 ≤ Function.update left p (quota p) q
      rw [Function.update_apply]
      split
      · exact hquota p
      · exact hold
    · rw [next_of_lt (Nat.lt_of_not_le hp)]
      show 1 ≤ Function.update left p (left p - 1) q
      rw [Function.update_apply]
      split
      · omega
      · exact hold

/-- One turn of the head, to which `n + 1` units are left. -/
theorem iterate_turn (quota : α → Nat) (ps : List α) (n : Nat) (h : left p = n + 1) :
    (next quota)^[n + 1] ⟨p :: ps, left⟩ = ⟨ps ++ [p], Function.update left p (quota p)⟩ ∧
    (List.iterate (next quota) ⟨p :: ps, left⟩ (n + 1)).map (·.queue.head?) =
      List.replicate (n + 1) (some p) := by
  induction n generalizing left with
  | zero =>
    rw [Nat.zero_add, Function.iterate_one, next_of_le (le_of_eq h)]
    exact ⟨rfl, rfl⟩
  | succ n ih =>
    have hstep : next quota ⟨p :: ps, left⟩ = ⟨p :: ps, Function.update left p (left p - 1)⟩ :=
      next_of_lt (by omega)
    have hleft : Function.update left p (left p - 1) p = n + 1 := by
      rw [Function.update_self, h, Nat.add_sub_cancel]
    obtain ⟨hend, hheads⟩ := ih hleft
    constructor
    · rw [Function.iterate_succ_apply, hstep, hend, Function.update_idem]
    · rw [List.iterate, List.map_cons, hstep, hheads]
      rfl

/-- **A round.** The elements of `ps`, at the front of the queue and with full
quotas, have one turn each and go behind the others. -/
theorem iterate_round (ps qs : List α) (hfull : ∀ p ∈ ps, left p = quota p)
    (hpos : ∀ p ∈ ps, 1 ≤ quota p) :
    (next quota)^[(ps.map quota).sum] ⟨ps ++ qs, left⟩ = ⟨qs ++ ps, left⟩ ∧
    (List.iterate (next quota) ⟨ps ++ qs, left⟩ (ps.map quota).sum).map (·.queue.head?) =
      (turns quota ps).map some := by
  induction ps generalizing qs with
  | nil =>
    rw [List.append_nil]
    exact ⟨rfl, rfl⟩
  | cons p ps ih =>
    obtain ⟨n, hn⟩ : ∃ n, quota p = n + 1 :=
      Nat.exists_eq_add_of_le' (hpos p (List.mem_cons_self ..))
    have hp := hfull p (List.mem_cons_self ..)
    obtain ⟨hturn, hheads⟩ := iterate_turn quota (ps ++ qs) n (hp.trans hn)
    -- the quota is full again after the turn
    rw [← hp, Function.update_eq_self] at hturn
    obtain ⟨hend, hrest⟩ := ih (qs ++ [p]) (fun q hq => hfull q (List.mem_cons_of_mem p hq))
      fun q hq => hpos q (List.mem_cons_of_mem p hq)
    rw [← List.append_assoc] at hend hrest
    rw [List.map_cons, List.sum_cons, List.cons_append, hn]
    constructor
    · rw [Nat.add_comm, Function.iterate_add_apply, hturn, hend, List.append_assoc]
      rfl
    · rw [List.iterate_add, List.map_append, hheads, hturn, hrest, turns_cons, List.map_append, hn,
        List.map_replicate]

end RoundRobin

end LinuxKernel.Lib

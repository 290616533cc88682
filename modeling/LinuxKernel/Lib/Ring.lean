import Mathlib.Data.List.Basic
import Mathlib.Data.List.Nodup

/-!
# Circular lists

A doubly linked list with a head node, seen as the list of its elements. The
neighbours of an element are elements or the head node, which is `none`; an
element that is in no list points at itself.

## Results

* `ringPrev_ne_ringNext_iff` — comparing the two neighbours of an element tests
  whether it is the only one.
* `before_erase`             — what stands before an element after another one left.
* `before_moveTail`          — and after another one went to the end.
-/

namespace LinuxKernel.Lib

variable {α : Type*} [DecidableEq α]

/-- The element before `x`. -/
def ringPrev (l : List α) (x : α) : Option α :=
  if x ∈ l then (l.takeWhile (· ≠ x)).getLast? else some x

/-- The element after `x`. -/
def ringNext (l : List α) (x : α) : Option α :=
  if x ∈ l then (l.dropWhile (· ≠ x)).tail.head? else some x

/-- Unlink `x` and put it at the end. -/
def moveTail (l : List α) (x : α) : List α := l.erase x ++ [x]

variable {l : List α} {x y : α}

/-- A member splits its list at its first place. -/
theorem takeWhile_dropWhile_of_mem (hx : x ∈ l) :
    ∃ pre post, l = pre ++ x :: post ∧ l.takeWhile (· ≠ x) = pre ∧
      l.dropWhile (· ≠ x) = x :: post ∧ x ∉ pre := by
  induction l with
  | nil => cases hx
  | cons y l ih =>
    by_cases hy : y = x
    · exact ⟨[], l, by simp [hy], by simp [hy], by simp [hy], List.not_mem_nil⟩
    · have hx' : x ∈ l := by
        rcases List.mem_cons.mp hx with rfl | h
        · exact absurd rfl hy
        · exact h
      obtain ⟨pre, post, hl, htake, hdrop, hpre⟩ := ih hx'
      refine ⟨y :: pre, post, by rw [hl, List.cons_append], ?_, ?_, ?_⟩
      · rw [List.takeWhile_cons_of_pos (by simpa using hy), htake]
      · rw [List.dropWhile_cons_of_pos (by simpa using hy), hdrop]
      · simpa [Ne.symm hy] using hpre

/-- **Neighbour test.** In a list without duplicates the neighbours of an
element coincide exactly when it is the only element: both are then the head
node. -/
theorem ringPrev_ne_ringNext_iff (hd : l.Nodup) (hx : x ∈ l) :
    ringPrev l x ≠ ringNext l x ↔ l ≠ [x] := by
  obtain ⟨pre, post, hl, htake, hdrop, -⟩ := takeWhile_dropWhile_of_mem hx
  rw [ringPrev, ringNext, if_pos hx, if_pos hx, htake, hdrop, List.tail_cons, not_iff_not]
  constructor
  · intro h
    cases hpre : pre.getLast? with
    | none =>
      rw [hpre] at h
      rw [List.getLast?_eq_none_iff] at hpre
      rw [eq_comm, List.head?_eq_none_iff] at h
      rw [hl, hpre, h, List.nil_append]
    | some y =>
      -- a common neighbour would stand on both sides of x
      rw [hpre] at h
      have hy1 : y ∈ pre := List.mem_of_getLast? hpre
      have hy2 : y ∈ post := List.mem_of_head? h.symm
      rw [hl] at hd
      exact absurd (List.mem_cons_of_mem x hy2) ((List.nodup_append.mp hd).2.2 y hy1 y · rfl)
  · intro h
    rw [h] at hl
    have hlen := congrArg List.length hl
    simp only [List.length_cons, List.length_nil, List.length_append] at hlen
    have hpre : pre = [] := List.length_eq_zero_iff.mp (by omega)
    have hpost : post = [] := List.length_eq_zero_iff.mp (by omega)
    rw [hpre, hpost]
    rfl

/-! ## What stands before an element -/

/-- The elements before `x`. -/
def before (l : List α) (x : α) : List α := l.takeWhile (· ≠ x)

theorem before_cons_self (l : List α) (x : α) : before (x :: l) x = [] := by
  simp [before]

theorem before_cons_of_ne (l : List α) (h : y ≠ x) : before (y :: l) x = y :: before l x := by
  simp [before, h]

theorem length_before (hx : x ∈ l) : (before l x).length = l.idxOf x := by
  induction l with
  | nil => cases hx
  | cons y l ih =>
    by_cases hy : y = x
    · subst hy
      rw [before_cons_self, List.idxOf_cons_self]
      rfl
    · have hx' : x ∈ l := (List.mem_cons.mp hx).resolve_left (Ne.symm hy)
      rw [before_cons_of_ne l hy, List.idxOf_cons_ne l hy, List.length_cons, ih hx']

/-- What joins at the end is before no element. -/
theorem before_append (r : List α) (hx : x ∈ l) : before (l ++ r) x = before l x := by
  induction l with
  | nil => cases hx
  | cons y l ih =>
    by_cases hy : y = x
    · subst hy
      rw [List.cons_append, before_cons_self, before_cons_self]
    · have hx' : x ∈ l := (List.mem_cons.mp hx).resolve_left (Ne.symm hy)
      rw [List.cons_append, before_cons_of_ne _ hy, before_cons_of_ne l hy, ih hx']

/-- What leaves is before no element, and the others keep their order. -/
theorem before_erase (hd : l.Nodup) (hne : x ≠ y) :
    before (l.erase y) x = (before l x).filter (· ≠ y) := by
  induction l with
  | nil => rfl
  | cons z l ih =>
    obtain ⟨hz, hd'⟩ := List.nodup_cons.mp hd
    by_cases hzx : z = x
    · subst hzx
      rw [List.erase_cons_tail (by simpa using hne), before_cons_self, before_cons_self]
      rfl
    · rw [before_cons_of_ne l hzx]
      by_cases hzy : z = y
      · -- y itself leaves; it does not occur again
        subst hzy
        have hnot : ∀ w ∈ before l x, w ≠ z := by
          rintro w hw rfl
          exact hz (List.takeWhile_sublist _ |>.subset hw)
        rw [List.erase_cons_head, List.filter_cons_of_neg (by simp),
          List.filter_eq_self.mpr (by simpa using hnot)]
      · rw [List.erase_cons_tail (by simpa using hzy), before_cons_of_ne _ hzx, ih hd',
          List.filter_cons_of_pos (by simpa using hzy)]

theorem before_moveTail (hd : l.Nodup) (hx : x ∈ l) (hne : x ≠ y) :
    before (moveTail l y) x = (before l x).filter (· ≠ y) := by
  rw [moveTail, before_append _ ((List.mem_erase_of_ne hne).mpr hx), before_erase hd hne]

theorem moveTail_perm (hx : x ∈ l) : (moveTail l x).Perm l :=
  (List.perm_append_singleton x _).trans (List.perm_cons_erase hx).symm

end LinuxKernel.Lib

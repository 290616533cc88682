import Mathlib.Algebra.BigOperators.Group.Finset.Basic
import Mathlib.Algebra.BigOperators.Group.Finset.Piecewise
import Mathlib.Algebra.Order.BigOperators.Group.Finset

/-!
# Priority arrays

An array of FIFO queues, one for each level, together with a bitmap that says
which queues are non-empty. Level `0` is served first. An element has one
level, given by a function `lvl`, and stands in the queue of that level only.

## Results

* `WF.add` / `WF.del` / `WF.move` — the three list operations keep the array
  well formed.
* `size_add` / `size_del` / `size_move` — and change the number of elements by
  one up, one down and not at all.
* `findFirstBit_add` / `findFirstBit_del` — how the first occupied level moves,
  in the two forms an incrementally kept "highest priority" field needs.
-/

namespace LinuxKernel.Lib

/-- Queues by level, and the bitmap of the non-empty ones. -/
structure PrioArray (α : Type*) where
  queue  : Nat → List α
  bitmap : Nat → Bool

namespace PrioArray

variable {α : Type*}

/-- No element at any level. -/
def empty : PrioArray α := ⟨fun _ => [], fun _ => false⟩

/-- Put `x` at the head or the tail of queue `i` and set the bit. -/
def add (a : PrioArray α) (i : Nat) (x : α) (head : Bool) : PrioArray α where
  queue  := Function.update a.queue i (if head then x :: a.queue i else a.queue i ++ [x])
  bitmap := Function.update a.bitmap i true

/-- Unlink `x` from the queue it is in, and clear bit `i` if queue `i` is now
empty. -/
def del [DecidableEq α] (a : PrioArray α) (i : Nat) (x : α) : PrioArray α where
  queue  := fun j => (a.queue j).erase x
  bitmap := if (a.queue i).erase x = [] then Function.update a.bitmap i false else a.bitmap

/-- Unlink `x` and put it at the head or the tail of queue `i`. The bitmap is
left alone. -/
def move [DecidableEq α] (a : PrioArray α) (i : Nat) (x : α) (head : Bool) : PrioArray α where
  queue  := Function.update (fun j => (a.queue j).erase x) i
    (if head then x :: (a.queue i).erase x else (a.queue i).erase x ++ [x])
  bitmap := a.bitmap

/-- The first level below `n` whose bit is set, `n` if there is none. -/
def findFirstBit (n : Nat) (a : PrioArray α) : Nat :=
  ((List.range n).find? a.bitmap).getD n

/-- `x` is in one of the queues. -/
def Mem (x : α) (a : PrioArray α) : Prop := ∃ i, x ∈ a.queue i

/-- Number of elements at the levels below `n`. -/
def size (n : Nat) (a : PrioArray α) : Nat :=
  ∑ i ∈ Finset.range n, (a.queue i).length

/-- Every element is at its level, below `n`; queues have no duplicates; the
bitmap marks the non-empty queues. -/
structure WF (n : Nat) (lvl : α → Nat) (a : PrioArray α) : Prop where
  lvl_eq : ∀ {i x}, x ∈ a.queue i → i = lvl x
  lvl_lt : ∀ {i x}, x ∈ a.queue i → i < n
  nodup  : ∀ i, (a.queue i).Nodup
  bit    : ∀ i, a.bitmap i = true ↔ a.queue i ≠ []

variable {n : Nat} {lvl : α → Nat} {a : PrioArray α} {i j : Nat} {x y : α} {head : Bool}

theorem WF.empty : WF n lvl (PrioArray.empty : PrioArray α) where
  lvl_eq h := by simp [PrioArray.empty] at h
  lvl_lt h := by simp [PrioArray.empty] at h
  nodup _ := List.nodup_nil
  bit _ := by simp [PrioArray.empty]

/-- Only the levels of the elements present matter. -/
theorem WF.congr {lvl' : α → Nat} (h : WF n lvl a)
    (hlvl : ∀ x, Mem x a → lvl' x = lvl x) : WF n lvl' a where
  lvl_eq {i x} hx := by rw [hlvl x ⟨i, hx⟩]; exact h.lvl_eq hx
  lvl_lt := h.lvl_lt
  nodup := h.nodup
  bit := h.bit

theorem WF.mem_lvl (h : WF n lvl a) (hx : Mem x a) : x ∈ a.queue (lvl x) := by
  obtain ⟨i, hi⟩ := hx
  rwa [← h.lvl_eq hi]

theorem WF.lvl_lt_of_mem (h : WF n lvl a) (hx : Mem x a) : lvl x < n :=
  h.lvl_lt (h.mem_lvl hx)

/-! ## The first occupied level -/

theorem findFirstBit_le : findFirstBit n a ≤ n := by
  unfold findFirstBit
  cases h : (List.range n).find? a.bitmap with
  | none => simp
  | some k =>
    rw [List.find?_range_eq_some] at h
    simpa using Nat.le_of_lt (List.mem_range.mp h.2.1)

theorem findFirstBit_le_of_bit (hi : i < n) (hb : a.bitmap i = true) :
    findFirstBit n a ≤ i := by
  unfold findFirstBit
  cases h : (List.range n).find? a.bitmap with
  | none =>
    rw [List.find?_range_eq_none] at h
    exact absurd hb (by simpa using h i hi)
  | some k =>
    rw [List.find?_range_eq_some] at h
    by_contra hlt
    have := h.2.2 i (by simpa using hlt)
    simp [hb] at this

theorem bit_findFirstBit (h : findFirstBit n a < n) : a.bitmap (findFirstBit n a) = true := by
  unfold findFirstBit at h ⊢
  cases hf : (List.range n).find? a.bitmap with
  | none => simp [hf] at h
  | some k =>
    rw [List.find?_range_eq_some] at hf
    simpa using hf.1

/-- A number below which no bit is set is at most the first occupied level. -/
theorem le_findFirstBit (hi : i ≤ n) (h : ∀ j < i, a.bitmap j = false) :
    i ≤ findFirstBit n a := by
  by_contra hlt
  rw [not_le] at hlt
  have hb := bit_findFirstBit (lt_of_lt_of_le hlt hi)
  rw [h _ hlt] at hb
  cases hb

theorem bitmap_false_of_lt (h : i < findFirstBit n a) : a.bitmap i = false := by
  by_contra hb
  rw [Bool.not_eq_false] at hb
  exact absurd (findFirstBit_le_of_bit (lt_of_lt_of_le h findFirstBit_le) hb) (by omega)

theorem WF.findFirstBit_le_lvl (h : WF n lvl a) (hx : Mem x a) :
    findFirstBit n a ≤ lvl x := by
  have hm := h.mem_lvl hx
  exact findFirstBit_le_of_bit (h.lvl_lt hm) ((h.bit _).mpr (List.ne_nil_of_mem hm))

/-- The queue at the first occupied level has a first element. -/
theorem WF.head_findFirstBit (h : WF n lvl a) (hx : Mem x a) :
    ∃ y rest, a.queue (findFirstBit n a) = y :: rest := by
  have hlt := lt_of_le_of_lt (h.findFirstBit_le_lvl hx) (h.lvl_lt_of_mem hx)
  have hne := (h.bit _).mp (bit_findFirstBit hlt)
  exact List.exists_cons_of_ne_nil hne

/-! ## Adding an element -/

theorem mem_queue_add : y ∈ (a.add i x head).queue j ↔ (j = i ∧ y = x) ∨ y ∈ a.queue j := by
  by_cases hj : j = i
  · subst hj
    cases head <;> simp [add, or_comm]
  · simp [add, hj]

theorem mem_add : Mem y (a.add i x head) ↔ y = x ∨ Mem y a := by
  simp only [Mem, mem_queue_add]
  constructor
  · rintro ⟨j, ⟨-, rfl⟩ | hj⟩
    · exact Or.inl rfl
    · exact Or.inr ⟨j, hj⟩
  · rintro (rfl | ⟨j, hj⟩)
    · exact ⟨i, Or.inl ⟨rfl, rfl⟩⟩
    · exact ⟨j, Or.inr hj⟩

theorem WF.add (h : WF n lvl a) (hx : ¬ Mem x a) (hi : i = lvl x) (hlt : i < n) :
    WF n lvl (a.add i x head) where
  lvl_eq {j y} hy := by
    rcases mem_queue_add.mp hy with ⟨rfl, rfl⟩ | hy
    · exact hi
    · exact h.lvl_eq hy
  lvl_lt {j y} hy := by
    rcases mem_queue_add.mp hy with ⟨rfl, rfl⟩ | hy
    · exact hlt
    · exact h.lvl_lt hy
  nodup j := by
    by_cases hj : j = i
    · subst hj
      have hnot : x ∉ a.queue j := fun hm => hx ⟨j, hm⟩
      cases head
      · simp [PrioArray.add, List.nodup_append, h.nodup j]
        intro b hb
        rintro rfl
        exact hnot hb
      · simp [PrioArray.add, h.nodup j, hnot]
    · simpa [PrioArray.add, hj] using h.nodup j
  bit j := by
    by_cases hj : j = i
    · subst hj
      cases head <;> simp [PrioArray.add]
    · simpa [PrioArray.add, hj] using h.bit j

theorem size_add (hlt : i < n) : size n (a.add i x head) = size n a + 1 := by
  unfold size
  have hmem : i ∈ Finset.range n := Finset.mem_range.mpr hlt
  rw [← Finset.add_sum_erase _ _ hmem, ← Finset.add_sum_erase (Finset.range n) _ hmem]
  have hself : ((a.add i x head).queue i).length = (a.queue i).length + 1 := by
    cases head <;> simp [add]
  have hrest : ∑ j ∈ (Finset.range n).erase i, ((a.add i x head).queue j).length =
      ∑ j ∈ (Finset.range n).erase i, (a.queue j).length := by
    apply Finset.sum_congr rfl
    intro j hj
    simp [add, Finset.ne_of_mem_erase hj]
  rw [hself, hrest]
  omega

theorem findFirstBit_add (hlt : i < n) :
    findFirstBit n (a.add i x head) = min i (findFirstBit n a) := by
  apply le_antisymm
  · apply le_min
    · exact findFirstBit_le_of_bit hlt (by simp [add])
    · rcases lt_or_ge (findFirstBit n a) n with hl | hg
      · apply findFirstBit_le_of_bit hl
        by_cases hj : findFirstBit n a = i
        · simp [add, hj]
        · simpa [add, hj] using bit_findFirstBit hl
      · exact le_trans findFirstBit_le hg
  · apply le_findFirstBit (le_trans (min_le_left _ _) (Nat.le_of_lt hlt))
    intro j hj
    have hji : j ≠ i := by omega
    simpa [add, hji] using bitmap_false_of_lt (lt_of_lt_of_le hj (min_le_right _ _))

/-! ## Emptiness -/

theorem WF.size_pos_iff (h : WF n lvl a) : size n a ≠ 0 ↔ ∃ x, Mem x a := by
  unfold size
  rw [Ne, Finset.sum_eq_zero_iff]
  push Not
  constructor
  · rintro ⟨i, -, hne⟩
    obtain ⟨x, hx⟩ := List.exists_mem_of_length_pos (Nat.pos_of_ne_zero hne)
    exact ⟨x, i, hx⟩
  · rintro ⟨x, i, hx⟩
    exact ⟨i, Finset.mem_range.mpr (h.lvl_lt hx), (List.length_pos_of_mem hx).ne'⟩

theorem WF.findFirstBit_of_empty (h : WF n lvl a) (he : ∀ x, ¬ Mem x a) :
    findFirstBit n a = n := by
  apply le_antisymm findFirstBit_le
  apply le_findFirstBit le_rfl
  intro j _
  by_contra hb
  rw [Bool.not_eq_false, h.bit j] at hb
  obtain ⟨x, hx⟩ := List.exists_mem_of_ne_nil _ hb
  exact he x ⟨j, hx⟩

section

variable [DecidableEq α]

/-! ## Removing an element -/

theorem WF.mem_queue_del (h : WF n lvl a) :
    y ∈ (a.del i x).queue j ↔ y ≠ x ∧ y ∈ a.queue j := by
  simpa [PrioArray.del] using (h.nodup j).mem_erase_iff (a := y) (b := x)

theorem WF.mem_del (h : WF n lvl a) : Mem y (a.del i x) ↔ y ≠ x ∧ Mem y a := by
  simp only [Mem, h.mem_queue_del]
  constructor
  · rintro ⟨j, hne, hj⟩
    exact ⟨hne, j, hj⟩
  · rintro ⟨hne, j, hj⟩
    exact ⟨j, hne, hj⟩

/-- Off its level, unlinking an element changes no queue. -/
theorem WF.queue_del_of_ne (h : WF n lvl a) {j : Nat} (hj : j ≠ lvl x) :
    (a.queue j).erase x = a.queue j :=
  List.erase_of_not_mem fun hm => hj (h.lvl_eq hm)

theorem WF.del (h : WF n lvl a) (hi : i = lvl x) : WF n lvl (a.del i x) where
  lvl_eq hy := h.lvl_eq (h.mem_queue_del.mp hy).2
  lvl_lt hy := h.lvl_lt (h.mem_queue_del.mp hy).2
  nodup j := (h.nodup j).erase x
  bit j := by
    by_cases hj : j = i
    · subst hj
      by_cases he : (a.queue j).erase x = []
      · simp [PrioArray.del, he]
      · have hne : a.queue j ≠ [] := by
          intro h0
          rw [h0] at he
          exact he rfl
        simp [PrioArray.del, he, (h.bit j).mpr hne]
    · have hq : (a.queue j).erase x = a.queue j := h.queue_del_of_ne (by rw [← hi]; exact hj)
      have hb : (a.del i x).bitmap j = a.bitmap j := by
        simp only [PrioArray.del]
        split <;> simp [hj]
      rw [hb, h.bit j]
      simp only [PrioArray.del, hq]

theorem WF.size_del (h : WF n lvl a) (hi : i = lvl x) (hx : Mem x a) :
    size n (a.del i x) + 1 = size n a := by
  have hm : x ∈ a.queue i := hi ▸ h.mem_lvl hx
  have hmem : i ∈ Finset.range n := Finset.mem_range.mpr (h.lvl_lt hm)
  unfold size
  rw [← Finset.add_sum_erase _ _ hmem, ← Finset.add_sum_erase (Finset.range n) _ hmem]
  have hself : ((a.del i x).queue i).length = (a.queue i).length - 1 := by
    simp [PrioArray.del, List.length_erase_of_mem hm]
  have hpos : 0 < (a.queue i).length := List.length_pos_of_mem hm
  have hrest : ∑ j ∈ (Finset.range n).erase i, ((a.del i x).queue j).length =
      ∑ j ∈ (Finset.range n).erase i, (a.queue j).length := by
    apply Finset.sum_congr rfl
    intro j hj
    have hne : j ≠ lvl x := by rw [← hi]; exact Finset.ne_of_mem_erase hj
    simp only [PrioArray.del, h.queue_del_of_ne hne]
  rw [hself, hrest]
  omega

/-- Removing an element that is not at the first occupied level leaves that
level where it is. -/
theorem findFirstBit_del (hne : i ≠ findFirstBit n a) :
    findFirstBit n (a.del i x) = findFirstBit n a := by
  have hbit : ∀ j, j ≠ i → (a.del i x).bitmap j = a.bitmap j := by
    intro j hj
    simp only [PrioArray.del]
    split <;> simp [hj]
  have hle : ∀ j, a.bitmap j = false → (a.del i x).bitmap j = false := by
    intro j hj
    simp only [PrioArray.del]
    split
    · by_cases hji : j = i <;> simp [hji]
      simpa [hji] using hj
    · exact hj
  apply le_antisymm
  · rcases lt_or_ge (findFirstBit n a) n with hl | hg
    · apply findFirstBit_le_of_bit hl
      rw [hbit _ (Ne.symm hne)]
      exact bit_findFirstBit hl
    · exact le_trans findFirstBit_le hg
  · apply le_findFirstBit findFirstBit_le
    intro j hj
    exact hle j (bitmap_false_of_lt hj)

/-! ## Moving an element inside its queue -/

theorem WF.queue_move_perm (h : WF n lvl a) (hi : i = lvl x) (hx : Mem x a)
    (head : Bool) (j : Nat) :
    ((a.move i x head).queue j).Perm (a.queue j) := by
  by_cases hj : j = i
  · subst hj
    have hm : x ∈ a.queue j := hi ▸ h.mem_lvl hx
    have hp := (List.perm_cons_erase hm).symm
    cases head
    · simp only [PrioArray.move, Function.update_self, Bool.false_eq_true, if_false]
      exact (List.perm_append_singleton x _).trans hp
    · simpa [PrioArray.move] using hp
  · have hq := h.queue_del_of_ne (x := x) (j := j) (by rw [← hi]; exact hj)
    simp [PrioArray.move, hj, hq]

theorem WF.mem_move (h : WF n lvl a) (hi : i = lvl x) (hx : Mem x a) :
    Mem y (a.move i x head) ↔ Mem y a := by
  simp only [Mem, (h.queue_move_perm hi hx head _).mem_iff]

theorem WF.move (h : WF n lvl a) (hi : i = lvl x) (hx : Mem x a) :
    WF n lvl (a.move i x head) where
  lvl_eq hy := h.lvl_eq ((h.queue_move_perm hi hx head _).mem_iff.mp hy)
  lvl_lt hy := h.lvl_lt ((h.queue_move_perm hi hx head _).mem_iff.mp hy)
  nodup j := (h.queue_move_perm hi hx head j).nodup_iff.mpr (h.nodup j)
  bit j := by
    have hp := h.queue_move_perm hi hx head j
    have hnil : (a.move i x head).queue j = [] ↔ a.queue j = [] :=
      ⟨fun h0 => List.nil_perm.mp (h0 ▸ hp), fun h0 => List.perm_nil.mp (h0 ▸ hp)⟩
    rw [Ne, hnil]
    exact h.bit j

theorem WF.size_move (h : WF n lvl a) (hi : i = lvl x) (hx : Mem x a) :
    size n (a.move i x head) = size n a :=
  Finset.sum_congr rfl fun j _ => (h.queue_move_perm hi hx head j).length_eq

end

end PrioArray

end LinuxKernel.Lib

import Mathlib.Data.List.Basic

/-!
# Memory of bytes

Little-endian words of eight bytes in a memory with a byte at every address.

## Results

* `loadWord_setWidth`     — the first byte of a word is its lowest one.
* `storeWord_only_iff`    — a store changes one byte exactly if the seven bytes after it hold
  what it writes there.
* `wordByte_signExtend`   — a byte that is stored as a word fills these with its sign.
-/

namespace LinuxKernel.Lib

/-- A byte for each address. -/
abbrev Memory := Nat → BitVec 8

/-- Byte i of a word, counted from the lowest one. -/
def wordByte (w : BitVec 64) (i : Nat) : BitVec 8 := w.extractLsb' (8 * i) 8

/-- The word at `p`. -/
def loadWord (m : Memory) (p : Nat) : BitVec 64 :=
  m (p + 7) ++ m (p + 6) ++ m (p + 5) ++ m (p + 4) ++ m (p + 3) ++ m (p + 2) ++ m (p + 1) ++ m p

/-- Store a word at `p`. -/
def storeWord (m : Memory) (p : Nat) (w : BitVec 64) : Memory := fun q =>
  if p ≤ q ∧ q < p + 8 then wordByte w (q - p) else m q

variable (m : Memory) (p : Nat)

theorem loadWord_setWidth : (loadWord m p).setWidth 8 = m p := by
  unfold loadWord
  rw [BitVec.setWidth_append_eq_right]

theorem storeWord_self (w : BitVec 64) : storeWord m p w p = w.setWidth 8 := by
  rw [storeWord, if_pos (by omega), Nat.sub_self, wordByte]
  rfl

theorem storeWord_follow (w : BitVec 64) {i : Nat} (hi : i < 8) :
    storeWord m p w (p + i) = wordByte w i := by
  rw [storeWord, if_pos (by omega), Nat.add_sub_cancel_left]

/-- A store leaves all bytes but the first one alone iff the seven after it already are
what it writes. -/
theorem storeWord_only_iff (w : BitVec 64) :
    (∀ q, q ≠ p → storeWord m p w q = m q) ↔
      ∀ i, 0 < i → i < 8 → m (p + i) = wordByte w i := by
  constructor
  · intro h i hpos hi
    rw [← h (p + i) (by omega), storeWord_follow m p w hi]
  · intro h q hne
    by_cases hin : p ≤ q ∧ q < p + 8
    · obtain ⟨i, rfl⟩ := Nat.exists_eq_add_of_le hin.1
      rw [storeWord_follow m p w (by omega), h i (by omega) (by omega)]
    · rw [storeWord, if_neg hin]

/-- The bytes of a byte that is extended with its sign. -/
theorem wordByte_signExtend (b : BitVec 8) {i : Nat} (hi : 0 < i) (hi' : i < 8) :
    wordByte (b.signExtend 64) i = if b.msb then 0xff#8 else 0#8 := by
  have hones : ∀ j : Fin 8, (0xff#8).getLsbD j = true := by decide
  apply BitVec.eq_of_getLsbD_eq
  intro j hj
  rw [wordByte, BitVec.getLsbD_extractLsb', BitVec.getLsbD_signExtend, if_neg (by omega),
    decide_eq_true hj, decide_eq_true (by omega : 8 * i + j < 64), Bool.true_and, Bool.true_and]
  cases b.msb with
  | true => exact (hones ⟨j, hj⟩).symm
  | false => exact (BitVec.getLsbD_zero).symm

theorem setWidth_signExtend (b : BitVec 8) : (b.signExtend 64).setWidth 8 = b := by
  apply BitVec.eq_of_getLsbD_eq
  intro j hj
  rw [BitVec.getLsbD_setWidth, BitVec.getLsbD_signExtend, if_pos hj, decide_eq_true hj,
    decide_eq_true (by omega : j < 64), Bool.true_and, Bool.true_and]

end LinuxKernel.Lib

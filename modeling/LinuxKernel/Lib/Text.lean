import Mathlib.Data.Nat.Digits.Lemmas
import Mathlib.Data.List.TakeWhile

/-!
# Texts of bytes

Fields that are separated by one character, and numerals.

## Results

* `tokens_append`       — a field, a separator and the rest.
* `tokens_cases`, `infix_of_mem_tokens` — what the fields of a text are.
* `readDigits_numeral`  — the digits of a numeral are read back, with their value
  `digitsValue_digits`.
* `readNumber_numeral`  — and the number of which it is the numeral.
* `numeral_head_ne_zero`, `length_numeral_le` — a numeral does not start with a zero, and is no
  longer than it has to be.
-/

namespace LinuxKernel.Lib

/-! ## Fields -/

section Tokens

variable {α : Type*} [DecidableEq α]

/-- The parts of a text between the `d`s, empty ones included. -/
def tokens (d : α) : List α → List (List α)
  | [] => [[]]
  | c :: s =>
    if c = d then [] :: tokens d s
    else
      match tokens d s with
      | [] => [[c]]
      | t :: ts => (c :: t) :: ts

variable {d : α}

/-- A field ends at its separator. -/
theorem tokens_append {t : List α} (ht : d ∉ t) (s : List α) :
    tokens d (t ++ d :: s) = t :: tokens d s := by
  induction t with
  | nil => rw [List.nil_append, tokens, if_pos rfl]
  | cons c t ih =>
    rw [List.mem_cons, not_or] at ht
    rw [List.cons_append, tokens, if_neg (Ne.symm ht.1), ih ht.2]

/-- Separators with nothing between them. -/
theorem tokens_replicate (k : Nat) (s : List α) :
    tokens d (List.replicate k d ++ s) = List.replicate k [] ++ tokens d s := by
  induction k with
  | zero => rfl
  | succ k ih =>
    rw [List.replicate_succ, List.cons_append, tokens, if_pos rfl, ih, List.replicate_succ,
      List.cons_append]

theorem tokens_of_notMem {s : List α} (hs : d ∉ s) : tokens d s = [s] := by
  induction s with
  | nil => rfl
  | cons c s ih =>
    rw [List.mem_cons, not_or] at hs
    rw [tokens, if_neg (Ne.symm hs.1), ih hs.2]

/-- One field is all there is, or the first one is followed by a separator. -/
theorem tokens_cases (d : α) (s : List α) :
    (d ∉ s ∧ tokens d s = [s]) ∨
    ∃ t rest, s = t ++ d :: rest ∧ d ∉ t ∧ tokens d s = t :: tokens d rest := by
  by_cases hs : d ∈ s
  · obtain ⟨t, rest, rfl, ht⟩ := List.eq_append_cons_of_mem hs
    exact Or.inr ⟨t, rest, rfl, ht, tokens_append ht rest⟩
  · exact Or.inl ⟨hs, tokens_of_notMem hs⟩

/-- A field is a piece of the text. -/
theorem infix_of_mem_tokens {s t : List α} (ht : t ∈ tokens d s) : t <:+: s := by
  induction hn : s.length using Nat.strong_induction_on generalizing s with
  | _ n ih =>
    subst hn
    obtain ⟨-, heq⟩ | ⟨first, rest, rfl, -, heq⟩ := tokens_cases d s
    · rw [heq, List.mem_singleton] at ht
      rw [ht]
    · rw [heq] at ht
      rcases List.mem_cons.mp ht with rfl | ht
      · exact ⟨[], d :: rest, rfl⟩
      · have hlen : rest.length < (first ++ d :: rest).length := by simp; omega
        have hrest : rest <:+: first ++ d :: rest :=
          ((List.suffix_cons d rest).trans (List.suffix_append first _)).isInfix
        exact (ih rest.length hlen ht rfl).trans hrest

end Tokens

/-! ## Numerals -/

/-- The character of a digit below 16. -/
def digitByte (d : Nat) : BitVec 8 := BitVec.ofNat 8 (if d < 10 then 48 + d else 87 + d)

/-- The digit a character stands for, if it is one; letters may be upper case. -/
def digitOf (c : BitVec 8) : Option Nat :=
  if 48 ≤ c.toNat ∧ c.toNat ≤ 57 then some (c.toNat - 48)
  else
    let lower := (c ||| 0x20#8).toNat
    if 97 ≤ lower ∧ lower ≤ 102 then some (lower - 87) else none

/-- The digits below `b` at the start of a text, and the rest of it. -/
def readDigits (b : Nat) : List (BitVec 8) → List Nat × List (BitVec 8)
  | [] => ([], [])
  | c :: s =>
    match digitOf c with
    | none => ([], c :: s)
    | some v => if v < b then (v :: (readDigits b s).1, (readDigits b s).2) else ([], c :: s)

/-- The value of digits, the most significant one first. -/
def digitsValue (b : Nat) (ds : List Nat) : Nat := ds.foldl (fun n d => n * b + d) 0

/-- `n` in base `b`, without leading zeros. -/
def numeral (b n : Nat) : List (BitVec 8) :=
  if n = 0 then [digitByte 0] else (Nat.digits b n).reverse.map digitByte

section Numerals

variable {b n d : Nat}

theorem digitOf_digitByte (hd : d < 16) : digitOf (digitByte d) = some d := by
  have hall : ∀ d : Fin 16, digitOf (digitByte d) = some d.val := by decide
  exact hall ⟨d, hd⟩

theorem readDigits_map {ds : List Nat} (hb : b ≤ 16) (hds : ∀ d ∈ ds, d < b) :
    readDigits b (ds.map digitByte) = (ds, []) := by
  induction ds with
  | nil => rfl
  | cons d ds ih =>
    have hd := hds d (List.mem_cons_self ..)
    rw [List.map_cons, readDigits, digitOf_digitByte (by omega)]
    dsimp only
    rw [if_pos hd, ih fun x hx => hds x (List.mem_cons_of_mem d hx)]

theorem digitsValue_digits (b n : Nat) : digitsValue b (Nat.digits b n).reverse = n := by
  rw [digitsValue, List.foldl_reverse]
  conv_rhs => rw [← Nat.ofDigits_digits b n, Nat.ofDigits_eq_foldr]
  congr 1
  funext x y
  rw [Nat.cast_id, Nat.add_comm, Nat.mul_comm]

/-- A numeral is the characters of its digits. -/
theorem numeral_eq (hb : 1 < b) (n : Nat) :
    ∃ ds, numeral b n = ds.map digitByte ∧ (∀ d ∈ ds, d < b) ∧ digitsValue b ds = n ∧ ds ≠ [] := by
  by_cases hn : n = 0
  · refine ⟨[0], ?_, ?_, ?_, List.cons_ne_nil 0 []⟩
    · rw [numeral, if_pos hn, List.map_singleton]
    · intro d hd
      rw [List.mem_singleton] at hd
      omega
    · rw [hn, digitsValue, List.foldl_cons, List.foldl_nil, Nat.zero_mul]
  · refine ⟨(Nat.digits b n).reverse, ?_, ?_, digitsValue_digits b n, ?_⟩
    · rw [numeral, if_neg hn]
    · intro d hd
      exact Nat.digits_lt_base hb (List.mem_reverse.mp hd)
    · rw [ne_eq, List.reverse_eq_nil_iff, Nat.digits_eq_nil_iff_eq_zero]
      exact hn

/-- **Round trip.** The digits of a numeral are read, all of them, and have its value. -/
theorem readDigits_numeral (hb : 1 < b) (hb' : b ≤ 16) (n : Nat) :
    ∃ ds, readDigits b (numeral b n) = (ds, []) ∧ digitsValue b ds = n ∧ ds ≠ [] := by
  obtain ⟨ds, heq, hlt, hval, hne⟩ := numeral_eq hb n
  refine ⟨ds, ?_, hval, hne⟩
  rw [heq, readDigits_map hb' hlt]

/-- Every character of a numeral is a digit. -/
theorem mem_numeral (hb : 1 < b) (hb' : b ≤ 16) {c : BitVec 8} (hc : c ∈ numeral b n) :
    ∃ d < 16, c = digitByte d := by
  obtain ⟨ds, heq, hlt, -, -⟩ := numeral_eq hb n
  rw [heq, List.mem_map] at hc
  obtain ⟨d, hd, rfl⟩ := hc
  exact ⟨d, lt_of_lt_of_le (hlt d hd) hb', rfl⟩

/-- **No leading zeros.** -/
theorem numeral_head_ne_zero (hb : 1 < b) (hn : n ≠ 0) :
    ∃ d ds, numeral b n = digitByte d :: ds ∧ d ≠ 0 ∧ d < b := by
  have hne : Nat.digits b n ≠ [] := Nat.digits_ne_nil_iff_ne_zero.mpr hn
  refine ⟨(Nat.digits b n).getLast hne, (Nat.digits b n).dropLast.reverse.map digitByte, ?_,
    Nat.getLast_digit_ne_zero b hn, Nat.digits_lt_base hb (List.getLast_mem hne)⟩
  rw [numeral, if_neg hn]
  conv_lhs => rw [← List.dropLast_concat_getLast hne, List.reverse_append]
  rfl

/-- A number below `b ^ k` has no more than `k` digits. -/
theorem length_numeral_le (hb : 1 < b) {k : Nat} (hk : 0 < k) (hn : n < b ^ k) :
    (numeral b n).length ≤ k := by
  rw [numeral]
  split
  · exact hk
  · rw [List.length_map, List.length_reverse]
    exact (Nat.digits_length_le_iff hb n).mpr hn

/-- The number a text is the numeral of, if all of it is digits. -/
def readNumber (b : Nat) (s : List (BitVec 8)) : Option Nat :=
  match readDigits b s with
  | (d :: ds, []) => some (digitsValue b (d :: ds))
  | _ => none

theorem readNumber_numeral (hb : 1 < b) (hb' : b ≤ 16) (n : Nat) :
    readNumber b (numeral b n) = some n := by
  obtain ⟨ds, hread, hval, hne⟩ := readDigits_numeral hb hb' n
  cases ds with
  | nil => exact absurd rfl hne
  | cons d ds => rw [readNumber, hread, ← hval]

end Numerals

end LinuxKernel.Lib

import LinuxKernel.Lib.Text

/-!
# Files in /proc — what the modules call

`/proc/mtest` and `/proc/watch` use the same functions of the kernel, which are not in the tree, and
compute in the same way how much of their output a reader gets.

* **Faults.** An array bound that is not kept, a variable that is used before it is
  assigned, and a pointer that leads nowhere end a call with a `Fault`.
* **Numbers.** `kstrtoul` with base 0 and `kstrtoint_from_user` with base 10, as in `lib/kstrtox.c`.
-/

namespace LinuxKernel.Proc

open LinuxKernel.Lib

abbrev Byte := BitVec 8

inductive Fault
  | overrun
  | unassigned
  | nullPointer
  | badAddress
  deriving DecidableEq, Repr

@[simp] theorem ok_bind {ε α β : Type} (a : α) (f : α → Except ε β) :
    (Except.ok a : Except ε α).bind f = f a := rfl
@[simp] theorem error_bind {ε α β : Type} (e : ε) (f : α → Except ε β) :
    (Except.error e : Except ε α).bind f = .error e := rfl

/-- A call that goes through consists of calls that do. -/
theorem bind_eq_ok {ε α β : Type} {x : Except ε α} {f : α → Except ε β} {b : β}
    (h : x.bind f = .ok b) : ∃ a, x = .ok a ∧ f a = .ok b := by
  cases x with
  | error e => simp at h
  | ok a => exact ⟨a, rfl, h⟩

theorem map_eq_ok {ε α β : Type} {x : Except ε α} {f : α → β} {b : β} (h : x.map f = .ok b) :
    ∃ a, x = .ok a ∧ f a = b := by
  cases x with
  | error e => simp [Except.map] at h
  | ok a => exact ⟨a, rfl, Except.ok.inj h⟩

/-- `MAX_SIZE` -/
def maxSize : Nat := 128

/-- An array of `MAX_SIZE` characters. -/
structure Buffer where
  bytes  : List Byte
  length : bytes.length = maxSize

theorem length_zeros : (List.replicate maxSize (0 : Byte)).length = maxSize :=
  List.length_replicate

/-- `buf[i] = c` -/
def Buffer.write (buf : Buffer) (i : Nat) (c : Byte) : Except Fault Buffer :=
  if i < maxSize then .ok ⟨buf.bytes.set i c, by rw [List.length_set, buf.length]⟩
  else .error .overrun

/-- `-EFAULT` -/
def efault : Int := -14

/-- The string in a buffer. -/
def cstr (buf : List Byte) : List Byte := buf.takeWhile (· ≠ 0)
/-- Its length. -/
def strlen (buf : List Byte) : Nat := (cstr buf).length

/-! ## Strings in a buffer -/

/-- The buffer holds this string. -/
def Buffer.Holds (buf : Buffer) (text : List Byte) : Prop :=
  0 ∉ text ∧ text ++ [0] <+: buf.bytes

section Strings

variable {buf : Buffer} {text : List Byte}

theorem Buffer.Holds.cstr_eq (h : buf.Holds text) : cstr buf.bytes = text := by
  obtain ⟨hnul, rest, hrest⟩ := h
  have hall : ∀ c ∈ text, decide (c ≠ 0) = true := by
    intro c hc
    exact decide_eq_true fun hzero => hnul (hzero ▸ hc)
  rw [cstr, ← hrest, List.append_assoc, List.takeWhile_append_of_pos hall, List.singleton_append,
    List.takeWhile_cons_of_neg (by simp), List.append_nil]

theorem Buffer.Holds.strlen_eq (h : buf.Holds text) : strlen buf.bytes = text.length := by
  rw [strlen, h.cstr_eq]

/-- There is room for the NUL. -/
theorem Buffer.Holds.length_lt (h : buf.Holds text) : text.length < maxSize := by
  have hle := h.2.length_le
  rw [List.length_append, List.length_singleton, buf.length] at hle
  exact hle

/-- A string grows by the character that is written behind it. -/
theorem Buffer.write_end (hpre : text <+: buf.bytes) (hfits : text.length < maxSize) (c : Byte) :
    ∃ buf', buf.write text.length c = .ok buf' ∧ text ++ [c] <+: buf'.bytes := by
  obtain ⟨rest, hrest⟩ := hpre
  refine ⟨_, if_pos hfits, rest.tail, ?_⟩
  have hlen := congrArg List.length hrest
  rw [List.length_append, buf.length] at hlen
  cases rest with
  | nil =>
    rw [List.length_nil] at hlen
    omega
  | cons x rest =>
    show text ++ [c] ++ rest = buf.bytes.set text.length c
    rw [← hrest, List.set_append_right _ _ (Nat.le_refl _), Nat.sub_self, List.set_cons_zero,
      List.append_assoc, List.singleton_append]

end Strings

/-! ## `kstrtoul` -/

/-- `_parse_integer_fixup_radix` for base 0. -/
def fixupRadix (s : List Byte) : Nat × List Byte :=
  match s with
  | c :: x :: d :: t =>
    if c = 48 then
      if x ||| 0x20#8 = 120 ∧ (digitOf d).isSome then (16, d :: t) else (8, s)
    else (10, s)
  | c :: _ => if c = 48 then (8, s) else (10, s)
  | [] => (10, s)

/-- `kstrtoul(s, 0, &res)`: the number stored in `res`, nothing if an error is returned. -/
def kstrtoul (s : List Byte) : Option (BitVec 64) :=
  let s := if s.head? = some 43 then s.tail else s
  let (base, s) := fixupRadix s
  let (digits, rest) := readDigits base s
  if digits = [] ∨ 2 ^ 64 ≤ digitsValue base digits ∨ ¬ (rest = [] ∨ rest = [10]) then none
  else some (BitVec.ofNat 64 (digitsValue base digits))

theorem kstrtoul_of_digits {s t : List Byte} {base : Nat} {digits : List Nat}
    (hplus : s.head? ≠ some 43) (hradix : fixupRadix s = (base, t))
    (hread : readDigits base t = (digits, [])) (hne : digits ≠ [])
    (hval : digitsValue base digits < 2 ^ 64) :
    kstrtoul s = some (BitVec.ofNat 64 (digitsValue base digits)) := by
  unfold kstrtoul
  dsimp only
  rw [if_neg hplus, hradix]
  dsimp only
  rw [hread, if_neg]
  rintro (hnil | hlarge | hrest)
  · exact hne hnil
  · exact absurd hlarge (Nat.not_le.mpr hval)
  · exact hrest (Or.inl rfl)

/-- No character of a numeral is a space or a NUL. -/
theorem digitByte_ne {d : Nat} (hd : d < 16) : digitByte d ≠ 32 ∧ digitByte d ≠ 0 := by
  have hall : ∀ d : Fin 16, digitByte d ≠ 32 ∧ digitByte d ≠ 0 := by decide
  exact hall ⟨d, hd⟩

theorem space_notMem_numeral {b : Nat} (hb : 1 < b) (hb' : b ≤ 16) (n : Nat) :
    32 ∉ numeral b n := by
  intro hmem
  obtain ⟨d, hd, heq⟩ := mem_numeral hb hb' hmem
  exact (digitByte_ne hd).1 heq.symm

theorem nul_notMem_numeral {b : Nat} (hb : 1 < b) (hb' : b ≤ 16) (n : Nat) : 0 ∉ numeral b n := by
  intro hmem
  obtain ⟨d, hd, heq⟩ := mem_numeral hb hb' hmem
  exact (digitByte_ne hd).2 heq.symm

theorem numeral_ne_nil {b : Nat} (hb : 1 < b) (n : Nat) : numeral b n ≠ [] := by
  obtain ⟨ds, heq, -, -, hne⟩ := numeral_eq hb n
  rw [heq, ne_eq, List.map_eq_nil_iff]
  exact hne

/-- A digit is not a plus sign, and is the character 0 only if it is zero. -/
theorem digitByte_ne_plus {d : Nat} (hd : d < 16) : digitByte d ≠ 43 := by
  have hall : ∀ d : Fin 16, digitByte d ≠ 43 := by decide
  exact hall ⟨d, hd⟩

theorem digitByte_eq_zero {d : Nat} (hd : d < 16) (h : digitByte d = 48) : d = 0 := by
  have hall : ∀ d : Fin 16, digitByte d = 48 → d.val = 0 := by decide
  exact hall ⟨d, hd⟩ h

/-- **A decimal number** is read as it was printed. -/
theorem kstrtoul_decimal {n : Nat} (hn : n < 2 ^ 64) :
    kstrtoul (numeral 10 n) = some (BitVec.ofNat 64 n) := by
  rcases Nat.eq_zero_or_pos n with rfl | hpos
  · rfl
  · obtain ⟨digits, hread, hval, hne⟩ := readDigits_numeral (by decide : 1 < 10) (by decide) n
    obtain ⟨d, ds, heq, hd, hd10⟩ := numeral_head_ne_zero (by decide : 1 < 10) (Nat.ne_of_gt hpos)
    have hfirst : digitByte d ≠ 48 := fun h => hd (digitByte_eq_zero (by omega) h)
    have hradix : fixupRadix (numeral 10 n) = (10, numeral 10 n) := by
      rw [heq]
      unfold fixupRadix
      split
      · next c x t hc =>
        injection hc with hc
        rw [if_neg (hc ▸ hfirst)]
      · next c t _ hc =>
        injection hc with hc
        rw [if_neg (hc ▸ hfirst)]
      · rfl
    rw [kstrtoul_of_digits ?_ hradix hread hne (by omega), hval]
    rw [heq, List.head?_cons, ne_eq, Option.some.injEq]
    exact digitByte_ne_plus (by omega)

/-- **A hexadecimal number** with `0x` in front of it is read as it was printed. -/
theorem kstrtoul_hex {n : Nat} (hn : n < 2 ^ 64) :
    kstrtoul (48 :: 120 :: numeral 16 n) = some (BitVec.ofNat 64 n) := by
  obtain ⟨digits, hread, hval, hne⟩ := readDigits_numeral (by decide : 1 < 16) (by decide) n
  obtain ⟨ds, heq, hlt, -, hds⟩ := numeral_eq (by decide : 1 < 16) n
  have hradix : fixupRadix (48 :: 120 :: numeral 16 n) = (16, numeral 16 n) := by
    cases ds with
    | nil => exact absurd rfl hds
    | cons d ds =>
      rw [heq, List.map_cons, fixupRadix, if_pos rfl, if_pos]
      refine ⟨by decide, ?_⟩
      rw [digitOf_digitByte (hlt d (List.mem_cons_self ..))]
      rfl
  rw [kstrtoul_of_digits ?_ hradix hread hne (by omega), hval]
  rw [List.head?_cons]
  decide

/-! ## `kstrtoint_from_user` -/

/-- `kstrtoint` for base 10; a plus sign is not skipped after a minus sign. -/
def kstrtoint (s : List Byte) : Option (BitVec 32) :=
  let minus := s.head? = some 45
  let s := if minus ∨ s.head? = some 43 then s.tail else s
  let (digits, rest) := readDigits 10 s
  let value : Int := if minus then -digitsValue 10 digits else digitsValue 10 digits
  if digits = [] ∨ value < -2 ^ 31 ∨ 2 ^ 31 ≤ value ∨ ¬ (rest = [] ∨ rest = [10]) then none
  else some (BitVec.ofInt 32 value)

/-- `kstrtoint_from_user(ubuf, len, 10, &res)`: no more than 34 bytes are looked at. -/
def kstrtointFromUser (userOk : Bool) (ubuf : List Byte) : Option (BitVec 32) :=
  if userOk then kstrtoint (cstr (ubuf.take 34)) else none

/-! ## Reading -/

/-- The number of characters to be copied: `out_len - *pos` is a signed number that is compared
with the unsigned `len`, and `count` is an `int`. -/
def readCount (outLen : Nat) (pos len : BitVec 64) : BitVec 32 :=
  let left := BitVec.ofNat 64 outLen - pos
  if len < left then len.setWidth 32 else left.setWidth 32

/-- `copy_to_user` of `count` bytes of an array from `start` on; a negative `count` is refused. -/
def copyToUser (buf : List Byte) (start : BitVec 64) (count : BitVec 32) :
    Except Fault (Option (List Byte)) :=
  if count.toInt < 0 then .ok none
  -- no byte is looked at if there is none to be copied
  else if count = 0 ∨ start.toNat + count.toNat ≤ buf.length then
    .ok (some ((buf.drop start.toNat).take count.toNat))
  else .error .overrun

theorem copyToUser_ok {buf : List Byte} {start : BitVec 64} {count : BitVec 32}
    (hcount : 0 ≤ count.toInt) (hin : start.toNat + count.toNat ≤ buf.length) :
    copyToUser buf start count = .ok (some ((buf.drop start.toNat).take count.toNat)) := by
  rw [copyToUser, if_neg (by omega), if_pos (Or.inr hin)]

/-- Up to the end of the output, the comparison is that of the numbers. -/
theorem readCount_toNat {outLen : Nat} {pos len : BitVec 64} (hpos : pos.toNat ≤ outLen)
    (hout : outLen < 2 ^ 31) :
    (readCount outLen pos len).toNat = min len.toNat (outLen - pos.toNat) := by
  have hleft : (BitVec.ofNat 64 outLen - pos).toNat = outLen - pos.toNat := by
    rw [BitVec.toNat_sub, BitVec.toNat_ofNat]
    omega
  unfold readCount
  dsimp only
  split
  · next hlt =>
    rw [BitVec.lt_def, hleft] at hlt
    rw [BitVec.toNat_setWidth]
    omega
  · next hnot =>
    rw [BitVec.lt_def, hleft] at hnot
    rw [BitVec.toNat_setWidth, hleft]
    omega

theorem readCount_nonneg {outLen : Nat} {pos len : BitVec 64} (hpos : pos.toNat ≤ outLen)
    (hout : outLen < 2 ^ 31) : 0 ≤ (readCount outLen pos len).toInt := by
  have hcount : (readCount outLen pos len).toNat = _ := readCount_toNat hpos hout
  rw [BitVec.toInt_eq_toNat_of_lt (by omega)]
  exact Int.natCast_nonneg _

/-- `*pos += count` -/
theorem toNat_add_readCount {outLen : Nat} {pos len : BitVec 64} (hpos : pos.toNat ≤ outLen)
    (hout : outLen < 2 ^ 31) :
    (pos + (readCount outLen pos len).signExtend 64).toNat =
      pos.toNat + min len.toNat (outLen - pos.toNat) := by
  have hcount : (readCount outLen pos len).toNat = _ := readCount_toNat hpos hout
  have hmsb : (readCount outLen pos len).msb = false := by
    rw [BitVec.msb_eq_false_iff_two_mul_lt]
    omega
  rw [BitVec.signExtend_eq_setWidth_of_msb_false hmsb, BitVec.toNat_add,
    BitVec.toNat_setWidth, hcount]
  omega

/-- Behind the end, the difference is taken for a number below 2^64, and the smaller of the two
numbers is cut down to an `int`. -/
theorem readCount_past {outLen : Nat} {pos len : BitVec 64} (hpast : outLen < pos.toNat) :
    (readCount outLen pos len).toNat = min len.toNat (2 ^ 64 - (pos.toNat - outLen)) % 2 ^ 32 := by
  have hlt := pos.isLt
  have hleft : (BitVec.ofNat 64 outLen - pos).toNat = 2 ^ 64 - (pos.toNat - outLen) := by
    rw [BitVec.toNat_sub, BitVec.toNat_ofNat]
    omega
  unfold readCount
  dsimp only
  split
  · next hless =>
    rw [BitVec.lt_def, hleft] at hless
    rw [BitVec.toNat_setWidth, Nat.min_eq_left (Nat.le_of_lt hless)]
  · next hnot =>
    rw [BitVec.lt_def, hleft] at hnot
    rw [BitVec.toNat_setWidth, hleft, Nat.min_eq_right (Nat.le_of_not_lt hnot)]

theorem copyToUser_zero (buf : List Byte) (start : BitVec 64) :
    copyToUser buf start 0 = .ok (some []) := by
  rw [copyToUser, if_neg (by decide), if_pos (Or.inl rfl)]
  rfl

/-- What is copied has `count` bytes. -/
theorem length_copyToUser {buf bytes : List Byte} {start : BitVec 64} {count : BitVec 32}
    (h : copyToUser buf start count = .ok (some bytes)) : bytes.length = count.toNat := by
  unfold copyToUser at h
  split at h
  · simp at h
  · split at h
    · next hin =>
      injection h with h
      injection h with h
      rw [← h, List.length_take, List.length_drop]
      rcases hin with rfl | hin
      · exact Nat.zero_min _
      · omega
    · simp at h

/-- The bytes a reader gets of a string. -/
theorem copyToUser_holds {buf : Buffer} {text : List Byte} (hholds : buf.Holds text)
    {pos : BitVec 64} (hpos : pos.toNat ≤ text.length) (len : BitVec 64) :
    copyToUser buf.bytes pos (readCount text.length pos len) =
      .ok (some ((text.drop pos.toNat).take len.toNat)) := by
  have hmax : maxSize = 128 := rfl
  have hlt := hholds.length_lt
  have hcount : (readCount text.length pos len).toNat = _ := readCount_toNat hpos (by omega)
  obtain ⟨rest, hrest⟩ := hholds.2
  rw [copyToUser_ok (readCount_nonneg hpos (by omega)) (by rw [buf.length]; omega), hcount,
    ← hrest, List.append_assoc, List.drop_append_of_le_length hpos,
    List.take_append_of_le_length (by rw [List.length_drop]; omega), ← List.length_drop,
    ← List.take_eq_take_min]

end LinuxKernel.Proc

import LinuxKernel.Watch.Watch

/-!
# /proc/watch — the report

`int2char` appends the numeral of a number and a space to the string in `output`, whatever stood
behind it before.

* `digitLoop_eq`, `reverseLoop_ok` — the two loops: the digits, and the digits in order.
* `int2char_holds`       — one call, for any number.
* `writeReport_holds`    — the five calls: the report fits and is the string in `output`.
* `watch_report`         — the five numbers can be read back from it.
-/

namespace LinuxKernel.Watch

open LinuxKernel.Lib LinuxKernel.Proc

/-! ## `int2char` -/

section Int2char

variable {output : Buffer} {text : List Byte}

/-- The digits of a number, the least significant one first, if there is room for them. -/
theorem digitLoop_eq (tmp : Nat) (tmpOutput : List Byte)
    (hfits : tmpOutput.length + (Nat.digits 10 tmp).length ≤ maxSize) :
    digitLoop tmp tmpOutput = .ok (tmpOutput ++ (Nat.digits 10 tmp).map digitByte) := by
  induction tmp using Nat.strong_induction_on generalizing tmpOutput with
  | _ tmp ih =>
    rw [digitLoop]
    split
    · next hzero => rw [hzero, Nat.digits_zero, List.map_nil, List.append_nil]
    · next hne =>
      have hdigits : Nat.digits 10 tmp = tmp % 10 :: Nat.digits 10 (tmp / 10) :=
        Nat.digits_def' (by decide) (Nat.pos_of_ne_zero hne)
      have hchar : BitVec.ofNat 8 (tmp % 10 + 48) = digitByte (tmp % 10) := by
        rw [digitByte, if_pos (Nat.mod_lt _ (by decide)), Nat.add_comm]
      rw [hdigits, List.length_cons] at hfits
      rw [if_pos (by omega), hchar, ih (tmp / 10) (by omega), hdigits, List.map_cons,
        List.append_assoc, List.singleton_append]
      rw [List.length_append, List.length_singleton]
      omega

/-- The characters of `tmp_output` are written behind the text, the last one first. -/
theorem reverseLoop_ok (text tmpOutput : List Byte)
    (hfits : text.length + tmpOutput.length ≤ maxSize) (n i : Nat) (hi : i + n = tmpOutput.length)
    (output : Buffer)
    (hpre : text ++ tmpOutput.reverse.take i <+: output.bytes) :
    ∃ output', reverseLoop tmpOutput text.length i n output = .ok output' ∧
      text ++ tmpOutput.reverse <+: output'.bytes := by
  induction n generalizing i output with
  | zero =>
    refine ⟨output, rfl, ?_⟩
    rwa [List.take_of_length_le (by rw [List.length_reverse]; omega)] at hpre
  | succ n ih =>
    have hlt : i < tmpOutput.reverse.length := by
      rw [List.length_reverse]
      omega
    have hchar : tmpOutput[tmpOutput.length - 1 - i]? = some tmpOutput.reverse[i] := by
      rw [← List.getElem?_reverse (by omega), List.getElem?_eq_getElem hlt]
    have hlen : (text ++ tmpOutput.reverse.take i).length = i + text.length := by
      rw [List.length_append, List.length_take]
      omega
    obtain ⟨output', hwrite, hpre'⟩ := Buffer.write_end hpre (by omega) tmpOutput.reverse[i]
    rw [hlen] at hwrite
    rw [List.append_assoc, List.take_concat_get' _ _ hlt] at hpre'
    obtain ⟨last, hloop, hlast⟩ := ih (i + 1) (by omega) output' hpre'
    refine ⟨last, ?_, hlast⟩
    rw [reverseLoop, hchar]
    dsimp only
    rw [hwrite, ok_bind, hloop]

/-- The space and the NUL behind a number. -/
theorem write_space_nul {number : List Byte} (hpre : text ++ number <+: output.bytes)
    (hfits : text.length + number.length + 2 ≤ maxSize) :
    ∃ output', ((output.write (number.length + text.length) 32).bind fun output =>
        output.write (number.length + text.length + 1) 0) = .ok output' ∧
      text ++ (number ++ [32]) ++ [0] <+: output'.bytes := by
  obtain ⟨spaced, hspace, hpre⟩ := Buffer.write_end hpre (by rw [List.length_append]; omega) 32
  obtain ⟨output', hnul, hpre⟩ := Buffer.write_end hpre
    (by rw [List.length_append, List.length_append, List.length_singleton]; omega) 0
  rw [List.length_append, Nat.add_comm] at hspace
  rw [List.length_append, List.length_append, Nat.add_comm text.length,
    List.length_singleton] at hnul
  refine ⟨output', ?_, ?_⟩
  · rw [hspace, ok_bind, hnul]
  · rwa [← List.append_assoc]

/-- **One number.** Behind a text of the output with room for a number of 64 bits, `int2char` puts
the numeral, a space and a NUL. -/
theorem int2char_holds (hpre : text <+: output.bytes) (hnul : 0 ∉ text)
    (hfits : text.length + 22 ≤ maxSize) (number : BitVec 64) :
    ∃ output', int2char output number text.length = .ok output' ∧
      output'.Holds (text ++ (numeral 10 number.toNat ++ [32])) := by
  have hlen : (numeral 10 number.toNat).length ≤ 20 :=
    length_numeral_le (by decide) (by decide) (by have := number.isLt; omega)
  have hfree : 0 ∉ text ++ (numeral 10 number.toNat ++ [32]) := by
    rw [List.mem_append, List.mem_append, not_or, not_or]
    exact ⟨hnul, nul_notMem_numeral (by decide) (by decide) _, by decide⟩
  rw [int2char]
  split
  · next hzero =>
    obtain ⟨shown, hzeroChar, hshown⟩ := Buffer.write_end hpre (by omega) 48
    obtain ⟨output', hrest, hpre'⟩ := write_space_nul hshown (by rw [List.length_singleton]; omega)
    rw [List.length_singleton, Nat.add_comm 1, Nat.add_assoc] at hrest
    refine ⟨output', ?_, hfree, ?_⟩
    · rw [hzeroChar, ok_bind, hrest]
    · rw [hzero]
      exact hpre'
  · next hne =>
    have hne : number.toNat ≠ 0 := fun h => hne (BitVec.eq_of_toNat_eq h)
    have hnumeral : numeral 10 number.toNat =
        ((Nat.digits 10 number.toNat).map digitByte).reverse := by
      rw [numeral, if_neg hne, List.map_reverse]
    rw [hnumeral, List.length_reverse] at hlen
    rw [digitLoop_eq _ _ (by rw [List.length_nil, ← List.length_map digitByte]; omega), ok_bind,
      List.nil_append]
    obtain ⟨shown, hloop, hshown⟩ := reverseLoop_ok text
      ((Nat.digits 10 number.toNat).map digitByte) (by omega) _ 0 (Nat.zero_add _) output
      (by rwa [List.take_zero, List.append_nil])
    obtain ⟨output', hrest, hpre'⟩ := write_space_nul hshown (by rw [List.length_reverse]; omega)
    rw [List.length_reverse] at hrest
    refine ⟨output', ?_, hfree, ?_⟩
    · rw [hloop, ok_bind, hrest]
    · rwa [hnumeral]

end Int2char

/-! ## The report -/

/-- Numbers in a report: each numeral is followed by a space. -/
def reportText (numbers : List Nat) : List Byte := numbers.flatMap fun n => numeral 10 n ++ [32]

/-- The numbers of a report. -/
def reportNumbers (userHz : Nat) (memoryCount : BitVec 32) (times : Times) : List Nat :=
  [(memoryCount.signExtend 64).toNat, (nseccToClockT userHz times.utime).toNat,
    (nseccToClockT userHz times.stime).toNat, (nseccToClockT userHz times.cutime).toNat,
    (nseccToClockT userHz times.cstime).toNat]

theorem reportText_append (ns : List Nat) (n : Nat) :
    reportText (ns ++ [n]) = reportText ns ++ (numeral 10 n ++ [32]) := by
  rw [reportText, List.flatMap_append, List.flatMap_singleton, reportText]

theorem reportText_ne_nil {ns : List Nat} (hns : ns ≠ []) : reportText ns ≠ [] := by
  intro hnil
  rw [reportText, List.flatMap_eq_nil_iff] at hnil
  obtain ⟨n, hn⟩ := List.exists_mem_of_ne_nil ns hns
  exact List.append_ne_nil_of_right_ne_nil _ (List.cons_ne_nil 32 []) (hnil n hn)

theorem length_reportText_le {ns : List Nat} (hns : ∀ n ∈ ns, n < 2 ^ 64) :
    (reportText ns).length ≤ 21 * ns.length := by
  induction ns with
  | nil => exact Nat.le_refl _
  | cons n ns ih =>
    have hn := hns n (List.mem_cons_self ..)
    have hlen : (numeral 10 n).length ≤ 20 := length_numeral_le (by decide) (by decide) (by omega)
    have hrest := ih fun m hm => hns m (List.mem_cons_of_mem n hm)
    rw [reportText] at hrest ⊢
    rw [List.flatMap_cons, List.length_append, List.length_append, List.length_singleton,
      List.length_cons]
    omega

/-- A number is appended to a report that is not yet complete. -/
theorem int2char_append {output : Buffer} {ns : List Nat} (hholds : output.Holds (reportText ns))
    (hns : ∀ n ∈ ns, n < 2 ^ 64) (hfew : ns.length ≤ 4) (number : BitVec 64) :
    ∃ output', int2char output number (strlen output.bytes) = .ok output' ∧
      output'.Holds (reportText (ns ++ [number.toNat])) := by
  have hmax : maxSize = 128 := rfl
  have hlen := length_reportText_le hns
  rw [hholds.strlen_eq, reportText_append]
  exact int2char_holds ((List.prefix_append _ _).trans hholds.2) hholds.1 (by omega) number

/-- **Five numbers.** The report fits, and nothing of an earlier one is in it. -/
theorem writeReport_holds (userHz : Nat) (output : Buffer) (memoryCount : BitVec 32)
    (times : Times) :
    ∃ output', writeReport userHz output memoryCount times =
        .ok (output', (reportText (reportNumbers userHz memoryCount times)).length) ∧
      output'.Holds (reportText (reportNumbers userHz memoryCount times)) := by
  have hbound : ∀ ns : List (BitVec 64), ∀ n ∈ ns.map BitVec.toNat, n < 2 ^ 64 := by
    intro ns n hn
    obtain ⟨x, -, rfl⟩ := List.mem_map.mp hn
    exact x.isLt
  -- the first call does not look at what is there
  obtain ⟨out₁, hcall₁, hfirst⟩ := int2char_holds (List.nil_prefix (l := output.bytes)) (by simp)
    (by decide) (memoryCount.signExtend 64)
  have hholds₁ : out₁.Holds (reportText ([] ++ [(memoryCount.signExtend 64).toNat])) := by
    rw [reportText_append]
    exact hfirst
  obtain ⟨out₂, hcall₂, hholds₂⟩ := int2char_append hholds₁ (hbound [_]) (by simp)
    (nseccToClockT userHz times.utime)
  obtain ⟨out₃, hcall₃, hholds₃⟩ := int2char_append hholds₂ (hbound [_, _]) (by simp)
    (nseccToClockT userHz times.stime)
  obtain ⟨out₄, hcall₄, hholds₄⟩ := int2char_append hholds₃ (hbound [_, _, _]) (by simp)
    (nseccToClockT userHz times.cutime)
  obtain ⟨out₅, hcall₅, hholds₅⟩ := int2char_append hholds₄ (hbound [_, _, _, _]) (by simp)
    (nseccToClockT userHz times.cstime)
  refine ⟨out₅, ?_, hholds₅⟩
  rw [List.length_nil] at hcall₁
  rw [writeReport, hcall₁, ok_bind, hcall₂, ok_bind, hcall₃, ok_bind, hcall₄, ok_bind,
    hcall₅, ok_bind, hholds₅.strlen_eq]
  rfl

theorem tokens_reportText (ns : List Nat) :
    tokens 32 (reportText ns) = ns.map (numeral 10) ++ [[]] := by
  induction ns with
  | nil => rfl
  | cons n ns ih =>
    have hcons : reportText (n :: ns) = numeral 10 n ++ 32 :: reportText ns := by
      rw [reportText, List.flatMap_cons, List.append_assoc, List.singleton_append, reportText]
    rw [hcons, tokens_append (space_notMem_numeral (by decide) (by decide) n), ih]
    rfl

/-- **The report.** For a number of pages that an `int` can have and all times, whatever the output
was before, the calls of `int2char` write inside of their buffers and leave the five numerals, each
with a space behind it, and a NUL. The numbers are what the fields of the string are read as in base
10, no numeral but 0 starts with a zero, and `out_len` is the length of the string. -/
theorem watch_report (userHz : Nat) (output : Buffer) (pages : Nat) (hpages : pages < 2 ^ 31)
    (times : Times) :
    ∃ output' outLen numbers,
      numbers = [pages, (nseccToClockT userHz times.utime).toNat,
        (nseccToClockT userHz times.stime).toNat, (nseccToClockT userHz times.cutime).toNat,
        (nseccToClockT userHz times.cstime).toNat] ∧
      writeReport userHz output (BitVec.ofNat 32 pages) times = .ok (output', outLen) ∧
      cstr output'.bytes = (numbers.flatMap fun n => numeral 10 n ++ [32]) ∧
      outLen = strlen output'.bytes ∧ output'.bytes[outLen]? = some 0 ∧
      tokens 32 (cstr output'.bytes) = numbers.map (numeral 10) ++ [[]] ∧
      (tokens 32 (cstr output'.bytes)).dropLast.map (readNumber 10) = numbers.map some ∧
      ∀ n ∈ numbers, numeral 10 n = [48] ∨ (numeral 10 n).head? ≠ some 48 := by
  -- the page count is an `int` that `int2char` takes as a 64-bit number
  have hpagesVal : ((BitVec.ofNat 32 pages).signExtend 64).toNat = pages := by
    rw [BitVec.signExtend_eq_setWidth_of_msb_false, BitVec.toNat_setWidth, BitVec.toNat_ofNat]
    · omega
    · rw [BitVec.msb_eq_decide, BitVec.toNat_ofNat]
      simp
      omega
  obtain ⟨output', hcall, hholds⟩ := writeReport_holds userHz output (BitVec.ofNat 32 pages) times
  rw [reportNumbers, hpagesVal] at hcall hholds
  have htokens := tokens_reportText [pages, (nseccToClockT userHz times.utime).toNat,
    (nseccToClockT userHz times.stime).toNat, (nseccToClockT userHz times.cutime).toNat,
    (nseccToClockT userHz times.cstime).toNat]
  rw [← hholds.cstr_eq] at htokens
  refine ⟨output', _, _, rfl, hcall, hholds.cstr_eq, hholds.strlen_eq.symm, ?_, htokens, ?_, ?_⟩
  · obtain ⟨rest, hrest⟩ := hholds.2
    rw [← hrest, List.append_assoc, List.getElem?_append_right (Nat.le_refl _), Nat.sub_self]
    rfl
  · -- each token reads back as its number
    rw [htokens, List.dropLast_concat, List.map_map]
    exact List.map_congr_left fun n _ => readNumber_numeral (by decide) (by decide) n
  · intro n _
    rcases Nat.eq_zero_or_pos n with rfl | hpos
    · exact Or.inl rfl
    · obtain ⟨d, ds, heq, hd, hd10⟩ := numeral_head_ne_zero (by decide : 1 < 10) (Nat.ne_of_gt hpos)
      refine Or.inr fun hhead => hd (digitByte_eq_zero (by omega) ?_)
      rw [heq, List.head?_cons, Option.some.injEq] at hhead
      exact hhead

/-- The report "42 7 0 1 0 ". -/
theorem watch_report_sample : ∃ output' outLen,
    writeReport 100 State.init.output 42 ⟨70000000, 0, 10000000, 5⟩ = .ok (output', outLen) ∧
    cstr output'.bytes = [52, 50, 32, 55, 32, 48, 32, 49, 32, 48, 32] := by
  obtain ⟨output', outLen, numbers, rfl, hcall, htext, -⟩ :=
    watch_report 100 State.init.output 42 (by decide) ⟨70000000, 0, 10000000, 5⟩
  exact ⟨output', outLen, hcall, htext.trans (by decide +kernel)⟩

end LinuxKernel.Watch

import LinuxKernel.Lib.DoWhile
import Mathlib.Data.BitVec

/-!
# Benchmarks — `io_bound.c`

The child of the I/O benchmark copies blocks of its source file, and starts
again at the beginning of the file after a short read, until it has written the
transfer size. `ssize_t` and `size_t` have `w` bits, 32 on `armeabi`.

* `copyBlock_complete` — a round if the system calls do all they are asked for.
* `Copy.Invariant`     — what has been written so far is so many copies of the
  file and a part of the next one, and the position is that of a block.
* `blockEnd`           — where the block ends that a byte is in.
* `ioBound_copies_iff` — the child ends after the right number of bytes of the
  right content iff `total_bytes_written` can hold it.
-/

namespace LinuxKernel.Bench

open LinuxKernel.Lib

abbrev Byte := BitVec 8

/-! ## System calls -/

/-- The values that the system calls of each round return: `read` for the number of bytes that are
left and the size asked for, `write` for the size asked for, and `lseek` to the beginning. -/
structure Calls (w : Nat) where
  read  : (round remaining : Nat) → (count : BitVec w) → BitVec w
  write : (round : Nat) → (count : BitVec w) → BitVec w
  lseek : (round : Nat) → BitVec w

/-- `read` returns as many bytes as there are, `write` writes all, `lseek` succeeds. -/
def Calls.complete (w : Nat) : Calls w where
  read _ remaining count := BitVec.ofNat w (min count.toNat remaining)
  write _ count := count
  lseek _ := 0

/-- The bytes that a return value stands for; none if it is negative. -/
def transferred {w : Nat} (ret : BitVec w) : Nat := ret.toInt.toNat

/-- A copy under way: the rounds made, the offset of the source file, what has been written to the
other file, and `total_bytes_written`. -/
structure Copy (w : Nat) where
  rounds  : Nat
  pos     : Nat
  written : List Byte
  total   : BitVec w
  deriving DecidableEq

def Copy.init (w : Nat) : Copy w := { rounds := 0, pos := 0, written := [], total := 0 }

/-! ## The loop -/

/-- Why the child calls `exit(EXIT_FAILURE)`: "Error reading source file." or "Error seeking to
beginning of file.". -/
inductive Failure
  | reading | seeking
  deriving DecidableEq, Repr

section Loop

variable {w : Nat}

def copyBlock (io : Calls w) (file : List Byte) (bSize : BitVec w) (c : Copy w) :
    Except Failure (Copy w) :=
  let bytesRead := io.read c.rounds (file.length - c.pos) bSize
  let buf := (file.drop c.pos).take (transferred bytesRead)
  let bytesWritten := io.write c.rounds bytesRead
  if bytesRead.slt 0 then .error .reading
  else
    let c' : Copy w :=
      if (0 : BitVec w).slt bytesRead then
        { c with
          pos := c.pos + transferred bytesRead
          written := c.written ++ buf.take (transferred bytesWritten)
          total := c.total + bytesWritten }
      else c
    if bytesRead ≠ bSize then
      if io.lseek c.rounds ≠ 0 then .error .seeking
      else .ok { c' with rounds := c.rounds + 1, pos := 0 }
    else .ok { c' with rounds := c.rounds + 1 }

/-- `total_bytes_written < (ssize_t)t_size`; an exit ends the loop as well. -/
def goesOn (tSize : BitVec w) : Except Failure (Copy w) → Bool
  | .ok c => c.total.slt tSize
  | .error _ => false

/-- `children_process`, if its loop ends within `fuel` rounds. -/
def childrenProcess (io : Calls w) (file : List Byte) (bSize tSize : BitVec w) (fuel : Nat) :
    Option (Except Failure (Copy w)) :=
  doWhile (· >>= copyBlock io file bSize) (goesOn tSize) fuel (.ok (Copy.init w))

end Loop

/-! ## Values of `ssize_t` -/

section Values

variable {w x : Nat} {t : BitVec w}

theorem two_mul_lt_of_lt (hx : x < 2 ^ (w - 1)) : 2 * x < 2 ^ w := by
  cases w with
  | zero =>
    rw [Nat.zero_sub, Nat.pow_zero] at *
    omega
  | succ w =>
    rw [Nat.add_sub_cancel] at hx
    rw [Nat.pow_succ]
    omega

theorem toInt_of_lt (ht : t.toNat < 2 ^ (w - 1)) : t.toInt = t.toNat :=
  BitVec.toInt_eq_toNat_of_lt (two_mul_lt_of_lt ht)

theorem toNat_ofNat_of_lt (hx : x < 2 ^ (w - 1)) : (BitVec.ofNat w x).toNat = x := by
  have := two_mul_lt_of_lt hx
  rw [BitVec.toNat_ofNat, Nat.mod_eq_of_lt (by omega)]

theorem toInt_ofNat_of_lt (hx : x < 2 ^ (w - 1)) : (BitVec.ofNat w x).toInt = x := by
  rw [toInt_of_lt (by rwa [toNat_ofNat_of_lt hx]), toNat_ofNat_of_lt hx]

theorem transferred_ofNat (hx : x < 2 ^ (w - 1)) : transferred (BitVec.ofNat w x) = x := by
  rw [transferred, toInt_ofNat_of_lt hx, Int.toNat_natCast]

theorem slt_ofNat_iff (hx : x < 2 ^ (w - 1)) (ht : t.toNat < 2 ^ (w - 1)) :
    (BitVec.ofNat w x).slt t = true ↔ x < t.toNat := by
  rw [BitVec.slt_iff_toInt_lt, toInt_of_lt ht, toInt_ofNat_of_lt hx, Int.ofNat_lt]

theorem toInt_neg_of_le (ht : 2 ^ (w - 1) ≤ t.toNat) : t.toInt < 0 := by
  have hlt := t.isLt
  cases w with
  | zero =>
    rw [Nat.pow_zero] at hlt
    rw [Nat.zero_sub, Nat.pow_zero] at ht
    omega
  | succ w =>
    rw [Nat.add_sub_cancel] at ht
    rw [Nat.pow_succ] at hlt
    rw [BitVec.toInt_eq_toNat_cond, if_neg (by rw [Nat.pow_succ]; omega), Nat.pow_succ]
    omega

/-- A counter of `x` bytes that has left the range and is not below `t` any more has gone round. -/
theorem le_of_not_slt_ofNat (ht : t.toNat < 2 ^ (w - 1)) (hx : 2 ^ (w - 1) ≤ x)
    (h : (BitVec.ofNat w x).slt t = false) : 2 ^ w + t.toNat ≤ x := by
  rw [BitVec.slt_eq_decide, decide_eq_false_iff_not, toInt_of_lt ht] at h
  have hsmall : (BitVec.ofNat w x).toNat < 2 ^ (w - 1) := by
    by_contra hle
    have := toInt_neg_of_le (Nat.le_of_not_lt hle)
    omega
  rw [toInt_of_lt hsmall, BitVec.toNat_ofNat] at h
  rw [BitVec.toNat_ofNat] at hsmall
  have hround : 2 ^ w ≤ x := by
    by_contra hlt
    rw [Nat.mod_eq_of_lt (by omega)] at hsmall
    omega
  have hrest := Nat.mod_le (x - 2 ^ w) (2 ^ w)
  rw [Nat.mod_eq_sub_mod hround] at h
  omega

/-- The two tests of a return value that is not negative. -/
theorem slt_zero_ofNat (hx : x < 2 ^ (w - 1)) : (BitVec.ofNat w x).slt 0 = false := by
  rw [BitVec.slt_eq_decide, toInt_ofNat_of_lt hx]
  simp

theorem zero_slt_ofNat_iff (hx : x < 2 ^ (w - 1)) :
    (0 : BitVec w).slt (BitVec.ofNat w x) = true ↔ 0 < x := by
  rw [BitVec.slt_iff_toInt_lt, toInt_ofNat_of_lt hx]
  simp

end Values

/-! ## One round -/

section Round

variable {w : Nat} {file : List Byte} {bSize : BitVec w} {c : Copy w}

/-- A round if the calls do all they are asked for: one block, which may be short or empty. -/
def Copy.next (file : List Byte) (b : Nat) (c : Copy w) : Copy w where
  rounds := c.rounds + 1
  pos := if c.pos + b ≤ file.length then c.pos + b else 0
  written := c.written ++ (file.drop c.pos).take b
  total := c.total + BitVec.ofNat w (min b (file.length - c.pos))

theorem copyBlock_complete (hpos : c.pos ≤ file.length)
    (hread : min bSize.toNat file.length < 2 ^ (w - 1)) :
    copyBlock (Calls.complete w) file bSize c = .ok (c.next file bSize.toNat) := by
  unfold Copy.next
  have htake : (file.drop c.pos).take (min bSize.toNat (file.length - c.pos)) =
      (file.drop c.pos).take bSize.toNat := by
    rw [← List.length_drop, ← List.take_take, List.take_length]
  have hret : (Calls.complete w).read c.rounds (file.length - c.pos) bSize =
      BitVec.ofNat w (min bSize.toNat (file.length - c.pos)) := rfl
  generalize hmin : min bSize.toNat (file.length - c.pos) = r at *
  have hr : r < 2 ^ (w - 1) := by omega
  have hwrite : (Calls.complete w).write c.rounds (BitVec.ofNat w r) = BitVec.ofNat w r := rfl
  have hseek : ¬ (Calls.complete w).lseek c.rounds ≠ 0 := not_not.mpr rfl
  have hshort : BitVec.ofNat w r ≠ bSize ↔ ¬ c.pos + bSize.toNat ≤ file.length := by
    rw [ne_eq, ← BitVec.toNat_inj, toNat_ofNat_of_lt hr]
    omega
  unfold copyBlock
  dsimp only
  rw [hret, hwrite, transferred_ofNat hr, List.take_take, Nat.min_self, slt_zero_ofNat hr,
    if_neg Bool.false_ne_true, ← htake]
  -- after an empty read nothing changes
  have hzero : ¬ 0 < r → c.written ++ (file.drop c.pos).take r = c.written ∧
      c.total + BitVec.ofNat w r = c.total ∧ c.pos + r = c.pos := by
    intro h
    obtain rfl : r = 0 := by omega
    simp
  by_cases hfull : c.pos + bSize.toNat ≤ file.length
  · have hlen : bSize.toNat = r := by omega
    rw [if_neg (mt hshort.mp (not_not.mpr hfull)), if_pos hfull, hlen]
    by_cases hpositive : 0 < r
    · rw [if_pos ((zero_slt_ofNat_iff hr).mpr hpositive)]
    · rw [if_neg (mt (zero_slt_ofNat_iff hr).mp hpositive), (hzero hpositive).1,
        (hzero hpositive).2.1, (hzero hpositive).2.2]
  · rw [if_pos (hshort.mpr hfull), if_neg hfull, if_neg hseek]
    by_cases hpositive : 0 < r
    · rw [if_pos ((zero_slt_ofNat_iff hr).mpr hpositive)]
    · rw [if_neg (mt (zero_slt_ofNat_iff hr).mp hpositive), (hzero hpositive).1,
        (hzero hpositive).2.1]

theorem length_next (file : List Byte) (b : Nat) (c : Copy w) :
    (c.next file b).written.length = c.written.length + min b (file.length - c.pos) := by
  rw [Copy.next, List.length_append, List.length_take, List.length_drop]

end Round

/-! ## Any number of rounds -/

/-- `k` whole copies of the file have been written, and the next one up to `pos`, which is where a
block begins; `total_bytes_written` counts them. -/
structure Copy.Invariant {w : Nat} (file : List Byte) (b k : Nat) (c : Copy w) : Prop where
  content : c.written = (List.replicate k file).flatten ++ file.take c.pos
  aligned : b ∣ c.pos
  inside  : c.pos ≤ file.length
  total   : c.total = BitVec.ofNat w c.written.length

section Rounds

variable {w b k : Nat} {file : List Byte} {c : Copy w}

theorem Copy.Invariant.init (w b : Nat) (file : List Byte) : (Copy.init w).Invariant file b 0 where
  content := by simp [Copy.init]
  aligned := Nat.dvd_zero b
  inside := Nat.zero_le _
  total := rfl

theorem flatten_replicate_succ (k : Nat) (file : List Byte) :
    (List.replicate (k + 1) file).flatten = (List.replicate k file).flatten ++ file := by
  rw [List.replicate_succ', List.flatten_append, List.flatten_singleton]

theorem length_flatten_replicate (k : Nat) (file : List Byte) :
    (List.replicate k file).flatten.length = k * file.length := by
  induction k with
  | zero => simp
  | succ k ih => rw [flatten_replicate_succ, List.length_append, ih, Nat.succ_mul]

theorem Copy.Invariant.length_eq (h : c.Invariant file b k) :
    c.written.length = k * file.length + c.pos := by
  rw [h.content, List.length_append, length_flatten_replicate, List.length_take,
    Nat.min_eq_left h.inside]

theorem length_first (w : Nat) (file : List Byte) (b : Nat) :
    ((Copy.init w).next file b).written.length = min b file.length := by
  rw [length_next]
  simp [Copy.init]

theorem Copy.Invariant.isPrefix (h : c.Invariant file b k) :
    ∃ k, c.written <+: (List.replicate k file).flatten := by
  refine ⟨k + 1, ?_⟩
  rw [h.content, flatten_replicate_succ, List.prefix_append_right_inj]
  exact List.take_prefix ..

theorem Copy.Invariant.next (h : c.Invariant file b k) :
    ∃ k, (c.next file b).Invariant file b k := by
  have hcontent : (c.next file b).written =
      (List.replicate k file).flatten ++ file.take (c.pos + b) := by
    rw [Copy.next, h.content, List.append_assoc, List.take_add]
  have htotal : (c.next file b).total = BitVec.ofNat w (c.next file b).written.length := by
    rw [length_next, BitVec.ofNat_add, ← h.total]
    rfl
  by_cases hfull : c.pos + b ≤ file.length
  · have hpos : (c.next file b).pos = c.pos + b := if_pos hfull
    exact ⟨k, by rw [hcontent, hpos], by rw [hpos]; exact Nat.dvd_add h.aligned (Nat.dvd_refl b),
      by rwa [hpos], htotal⟩
  · have hpos : (c.next file b).pos = 0 := if_neg hfull
    refine ⟨k + 1, ?_, by rw [hpos]; exact Nat.dvd_zero b, by rw [hpos]; exact Nat.zero_le _,
      htotal⟩
    rw [hcontent, hpos, flatten_replicate_succ, List.take_of_length_le (by omega), List.take_zero,
      List.append_nil]

end Rounds

/-! ## Where blocks end -/

/-- The end of the block that byte `i` is in, if copies of `n` bytes are cut into blocks of `b`
bytes, the last one of each copy shorter. -/
def blockEnd (n b i : Nat) : Nat := i / n * n + min ((i % n / b + 1) * b) n

section Blocks

variable {n b k pos i : Nat}

theorem blockEnd_zero (n b : Nat) : blockEnd n b 0 = min b n := by
  simp [blockEnd]

theorem lt_blockEnd (hn : 0 < n) (hb : 0 < b) (i : Nat) : i < blockEnd n b i := by
  have hmod := Nat.div_add_mod' i n
  have hlt := Nat.mod_lt i hn
  have hblock := Nat.lt_mul_div_succ (i % n) hb
  rw [Nat.mul_comm] at hblock
  rw [blockEnd]
  omega

/-- A block that begins at byte `i` or before ends where that of `i` does or before. -/
theorem next_le_blockEnd (hn : 0 < n) (hb : 0 < b) (haligned : b ∣ pos)
    (hi : k * n + pos ≤ i) : k * n + min (pos + b) n ≤ blockEnd n b i := by
  have hk : k ≤ i / n := (Nat.le_div_iff_mul_le hn).mpr (by omega)
  rw [blockEnd]
  rcases Nat.lt_or_eq_of_le hk with hlt | rfl
  · have : (k + 1) * n ≤ i / n * n := Nat.mul_le_mul_right n hlt
    rw [Nat.succ_mul] at this
    omega
  · obtain ⟨j, rfl⟩ := haligned
    have hmod := Nat.div_add_mod' i n
    have hj : j ≤ i % n / b := (Nat.le_div_iff_mul_le hb).mpr (by rw [Nat.mul_comm]; omega)
    have : (j + 1) * b ≤ (i % n / b + 1) * b := Nat.mul_le_mul_right b (by omega)
    rw [Nat.succ_mul, Nat.mul_comm] at this
    omega

theorem min_le_blockEnd (hn : 0 < n) (hb : 0 < b) (i : Nat) : min b n ≤ blockEnd n b i := by
  have hle : 0 * n + min (0 + b) n ≤ blockEnd n b i :=
    next_le_blockEnd hn hb (Nat.dvd_zero b) (by omega)
  omega

/-- Where a block begins after byte `i`, that of `i` has ended. -/
theorem blockEnd_le (hn : 0 < n) (hb : 0 < b) (haligned : b ∣ pos) (hpos : pos ≤ n)
    (hi : i < k * n + pos) : blockEnd n b i ≤ k * n + pos := by
  have hk : i / n ≤ k := by
    by_contra hlt
    have : (k + 1) * n ≤ i := (Nat.le_div_iff_mul_le hn).mp (by omega)
    rw [Nat.succ_mul] at this
    omega
  rw [blockEnd]
  rcases Nat.lt_or_eq_of_le hk with hlt | rfl
  · have : (i / n + 1) * n ≤ k * n := Nat.mul_le_mul_right n hlt
    rw [Nat.succ_mul] at this
    omega
  · obtain ⟨j, rfl⟩ := haligned
    have hmod := Nat.div_add_mod' i n
    have hj : i % n / b < j := (Nat.div_lt_iff_lt_mul hb).mpr (by rw [Nat.mul_comm]; omega)
    have : (i % n / b + 1) * b ≤ j * b := Nat.mul_le_mul_right b hj
    rw [Nat.mul_comm j b] at this
    omega

theorem Copy.Invariant.next_le {w : Nat} {file : List Byte} {c : Copy w}
    (h : c.Invariant file b k) (hn : 0 < file.length) (hb : 0 < b) (hi : c.written.length ≤ i) :
    (c.next file b).written.length ≤ blockEnd file.length b i := by
  have hinside := h.inside
  have hle : k * file.length + min (c.pos + b) file.length ≤ blockEnd file.length b i :=
    next_le_blockEnd hn hb h.aligned (by rwa [← h.length_eq])
  rw [length_next, h.length_eq]
  omega

end Blocks

/-! ## The child -/

/-- What the child is for: at least `t` bytes of the file repeated, and less than a block more. -/
structure Copied (file : List Byte) (b t : Nat) (written : List Byte) : Prop where
  content : ∃ k, written <+: (List.replicate k file).flatten
  enough  : t ≤ written.length
  notMore : written.length < t + b ∨ t = 0 ∧ written.length ≤ b

/-- The rounds that are left: an empty read is followed by one that is not. -/
def roundsLeft {w : Nat} (n t : Nat) : Except Failure (Copy w) → Nat
  | .ok c => 2 * (t - c.written.length) + if c.pos = n then 1 else 0
  | .error _ => 0

section Child

variable {w k t : Nat} {file : List Byte} {bSize tSize : BitVec w} {c : Copy w} {fuel : Nat}

theorem bind_copyBlock (hread : min bSize.toNat file.length < 2 ^ (w - 1))
    (h : c.Invariant file bSize.toNat k) :
    (Except.ok c >>= copyBlock (Calls.complete w) file bSize) = .ok (c.next file bSize.toNat) :=
  copyBlock_complete h.inside hread

/-- The loop is at the start of a round: there was no failure, and the invariant holds. -/
def Copying (file : List Byte) (b : Nat) (x : Except Failure (Copy w)) : Prop :=
  ∃ c k, x = .ok c ∧ c.Invariant file b k

theorem Copying.init (w : Nat) (file : List Byte) (b : Nat) : Copying file b (.ok (Copy.init w)) :=
  ⟨Copy.init w, 0, rfl, .init w b file⟩

theorem Copying.next (hread : min bSize.toNat file.length < 2 ^ (w - 1))
    {x : Except Failure (Copy w)} (h : Copying file bSize.toNat x) :
    Copying file bSize.toNat (x >>= copyBlock (Calls.complete w) file bSize) := by
  obtain ⟨c, k, rfl, hc⟩ := h
  obtain ⟨k', hnext⟩ := hc.next
  exact ⟨_, k', bind_copyBlock hread hc, hnext⟩

/-- **Where the child ends**, the invariant holds. -/
theorem childrenProcess_invariant (hread : min bSize.toNat file.length < 2 ^ (w - 1))
    (hrun : childrenProcess (Calls.complete w) file bSize tSize fuel = some (.ok c)) :
    (∃ k, c.Invariant file bSize.toNat k) ∧ c.total.slt tSize = false := by
  obtain ⟨⟨c', k, heq, hc⟩, hstop⟩ :=
    doWhile_partial (fun _ hx => Copying.next hread hx) (.init w file _) hrun
  obtain rfl := Except.ok.inj heq
  exact ⟨⟨k, hc⟩, hstop⟩

theorem roundsLeft_next (hn : 0 < file.length) (hb : 0 < bSize.toNat)
    (h : c.Invariant file bSize.toNat k) (ht : (c.next file bSize.toNat).written.length < t) :
    roundsLeft file.length t (.ok (c.next file bSize.toNat)) <
      roundsLeft file.length t (.ok c) := by
  have hlen := length_next file bSize.toNat c
  have hinside := h.inside
  rw [roundsLeft, roundsLeft]
  by_cases hend : c.pos = file.length
  · have hpos : (c.next file bSize.toNat).pos = 0 := if_neg (by omega)
    rw [hpos, if_pos hend, if_neg (by omega)]
    omega
  · rw [if_neg hend]
    split <;> omega

/-- Less than `t` bytes have been written, or nothing. -/
structure Copy.Pending (file : List Byte) (b t : Nat) (c : Copy w) : Prop where
  invariant : ∃ k, c.Invariant file b k
  below     : c.written.length ≤ t - 1

/-- The counter is right after the next block, and so is the test. -/
theorem Copy.Pending.goesOn_iff (h : c.Pending file bSize.toNat tSize.toNat)
    (hn : 0 < file.length) (hb : 0 < bSize.toNat)
    (hfits : blockEnd file.length bSize.toNat (tSize.toNat - 1) < 2 ^ (w - 1)) :
    goesOn tSize (.ok (c.next file bSize.toNat)) = true ↔
      (c.next file bSize.toNat).written.length < tSize.toNat := by
  obtain ⟨k, hc⟩ := h.invariant
  obtain ⟨k', hnext⟩ := hc.next
  have hle := hc.next_le hn hb h.below
  have hlt := lt_blockEnd hn hb (tSize.toNat - 1)
  rw [goesOn, hnext.total, slt_ofNat_iff (by omega) (by omega)]

/-- The end of the block that reaches the transfer size fits: the child ends as it should. -/
theorem copied_of_fits (hfile : file ≠ []) (hb : bSize ≠ 0)
    (hread : min bSize.toNat file.length < 2 ^ (w - 1))
    (hfits : blockEnd file.length bSize.toNat (tSize.toNat - 1) < 2 ^ (w - 1)) :
    ∃ fuel c, childrenProcess (Calls.complete w) file bSize tSize fuel = some (.ok c) ∧
      Copied file bSize.toNat tSize.toNat c.written := by
  have hn : 0 < file.length := List.length_pos_iff.mpr hfile
  have hb' := BitVec.toNat_pos_of_ne_zero hb
  obtain ⟨fuel, x, hrun, c, rfl, hcopied⟩ : ∃ fuel x,
      childrenProcess (Calls.complete w) file bSize tSize fuel = some x ∧
      ∃ c, x = .ok c ∧ Copied file bSize.toNat tSize.toNat c.written := by
    refine doWhile_ends
      (I := fun x => ∃ c : Copy w, x = .ok c ∧ c.Pending file bSize.toNat tSize.toNat)
      (roundsLeft file.length tSize.toNat) ?_ ?_
      ⟨Copy.init w, rfl, ⟨0, .init w _ file⟩, Nat.zero_le _⟩
    · rintro x ⟨c, rfl, hc⟩ hcond
      obtain ⟨k, hinv⟩ := hc.invariant
      rw [bind_copyBlock hread hinv] at hcond ⊢
      have hlt := (hc.goesOn_iff hn hb' hfits).mp hcond
      exact ⟨⟨_, rfl, hinv.next, by omega⟩, roundsLeft_next hn hb' hinv hlt⟩
    · rintro x ⟨c, rfl, hc⟩ hcond
      obtain ⟨k, hinv⟩ := hc.invariant
      rw [bind_copyBlock hread hinv] at hcond ⊢
      have hge : ¬ (c.next file bSize.toNat).written.length < tSize.toNat := by
        rw [← hc.goesOn_iff hn hb' hfits, hcond]
        exact Bool.false_ne_true
      obtain ⟨k', hnext⟩ := hinv.next
      have hmore := length_next file bSize.toNat c
      have hbelow := hc.below
      exact ⟨_, rfl, hnext.isPrefix, by omega, by omega⟩
  exact ⟨fuel, c, hrun, hcopied⟩

/-- A transfer size that is negative as an `ssize_t` ends the loop at once. -/
theorem childrenProcess_negative (hread : min bSize.toNat file.length < 2 ^ (w - 1))
    (ht : 2 ^ (w - 1) ≤ tSize.toNat) {x : Except Failure (Copy w)}
    (hrun : childrenProcess (Calls.complete w) file bSize tSize fuel = some x) :
    x = .ok ((Copy.init w).next file bSize.toNat) := by
  cases fuel with
  | zero => simp [childrenProcess, doWhile] at hrun
  | succ fuel =>
    have hinit := Copy.Invariant.init w bSize.toNat file
    have hstop : goesOn tSize (.ok ((Copy.init w).next file bSize.toNat)) = false := by
      obtain ⟨k, hnext⟩ := hinit.next
      have hneg := toInt_neg_of_le ht
      rw [goesOn, hnext.total, length_first, BitVec.slt_eq_decide, toInt_ofNat_of_lt hread,
        decide_eq_false_iff_not]
      omega
    rw [childrenProcess, doWhile, bind_copyBlock hread hinit, hstop,
      if_neg Bool.false_ne_true] at hrun
    exact (Option.some.inj hrun).symm

/-- A first block that is too long for `read` to return its length ends the child at once. -/
theorem childrenProcess_unreadable (hread : 2 ^ (w - 1) ≤ min bSize.toNat file.length)
    {x : Except Failure (Copy w)}
    (hrun : childrenProcess (Calls.complete w) file bSize tSize fuel = some x) :
    x = .error .reading := by
  cases fuel with
  | zero => simp [childrenProcess, doWhile] at hrun
  | succ fuel =>
    have hblock : copyBlock (Calls.complete w) file bSize (Copy.init w) = .error .reading := by
      have hret : (Calls.complete w).read 0 file.length bSize =
          BitVec.ofNat w (min bSize.toNat file.length) := rfl
      have hvalue : (BitVec.ofNat w (min bSize.toNat file.length)).toNat =
          min bSize.toNat file.length := by
        rw [BitVec.toNat_ofNat, Nat.mod_eq_of_lt
          (Nat.lt_of_le_of_lt (Nat.min_le_left ..) bSize.isLt)]
      have hneg :=
        toInt_neg_of_le (t := BitVec.ofNat w (min bSize.toNat file.length)) (by rwa [hvalue])
      have hslt : ((Calls.complete w).read 0 file.length bSize).slt 0 = true := by
        rw [hret, BitVec.slt_iff_toInt_lt]
        simpa using hneg
      exact if_pos hslt
    have hbody : (Except.ok (Copy.init w) >>= copyBlock (Calls.complete w) file bSize) =
        .error .reading := hblock
    rw [childrenProcess, doWhile, hbody, goesOn, if_neg Bool.false_ne_true] at hrun
    exact (Option.some.inj hrun).symm

/-- The end of the block does not fit: the child does not end as it should. -/
theorem not_copied_of_overflow (hfile : file ≠ []) (hb : bSize ≠ 0)
    (hread : min bSize.toNat file.length < 2 ^ (w - 1))
    (hover : 2 ^ (w - 1) ≤ blockEnd file.length bSize.toNat (tSize.toNat - 1))
    (hrun : childrenProcess (Calls.complete w) file bSize tSize fuel = some (.ok c)) :
    ¬ Copied file bSize.toNat tSize.toNat c.written := by
  intro hcopied
  have henough := hcopied.enough
  rcases Nat.lt_or_ge tSize.toNat (2 ^ (w - 1)) with ht | ht
  · obtain ⟨⟨k, hc⟩, hstop⟩ := childrenProcess_invariant hread hrun
    have hpositive : tSize.toNat ≠ 0 := by
      intro h
      rw [h, blockEnd_zero] at hover
      omega
    -- a block that ends at the transfer size or later ends outside of the range
    have hbefore : tSize.toNat - 1 < k * file.length + c.pos := by
      rw [← hc.length_eq]
      omega
    have hle :=
      hover.trans (blockEnd_le (List.length_pos_iff.mpr hfile) (BitVec.toNat_pos_of_ne_zero hb)
      hc.aligned hc.inside hbefore)
    rw [← hc.length_eq] at hle
    rw [hc.total] at hstop
    have hround := le_of_not_slt_ofNat ht hle hstop
    have hblock := bSize.isLt
    have hmore := hcopied.notMore
    omega
  · have hfirst := Except.ok.inj (childrenProcess_negative hread ht hrun)
    rw [hfirst, length_first] at henough
    omega

/-- **The copy loop.** If the system calls do all they are asked for, the child ends with at least
the transfer size, and less than a block more, of the file repeated, exactly when the end of the
block that reaches the transfer size is a value of `ssize_t`. -/
theorem ioBound_copies_iff (file : List Byte) (bSize tSize : BitVec w) (hfile : file ≠ [])
    (hb : bSize ≠ 0) :
    (∃ fuel c, childrenProcess (Calls.complete w) file bSize tSize fuel = some (.ok c) ∧
      Copied file bSize.toNat tSize.toNat c.written) ↔
      blockEnd file.length bSize.toNat (tSize.toNat - 1) < 2 ^ (w - 1) := by
  have hfirst := min_le_blockEnd (List.length_pos_iff.mpr hfile) (BitVec.toNat_pos_of_ne_zero hb)
    (tSize.toNat - 1)
  constructor
  · rintro ⟨fuel, c, hrun, hcopied⟩
    by_contra hover
    rcases Nat.lt_or_ge (min bSize.toNat file.length) (2 ^ (w - 1)) with hread | hread
    · exact not_copied_of_overflow hfile hb hread (Nat.le_of_not_lt hover) hrun hcopied
    · have := childrenProcess_unreadable hread hrun
      simp at this
  · intro hfits
    exact copied_of_fits hfile hb (by omega) hfits

/-- Blocks of two bytes of a file of five, until there are nine. -/
theorem ioBound_copies_five : blockEnd 5 2 8 = 9 ∧
    ∃ fuel c, childrenProcess (Calls.complete 32) [1, 2, 3, 4, 5] 2 9 fuel = some (.ok c) ∧
      Copied [1, 2, 3, 4, 5] 2 9 c.written :=
  ⟨by decide, (ioBound_copies_iff [1, 2, 3, 4, 5] 2 9 (by decide) (by decide)).mpr (by decide)⟩

/-- Blocks of 4096 bytes of a file of 4096 until there are 2³¹ − 1: the counter goes from 2³¹ − 4096
to −2³¹ and is never at 2³¹ − 1. -/
theorem ioBound_copies_endless :
    (∀ fuel, childrenProcess (Calls.complete 32) (List.replicate 4096 0) 4096 2147483647 fuel =
      none) ∧
    ¬ ∃ fuel c, childrenProcess (Calls.complete 32) (List.replicate 4096 0) 4096 2147483647 fuel =
      some (.ok c) ∧ Copied (List.replicate 4096 0) 4096 2147483647 c.written := by
  let file : List Byte := List.replicate 4096 0
  have hfile : file.length = 4096 := List.length_replicate
  have hread : min (4096 : BitVec 32).toNat file.length < 2 ^ (32 - 1) := by
    rw [hfile]
    decide
  have hendless : ∀ fuel, childrenProcess (Calls.complete 32) file 4096 2147483647 fuel = none := by
    refine doWhile_endless (I := Copying file 4096) ?_ (.init 32 file 4096)
    intro x hx
    have hnext : Copying file 4096 (x >>= copyBlock (Calls.complete 32) file 4096) := hx.next hread
    refine ⟨hnext, ?_⟩
    -- the counter is a multiple of 4096
    obtain ⟨c, k, heq, hc⟩ := hnext
    have haligned := hc.aligned
    have hnot : c.total.toNat ≠ 2147483647 := by
      rw [hc.total, hc.length_eq, hfile, BitVec.toNat_ofNat]
      omega
    have hvalue : (2147483647 : BitVec 32).toInt = 2147483647 := rfl
    have hbound := c.total.isLt
    rw [heq, goesOn, BitVec.slt_iff_toInt_lt, hvalue, BitVec.toInt_eq_toNat_cond]
    split <;> omega
  refine ⟨hendless, ?_⟩
  rintro ⟨fuel, c, hrun, -⟩
  rw [hendless fuel] at hrun
  simp at hrun

end Child

end LinuxKernel.Bench

import LinuxKernel.Bench.IoBound

/-!
# Benchmarks — `mix_bound.c`

The child of the mixed benchmark alternates between computing and copying.
Its copy loop has no `lseek`: at the end of the source file `read` returns 0
for ever.

* `copyOnce_complete`  — a round if the system calls do all they are asked for.
* `iobound_ends`       — a file that is long enough is copied up to the target.
* `iobound_endless`    — one that is not is copied, and then nothing more happens.
* `mixBound_ends_iff`  — the child ends, after as many bytes as it should write,
  iff the file has that many.
-/

namespace LinuxKernel.Bench.MixBound

open LinuxKernel.Lib

/-- `MIN_ITERATIONS` -/
def minIterations : Nat := 100

/-! ## Computing -/

/-- `a = a * b; a = a / b; b = pow(b, 2); b = sqrt(b)` -/
def cpuRound (ab : Float × Float) : Float × Float :=
  (ab.1 * ab.2 / ab.2, (ab.2.pow 2).sqrt)

def cpubound (iter : Int) : Float := (cpuRound^[iter.toNat] (3.1415862, 2.7135234)).2

/-! ## Copying -/

section Copying

variable {w : Nat}

def copyOnce (io : Calls w) (file : List Byte) (bSize : BitVec w) (c : Copy w) : Copy w :=
  let readSize := io.read c.rounds (file.length - c.pos) bSize
  let buffer := (file.drop c.pos).take (transferred readSize)
  let writeSize := io.write c.rounds readSize
  { rounds := c.rounds + 1
    pos := c.pos + transferred readSize
    written := c.written ++ buffer.take (transferred writeSize)
    total := c.total + writeSize }

/-- `iobound`, if its loop ends within `fuel` rounds; `total` is `sum`. -/
def iobound (io : Calls w) (file : List Byte) (bSize tSize : BitVec w) (fuel : Nat) :
    Option (Copy w) :=
  doWhile (copyOnce io file bSize) (fun c => c.total.slt tSize) fuel (Copy.init w)

/-- The part of the file up to `pos` has been written, and `sum` counts it. -/
structure CopiedUpTo (file : List Byte) (c : Copy w) : Prop where
  content : c.written = file.take c.pos
  inside  : c.pos ≤ file.length
  total   : c.total = BitVec.ofNat w c.pos

variable {file : List Byte} {bSize tSize : BitVec w} {c : Copy w}

theorem CopiedUpTo.init (w : Nat) (file : List Byte) : CopiedUpTo file (Copy.init w) where
  content := by simp [Copy.init]
  inside := Nat.zero_le _
  total := rfl

theorem CopiedUpTo.length_eq (h : CopiedUpTo file c) : c.written.length = c.pos := by
  rw [h.content, List.length_take, Nat.min_eq_left h.inside]

/-- **One round** if the calls do all they are asked for. -/
theorem copyOnce_complete (hread : min bSize.toNat file.length < 2 ^ (w - 1))
    (h : CopiedUpTo file c) :
    CopiedUpTo file (copyOnce (Calls.complete w) file bSize c) ∧
      (copyOnce (Calls.complete w) file bSize c).pos =
        c.pos + min bSize.toNat (file.length - c.pos) := by
  have hinside := h.inside
  have hret : (Calls.complete w).read c.rounds (file.length - c.pos) bSize =
      BitVec.ofNat w (min bSize.toNat (file.length - c.pos)) := rfl
  generalize hmin : min bSize.toNat (file.length - c.pos) = r at *
  have hwrite : (Calls.complete w).write c.rounds (BitVec.ofNat w r) = BitVec.ofNat w r := rfl
  unfold copyOnce
  dsimp only
  rw [hret, hwrite, transferred_ofNat (by omega), List.take_take, Nat.min_self, h.content, h.total,
    ← List.take_add, ← BitVec.ofNat_add]
  exact ⟨⟨rfl, by dsimp only; omega, rfl⟩, rfl⟩

theorem iobound_endless (hread : min bSize.toNat file.length < 2 ^ (w - 1))
    (ht : tSize.toNat < 2 ^ (w - 1)) (hshort : file.length < tSize.toNat) (fuel : Nat) :
    iobound (Calls.complete w) file bSize tSize fuel = none := by
  refine doWhile_endless (I := CopiedUpTo file) ?_ (.init w file) fuel
  intro c hc
  obtain ⟨hnext, -⟩ := copyOnce_complete hread hc
  have hinside := hnext.inside
  exact ⟨hnext, by rw [hnext.total, slt_ofNat_iff (by omega) ht]; omega⟩

/-- Before a round: nothing has been written, or less than the target in blocks smaller than it. -/
structure Pending (file : List Byte) (b t : Nat) (c : Copy w) : Prop where
  copied : CopiedUpTo file c
  below  : c.pos = 0 ∨ c.pos < t ∧ b < t

/-- The sum stays small, so that the test is right. -/
theorem Pending.slt_iff (h : Pending file bSize.toNat tSize.toNat c)
    (hread : min bSize.toNat file.length < 2 ^ (w - 1)) (ht : 2 * tSize.toNat < 2 ^ (w - 1)) :
    (copyOnce (Calls.complete w) file bSize c).total.slt tSize = true ↔
      (copyOnce (Calls.complete w) file bSize c).pos < tSize.toNat := by
  obtain ⟨hnext, hpos⟩ := copyOnce_complete hread h.copied
  have hbelow := h.below
  rw [hnext.total, slt_ofNat_iff (by omega) (by omega)]

theorem iobound_ends (hb : bSize ≠ 0) (hread : min bSize.toNat file.length < 2 ^ (w - 1))
    (ht : 2 * tSize.toNat < 2 ^ (w - 1)) (hlong : tSize.toNat ≤ file.length) :
    ∃ fuel c, iobound (Calls.complete w) file bSize tSize fuel = some c ∧
      tSize.toNat ≤ c.written.length := by
  have hb' := BitVec.toNat_pos_of_ne_zero hb
  refine doWhile_ends (I := Pending file bSize.toNat tSize.toNat)
    (fun c => tSize.toNat - c.pos) ?_ ?_
    ⟨.init w file, .inl rfl⟩
  · intro c hc hcond
    have hlt := (hc.slt_iff hread ht).mp hcond
    obtain ⟨hnext, hpos⟩ := copyOnce_complete hread hc.copied
    have hinside := hc.copied.inside
    have hbelow := hc.below
    exact ⟨⟨hnext, .inr ⟨hlt, by omega⟩⟩, by omega⟩
  · intro c hc hcond
    have hge := mt (hc.slt_iff hread ht).mpr (by rw [hcond]; exact Bool.false_ne_true)
    obtain ⟨hnext, -⟩ := copyOnce_complete hread hc.copied
    rw [hnext.length_eq]
    omega

end Copying

/-! ## The child -/

/-- What one iteration leaves: the result of `cpubound`, which is not used, and the copy. -/
structure Round (w : Nat) where
  cpu : Float
  io  : Copy w

section Child

variable {w : Nat}

/-- `t_size / MIN_ITERATIONS` is a division of `size_t`. -/
def target (tSize : BitVec w) : BitVec w := BitVec.ofNat w (tSize.toNat / minIterations)

def childrenProcess (io : Nat → Calls w) (repetitions : Int) (file : List Byte)
    (bSize tSize : BitVec w) (fuel : Nat) : Option (List (Round w)) :=
  (List.range minIterations).mapM fun i =>
    (iobound (io i) file bSize (target tSize) fuel).map fun c =>
      { cpu := cpubound (repetitions.tdiv minIterations), io := c }

theorem toNat_target (tSize : BitVec w) : (target tSize).toNat = tSize.toNat / minIterations ∧
    2 * (target tSize).toNat < 2 ^ (w - 1) := by
  have hlt := tSize.isLt
  have hhalf : 2 ^ w ≤ 2 * 2 ^ (w - 1) := by
    cases w with
    | zero => decide
    | succ w => rw [Nat.add_sub_cancel, Nat.pow_succ, Nat.mul_comm]
  have hpos := Nat.two_pow_pos (w - 1)
  have heq : (target tSize).toNat = tSize.toNat / minIterations := by
    rw [target, BitVec.toNat_ofNat]
    exact Nat.mod_eq_of_lt (Nat.lt_of_le_of_lt (Nat.div_le_self ..) hlt)
  refine ⟨heq, ?_⟩
  rw [heq, minIterations]
  omega

section Iterations

variable {repetitions : Int} {file : List Byte} {bSize tSize : BitVec w} {fuel : Nat}

/-- All iterations do the same. -/
theorem childrenProcess_some {c : Copy w}
    (hio : iobound (Calls.complete w) file bSize (target tSize) fuel = some c) :
    childrenProcess (fun _ => Calls.complete w) repetitions file bSize tSize fuel =
      some (List.replicate minIterations
        { cpu := cpubound (repetitions.tdiv minIterations), io := c }) := by
  rw [childrenProcess, hio]
  refine (List.mapM_pure ..).trans ?_
  rw [List.map_const', List.length_range]
  rfl

theorem childrenProcess_none
    (hio : iobound (Calls.complete w) file bSize (target tSize) fuel = none) :
    childrenProcess (fun _ => Calls.complete w) repetitions file bSize tSize fuel = none := by
  rw [childrenProcess, minIterations, List.range_succ_eq_map, List.mapM_cons, hio]
  rfl

end Iterations

/-- **The child.** If the system calls do all they are asked for, every call of `iobound` ends
having written its share of the transfer size, and so the child ends, exactly when the source file
has that many bytes. -/
theorem mixBound_ends_iff (repetitions : Int) (file : List Byte)
    (bSize tSize : BitVec w) (hb : bSize ≠ 0)
    (hread : min bSize.toNat file.length < 2 ^ (w - 1)) :
    (∃ fuel rounds, childrenProcess (fun _ => Calls.complete w) repetitions file bSize tSize fuel =
        some rounds ∧ rounds.length = minIterations ∧
      ∀ r ∈ rounds, tSize.toNat / minIterations ≤ r.io.written.length) ↔
      tSize.toNat / minIterations ≤ file.length := by
  obtain ⟨heq, hsmall⟩ := toNat_target tSize
  rw [← heq]
  constructor
  · rintro ⟨fuel, rounds, hrun, -⟩
    by_contra hshort
    have hnone := iobound_endless hread (by omega) (Nat.lt_of_not_le hshort) fuel
    rw [childrenProcess_none hnone] at hrun
    simp at hrun
  · intro hlong
    obtain ⟨fuel, c, hrun, hlen⟩ := iobound_ends hb hread hsmall hlong
    refine ⟨fuel, _, childrenProcess_some hrun, List.length_replicate, fun r hr => ?_⟩
    rw [List.eq_of_mem_replicate hr]
    exact hlen

/-- A file of three bytes, and three bytes to write each time. -/
theorem mixBound_ends_three :
    ∃ fuel rounds, childrenProcess (fun _ => Calls.complete 32) 1000 [1, 2, 3] 2 300 fuel =
        some rounds ∧ rounds.length = minIterations ∧
      ∀ r ∈ rounds, (300 : BitVec 32).toNat / minIterations ≤ r.io.written.length :=
  (mixBound_ends_iff 1000 [1, 2, 3] 2 300 (by decide) (by decide)).mpr (by decide)

/-- One byte, when there should be two: the first copy does not end. -/
theorem mixBound_ends_never :
    (∀ fuel, childrenProcess (fun _ => Calls.complete 32) 1000 [1] 1 200 fuel = none) ∧
    ¬ ∃ fuel rounds, childrenProcess (fun _ => Calls.complete 32) 1000 [1] 1 200 fuel =
        some rounds ∧ rounds.length = minIterations ∧
      ∀ r ∈ rounds, (200 : BitVec 32).toNat / minIterations ≤ r.io.written.length := by
  have hnone : ∀ fuel,
      childrenProcess (fun _ => Calls.complete 32) 1000 [1] 1 200 fuel = none :=
    fun fuel => childrenProcess_none (iobound_endless (by decide) (by decide) (by decide) fuel)
  refine ⟨hnone, ?_⟩
  rintro ⟨fuel, rounds, hrun, -⟩
  rw [hnone fuel] at hrun
  simp at hrun

end Child

end LinuxKernel.Bench.MixBound

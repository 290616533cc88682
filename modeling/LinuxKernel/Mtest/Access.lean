import LinuxKernel.Mtest.Command

/-!
# /proc/mtest — reading and writing a byte

`*vaddr = (char)content` stores an `unsigned long`, the sign-extended character, and a byte that was
read is returned as a string.

* `findPlace_mapped`          — the place in memory a command works on.
* `mtest_write_one_byte_iff`  — a write changes nothing but its byte exactly if the seven bytes
  after it already are what the store puts there.
* `mtest_read_byte_iff`       — a byte is read back exactly if it is not zero.
-/

namespace LinuxKernel.Mtest

open LinuxKernel.Lib LinuxKernel.Proc

/-! ## The place of a byte -/

/-- The low twelve bits. -/
theorem toNat_and_offset (x : BitVec 64) : (x &&& 0xfff#64).toNat = x.toNat % 4096 := by
  rw [BitVec.toNat_and]
  exact Nat.and_two_pow_sub_one_eq_mod x.toNat 12

/-- The address `get_addr` returns is that of the byte in the direct map. -/
theorem getAddr_sub_base (d : DirectMap) (pte : Pte) (addr : BitVec 64) :
    ((d.pageAddress pte &&& pageMask) ||| (addr &&& ~~~pageMask)) - d.base =
      (ptePfn pte <<< 12) + (addr &&& 0xfff#64) := by
  have hpage : d.pageAddress pte &&& 0xfff#64 = 0 := by
    have haligned := congrArg BitVec.toNat d.aligned
    rw [toNat_and_offset] at haligned
    apply BitVec.eq_of_toNat_eq
    rw [toNat_and_offset, DirectMap.pageAddress, BitVec.toNat_add, BitVec.toNat_shiftLeft,
      Nat.shiftLeft_eq]
    simp only [BitVec.toNat_zero, BitVec.ofNat_eq_ofNat] at haligned ⊢
    omega
  have hmask : d.pageAddress pte &&& ~~~0xfff#64 = d.pageAddress pte := by
    calc d.pageAddress pte &&& ~~~0xfff#64
        = (d.pageAddress pte &&& 0xfff#64) ||| (d.pageAddress pte &&& ~~~0xfff#64) := by
          rw [hpage]
          exact (BitVec.zero_or).symm
      _ = d.pageAddress pte := by
          rw [← BitVec.and_or_distrib_left, show 0xfff#64 ||| ~~~0xfff#64 =
            BitVec.allOnes 64 by decide, BitVec.and_allOnes]
  have hdisjoint : d.pageAddress pte &&& (addr &&& 0xfff#64) = 0 := by
    rw [BitVec.and_comm addr, ← BitVec.and_assoc, hpage]
    exact BitVec.zero_and
  rw [pageMask, hmask, BitVec.not_not, ← BitVec.add_eq_or_of_and_eq_zero _ _ hdisjoint,
    DirectMap.pageAddress]
  bv_omega

/-- **The place of a byte.** A command for an address with a page of its own works on that
byte of memory, if there are eight bytes from it on. -/
theorem findPlace_mapped {k : Kernel} {f : Fields} {pid addr : BitVec 64} {task : Task}
    {pgd : PgdTable} {pte : Pte} (hpid : f.targetPid = some pid) (haddr : f.addr = some addr)
    (htask : k.pidTask (pid.setWidth 32) = some task) (hpgd : task.pgd = some pgd)
    (hwalk : walk pgd addr = some pte) :
    findPlace k f =
      if physAddr pte addr + 8 ≤ k.direct.size then .ok (physAddr pte addr)
      else .error .badAddress := by
  rw [findPlace, hpid, haddr, use, use, ok_bind, ok_bind, htask, getAddr, hpgd]
  dsimp only
  rw [hwalk]
  dsimp only
  rw [ok_bind, DirectMap.deref, getAddr_sub_base, physAddr]

/-- The number in a line is the one `find_get_pid` is called with. -/
theorem setWidth_ofNat_pid (pid : Nat) :
    (BitVec.ofNat 64 pid).setWidth 32 = BitVec.ofNat 32 pid := by
  apply BitVec.eq_of_toNat_eq
  simp only [BitVec.toNat_setWidth, BitVec.toNat_ofNat]
  omega

/-! ## Writing -/

section Write

variable {k : Kernel} {s : State} {pid : Nat} {addr : BitVec 64} {task : Task} {pgd : PgdTable}
  {pte : Pte} {v : Nat}

/-- What a write command does: it stores a word, or faults at the end of the memory. -/
theorem procWrite_writeLine (i j l : Nat) (hpid : pid < 2 ^ 31) (t : List Byte) (ht : Ending t)
    (hv : v < 256) (hlen : (writeLine i j l pid addr v t).length ≤ 127)
    (htask : k.pidTask (BitVec.ofNat 32 pid) = some task) (hpgd : task.pgd = some pgd)
    (hwalk : walk pgd addr = some pte) :
    procWrite k true 0 (writeLine i j l pid addr v t) s =
      if physAddr pte addr + 8 ≤ k.direct.size then
        .ok (((writeLine i j l pid addr v t).length : Int) + 1,
          { s with mem := storeWord s.mem (physAddr pte addr) ((BitVec.ofNat 8 v).signExtend 64) })
      else .error .badAddress := by
  have hmax : maxSize = 128 := rfl
  have hparse := parseCommand_writeLine i j l pid (by omega) addr v (by omega) t ht (by omega)
  have hchar : (BitVec.ofNat 64 v).setWidth 8 = BitVec.ofNat 8 v := by
    apply BitVec.eq_of_toNat_eq
    simp only [BitVec.toNat_setWidth, BitVec.toNat_ofNat]
    omega
  rw [procWrite_of_parse (by omega) hparse, execute,
    findPlace_mapped rfl rfl (by rw [setWidth_ofNat_pid, htask]) hpgd hwalk]
  split
  · rw [ok_bind, use, ok_bind, ok_bind, hchar]
  · rfl

end Write

/-- **A write.** For an address of a live process whose page tables lead to an entry, and a value
below 256, the command sets the byte to the value and leaves all other bytes of memory as they
are, exactly if the seven bytes after it are in memory and all hold the sign of the value as a
`char`. -/
theorem mtest_write_one_byte_iff (k : Kernel) (s : State) (i j l pid : Nat) (hpid : pid < 2 ^ 31)
    (addr : BitVec 64) (t : List Byte) (ht : Ending t) (v : Nat) (hv : v < 256)
    (hlen : (writeLine i j l pid addr v t).length ≤ 127) (task : Task) (pgd : PgdTable) (pte : Pte)
    (htask : k.pidTask (BitVec.ofNat 32 pid) = some task) (hpgd : task.pgd = some pgd)
    (hwalk : walk pgd addr = some pte) :
    (∃ ret s', procWrite k true 0 (writeLine i j l pid addr v t) s = .ok (ret, s') ∧
      s'.mem (physAddr pte addr) = BitVec.ofNat 8 v ∧
      ∀ q, q ≠ physAddr pte addr → s'.mem q = s.mem q) ↔
    physAddr pte addr + 8 ≤ k.direct.size ∧
      ∀ i, 0 < i → i < 8 →
        s.mem (physAddr pte addr + i) = if v < 128 then 0x00#8 else 0xff#8 := by
  have hsign : ∀ i, 0 < i → i < 8 → wordByte ((BitVec.ofNat 8 v).signExtend 64) i =
      if v < 128 then 0x00#8 else 0xff#8 := by
    intro i hpos hi
    rw [wordByte_signExtend _ hpos hi, BitVec.msb_eq_decide, BitVec.toNat_ofNat,
      Nat.mod_eq_of_lt (by omega)]
    by_cases hlow : v < 128
    · rw [if_pos hlow, if_neg (by simp; omega)]
    · rw [if_neg hlow, if_pos (by simp; omega)]
  rw [procWrite_writeLine i j l hpid t ht hv hlen htask hpgd hwalk]
  constructor
  · rintro ⟨ret, s', hcall, -, hother⟩
    split at hcall
    · next hfits =>
      simp only [Except.ok.injEq, Prod.mk.injEq] at hcall
      obtain ⟨-, rfl⟩ := hcall
      refine ⟨hfits, fun i hpos hi => ?_⟩
      rw [← hsign i hpos hi]
      exact (storeWord_only_iff _ _ _).mp hother i hpos hi
    · simp at hcall
  · rintro ⟨hfits, hfollow⟩
    rw [if_pos hfits]
    refine ⟨_, _, rfl, ?_, ?_⟩
    · show storeWord _ _ _ _ = _
      rw [storeWord_self, setWidth_signExtend]
    · exact (storeWord_only_iff _ _ _).mpr fun i hpos hi =>
        (hfollow i hpos hi).trans (hsign i hpos hi).symm

/-- The bytes after address 0 are zero: 7 fits. -/
theorem mtest_write_zeros : ∃ ret s',
    procWrite sampleKernel true 0 (writeLine 0 0 0 42 0#64 7 []) sampleState = .ok (ret, s') ∧
    s'.mem (physAddr 0x1067#64 0) = 7 ∧
    ∀ q, q ≠ physAddr 0x1067#64 0 → s'.mem q = sampleState.mem q :=
  (mtest_write_one_byte_iff sampleKernel sampleState 0 0 0 42 (by decide) 0 [] (Or.inl rfl) 7
    (by decide) (by decide +kernel) ⟨some samplePgd⟩ samplePgd 0x1067#64 rfl rfl rfl).mpr
    ⟨by decide, fun _ _ _ => rfl⟩

/-- 200 is negative as a `char`: seven bytes of the next frame become 0xff. -/
theorem mtest_write_one_byte_fails : ∃ ret s',
    procWrite sampleKernel true 0 (writeLine 0 0 0 42 0xfff#64 200 []) sampleState = .ok (ret, s') ∧
    physAddr 0x1067#64 0xfff = 0x1fff ∧ s'.mem 0x1fff = 200 ∧
    sampleState.mem 0x2000 = 0 ∧ s'.mem 0x2000 = 0xff ∧ s'.mem 0x2006 = 0xff := by
  have hcall : procWrite sampleKernel true 0 (writeLine 0 0 0 42 0xfff#64 200 []) sampleState = _ :=
    procWrite_writeLine 0 0 0 (by decide) [] (Or.inl rfl) (by decide) (by decide +kernel)
      (show sampleKernel.pidTask (BitVec.ofNat 32 42) = some ⟨some samplePgd⟩ from rfl) rfl
      (show walk samplePgd _ = some 0x1067#64 from rfl)
  rw [if_pos (by decide)] at hcall
  exact ⟨_, _, hcall, by decide +kernel⟩

/-! ## Reading -/

/-- Calls of `proc_read` with the sizes `lens`, each at the position the one before it left: what
each returns, nothing for an error. -/
def readSeq (s : State) : BitVec 64 → List (BitVec 64) → Except Fault (List (Option (List Byte)))
  | _, [] => .ok []
  | pos, len :: lens =>
    (procRead true s pos len).bind fun
      | none => (readSeq s pos lens).map (none :: ·)
      | some (bytes, pos) => (readSeq s pos lens).map (some bytes :: ·)

/-- Whatever sizes a reader asks for, it gets the byte `b` and then the end of the file. -/
def ReadsByte (s : State) (b : Byte) : Prop :=
  ∀ len lens, len ≠ 0 → (∀ n ∈ lens, n ≠ 0) →
    readSeq s 0 (len :: lens) = .ok (some [b] :: List.replicate lens.length (some []))

section Read

variable {k : Kernel} {s : State} {m : Memory} {output : Buffer} {pid : Nat} {addr : BitVec 64}
  {task : Task} {pgd : PgdTable} {pte : Pte}

/-- The output after a read command. -/
def showByte (output : Buffer) (b : Byte) : Buffer :=
  ⟨(output.bytes.set 0 b).set 1 0, by rw [List.length_set, List.length_set, output.length]⟩

theorem procWrite_readLine (i j : Nat) (hpid : pid < 2 ^ 31) (t : List Byte) (ht : Ending t)
    (hlen : (readLine i j pid addr t).length ≤ 127)
    (htask : k.pidTask (BitVec.ofNat 32 pid) = some task) (hpgd : task.pgd = some pgd)
    (hwalk : walk pgd addr = some pte) :
    procWrite k true 0 (readLine i j pid addr t) s =
      if physAddr pte addr + 8 ≤ k.direct.size then
        .ok (((readLine i j pid addr t).length : Int) + 1,
          { s with output := showByte s.output (s.mem (physAddr pte addr)) })
      else .error .badAddress := by
  have hmax : maxSize = 128 := rfl
  have hparse := parseCommand_readLine i j pid (by omega) addr t ht (by omega)
  rw [procWrite_of_parse (by omega) hparse, execute,
    findPlace_mapped rfl rfl (by rw [setWidth_ofNat_pid, htask]) hpgd hwalk]
  split
  · rw [ok_bind, loadWord_setWidth, Buffer.write, if_pos (by decide), ok_bind, Buffer.write,
      if_pos (by decide), ok_bind, ok_bind]
    rfl
  · rfl

/-- The string is the byte, or nothing if the byte ends it. -/
theorem showByte_holds (output : Buffer) (b : Byte) :
    (showByte output b).Holds (if b = 0 then [] else [b]) := by
  obtain ⟨bytes, hlen⟩ := output
  match bytes, hlen with
  | x :: y :: rest, _ =>
    split
    · next hb => exact ⟨by simp, 0 :: rest, by rw [hb]; rfl⟩
    · next hb => exact ⟨by simpa using Ne.symm hb, rest, rfl⟩

/-- At the end of the string nothing more comes. -/
theorem procRead_end {text : List Byte} (hholds : s.output.Holds text) {pos : BitVec 64}
    (hpos : pos.toNat = text.length) (len : BitVec 64) :
    procRead true s pos len = .ok (some ([], pos)) := by
  have hmax : maxSize = 128 := rfl
  have hlt := hholds.length_lt
  have hcount : readCount text.length pos len = 0 := by
    apply BitVec.eq_of_toNat_eq
    rw [readCount_toNat (by omega) (by omega), hpos, Nat.sub_self, Nat.min_zero]
    rfl
  unfold procRead
  dsimp only
  rw [hholds.strlen_eq, hcount, copyToUser_ok (by decide) (Nat.zero_le _), ok_bind]
  show Except.ok (some ([], pos + 0#64)) = _
  rw [BitVec.add_zero]

theorem readSeq_end {text : List Byte} (hholds : s.output.Holds text) {pos : BitVec 64}
    (hpos : pos.toNat = text.length) (lens : List (BitVec 64)) :
    readSeq s pos lens = .ok (List.replicate lens.length (some [])) := by
  induction lens with
  | nil => rfl
  | cons len lens ih =>
    rw [readSeq, procRead_end hholds hpos, ok_bind]
    dsimp only
    rw [ih]
    rfl

/-- The byte comes with the first call. -/
theorem procRead_first {b : Byte} (hholds : s.output.Holds [b]) {len : BitVec 64} (hlen : len ≠ 0) :
    procRead true s 0 len = .ok (some ([b], 1)) := by
  have hlen : len.toNat ≠ 0 := fun h => hlen (BitVec.eq_of_toNat_eq h)
  have hcount : readCount [b].length 0 len = 1 := by
    apply BitVec.eq_of_toNat_eq
    rw [readCount_toNat (Nat.zero_le _) (by rw [List.length_singleton]; decide)]
    show min len.toNat (1 - 0) = 1
    omega
  have hcopy := copyToUser_holds hholds (show BitVec.toNat 0 ≤ [b].length from Nat.zero_le _) len
  rw [hcount] at hcopy
  unfold procRead
  dsimp only
  rw [hholds.strlen_eq, hcount, hcopy, ok_bind]
  show Except.ok (some ([b].take len.toNat, 1)) = _
  rw [List.take_of_length_le (by rw [List.length_singleton]; omega)]

/-- A byte is read back from its output exactly if it does not end the string. -/
theorem readsByte_iff (b : Byte) : ReadsByte ⟨m, showByte output b⟩ b ↔ b ≠ 0 := by
  have hholds := showByte_holds output b
  constructor
  · rintro hreads rfl
    -- the string is empty: the first call is at its end
    have hfirst := hreads 1 [] (by decide) (by simp)
    rw [readSeq_end hholds rfl] at hfirst
    simp at hfirst
  · intro hb len lens hlen _
    rw [if_neg hb] at hholds
    rw [readSeq, procRead_first hholds hlen, ok_bind]
    dsimp only
    rw [readSeq_end hholds rfl]
    rfl

end Read

/-- **A read.** For an address of a live process whose page tables lead to an entry, a read command
followed by reads of the file, in any sizes, gives the byte and the end of the file exactly if the
byte is not zero and there are eight bytes of memory from it on. Hence a value that is written is
read back exactly if it is not zero. -/
theorem mtest_read_byte_iff (k : Kernel) (s : State) (i j l pid : Nat) (hpid : pid < 2 ^ 31)
    (addr : BitVec 64) (t u : List Byte) (ht : Ending t) (hu : Ending u)
    (hlen : (readLine i j pid addr t).length ≤ 127) (task : Task) (pgd : PgdTable) (pte : Pte)
    (htask : k.pidTask (BitVec.ofNat 32 pid) = some task) (hpgd : task.pgd = some pgd)
    (hwalk : walk pgd addr = some pte) :
    ((∃ ret s', procWrite k true 0 (readLine i j pid addr t) s = .ok (ret, s') ∧
      ReadsByte s' (s.mem (physAddr pte addr))) ↔
      s.mem (physAddr pte addr) ≠ 0 ∧ physAddr pte addr + 8 ≤ k.direct.size) ∧
    ∀ v, v < 256 → (writeLine i j l pid addr v u).length ≤ 127 →
      ((∃ ret₁ s₁ ret₂ s₂,
        procWrite k true 0 (writeLine i j l pid addr v u) s = .ok (ret₁, s₁) ∧
        procWrite k true 0 (readLine i j pid addr t) s₁ = .ok (ret₂, s₂) ∧
        ReadsByte s₂ (BitVec.ofNat 8 v)) ↔
        v ≠ 0 ∧ physAddr pte addr + 8 ≤ k.direct.size) := by
  have hread : ∀ s, procWrite k true 0 (readLine i j pid addr t) s = _ := fun s =>
    procWrite_readLine (s := s) i j hpid t ht hlen htask hpgd hwalk
  refine ⟨?_, fun v hv hlen' => ?_⟩
  · rw [hread]
    by_cases hfits : physAddr pte addr + 8 ≤ k.direct.size
    · rw [if_pos hfits]
      simp only [Except.ok.injEq, Prod.mk.injEq, hfits, and_true]
      constructor
      · rintro ⟨ret, s', ⟨-, rfl⟩, hreads⟩
        exact (readsByte_iff _).mp hreads
      · intro hne
        exact ⟨_, _, ⟨rfl, rfl⟩, (readsByte_iff _).mpr hne⟩
    · rw [if_neg hfits]
      simp [hfits]
  · rw [procWrite_writeLine i j l hpid u hu hv hlen' htask hpgd hwalk]
    by_cases hfits : physAddr pte addr + 8 ≤ k.direct.size
    · rw [if_pos hfits]
      simp only [Except.ok.injEq, Prod.mk.injEq, hfits, and_true]
      -- the byte that was stored is the one that is read
      have hbyte : ∀ m : Memory, storeWord m (physAddr pte addr) ((BitVec.ofNat 8 v).signExtend 64)
          (physAddr pte addr) = BitVec.ofNat 8 v := by
        intro m
        rw [storeWord_self, setWidth_signExtend]
      have hzero : BitVec.ofNat 8 v ≠ 0 ↔ v ≠ 0 := by
        rw [ne_eq, ne_eq, ← BitVec.toNat_inj, BitVec.toNat_ofNat, Nat.mod_eq_of_lt hv]
        exact Iff.rfl
      rw [← hzero]
      constructor
      · rintro ⟨ret₁, s₁, ret₂, s₂, ⟨-, rfl⟩, hcall, hreads⟩
        rw [hread, if_pos hfits] at hcall
        simp only [Except.ok.injEq, Prod.mk.injEq, hbyte] at hcall
        obtain ⟨-, rfl⟩ := hcall
        exact (readsByte_iff _).mp hreads
      · intro hne
        have hcall := hread ⟨storeWord s.mem (physAddr pte addr) ((BitVec.ofNat 8 v).signExtend 64),
          s.output⟩
        rw [if_pos hfits] at hcall
        simp only [hbyte] at hcall
        exact ⟨_, _, _, _, ⟨rfl, rfl⟩, hcall, (readsByte_iff _).mpr hne⟩
    · rw [if_neg hfits]
      simp [hfits]

/-- Every byte of the memory is 5, and 200 is written over one of them. -/
theorem mtest_read_five :
    (∃ ret s', procWrite sampleKernel true 0 (readLine 0 0 42 0#64 [])
      ⟨fun _ => 5, sampleState.output⟩ =
      .ok (ret, s') ∧ ReadsByte s' 5) ∧
    ∃ ret₁ s₁ ret₂ s₂,
      procWrite sampleKernel true 0 (writeLine 0 0 0 42 0#64 200 [])
      ⟨fun _ => 5, sampleState.output⟩ =
        .ok (ret₁, s₁) ∧
      procWrite sampleKernel true 0 (readLine 0 0 42 0#64 []) s₁ = .ok (ret₂, s₂) ∧
      ReadsByte s₂ 200 := by
  have hboth :=
    mtest_read_byte_iff sampleKernel ⟨fun _ => 5, sampleState.output⟩ 0 0 0 42 (by decide)
    0 [] [] (Or.inl rfl) (Or.inl rfl) (by decide +kernel) ⟨some samplePgd⟩ samplePgd 0x1067#64
    rfl rfl rfl
  exact ⟨hboth.1.mpr ⟨by decide, by decide⟩,
    (hboth.2 200 (by decide) (by decide +kernel)).mpr ⟨by decide, by decide⟩⟩

/-- A byte that is zero is not returned: the reader is at the end of the file at once. -/
theorem mtest_read_byte_fails : ∃ ret s',
    procWrite sampleKernel true 0 (readLine 0 0 42 0#64 []) sampleState = .ok (ret, s') ∧
    sampleState.mem (physAddr 0x1067#64 0) = 0 ∧ readSeq s' 0 [1, 1] = .ok [some [], some []] := by
  have hcall : procWrite sampleKernel true 0 (readLine 0 0 42 0#64 []) sampleState = _ :=
    procWrite_readLine 0 0 (by decide) [] (Or.inl rfl) (by decide +kernel)
      (show sampleKernel.pidTask (BitVec.ofNat 32 42) = some ⟨some samplePgd⟩ from rfl) rfl
      (show walk samplePgd _ = some 0x1067#64 from rfl)
  rw [if_pos (by decide)] at hcall
  exact ⟨_, _, hcall, rfl, by decide +kernel⟩

end LinuxKernel.Mtest

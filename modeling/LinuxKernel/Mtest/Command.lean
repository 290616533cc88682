import LinuxKernel.Mtest.Mtest

/-!
# /proc/mtest — commands

The lines a client prints with `"r %d %lx\n"` and `"w %d %lx %d\n"`, and what `proc_write` makes of
them.

* `readLine`, `writeLine`      — the lines, with any spaces between the fields and anything behind
  the last one.
* `tokens_readLine`, `tokens_writeLine` — their tokens.
* `mtest_command_round_trip`   — the fields come out as they were printed.
-/

namespace LinuxKernel.Mtest

open LinuxKernel.Lib LinuxKernel.Proc

/-! ## Lines -/

/-- One space or more. -/
def gap (k : Nat) : List Byte := List.replicate (k + 1) 32

/-- What may follow the last field: nothing, or a space and anything. -/
def Ending (t : List Byte) : Prop := t = [] ∨ ∃ u, t = 32 :: u

def readFields (i j pid : Nat) (addr : BitVec 64) : List Byte :=
  [114] ++ gap i ++ numeral 10 pid ++ gap j ++ numeral 16 addr.toNat

def readLine (i j pid : Nat) (addr : BitVec 64) (t : List Byte) : List Byte :=
  readFields i j pid addr ++ t ++ [10]

def writeFields (i j l pid : Nat) (addr : BitVec 64) (content : Nat) : List Byte :=
  [119] ++ gap i ++ numeral 10 pid ++ gap j ++ numeral 16 addr.toNat ++ gap l ++ numeral 10 content

def writeLine (i j l pid : Nat) (addr : BitVec 64) (content : Nat) (t : List Byte) : List Byte :=
  writeFields i j l pid addr content ++ t ++ [10]

/-! ## Tokens -/

section Tokens

theorem nul_notMem_gap (k : Nat) : 0 ∉ gap k := by
  intro hmem
  have h32 : (0 : Byte) = 32 := List.eq_of_mem_replicate hmem
  exact absurd h32 (by decide)

theorem tokens_gap {t : List Byte} (ht : 32 ∉ t) (k : Nat) (s : List Byte) :
    tokens 32 (t ++ gap k ++ s) = t :: (List.replicate k [] ++ tokens 32 s) := by
  rw [gap, List.replicate_succ, List.append_assoc, List.cons_append, tokens_append ht,
    tokens_replicate]

/-- The letter, the pid and the address, which both lines start with. -/
theorem tokens_place {letter : Byte} (hletter : letter ≠ 32) (i j l pid : Nat) (addr : BitVec 64)
    (s : List Byte) :
    tokens 32 ([letter] ++ gap i ++ numeral 10 pid ++ gap j ++
      numeral 16 addr.toNat ++ gap l ++ s) =
      [letter] :: (List.replicate i [] ++ numeral 10 pid ::
        (List.replicate j [] ++ numeral 16 addr.toNat ::
          (List.replicate l [] ++ tokens 32 s))) := by
  have hpid := space_notMem_numeral (by decide : 1 < 10) (by decide) pid
  have haddr := space_notMem_numeral (by decide : 1 < 16) (by decide) addr.toNat
  have hfirst : 32 ∉ [letter] := by simpa using Ne.symm hletter
  have hassoc : [letter] ++ gap i ++ numeral 10 pid ++ gap j ++
      numeral 16 addr.toNat ++ gap l ++ s =
      [letter] ++ gap i ++ (numeral 10 pid ++ gap j ++ (numeral 16 addr.toNat ++ gap l ++ s)) := by
    simp only [List.append_assoc]
  rw [hassoc, tokens_gap hfirst, tokens_gap hpid, tokens_gap haddr]

theorem nul_notMem_place {letter : Byte} (hletter : letter ≠ 0) (i j pid : Nat) (addr : BitVec 64) :
    0 ∉ [letter] ++ gap i ++ numeral 10 pid ++ gap j ++ numeral 16 addr.toNat := by
  have hpid := nul_notMem_numeral (by decide : 1 < 10) (by decide) pid
  have haddr := nul_notMem_numeral (by decide : 1 < 16) (by decide) addr.toNat
  have hfirst : 0 ∉ [letter] := by simpa using Ne.symm hletter
  simp only [List.mem_append, not_or]
  exact ⟨⟨⟨⟨hfirst, nul_notMem_gap i⟩, hpid⟩, nul_notMem_gap j⟩, haddr⟩

theorem tokens_readFields (i j pid : Nat) (addr : BitVec 64) (rest : List Byte) :
    tokens 32 (readFields i j pid addr ++ 32 :: rest) =
      [114] :: (List.replicate i [] ++ numeral 10 pid ::
        (List.replicate j [] ++ numeral 16 addr.toNat :: tokens 32 rest)) := by
  have hspace : readFields i j pid addr ++ 32 :: rest = readFields i j pid addr ++
      gap 0 ++ rest := by
    rw [List.append_assoc]
    rfl
  rw [hspace, readFields, tokens_place (by decide)]
  rfl

theorem tokens_writeFields (i j l pid : Nat) (addr : BitVec 64) (content : Nat) (rest : List Byte) :
    tokens 32 (writeFields i j l pid addr content ++ 32 :: rest) =
      [119] :: (List.replicate i [] ++ numeral 10 pid ::
        (List.replicate j [] ++ numeral 16 addr.toNat ::
          (List.replicate l [] ++ numeral 10 content :: tokens 32 rest))) := by
  have hcontent := space_notMem_numeral (by decide : 1 < 10) (by decide) content
  rw [writeFields, List.append_assoc, tokens_place (by decide), tokens_append hcontent]

theorem nul_notMem_writeFields (i j l pid : Nat) (addr : BitVec 64) (content : Nat) :
    0 ∉ writeFields i j l pid addr content := by
  have hplace := nul_notMem_place (by decide : (119 : Byte) ≠ 0) i j pid addr
  have hcontent := nul_notMem_numeral (by decide : 1 < 10) (by decide) content
  rw [writeFields, List.mem_append, List.mem_append, not_or, not_or]
  exact ⟨⟨hplace, nul_notMem_gap l⟩, hcontent⟩

/-- The newline becomes a space, so the last field always ends with one. -/
theorem commandText_line {fields t : List Byte} (hnul : 0 ∉ fields) (ht : Ending t)
    (hlen : (fields ++ t ++ [10]).length < maxSize) :
    ∃ rest, commandText (fields ++ t ++ [10]) = .ok (fields ++ 32 :: rest) := by
  have hcstr : ∀ s, cstr (fields ++ s) = fields ++ cstr s := by
    intro s
    refine List.takeWhile_append_of_pos fun c hc => decide_eq_true fun hc0 => hnul (hc0 ▸ hc)
  have htext : commandText (fields ++ t ++ [10]) = .ok (cstr (fields ++ (t ++ [32]))) := by
    rw [commandText, if_neg, List.dropLast_concat, List.append_assoc]
    rintro (hzero | hmax)
    · rw [List.length_append, List.length_singleton] at hzero
      omega
    · omega
  rw [htext, hcstr]
  rcases ht with rfl | ⟨u, rfl⟩
  · exact ⟨[], rfl⟩
  · exact ⟨cstr (u ++ [32]), rfl⟩

end Tokens

/-! ## The loop over the tokens -/

section Loop

variable {hasContent : Bool} {f : Fields} {token : List Byte}

/-- Empty tokens are skipped. -/
theorem foldlM_skip (k : Nat) (ts : List (List Byte)) :
    (List.replicate k [] ++ ts).foldlM (parseToken hasContent) f =
      ts.foldlM (parseToken hasContent) f := by
  induction k with
  | zero => rfl
  | succ k ih =>
    rw [List.replicate_succ, List.cons_append, List.foldlM_cons, parseToken, if_pos rfl]
    exact ih

/-- The first two fields. -/
theorem parseToken_pid (hcount : f.count = 0) {v : BitVec 64} (hv : kstrtoul token = some v)
    (hne : token ≠ []) :
    parseToken hasContent f token = .ok { f with targetPid := some v, count := 1 } := by
  rw [parseToken, if_neg hne, if_pos hcount, hv]
  rfl

theorem parseToken_addr (hcount : f.count = 1) {v : BitVec 64}
    (hv : kstrtoul (48 :: 120 :: token) = some v) (hne : token ≠ [])
    (hlen : 2 + token.length < maxSize) :
    parseToken hasContent f token = .ok { f with addr := some v, count := 2 } := by
  rw [parseToken, if_neg hne, if_neg (by omega), if_pos hcount, if_pos hlen, hv]
  rfl

theorem parseToken_content (hcount : f.count = 2) {v : BitVec 64} (hv : kstrtoul token = some v)
    (hne : token ≠ []) :
    parseToken true f token = .ok { f with content := some v, count := 3 } := by
  rw [parseToken, if_neg hne, if_neg (by omega), if_neg (by omega), if_pos ⟨rfl, hcount⟩, hv]
  rfl

/-- Further tokens are not looked at. -/
theorem foldlM_done (hdone : (if hasContent then 3 else 2) ≤ f.count) (ts : List (List Byte)) :
    ts.foldlM (parseToken hasContent) f = .ok f := by
  induction ts with
  | nil => rfl
  | cons t ts ih =>
    have hstay : parseToken hasContent f t = .ok f := by
      rw [parseToken]
      split
      · rfl
      · cases hasContent with
        | false =>
          simp only [Bool.false_eq_true, if_false] at hdone
          rw [if_neg (by omega), if_neg (by omega), if_neg (by simp)]
        | true =>
          simp only [if_true] at hdone
          rw [if_neg (by omega), if_neg (by omega), if_neg (by omega)]
    rw [List.foldlM_cons, hstay]
    exact ih

/-- The pid and the address, which both branches start with. -/
theorem foldlM_place (i j pid : Nat) (hpid : pid < 2 ^ 64) (addr : BitVec 64)
    (hlen : 2 + (numeral 16 addr.toNat).length < maxSize) (ts : List (List Byte)) :
    (List.replicate i [] ++ numeral 10 pid ::
      (List.replicate j [] ++ numeral 16 addr.toNat :: ts)).foldlM (parseToken hasContent)
        Fields.start =
      ts.foldlM (parseToken hasContent)
        ⟨2, some (BitVec.ofNat 64 pid), some addr, none⟩ := by
  have haddr : kstrtoul (48 :: 120 :: numeral 16 addr.toNat) = some addr := by
    rw [kstrtoul_hex addr.isLt, BitVec.ofNat_toNat, BitVec.setWidth_eq]
  rw [foldlM_skip, List.foldlM_cons,
    parseToken_pid rfl (kstrtoul_decimal hpid) (numeral_ne_nil (by decide) pid)]
  show List.foldlM _ _ _ = _
  rw [foldlM_skip, List.foldlM_cons,
    parseToken_addr rfl haddr (numeral_ne_nil (by decide) addr.toNat) hlen]
  rfl

end Loop

/-! ## The round trip -/

theorem procWrite_of_parse {k : Kernel} {s : State} {line : List Byte} {command : Command}
    (hlen : line.length ≤ maxSize) (h : parseCommand line = .ok command) :
    procWrite k true 0 line s =
      (execute k s command).bind fun s => .ok ((line.length : Int) + 1, s) := by
  rw [procWrite, if_neg, h, ok_bind]
  · rintro (hpos | hlong | huser)
    · exact absurd hpos (by decide)
    · omega
    · exact huser rfl

theorem parseCommand_readLine (i j pid : Nat) (hpid : pid < 2 ^ 64) (addr : BitVec 64)
    (t : List Byte) (ht : Ending t) (hlen : (readLine i j pid addr t).length < maxSize) :
    parseCommand (readLine i j pid addr t) =
      .ok (.read ⟨2, some (BitVec.ofNat 64 pid), some addr, none⟩) := by
  have hnul : 0 ∉ readFields i j pid addr := nul_notMem_place (by decide) i j pid addr
  obtain ⟨rest, htext⟩ := commandText_line hnul ht hlen
  have hshort : 2 + (numeral 16 addr.toNat).length < maxSize := by
    unfold readLine readFields gap at hlen
    simp only [List.length_append, List.length_replicate, List.length_singleton] at hlen
    omega
  rw [parseCommand, readLine, htext, ok_bind, parseText, tokens_readFields]
  dsimp only
  rw [if_pos rfl, foldlM_place i j pid hpid addr hshort, foldlM_done (by simp)]
  rfl

theorem parseCommand_writeLine (i j l pid : Nat) (hpid : pid < 2 ^ 64) (addr : BitVec 64)
    (content : Nat) (hcontent : content < 2 ^ 64) (t : List Byte) (ht : Ending t)
    (hlen : (writeLine i j l pid addr content t).length < maxSize) :
    parseCommand (writeLine i j l pid addr content t) =
      .ok (.write ⟨3, some (BitVec.ofNat 64 pid), some addr, some (BitVec.ofNat 64 content)⟩) := by
  obtain ⟨rest, htext⟩ := commandText_line (nul_notMem_writeFields i j l pid addr content) ht hlen
  have hshort : 2 + (numeral 16 addr.toNat).length < maxSize := by
    unfold writeLine writeFields gap at hlen
    simp only [List.length_append, List.length_replicate, List.length_singleton] at hlen
    omega
  rw [parseCommand, writeLine, htext, ok_bind, parseText, tokens_writeFields]
  dsimp only
  rw [if_neg (by decide), if_pos rfl, foldlM_place i j pid hpid addr hshort, foldlM_skip,
    List.foldlM_cons,
    parseToken_content rfl (kstrtoul_decimal hcontent) (numeral_ne_nil (by decide) content)]
  show Except.map _ (List.foldlM _ _ _) = _
  rw [foldlM_done (by simp)]
  rfl

/-- **Round trip of commands.** A line of at most 127 bytes with any spaces between its fields, and
anything behind a space at its end, makes `proc_write` take the branch of its letter with the
pid, the address and the content that were printed. -/
theorem mtest_command_round_trip (k : Kernel) (s : State) (i j l pid : Nat) (hpid : pid < 2 ^ 31)
    (addr : BitVec 64) (content : Nat) (hcontent : content < 2 ^ 31) (t : List Byte)
    (ht : Ending t) :
    ((readLine i j pid addr t).length ≤ 127 →
      parseCommand (readLine i j pid addr t) =
        .ok (.read ⟨2, some (BitVec.ofNat 64 pid), some addr, none⟩) ∧
      procWrite k true 0 (readLine i j pid addr t) s =
        (execute k s (.read ⟨2, some (BitVec.ofNat 64 pid), some addr, none⟩)).bind fun s =>
          .ok (((readLine i j pid addr t).length : Int) + 1, s)) ∧
    ((writeLine i j l pid addr content t).length ≤ 127 →
      parseCommand (writeLine i j l pid addr content t) =
        .ok (.write ⟨3, some (BitVec.ofNat 64 pid), some addr, some (BitVec.ofNat 64 content)⟩) ∧
      procWrite k true 0 (writeLine i j l pid addr content t) s =
        (execute k s (.write ⟨3, some (BitVec.ofNat 64 pid), some addr,
          some (BitVec.ofNat 64 content)⟩)).bind fun s =>
          .ok (((writeLine i j l pid addr content t).length : Int) + 1, s)) := by
  have hmax : maxSize = 128 := rfl
  constructor
  · intro hlen
    have hparse := parseCommand_readLine i j pid (by omega) addr t ht (by omega)
    exact ⟨hparse, procWrite_of_parse (by omega) hparse⟩
  · intro hlen
    have hparse :=
      parseCommand_writeLine i j l pid (by omega) addr content (by omega) t ht (by omega)
    exact ⟨hparse, procWrite_of_parse (by omega) hparse⟩

/-! ## A small machine -/

/-- Every address is mapped to the second of four frames. -/
def samplePgd : PgdTable :=
  fun _ => .table fun _ => .table fun _ => .table fun _ => .table fun _ => 0x1067#64

def sampleKernel : Kernel where
  direct :=
    { base := 0xffff888000000000#64, size := 0x4000, aligned := by decide, fits := by decide }
  pidTask := fun nr => if nr = 42 then some ⟨some samplePgd⟩ else none

def sampleState : State where
  mem := fun _ => 0
  output := ⟨List.replicate maxSize 0, length_zeros⟩

/-- The lines "r 42  7ffd\n" and "w 42 7ffd 7 x\n". -/
theorem mtest_command_42 :
    readLine 0 1 42 0x7ffd#64 [] = [114, 32, 52, 50, 32, 32, 55, 102, 102, 100, 10] ∧
    parseCommand (readLine 0 1 42 0x7ffd#64 []) = .ok (.read ⟨2, some 42, some 0x7ffd, none⟩) ∧
    parseCommand (writeLine 0 0 0 42 0x7ffd#64 7 [32, 120]) =
      .ok (.write ⟨3, some 42, some 0x7ffd, some 7⟩) := by
  have hread := (mtest_command_round_trip sampleKernel sampleState 0 1 0 42 (by decide) 0x7ffd#64 7
    (by decide) [] (Or.inl rfl)).1 (by decide +kernel)
  have hwrite := (mtest_command_round_trip sampleKernel sampleState 0 0 0 42 (by decide) 0x7ffd#64 7
    (by decide) [32, 120] (Or.inr ⟨[120], rfl⟩)).2 (by decide +kernel)
  exact ⟨by decide +kernel, hread.1, hwrite.1⟩

end LinuxKernel.Mtest

import LinuxKernel.Mtest.Access

/-!
# /proc/mtest — lines and addresses that lead nowhere

`proc_write` looks at none of the values that `kstrtoul`, `pid_task` and `get_addr` return, so a
line is carried out whatever is wrong with it.

* **Bad lines.** The letter is unknown, a field is missing or not a number, or there is no such
  process (`BadLine`). Only the first is noticed.
* **Addresses.** An address has a byte if all tables on the way are there and the last entry is
  present (`translate`). `get_addr` does not look at the last one, and its -1 is used as a pointer.

## Results

* `foldlM_parseToken`       — the fields the loop over the tokens takes.
* `mtest_bad_line_iff`      — a bad line is harmless exactly if its letter is unknown.
* `mtest_translation_iff`   — addresses are handled right exactly if they have a byte.
-/

namespace LinuxKernel.Mtest

open LinuxKernel.Lib LinuxKernel.Proc

/-! ## Bad lines -/

/-- What `strsep` splits: the last byte of the line is replaced by a space. -/
def lineTokens (line : List Byte) : List (List Byte) := tokens 32 (cstr (line.dropLast ++ [32]))

def operation (line : List Byte) : List Byte := (lineTokens line).headD []

def fieldTokens (line : List Byte) : List (List Byte) := (lineTokens line).tail.filter (· ≠ [])

/-- The numbers the fields stand for; an address is printed without 0x. -/
def pidField (line : List Byte) : Option (BitVec 64) := (fieldTokens line)[0]?.bind kstrtoul
def addrField (line : List Byte) : Option (BitVec 64) :=
  (fieldTokens line)[1]?.bind fun token => kstrtoul (48 :: 120 :: token)
def contentField (line : List Byte) : Option (BitVec 64) := (fieldTokens line)[2]?.bind kstrtoul

/-- There is no such operation, a field is missing or rejected by `kstrtoul`, or no process has the
pid. -/
inductive BadLine (k : Kernel) (line : List Byte) : Prop
  | operation (hread : operation line ≠ [114]) (hwrite : operation line ≠ [119])
  | pid (h : pidField line = none)
  | addr (h : addrField line = none)
  | content (hwrite : operation line = [119]) (h : contentField line = none)
  | task (pid : BitVec 64) (hpid : pidField line = some pid)
    (h : k.pidTask (pid.setWidth 32) = none)

/-- `proc_write` returns, and memory and `output` are as before. -/
def Harmless (k : Kernel) (userOk : Bool) (pos : BitVec 64) (line : List Byte) (s : State) : Prop :=
  ∃ ret, procWrite k userOk pos line s = .ok (ret, s)

/-! ## What is taken from a line -/

section Fields

variable {hasContent : Bool}

theorem foldlM_filter (ts : List (List Byte)) (f : Fields) :
    ts.foldlM (parseToken hasContent) f =
      (ts.filter (· ≠ [])).foldlM (parseToken hasContent) f := by
  induction ts generalizing f with
  | nil => rfl
  | cons t ts ih =>
    by_cases ht : t = []
    · subst ht
      rw [List.foldlM_cons, parseToken, if_pos rfl, List.filter_cons_of_neg (by simp)]
      exact ih f
    · rw [List.foldlM_cons, List.filter_cons_of_pos (by simpa using ht), List.foldlM_cons]
      exact congrArg _ (funext ih)

section Rounds

variable {t : List Byte} (ht : t ≠ []) (pid addr : Option (BitVec 64))

include ht

theorem parseToken_first :
    parseToken hasContent Fields.start t = .ok ⟨1, kstrtoul t, none, none⟩ := by
  simp [parseToken, ht, Fields.start]

theorem parseToken_second :
    parseToken hasContent ⟨1, pid, none, none⟩ t =
      if 2 + t.length < maxSize then .ok ⟨2, pid, kstrtoul (48 :: 120 :: t), none⟩
      else .error .overrun := by
  simp [parseToken, ht]

theorem parseToken_third :
    parseToken true ⟨2, pid, addr, none⟩ t = .ok ⟨3, pid, addr, kstrtoul t⟩ := by
  simp [parseToken, ht]

end Rounds

/-- **The loop over the tokens.** If it ends, it has taken the fields in their order. -/
theorem foldlM_parseToken {ts : List (List Byte)} (hne : ∀ t ∈ ts, t ≠ []) {f : Fields}
    (h : ts.foldlM (parseToken hasContent) Fields.start = .ok f) :
    f.targetPid = ts[0]?.bind kstrtoul ∧
    f.addr = ts[1]?.bind (fun token => kstrtoul (48 :: 120 :: token)) ∧
    (hasContent = true → f.content = ts[2]?.bind kstrtoul) := by
  match ts with
  | [] =>
    obtain rfl := Except.ok.inj h
    simp [Fields.start]
  | [a] =>
    rw [List.foldlM_cons, parseToken_first (hne a (by simp))] at h
    obtain rfl := Except.ok.inj h
    simp
  | a :: b :: rest =>
    rw [List.foldlM_cons, parseToken_first (hne a (by simp))] at h
    change List.foldlM (parseToken hasContent) _ (b :: rest) = Except.ok f at h
    rw [List.foldlM_cons, parseToken_second (hne b (by simp))] at h
    split at h
    case isFalse => cases h
    case isTrue =>
      change List.foldlM (parseToken hasContent) _ rest = Except.ok f at h
      -- only `w` takes a third number
      cases hasContent with
      | false =>
        rw [foldlM_done (by simp)] at h
        obtain rfl := Except.ok.inj h
        simp
      | true =>
        match rest with
        | [] =>
          obtain rfl := Except.ok.inj h
          simp
        | c :: rest =>
          rw [List.foldlM_cons, parseToken_third (hne c (by simp))] at h
          change List.foldlM (parseToken true) _ rest = Except.ok f at h
          rw [foldlM_done (by simp)] at h
          obtain rfl := Except.ok.inj h
          simp

end Fields

/-! ## Carrying out a line -/

/-- The place of a byte is only found for fields that are there and a process that exists. -/
theorem findPlace_ok {k : Kernel} {f : Fields} {p : Nat} (h : findPlace k f = .ok p) :
    f.addr ≠ none ∧ ∃ pid, f.targetPid = some pid ∧ k.pidTask (pid.setWidth 32) ≠ none := by
  unfold findPlace at h
  obtain ⟨pid, hpid, h⟩ := bind_eq_ok h
  obtain ⟨addr, haddr, h⟩ := bind_eq_ok h
  obtain ⟨vaddr, hvaddr, -⟩ := bind_eq_ok h
  unfold use at hpid haddr
  split at hpid
  case h_1 => simp at hpid
  case h_2 v hv =>
    obtain rfl := Except.ok.inj hpid
    split at haddr
    case h_1 => simp at haddr
    case h_2 w hw =>
      refine ⟨by simp [hw], v, hv, ?_⟩
      intro hnone
      simp [hnone, getAddr] at hvaddr

theorem parseCommand_eq {line : List Byte} (hpos : 0 < line.length) (hlen : line.length < maxSize) :
    parseCommand line =
      if operation line = [114] then
        ((fieldTokens line).foldlM (parseToken false) Fields.start).map .read
      else if operation line = [119] then
        ((fieldTokens line).foldlM (parseToken true) Fields.start).map .write
      else .ok .unknown := by
  have hsize : ¬ (line.length = 0 ∨ line.length = maxSize) := by omega
  rw [parseCommand, commandText, if_neg hsize, ok_bind, parseText, operation,
    fieldTokens, lineTokens]
  cases tokens 32 (cstr (line.dropLast ++ [32])) with
  | nil => rfl
  | cons token rest =>
    dsimp only [List.headD_cons, List.tail_cons]
    rw [foldlM_filter rest, foldlM_filter rest]
    rfl

/-- A line of another length writes outside of `tmp_buffer`. -/
theorem parseCommand_overrun {line : List Byte} (h : line.length = 0 ∨ line.length = maxSize) :
    parseCommand line = .error .overrun := by
  rw [parseCommand, commandText, if_pos h]
  rfl

/-- A line with a known letter is only carried out if it has all its fields and a process. -/
theorem not_badLine_of_execute {k : Kernel} {s s' : State} {line : List Byte} {command : Command}
    (hpos : 0 < line.length) (hlen : line.length < maxSize)
    (hletter : operation line = [114] ∨ operation line = [119])
    (hparse : parseCommand line = .ok command) (hrun : execute k s command = .ok s') :
    ¬ BadLine k line := by
  have hne : ∀ t ∈ fieldTokens line, t ≠ [] := by
    intro t ht
    simpa using (List.mem_filter.mp ht).2
  rw [parseCommand_eq hpos hlen] at hparse
  -- what the fields of the command are
  obtain ⟨f, p, hplace, hpid, haddr, hcontent⟩ : ∃ f p, findPlace k f = .ok p ∧
      f.targetPid = pidField line ∧ f.addr = addrField line ∧
      (operation line = [119] → contentField line ≠ none) := by
    split at hparse
    case isTrue hread =>
      obtain ⟨f, hf, rfl⟩ := map_eq_ok hparse
      obtain ⟨hpid, haddr, -⟩ := foldlM_parseToken hne hf
      obtain ⟨p, hplace, -⟩ := bind_eq_ok hrun
      exact ⟨f, p, hplace, hpid, haddr, by simp [hread]⟩
    case isFalse hread =>
      rw [if_pos (hletter.resolve_left hread)] at hparse
      obtain ⟨f, hf, rfl⟩ := map_eq_ok hparse
      obtain ⟨hpid, haddr, hcontent⟩ := foldlM_parseToken hne hf
      obtain ⟨p, hplace, hrun⟩ := bind_eq_ok hrun
      obtain ⟨content, hused, -⟩ := bind_eq_ok hrun
      refine ⟨f, p, hplace, hpid, haddr, fun _ hnone => ?_⟩
      simp [(hcontent rfl).trans hnone, use] at hused
  obtain ⟨haddr', pid, hpid', htask⟩ := findPlace_ok hplace
  intro hbad
  cases hbad with
  | operation hread hwrite => exact hletter.elim hread hwrite
  | pid h => simp [hpid, h] at hpid'
  | addr h => exact haddr' (haddr.trans h)
  | content hwrite h => exact hcontent hwrite h
  | task pid' h hnone =>
    rw [hpid, h] at hpid'
    obtain rfl := Option.some.inj hpid'
    exact htask hnone

/-- **Bad lines.** Of the lines that `proc_write` does not refuse for their length or position, a
bad one is harmless exactly if it cannot be copied from the user, or has an unknown letter and from
1 to 127 bytes. -/
theorem mtest_bad_line_iff (k : Kernel) (s : State) (userOk : Bool) (pos : BitVec 64)
    (hpos : (0#64).slt pos = false) (line : List Byte) (hlen : line.length ≤ maxSize)
    (hbad : BadLine k line) :
    Harmless k userOk pos line s ↔
      userOk = false ∨ (operation line ≠ [114] ∧ operation line ≠ [119] ∧
        0 < line.length ∧ line.length < maxSize) := by
  have hrefused : ¬ maxSize < line.length := by omega
  unfold Harmless procWrite
  cases userOk with
  | false => simp
  | true =>
    simp only [hpos, hrefused, Bool.false_eq_true, Bool.true_eq_false, not_true_eq_false, or_self,
      if_false, false_or]
    constructor
    · rintro ⟨ret, hcall⟩
      obtain ⟨command, hparse, hcall⟩ := bind_eq_ok hcall
      obtain ⟨s', hrun, -⟩ := bind_eq_ok hcall
      have hsize : ¬ (line.length = 0 ∨ line.length = maxSize) := by
        intro h
        rw [parseCommand_overrun h] at hparse
        simp at hparse
      have hunknown : ¬ (operation line = [114] ∨ operation line = [119]) := fun h =>
        not_badLine_of_execute (by omega) (by omega) h hparse hrun hbad
      exact ⟨fun h => hunknown (.inl h), fun h => hunknown (.inr h), by omega, by omega⟩
    · rintro ⟨hread, hwrite, hnonempty, hshort⟩
      rw [parseCommand_eq hnonempty hshort, if_neg hread, if_neg hwrite]
      exact ⟨_, rfl⟩

/-- The line "x 42\n". -/
theorem mtest_bad_line_unknown :
    BadLine sampleKernel [120, 32, 52, 50, 10] ∧
    Harmless sampleKernel true 0 [120, 32, 52, 50, 10] sampleState := by
  have hbad : BadLine sampleKernel [120, 32, 52, 50, 10] := .operation (by decide) (by decide)
  refine ⟨hbad, (mtest_bad_line_iff sampleKernel sampleState true 0 rfl _ (by decide) hbad).mpr ?_⟩
  exact .inr ⟨by decide, by decide, by decide, by decide⟩

/-- "r\n", "r 42 0x0\n" and "w 42 0 -5\n" use a variable that was not assigned, and "r 41 0\n" a
task that does not exist. -/
theorem mtest_bad_line_fails :
    BadLine sampleKernel [114, 10] ∧
    procWrite sampleKernel true 0 [114, 10] sampleState = .error .unassigned ∧
    BadLine sampleKernel [114, 32, 52, 50, 32, 48, 120, 48, 10] ∧
    procWrite sampleKernel true 0 [114, 32, 52, 50, 32, 48, 120, 48, 10] sampleState =
      .error .unassigned ∧
    BadLine sampleKernel [119, 32, 52, 50, 32, 48, 32, 45, 53, 10] ∧
    procWrite sampleKernel true 0 [119, 32, 52, 50, 32, 48, 32, 45, 53, 10] sampleState =
      .error .unassigned ∧
    BadLine sampleKernel [114, 32, 52, 49, 32, 48, 10] ∧
    procWrite sampleKernel true 0 [114, 32, 52, 49, 32, 48, 10] sampleState =
      .error .nullPointer :=
  ⟨.pid (by decide +kernel), rfl, .addr (by decide +kernel), rfl,
    .content (by decide +kernel) (by decide +kernel), rfl,
    .task 41 (by decide +kernel) (by decide +kernel), rfl⟩

/-! ## Addresses -/

/-- Where the kernel has the byte at an address: all tables on the way are there, and the last entry
is present. -/
def translate (d : DirectMap) (pgd : PgdTable) (addr : BitVec 64) : Option (BitVec 64) :=
  match walk pgd addr with
  | none => none
  | some pte =>
    if ptePresent pte then some (d.base + (ptePfn pte <<< 12) + BitVec.ofNat 64 (addr.toNat % 4096))
    else none

theorem deref_neg_one (d : DirectMap) : d.deref (-1) = .error .badAddress := by
  have hfits := d.fits
  have hbase := d.base.isLt
  have hnat : (-1 - d.base).toNat = 2 ^ 64 - 1 - d.base.toNat := by
    bv_omega
  rw [DirectMap.deref, hnat, if_neg (by omega)]

section Address

variable {k : Kernel} {s : State} {pid : Nat} {addr : BitVec 64} {task : Task} {pgd : PgdTable}

theorem getAddr_eq (d : DirectMap) (hpgd : task.pgd = some pgd) :
    getAddr d (some task) addr =
      .ok (((walk pgd addr).map fun pte =>
        d.base + (ptePfn pte <<< 12) + BitVec.ofNat 64 (addr.toNat % 4096)).getD (-1)) := by
  simp only [getAddr, hpgd]
  cases walk pgd addr with
  | none => rfl
  | some pte =>
    have hoffset : addr &&& 0xfff#64 = BitVec.ofNat 64 (addr.toNat % 4096) := by
      rw [← toNat_and_offset, BitVec.ofNat_toNat, BitVec.setWidth_eq]
    have hsub := getAddr_sub_base d pte addr
    rw [hoffset] at hsub
    refine congrArg Except.ok ?_
    simp only [Option.map_some, Option.getD_some]
    bv_omega

/-- What becomes of the commands when `get_addr` returns -1. -/
theorem execute_neg_one {f : Fields} {pid addr : BitVec 64} {task : Task}
    (hpid : f.targetPid = some pid)
    (haddr : f.addr = some addr) (htask : k.pidTask (pid.setWidth 32) = some task)
    (hget : getAddr k.direct (some task) addr = .ok (-1)) :
    execute k s (.read f) = .error .badAddress ∧ execute k s (.write f) = .error .badAddress := by
  have hplace : findPlace k f = .error .badAddress := by
    rw [findPlace, hpid, haddr, use, use, ok_bind, ok_bind, htask, hget, ok_bind, deref_neg_one]
  simp only [execute, hplace]
  exact ⟨rfl, rfl⟩

end Address

/-- Neither command for the address touches memory or `output`, whatever the line looks like. -/
def CommandsStop (k : Kernel) (s : State) (pid : Nat) (addr : BitVec 64) : Prop :=
  (∀ i j t, Ending t → (readLine i j pid addr t).length ≤ 127 →
    ∃ ret, procWrite k true 0 (readLine i j pid addr t) s = .ok (ret, s)) ∧
  ∀ i j l t v, Ending t → v < 2 ^ 31 → (writeLine i j l pid addr v t).length ≤ 127 →
    ∃ ret, procWrite k true 0 (writeLine i j l pid addr v t) s = .ok (ret, s)

/-- There is room for every address. -/
theorem length_readLine_le {pid : Nat} (hpid : pid < 2 ^ 31) (addr : BitVec 64) :
    (readLine 0 0 pid addr []).length ≤ 127 := by
  have hp : (numeral 10 pid).length ≤ 10 := length_numeral_le (by decide) (by decide) (by omega)
  have ha : (numeral 16 addr.toNat).length ≤ 16 :=
    length_numeral_le (by decide) (by decide) addr.isLt
  simp only [readLine, readFields, gap, List.length_append, List.length_replicate,
    List.length_singleton, List.length_nil]
  omega

/-- **Addresses.** `get_addr` returns the place of a byte if there is one and -1 otherwise, and then
neither command touches memory, exactly if all tables on the way are there and the last entry is
present. -/
theorem mtest_translation_iff (k : Kernel) (s : State) (pid : Nat) (hpid : pid < 2 ^ 31)
    (addr : BitVec 64) (task : Task) (pgd : PgdTable)
    (htask : k.pidTask (BitVec.ofNat 32 pid) = some task) (hpgd : task.pgd = some pgd) :
    (getAddr k.direct (some task) addr = .ok ((translate k.direct pgd addr).getD (-1)) ∧
      (translate k.direct pgd addr = none → CommandsStop k s pid addr)) ↔
    ∃ pte, walk pgd addr = some pte ∧ ptePresent pte = true := by
  have hmax : maxSize = 128 := rfl
  constructor
  · rintro ⟨hget, hstop⟩
    by_contra hbyte
    have htranslate : translate k.direct pgd addr = none := by
      unfold translate
      cases hwalk : walk pgd addr with
      | none => rfl
      | some pte => exact if_neg fun hpresent => hbyte ⟨pte, hwalk, hpresent⟩
    -- a command to read is carried out with -1
    have hlen := length_readLine_le hpid addr
    obtain ⟨ret, hcall⟩ := (hstop htranslate).1 0 0 [] (.inl rfl) hlen
    have hparse := parseCommand_readLine 0 0 pid (by omega) addr [] (.inl rfl) (by omega)
    rw [htranslate] at hget
    have hfault := (execute_neg_one (s := s) (f := ⟨2, some (BitVec.ofNat 64 pid), some addr, none⟩)
      rfl rfl (by rw [setWidth_ofNat_pid, htask]) hget).1
    rw [procWrite_of_parse (by omega) hparse, hfault] at hcall
    simp at hcall
  · rintro ⟨pte, hwalk, hpresent⟩
    have htranslate : translate k.direct pgd addr =
        some (k.direct.base + (ptePfn pte <<< 12) + BitVec.ofNat 64 (addr.toNat % 4096)) := by
      simp [translate, hwalk, hpresent]
    rw [getAddr_eq k.direct hpgd, htranslate, hwalk]
    exact ⟨rfl, by simp⟩

theorem mtest_translation_present :
    getAddr sampleKernel.direct (some ⟨some samplePgd⟩) 0x123 = .ok 0xffff888000001123#64 :=
  ((mtest_translation_iff sampleKernel sampleState 42 (by decide) 0x123 ⟨some samplePgd⟩
    samplePgd rfl rfl).mpr ⟨0x1067#64, rfl, by decide⟩).1

/-- A process that has no tables. -/
def noTables : PgdTable := fun _ => .none
/-- A process with tables whose last entries are all empty. -/
def emptyTables : PgdTable :=
  fun _ => .table fun _ => .table fun _ => .table fun _ => .table fun _ => 0

def kernelWith (pgd : PgdTable) : Kernel :=
  { sampleKernel with pidTask := fun nr => if nr = 42 then some ⟨some pgd⟩ else none }

/-- Without tables "r 42 0\n" and "w 42 0 7\n" use -1 as a pointer; with an empty entry the byte 7
is written to the frame 0. -/
theorem mtest_translation_fails :
    procWrite (kernelWith noTables) true 0 (readLine 0 0 42 0 []) sampleState = .error .badAddress ∧
    procWrite (kernelWith noTables) true 0 (writeLine 0 0 0 42 0 7 []) sampleState =
      .error .badAddress ∧
    translate sampleKernel.direct emptyTables 0 = none ∧
    ∃ ret s', procWrite (kernelWith emptyTables) true 0 (writeLine 0 0 0 42 0 7 []) sampleState =
      .ok (ret, s') ∧ s'.mem 0 = 7 := by
  have hread := parseCommand_readLine 0 0 42 (by decide) 0 [] (.inl rfl) (by decide +kernel)
  have hwrite := parseCommand_writeLine 0 0 0 42 (by decide) 0 7 (by decide) [] (.inl rfl)
    (by decide +kernel)
  have hcall := procWrite_writeLine (k := kernelWith emptyTables) (s := sampleState) (v := 7) 0 0 0
    (by decide) [] (.inl rfl) (by decide) (by decide +kernel)
    (show (kernelWith emptyTables).pidTask (BitVec.ofNat 32 42) = some ⟨some emptyTables⟩ from rfl)
    rfl
    (show walk emptyTables 0 = some 0 from rfl)
  rw [if_pos (by decide)] at hcall
  refine ⟨?_, ?_, rfl, _, _, hcall, by decide +kernel⟩
  · rw [procWrite_of_parse (by decide +kernel) hread,
      (execute_neg_one rfl rfl (show _ = some ⟨some noTables⟩ from rfl) rfl).1]
    rfl
  · rw [procWrite_of_parse (by decide +kernel) hwrite,
      (execute_neg_one rfl rfl (show _ = some ⟨some noTables⟩ from rfl) rfl).2]
    rfl

end LinuxKernel.Mtest

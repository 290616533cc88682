import LinuxKernel.Proc.PageTable

/-!
# /proc/mtest — `mtest.c`

A command that is written to `/proc/mtest` reads or writes a byte in the memory of a
process; what was read is the output of the file.

* **Locals.** `target_pid`, `addr` and `content` have no value before a field is read into
  them, and keep none if `kstrtoul` returns an error.
* **Tables.** The page tables are not part of the memory a command writes.
-/

namespace LinuxKernel.Mtest

open LinuxKernel.Lib LinuxKernel.Proc

/-- A task: its page tables, none without an `mm`. -/
structure Task where
  pgd : Option PgdTable

/-- The kernel around the module: the direct map, and `pid_task(find_get_pid(nr), PIDTYPE_PID)`. -/
structure Kernel where
  direct  : DirectMap
  pidTask : BitVec 32 → Option Task

/-- Memory and `output`. -/
structure State where
  mem    : Memory
  output : Buffer

/-! ## `get_addr` -/

/-- `get_addr`: the address at which the kernel has the byte, or -1. -/
def getAddr (d : DirectMap) (task : Option Task) (addr : BitVec 64) : Except Fault (BitVec 64) :=
  match task with
  | none => .error .nullPointer
  | some task =>
    match task.pgd with
    | none => .error .nullPointer
    | some pgd =>
      match walk pgd addr with
      | none => .ok (-1)
      | some pte => .ok ((d.pageAddress pte &&& pageMask) ||| (addr &&& ~~~pageMask))

/-! ## The command -/

/-- The locals of a branch of `proc_write`. -/
structure Fields where
  count     : Nat
  targetPid : Option (BitVec 64)
  addr      : Option (BitVec 64)
  content   : Option (BitVec 64)
  deriving DecidableEq, Repr

def Fields.start : Fields := { count := 0, targetPid := none, addr := none, content := none }

/-- One round of the loop over the tokens; only the write branch has a third field. -/
def parseToken (hasContent : Bool) (f : Fields) (token : List Byte) : Except Fault Fields :=
  if token = [] then .ok f
  else if f.count = 0 then
    .ok { f with targetPid := (kstrtoul token).or f.targetPid, count := 1 }
  else if f.count = 1 then
    -- strcat into tmp[MAX_SIZE], which starts with 0x
    if 2 + token.length < maxSize then
      .ok { f with addr := (kstrtoul (48 :: 120 :: token)).or f.addr, count := 2 }
    else .error .overrun
  else if hasContent ∧ f.count = 2 then
    .ok { f with content := (kstrtoul token).or f.content, count := 3 }
  else .ok f

inductive Command
  | read (f : Fields)
  | write (f : Fields)
  | unknown
  deriving DecidableEq, Repr

/-- `tmp_buffer` after its last byte is replaced, as a string; it is copied to `phase_buffer`. -/
def commandText (ubuf : List Byte) : Except Fault (List Byte) :=
  if ubuf.length = 0 ∨ ubuf.length = maxSize then .error .overrun
  else .ok (cstr (ubuf.dropLast ++ [32]))

/-- `strsep` returns the tokens one after another. -/
def parseText (text : List Byte) : Except Fault Command :=
  match tokens 32 text with
  | [] => .ok .unknown
  | token :: rest =>
    if token = [114] then (rest.foldlM (parseToken false) Fields.start).map .read
    else if token = [119] then (rest.foldlM (parseToken true) Fields.start).map .write
    else .ok .unknown

def parseCommand (ubuf : List Byte) : Except Fault Command := (commandText ubuf).bind parseText

/-! ## `proc_write` and `proc_read` -/

/-- The value of a local. -/
def use (v : Option (BitVec 64)) : Except Fault (BitVec 64) :=
  match v with
  | none => .error .unassigned
  | some v => .ok v

/-- `pid_task`, `get_addr`, and the memory behind the address. -/
def findPlace (k : Kernel) (f : Fields) : Except Fault Nat :=
  (use f.targetPid).bind fun pid =>
  (use f.addr).bind fun addr =>
  (getAddr k.direct (k.pidTask (pid.setWidth 32)) addr).bind fun vaddr =>
  k.direct.deref vaddr

def execute (k : Kernel) (s : State) : Command → Except Fault State
  | .read f =>
    -- output[0] = *vaddr; output[1] = '\0';
    (findPlace k f).bind fun p =>
    (s.output.write 0 ((loadWord s.mem p).setWidth 8)).bind fun output =>
    (output.write 1 0).bind fun output =>
    .ok { s with output := output }
  | .write f =>
    -- *vaddr = (char)content;
    (findPlace k f).bind fun p =>
    (use f.content).bind fun content =>
    .ok { s with mem := storeWord s.mem p ((content.setWidth 8).signExtend 64) }
  | .unknown => .ok s

/-- `proc_write`: the value returned and the state after it. `userOk` says that
`copy_from_user` succeeds. -/
def procWrite (k : Kernel) (userOk : Bool) (pos : BitVec 64) (ubuf : List Byte) (s : State) :
    Except Fault (Int × State) :=
  if (0#64).slt pos ∨ maxSize < ubuf.length ∨ ¬ userOk then .ok (efault, s)
  else
    (parseCommand ubuf).bind fun command =>
    (execute k s command).bind fun s =>
    .ok (ubuf.length + 1, s)

/-- `proc_read`: the bytes the reader gets and the position after it, nothing for `-EFAULT`. The
copy starts at the beginning of `output` at every position. -/
def procRead (userOk : Bool) (s : State) (pos len : BitVec 64) :
    Except Fault (Option (List Byte × BitVec 64)) :=
  let count := readCount (strlen s.output.bytes) pos len
  (copyToUser s.output.bytes 0 count).bind fun
    | none => .ok none
    | some bytes => if userOk then .ok (some (bytes, pos + count.signExtend 64)) else .ok none

end LinuxKernel.Mtest

import LinuxKernel.Watch.Process

/-!
# /proc/watch — `watch.c`

A pid is written to `/proc/watch`; a reader gets the number of pages the process has
accessed since it was last looked at, and the times of its threads and of its children.

* **Measuring.** `ram_measure` and `cpu_measure` work on the task that had the pid when it was
  written; whether the pid is in use is asked again at every new read.
* **Report.** `int2char` appends a number to `output`, which is kept for all readers.
* **References.** None that `find_get_pid` or `get_pid_task` returns is given up.
-/

namespace LinuxKernel.Watch

open LinuxKernel.Proc

/-! ## Numbers -/

/-- `NSEC_PER_SEC` -/
def nsecPerSec : Nat := 1000000000

/-- `div_u64`; the divisor has 32 bits. -/
def divU64 (x : BitVec 64) (divisor : Nat) : BitVec 64 := x / (BitVec.ofNat 32 divisor).setWidth 64

/-- `nsecc_to_clock_t`, for a kernel with this `USER_HZ`. -/
def nseccToClockT (userHz : Nat) (x : BitVec 64) : BitVec 64 :=
  if nsecPerSec % userHz = 0 then divU64 x (nsecPerSec / userHz)
  else if userHz % 512 = 0 then divU64 (x * BitVec.ofNat 64 userHz / 512) (nsecPerSec / 512)
  else divU64 (x * 9) ((9 * nsecPerSec + userHz / 2) / userHz)

/-- The first loop of `int2char`, which fills `tmp_output`; `memory_index` is its length so far. -/
def digitLoop (tmp : Nat) (tmpOutput : List Byte) : Except Fault (List Byte) :=
  if tmp = 0 then .ok tmpOutput
  else if tmpOutput.length < maxSize then
    digitLoop (tmp / 10) (tmpOutput ++ [BitVec.ofNat 8 (tmp % 10 + 48)])
  else .error .overrun
termination_by tmp
decreasing_by omega

/-- The second one, from `i` on with `n` rounds to go. -/
def reverseLoop (tmpOutput : List Byte) (pos i : Nat) : Nat → Buffer → Except Fault Buffer
  | 0, output => .ok output
  | n + 1, output =>
    match tmpOutput[tmpOutput.length - 1 - i]? with
    | none => .error .unassigned
    | some c => (output.write (i + pos) c).bind (reverseLoop tmpOutput pos (i + 1) n)

/-- `int2char`. -/
def int2char (output : Buffer) (memoryCount : BitVec 64) (pos : Nat) : Except Fault Buffer :=
  if memoryCount = 0 then
    (output.write pos 48).bind fun output =>
    (output.write (pos + 1) 32).bind fun output =>
    output.write (pos + 2) 0
  else
    (digitLoop memoryCount.toNat []).bind fun tmpOutput =>
    (reverseLoop tmpOutput pos 0 tmpOutput.length output).bind fun output =>
    (output.write (tmpOutput.length + pos) 32).bind fun output =>
    output.write (tmpOutput.length + pos + 1) 0

/-! ## Measuring -/

/-- `KERNEL_SPACE` -/
def kernelSpace : BitVec 64 := 0xffff800000000000
/-- `PAGE_SIZE` -/
def pageSize : BitVec 64 := 4096
/-- `MASK` -/
def accessMask : BitVec 64 := 1 <<< 5

/-- `page_number`, an `int`. -/
def Vma.pageNumber (vma : Vma) : BitVec 32 := ((vma.vmEnd - vma.vmStart) / pageSize).setWidth 32

/-- The values `virt_addr` takes. -/
def Vma.virtAddrs (vma : Vma) : List (BitVec 64) :=
  (List.range vma.pageNumber.toInt.toNat).map fun i => vma.vmStart + BitVec.ofNat 64 i * pageSize

/-- One round of the inner loop of `ram_measure`, on the tables and `page_count`. -/
def measurePage (s : PgdTable × BitVec 32) (virtAddr : BitVec 64) : PgdTable × BitVec 32 :=
  if kernelSpace ≤ virtAddr then s
  else
    match walk s.1 virtAddr with
    | none => s
    | some pte =>
      (setPte s.1 virtAddr (pte &&& ~~~accessMask),
        if pte &&& accessMask ≠ 0 then s.2 + 1 else s.2)

def measureVma (s : PgdTable × BitVec 32) (vma : Vma) : PgdTable × BitVec 32 :=
  vma.virtAddrs.foldl measurePage s

/-- `ram_measure`: the accessed pages, whose marks are cleared. -/
def ramMeasure (w : World) (taskp : Option Nat) : Except Fault (World × BitVec 32) :=
  match taskp with
  | none => .error .nullPointer
  | some task =>
    match (w.tasks task).mm with
    | none => .error .nullPointer
    | some mm =>
      let (pgd, pageCount) := (w.mms mm).mmap.foldl measureVma ((w.mms mm).pgd, 0)
      .ok ({ w with mms := Function.update w.mms mm { w.mms mm with pgd := pgd } }, pageCount)

structure Times where
  utime  : BitVec 64
  stime  : BitVec 64
  cutime : BitVec 64
  cstime : BitVec 64
  deriving DecidableEq, Repr

/-- One round of the loop in `cpu_measure`, on `*utime` and `*stime`. -/
def addRound (s : BitVec 64 × BitVec 64) (round : Round) : BitVec 64 × BitVec 64 :=
  round.threads.foldl (fun s t => (s.1 + t.1, s.2 + t.2)) (s.1 + round.utime, s.2 + round.stime)

/-- `cpu_measure`; `utime` and `stime` are added to what they are before. -/
def cpuMeasure (w : World) (taskp : Option Nat) (utime stime : BitVec 64) : Except Fault Times :=
  match taskp with
  | none => .error .nullPointer
  | some task =>
    let sig := (w.tasks task).signal
    let sum := (sig.first :: sig.again).foldl addRound (utime, stime)
    .ok { utime := sum.1, stime := sum.2, cutime := sig.cutime, cstime := sig.cstime }

/-! ## `proc_read` and `proc_write` -/

/-- The variables of the module, and the references it has taken. -/
structure State where
  output      : Buffer
  outLen      : Nat
  pidMeasured : Pid
  taskp       : Option Nat
  pidRefs     : Nat
  taskRefs    : List Nat

/-- As the module is loaded. -/
def State.init : State :=
  { output := ⟨List.replicate maxSize 0, length_zeros⟩
    outLen := 0
    pidMeasured := 0
    taskp := none
    pidRefs := 0
    taskRefs := [] }

/-- `find_get_pid`; only whether there is a `struct pid` matters. -/
def findGetPid (w : World) (pid : Pid) (s : State) : Bool × State :=
  if (w.pids pid).isSome then (true, { s with pidRefs := s.pidRefs + 1 }) else (false, s)

/-- `get_pid_task` for the pid that `find_get_pid` returned. -/
def getPidTask (w : World) (pid : Pid) (s : State) : Option Nat × State :=
  match w.pids pid with
  | none => (none, s)
  | some task => (some task, { s with taskRefs := task :: s.taskRefs })

/-- The calls of `int2char` for one report; `out_len` is `strlen(output)` after each of them. -/
def writeReport (userHz : Nat) (output : Buffer) (memoryCount : BitVec 32) (times : Times) :
    Except Fault (Buffer × Nat) :=
  (int2char output (memoryCount.signExtend 64) 0).bind fun output =>
  (int2char output (nseccToClockT userHz times.utime) (strlen output.bytes)).bind fun output =>
  (int2char output (nseccToClockT userHz times.stime) (strlen output.bytes)).bind fun output =>
  (int2char output (nseccToClockT userHz times.cutime) (strlen output.bytes)).bind fun output =>
  (int2char output (nseccToClockT userHz times.cstime) (strlen output.bytes)).bind fun output =>
  .ok (output, strlen output.bytes)

/-- The text "-1 -1 -1 -1 -1 ". -/
def goneText : List Byte := [45, 49, 32, 45, 49, 32, 45, 49, 32, 45, 49, 32, 45, 49, 32]

/-- `strcpy(output, "-1 -1 -1 -1 -1 ")` -/
def writeGone (output : Buffer) : Buffer :=
  ⟨goneText ++ 0 :: output.bytes.drop (goneText.length + 1), by
    rw [List.length_append, List.length_cons, List.length_drop, output.length]
    rfl⟩

/-- What `proc_read` does first at position 0. -/
def updateStatus (userHz : Nat) (w : World) (s : State) : Except Fault (World × State) :=
  match findGetPid w s.pidMeasured s with
  | (true, s) =>
    (ramMeasure w s.taskp).bind fun (w, memoryCount) =>
    (cpuMeasure w s.taskp 0 0).bind fun times =>
    (writeReport userHz s.output memoryCount times).bind fun (output, outLen) =>
    .ok (w, { s with output := output, outLen := outLen })
  | (false, s) =>
    let output := writeGone s.output
    .ok (w, { s with output := output, outLen := strlen output.bytes })

/-- What a call of `proc_read` returns: the bytes for the reader and the position after
it, nothing for `-EFAULT`. -/
def copyReport (userOk : Bool) (s : State) (pos len : BitVec 64) :
    Except Fault (Option (List Byte × BitVec 64)) :=
  let count := readCount s.outLen pos len
  (copyToUser s.output.bytes pos count).bind fun
    | none => .ok none
    | some bytes => if userOk then .ok (some (bytes, pos + count.signExtend 64)) else .ok none

/-- `proc_read`. -/
def procRead (userHz : Nat) (userOk : Bool) (pos len : BitVec 64) (w : World) (s : State) :
    Except Fault (Option (List Byte × BitVec 64) × World × State) :=
  (if pos = 0 then updateStatus userHz w s else .ok (w, s)).bind fun (w, s) =>
  (copyReport userOk s pos len).bind fun result =>
  .ok (result, w, s)

/-- `proc_write`: the number returned and the position after it, nothing for `-EFAULT`. -/
def procWrite (userOk : Bool) (pos : BitVec 64) (ubuf : List Byte) (w : World) (s : State) :
    Except Fault (Option (Nat × BitVec 64) × World × State) :=
  if (0#64).slt pos then .ok (none, w, s)
  else
    match kstrtointFromUser userOk ubuf with
    | none => .ok (none, w, s)
    | some pid =>
      let result := some (ubuf.length, pos + BitVec.ofNat 64 ubuf.length)
      let (_, s) := findGetPid w pid s
      let (taskp, s) := getPidTask w pid s
      match findGetPid w pid { s with taskp := taskp, pidMeasured := pid } with
      | (true, s) =>
        (ramMeasure w s.taskp).bind fun (w, _) =>
        -- the times are only printed
        (cpuMeasure w s.taskp 0 0).bind fun _ =>
        .ok (result, w, s)
      | (false, s) => .ok (result, w, s)

end LinuxKernel.Watch

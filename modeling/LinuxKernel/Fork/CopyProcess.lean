import Mathlib.Algebra.Group.Pi.Basic
import Mathlib.Algebra.Ring.Int.Defs
import LinuxKernel.Lib.Ladder

/-!
# `copy_process`

A new task is put together piece by piece: memory, references and locks are taken one after another,
and where a call fails the code jumps into a ladder of labels that gives them back. All that is
taken and given back is entered in a ledger, one number for each object.

* `checkFlags`  — which flags go together.
* `tryPoint`    — the calls of `copy_process`, in the order of the source, with the label each
  failure goes to.
* `release`     — what stands at each label.
* `copyProcess` — the whole of it.
-/

namespace LinuxKernel.Fork

open Lib

/-! ## The ledger -/

/-- A pointer that the child has copied from its parent, or that is its own. -/
inductive Owner
  | parent
  | own
deriving DecidableEq, Repr

/-- What is counted: memory, references, charges, locks. -/
inductive Res
  /-- The node in `current->signal->multiprocess`. -/
  | delayed
  | taskStruct
  | stack
  /-- `account_kernel_stack`. -/
  | stackAccount
  /-- The filter that both tasks refer to. -/
  | filter
  /-- The data of a kernel thread, which its `set_child_tid` points to. -/
  | kthread
  | processes
  | creds
  | delays
  | mempolicy (o : Owner)
  | perf
  | audit
  | security
  | semundo
  | files (o : Owner)
  | fs (o : Owner)
  | sighand (o : Owner)
  | signal (o : Owner)
  | autogroup
  | mm (o : Owner)
  /-- The module of the binary format, which an address space of its own refers to. -/
  | module
  | namespaces
  | io (o : Owner)
  | thread
  | pid
  | pidfd
  | pidfile
  /-- The reference to the pid that the pidfd's file holds. -/
  | pidRef
  | threadgroup
  | cgroup
  | tasklistLock
  | siglock
  | nrThreads
  | processCount
  | signalThreads
  | tty
  /-- A pointer followed where it is no pointer to follow. -/
  | oops
deriving DecidableEq, Repr

/-- How many of each are held. -/
abbrev Ledger := Res → Int

/-- One of `r`. -/
def one (r : Res) : Ledger := Pi.single r 1

/-- One of `r`, where there is one. -/
def ofPtr (r : Owner → Res) : Option Owner → Ledger
  | none => 0
  | some o => one (r o)

/-- One of `r`, where `b` holds. -/
def oneIf (b : Bool) (r : Res) : Ledger := if b then one r else 0

@[simp] theorem ofPtr_none (r : Owner → Res) : ofPtr r none = 0 := rfl

@[simp] theorem ofPtr_some (r : Owner → Res) (o : Owner) : ofPtr r (some o) = one (r o) := rfl

@[simp] theorem oneIf_true (r : Res) : oneIf true r = one r := rfl

@[simp] theorem oneIf_false (r : Res) : oneIf false r = 0 := rfl

/-! ## What is given -/

/-- The build options that the code asks about. -/
structure Config where
  numa : Bool
  threadInfoInTask : Bool
  block : Bool
  seccomp : Bool

/-- The clone flags that are read here. -/
structure Flags where
  vm : Bool
  fs : Bool
  files : Bool
  sighand : Bool
  thread : Bool
  parent : Bool
  newns : Bool
  newuser : Bool
  newpid : Bool
  pidfd : Bool
  detached : Bool
  io : Bool
  childSettid : Bool

/-- What is read of `current`. -/
structure Current where
  /-- `PF_KTHREAD` -/
  kthread : Bool
  files : Bool
  mm : Bool
  /-- `current->mm->binfmt` -/
  binfmt : Bool
  ioContext : Bool
  ioprioValid : Bool
  mempolicy : Bool
  filter : Bool
  fsInExec : Bool
  /-- `SIGNAL_UNKILLABLE` -/
  unkillable : Bool
  /-- The children's pid namespace is another than the task's. -/
  otherPidNs : Bool
  /-- `current->signal->tty` -/
  tty : Bool
  initUser : Bool
  sysAdmin : Bool
  sysResource : Bool

/-- What the calls return that `copy_process` makes: an `int`, whether a pointer is one, or the
error in a pointer. A call that fails has taken nothing. -/
structure Results where
  unprivilegedUsernsClone : Bool
  signalPending : Bool
  allocTaskStruct : Bool
  allocThreadStack : Bool
  memcgCharge : Int
  archDup : Int
  processes : Nat
  rlimitNproc : Nat
  copyCreds : Int
  nrThreads : Int
  maxThreads : Int
  delays : Bool
  mpolDup : Option Int
  schedFork : Int
  perf : Int
  audit : Int
  security : Int
  semundo : Int
  dupFd : Option Int
  copyFsStruct : Bool
  allocSighand : Bool
  allocSignal : Bool
  allocMm : Bool
  mmInit : Bool
  dupMmap : Int
  moduleGet : Bool
  namespaces : Int
  newIoContext : Bool
  copyThread : Int
  allocPid : Option Int
  unusedFd : Int
  pidfile : Option Int
  putUser : Int
  canFork : Int
  pidnsAdding : Bool
  fatalSignal : Bool

/-- One call of `copy_process`. -/
structure Call where
  cfg : Config
  flags : Flags
  /-- `pid == &init_struct_pid` -/
  idle : Bool
  cur : Current
  res : Results

/-- Errors are negative numbers, and what is no error is none. -/
structure Results.Honest (r : Results) : Prop where
  int : ∀ ret ∈ [r.schedFork, r.perf, r.audit, r.security, r.semundo, r.namespaces, r.copyThread,
    r.putUser, r.canFork], ret ≤ 0
  ptr : ∀ err ∈ [r.mpolDup, r.dupFd, r.allocPid, r.pidfile], ∀ e ∈ err, e < 0

def EPERM : Int := 1
def EINTR : Int := 4
def EAGAIN : Int := 11
def ENOMEM : Int := 12
def EINVAL : Int := 22
def ERESTARTNOINTR : Int := 513

/-! ## The child -/

/-- `set_child_tid`, which holds the data of a kernel thread. -/
inductive TidPtr
  | null
  | user
  | kthread
deriving DecidableEq, Repr

/-- The fields of the new task that say what is to be given back. -/
structure Child where
  kthread : Bool
  setChildTid : TidPtr
  filter : Bool
  dead : Bool
  delays : Bool
  mempolicy : Option Owner
  files : Option Owner
  fs : Option Owner
  sighand : Option Owner
  signal : Option Owner
  mm : Option Owner
  /-- `mm->binfmt` -/
  binfmt : Bool
  io : Option Owner
deriving DecidableEq, Repr

/-- No child. -/
def blank : Child where
  kthread := false
  setChildTid := .null
  filter := false
  dead := false
  delays := false
  mempolicy := none
  files := none
  fs := none
  sighand := none
  signal := none
  mm := none
  binfmt := false
  io := none

structure St where
  ledger : Ledger
  child : Child

namespace St

def take (s : St) (r : Res) : St := { s with ledger := s.ledger + one r }

def drop (s : St) (r : Res) : St := { s with ledger := s.ledger - one r }

def takeIf (s : St) (b : Bool) (r : Res) : St := if b then s.take r else s

def dropIf (s : St) (b : Bool) (r : Res) : St := if b then s.drop r else s

/-- Give back what a pointer refers to, if it is one. -/
def dropPtr (s : St) (r : Owner → Res) : Option Owner → St
  | none => s
  | some o => s.drop (r o)

end St

section

variable (c : Call)

/-- A parent's pointer, where the parent has one. -/
def inherited (b : Bool) : Option Owner := if b then some .parent else none

/-- What `arch_dup_task_struct` makes of the child: every pointer is the parent's. -/
def dupChild : Child where
  kthread := c.cur.kthread
  setChildTid := if c.cur.kthread then .kthread else .user
  filter := false
  dead := false
  delays := false
  mempolicy := inherited c.cur.mempolicy
  files := inherited c.cur.files
  fs := some .parent
  sighand := some .parent
  signal := some .parent
  mm := inherited c.cur.mm
  binfmt := c.cur.binfmt
  io := inherited c.cur.ioContext

/-! ## The labels -/

/-- The labels, in the order of the source. -/
inductive Label
  | cancelCgroup
  | cgroupThreadgroupChangeEnd
  | putPidfd
  | freePid
  | cleanupThread
  | cleanupIo
  | cleanupNamespaces
  | cleanupMm
  | cleanupSignal
  | cleanupSighand
  | cleanupFs
  | cleanupFiles
  | cleanupSemundo
  | cleanupSecurity
  | cleanupAudit
  | cleanupPerf
  | cleanupPolicy
  | cleanupThreadgroupLock
  | cleanupCount
  | free
  | forkOut
deriving DecidableEq, Repr

def ladder : List Label :=
  [.cancelCgroup, .cgroupThreadgroupChangeEnd, .putPidfd, .freePid, .cleanupThread, .cleanupIo,
    .cleanupNamespaces, .cleanupMm, .cleanupSignal, .cleanupSighand, .cleanupFs, .cleanupFiles,
    .cleanupSemundo, .cleanupSecurity, .cleanupAudit, .cleanupPerf, .cleanupPolicy,
    .cleanupThreadgroupLock, .cleanupCount, .free, .forkOut]

/-- A label and those the code falls through to. -/
def ladderFrom (l : Label) : List Label := ladder.dropWhile (· ≠ l)

/-- `release_task_stack`: a stack of a task that is not dead is left alone. -/
def releaseTaskStack (s : St) : St :=
  if s.child.dead then (s.drop .stackAccount).drop .stack else s

/-- `put_task_stack`, at the only reference. -/
def putTaskStack (s : St) : St := if c.cfg.threadInfoInTask then releaseTaskStack s else s

/-- `free_kthread_struct` frees what `set_child_tid` points to. -/
def freeKthreadStruct (s : St) : St :=
  match s.child.setChildTid with
  | .null => s
  | .kthread => s.drop .kthread
  | .user => s.take .oops

/-- `free_task` -/
def freeTask (s : St) : St :=
  let s := if c.cfg.threadInfoInTask then s else releaseTaskStack s
  let s := s.dropIf s.child.filter .filter
  let s := if s.child.kthread then freeKthreadStruct s else s
  s.drop .taskStruct

/-- `mmput`: with the last reference goes the one to the module of the binary format. -/
def mmput (o : Owner) (s : St) : St :=
  match o with
  | .parent => s.drop (.mm .parent)
  | .own => (s.drop (.mm .own)).dropIf s.child.binfmt .module

/-- `__cleanup_sighand` follows the pointer without a look at it. -/
def cleanupSighand (s : St) : St :=
  match s.child.sighand with
  | none => s.take .oops
  | some o => s.drop (.sighand o)

/-- `free_signal_struct`, which frees and asks for no other reference. -/
def freeSignalStruct (s : St) : St :=
  match s.child.signal with
  | none => s.take .oops
  | some o => (s.drop .autogroup).drop (.signal o)

/-- What stands at each label. -/
def release : Label → St → St
  | .cancelCgroup, s => ((s.drop .siglock).drop .tasklistLock).drop .cgroup
  | .cgroupThreadgroupChangeEnd, s => s.drop .threadgroup
  | .putPidfd, s =>
    -- the file's release drops its reference to the pid
    if c.flags.pidfd then ((s.drop .pidfile).drop .pidRef).drop .pidfd else s
  | .freePid, s => if c.idle then s else s.drop .pid
  | .cleanupThread, s => s.drop .thread
  | .cleanupIo, s => s.dropPtr .io s.child.io
  | .cleanupNamespaces, s => s.drop .namespaces
  | .cleanupMm, s =>
    match s.child.mm with
    | none => s
    | some o => mmput o s
  | .cleanupSignal, s => if c.flags.thread then s else freeSignalStruct s
  | .cleanupSighand, s => cleanupSighand s
  | .cleanupFs, s => s.dropPtr .fs s.child.fs
  | .cleanupFiles, s => s.dropPtr .files s.child.files
  | .cleanupSemundo, s => s.drop .semundo
  | .cleanupSecurity, s => s.drop .security
  | .cleanupAudit, s => s.drop .audit
  | .cleanupPerf, s => s.drop .perf
  | .cleanupPolicy, s => if c.cfg.numa then s.dropPtr .mempolicy s.child.mempolicy else s
  | .cleanupThreadgroupLock, s => s.dropIf s.child.delays .delays
  | .cleanupCount, s => (s.drop .processes).drop .creds
  | .free, s =>
    let s := { s with child := { s.child with dead := true } }
    freeTask c (putTaskStack c s)
  | .forkOut, s => s.dropIf (!c.flags.thread) .delayed

/-- Fall through from a label to the end. -/
def unwind (l : Label) (s : St) : St := fallThrough (release c) (ladderFrom l) s

/-! ## The calls -/

/-- The places that can fail, in the order of the source. -/
inductive Point
  | pending
  | dupTaskStruct
  | nproc
  | creds
  | maxThreads
  | mempolicy
  | schedFork
  | perf
  | audit
  | security
  | semundo
  | files
  | fs
  | sighand
  | signal
  | mm
  | namespaces
  | io
  | threadTls
  | pid
  | pidfd
  | changeBegin
  | canFork
  | pidns
  | fatalSignal
deriving DecidableEq, Repr

def points : List Point :=
  [.pending, .dupTaskStruct, .nproc, .creds, .maxThreads, .mempolicy, .schedFork, .perf, .audit,
    .security, .semundo, .files, .fs, .sighand, .signal, .mm, .namespaces, .io, .threadTls, .pid,
    .pidfd, .changeBegin, .canFork, .pidns, .fatalSignal]

/-- The error, the label and the state a failure leaves with. -/
abbrev Failure := Int × Label × St

/-- A call that takes `r`, or returns an error. -/
def call (ret : Int) (r : Res) (l : Label) (s : St) : Except Failure St :=
  if ret ≠ 0 then .error (ret, l, s) else .ok (s.take r)

/-- `dup_task_struct`; its own two labels give back the stack and the task. -/
def dupTaskStruct (s : St) : Except Failure St :=
  let fail (s : St) : Except Failure St := .error (-ENOMEM, .forkOut, s)
  if !c.res.allocTaskStruct then fail s
  else
    let s := s.take .taskStruct
    if !c.res.allocThreadStack then fail (s.drop .taskStruct)
    else
      let s := s.take .stack
      if c.res.memcgCharge ≠ 0 then fail ((s.drop .stack).drop .taskStruct)
      else
        let s := { s with child := dupChild c }
        if c.res.archDup ≠ 0 then fail ((s.drop .stack).drop .taskStruct)
        else .ok (s.take .stackAccount)

/-- `copy_files` -/
def copyFiles (s : St) : Except Failure St :=
  if !c.cur.files then .ok s
  else if c.flags.files then .ok (s.take (.files .parent))
  else
    match c.res.dupFd with
    | some error => if error ≠ 0 then .error (error, .cleanupSemundo, s) else .ok s
    | none => .ok ({ s with child := { s.child with files := some .own } }.take (.files .own))

/-- `copy_fs` -/
def copyFs (s : St) : Except Failure St :=
  if c.flags.fs then
    if c.cur.fsInExec then .error (-EAGAIN, .cleanupFiles, s) else .ok (s.take (.fs .parent))
  else if !c.res.copyFsStruct then
    .error (-ENOMEM, .cleanupFiles, { s with child := { s.child with fs := none } })
  else .ok ({ s with child := { s.child with fs := some .own } }.take (.fs .own))

/-- `copy_sighand` -/
def copySighand (s : St) : Except Failure St :=
  if c.flags.sighand then .ok (s.take (.sighand .parent))
  else if !c.res.allocSighand then
    .error (-ENOMEM, .cleanupFs, { s with child := { s.child with sighand := none } })
  else .ok ({ s with child := { s.child with sighand := some .own } }.take (.sighand .own))

/-- `copy_signal` -/
def copySignal (s : St) : Except Failure St :=
  if c.flags.thread then .ok s
  else if !c.res.allocSignal then
    .error (-ENOMEM, .cleanupSighand, { s with child := { s.child with signal := none } })
  else
    .ok (({ s with child := { s.child with signal := some .own } }.take (.signal .own)).take
      .autogroup)

/-- `dup_mm`, with the state and whether there is a new address space. The binary format is taken
out before the address space is given back: its module is not referred to yet. -/
def dupMm (s : St) : Bool × St :=
  let freePt (s : St) : Bool × St :=
    (false, mmput .own { s with child := { s.child with binfmt := false } })
  if !c.res.allocMm then (false, s)
  else
    let s := s.take (.mm .own)
    -- a failing `mm_init` frees what it was given
    if !c.res.mmInit then (false, s.drop (.mm .own))
    else
      let s := { s with child := { s.child with binfmt := c.cur.binfmt } }
      if c.res.dupMmap ≠ 0 then freePt s
      else if !c.cur.binfmt then (true, s)
      else if !c.res.moduleGet then freePt s
      else (true, s.take .module)

/-- `copy_mm` -/
def copyMm (s : St) : Except Failure St :=
  let s := { s with child := { s.child with mm := none } }
  if !c.cur.mm then .ok s
  else if c.flags.vm then
    .ok ({ s with child := { s.child with mm := some .parent } }.take (.mm .parent))
  else
    match dupMm c s with
    | (false, s) => .error (-ENOMEM, .cleanupSignal, s)
    | (true, s) => .ok { s with child := { s.child with mm := some .own } }

/-- `copy_io` -/
def copyIo (s : St) : Except Failure St :=
  if !c.cfg.block then .ok s
  else if !c.cur.ioContext then .ok s
  else if c.flags.io then
    .ok ({ s with child := { s.child with io := some .parent } }.take (.io .parent))
  else if c.cur.ioprioValid then
    if !c.res.newIoContext then .error (-ENOMEM, .cleanupNamespaces, s)
    else .ok ({ s with child := { s.child with io := some .own } }.take (.io .own))
  else .ok s

/-- The pidfd and its file. -/
def copyPidfd (s : St) : Except Failure St :=
  if !c.flags.pidfd then .ok s
  else if c.res.unusedFd < 0 then .error (c.res.unusedFd, .freePid, s)
  else
    let s := s.take .pidfd
    match c.res.pidfile with
    | some e => .error (e, .freePid, s.drop .pidfd)
    | none =>
      let s := (s.take .pidfile).take .pidRef
      if c.res.putUser ≠ 0 then .error (c.res.putUser, .putPidfd, s) else .ok s

/-- `copy_seccomp` -/
def copySeccomp (s : St) : St :=
  if c.cfg.seccomp && c.cur.filter then
    { s with child := { s.child with filter := true } }.take .filter
  else s

/-- The code from one place that can fail up to the next. -/
def tryPoint : Point → St → Except Failure St
  | .pending, s => if c.res.signalPending then .error (-ERESTARTNOINTR, .forkOut, s) else .ok s
  | .dupTaskStruct, s =>
    match dupTaskStruct c s with
    | .error e => .error e
    | .ok s =>
      .ok { s with
        child := { s.child with setChildTid := if c.flags.childSettid then .user else .null } }
  | .nproc, s =>
    if c.res.rlimitNproc ≤ c.res.processes && !c.cur.initUser && !c.cur.sysResource &&
      !c.cur.sysAdmin then
      .error (-EAGAIN, .free, s)
    else .ok s
  | .creds, s =>
    if c.res.copyCreds < 0 then .error (c.res.copyCreds, .free, s)
    else .ok ((s.take .creds).take .processes)
  | .maxThreads, s =>
    if c.res.maxThreads ≤ c.res.nrThreads then .error (-EAGAIN, .cleanupCount, s)
    else
      let s := { s with child := { s.child with delays := c.res.delays, io := none } }
      .ok (s.takeIf c.res.delays .delays)
  | .mempolicy, s =>
    if !c.cfg.numa || !c.cur.mempolicy then .ok s
    else
      match c.res.mpolDup with
      | some e =>
        .error (e, .cleanupThreadgroupLock, { s with child := { s.child with mempolicy := none } })
      | none =>
        .ok ({ s with child := { s.child with mempolicy := some .own } }.take (.mempolicy .own))
  | .schedFork, s =>
    if c.res.schedFork ≠ 0 then .error (c.res.schedFork, .cleanupPolicy, s) else .ok s
  | .perf, s => call c.res.perf .perf .cleanupPolicy s
  | .audit, s => call c.res.audit .audit .cleanupPerf s
  | .security, s => call c.res.security .security .cleanupAudit s
  | .semundo, s => call c.res.semundo .semundo .cleanupSecurity s
  | .files, s => copyFiles c s
  | .fs, s => copyFs c s
  | .sighand, s => copySighand c s
  | .signal, s => copySignal c s
  | .mm, s => copyMm c s
  | .namespaces, s => call c.res.namespaces .namespaces .cleanupMm s
  | .io, s => copyIo c s
  | .threadTls, s => call c.res.copyThread .thread .cleanupIo s
  | .pid, s =>
    if c.idle then .ok s
    else
      match c.res.allocPid with
      | some e => .error (e, .cleanupThread, s)
      | none => .ok (s.take .pid)
  | .pidfd, s => copyPidfd c s
  | .changeBegin, s => .ok (s.take .threadgroup)
  | .canFork, s =>
    if c.res.canFork ≠ 0 then .error (c.res.canFork, .cgroupThreadgroupChangeEnd, s)
    else .ok (copySeccomp c (((s.take .cgroup).take .tasklistLock).take .siglock))
  | .pidns, s => if !c.res.pidnsAdding then .error (-ENOMEM, .cancelCgroup, s) else .ok s
  | .fatalSignal, s => if c.res.fatalSignal then .error (-EINTR, .cancelCgroup, s) else .ok s

/-- The checks of the flags. -/
def checkFlags : Option Int :=
  if c.flags.newns && c.flags.fs then some (-EINVAL)
  else if c.flags.newuser && c.flags.fs then some (-EINVAL)
  else if c.flags.newuser && !c.res.unprivilegedUsernsClone && !c.cur.sysAdmin then some (-EPERM)
  else if c.flags.thread && !c.flags.sighand then some (-EINVAL)
  else if c.flags.sighand && !c.flags.vm then some (-EINVAL)
  else if c.flags.parent && c.cur.unkillable then some (-EINVAL)
  else if c.flags.thread && (c.flags.newuser || c.flags.newpid || c.cur.otherPidNs) then
    some (-EINVAL)
  else if c.flags.pidfd && (c.flags.detached || c.flags.thread) then some (-EINVAL)
  else none

/-- Past the last point of failure: the task is made visible, and the locks are let go. -/
def publish (s : St) : St :=
  let s :=
    if c.idle then s
    else if c.flags.thread then ((s.take .signalThreads).take (.signal .parent)).take .nrThreads
    else ((s.takeIf c.cur.tty .tty).take .processCount).take .nrThreads
  let s := s.dropIf (!c.flags.thread) .delayed
  ((s.drop .siglock).drop .tasklistLock).drop .threadgroup

/-- Before any call: `delayed.node` is in the list of the parent's signals, and there is no
child. -/
def begin (base : Ledger) : St :=
  (St.mk base blank).takeIf (!c.flags.thread) .delayed

/-- `copy_process`: the error and what it leaves of the ledger, or the new task. -/
def copyProcess (base : Ledger) : Except (Int × Ledger) St :=
  match checkFlags c with
  | some e => .error (e, base)
  | none =>
    match attempt (tryPoint c) points (begin c base) with
    | .error (e, l, s) => .error (e, (unwind c l s).ledger)
    | .ok s => .ok (publish c s)

end

end LinuxKernel.Fork

import LinuxKernel.Lib.PrioArray

/-!
# Android scheduler — data model

The fields of `task_struct`, `rq`, `rt_rq` and `wrr_rq` that `core.c`, `rt.c`
and `wrr.c` read or write, for the uniprocessor kernel that
`goldfish_armv7_defconfig` builds (`CONFIG_SMP` and `CONFIG_SCHED_AUTOGROUP`
off, `CONFIG_RT_GROUP_SCHED` on).

Two choices shape the rest of the development:

* **Tasks by number.** A `task_struct` is named by the order of its creation,
  `0` being `init_task`. Pointers to tasks and to entities embedded in tasks
  (`container_of`) are these numbers.
* **`Base` inside `State`.** `Base` holds what decides which task sits where
  in the WRR queue. `State` adds the rest: run-time accounting, reschedule
  flags, clocks, and the queues of the other classes. Most of the code only
  writes the outer part, which then leaves `Base` alone by definition.
-/

namespace LinuxKernel.Sched

open LinuxKernel.Lib

/-- A `task_struct`, by order of creation. -/
abbrev Pid := Nat

/-- A task group, as the path of child numbers from it up to
`root_task_group`, which is `[]`. The parent of `n :: g` is `g`. -/
abbrev TaskGroup := List Nat

/-! ## Constants of `linux/sched.h` -/

/-- `p->policy` -/
inductive Policy
  | normal | fifo | rr | batch | idle | wrr
  deriving DecidableEq, Repr

/-- The numbers user space passes; 4 is `SCHED_ISO`, reserved and not implemented. -/
def Policy.ofNat? : Nat → Option Policy
  | 0 => some .normal
  | 1 => some .fifo
  | 2 => some .rr
  | 3 => some .batch
  | 5 => some .idle
  | 6 => some .wrr
  | _ => none

/-- `p->sched_class` -/
inductive SchedClass
  | stop | rt | wrr | fair | idle
  deriving DecidableEq, Repr

/-- The `.next` field of the class objects: `rt.c` and `wrr.c` put WRR between
the real-time and the fair class. -/
def SchedClass.next : SchedClass → Option SchedClass
  | .stop => some .rt
  | .rt   => some .wrr
  | .wrr  => some .fair
  | .fair => some .idle
  | .idle => none

/-- Position in the class list, 0 for `sched_class_highest`. -/
def SchedClass.rank : SchedClass → Nat
  | .stop => 0
  | .rt   => 1
  | .wrr  => 2
  | .fair => 3
  | .idle => 4

/-- The classes `for_each_class` visits, in its order. -/
def forEachClass : List SchedClass := [.stop, .rt, .wrr, .fair, .idle]

/-- `MAX_RT_PRIO`, equal to `MAX_USER_RT_PRIO`. -/
def maxRtPrio : Nat := 100

def rtPrio (prio : Nat) : Bool := prio < maxRtPrio
def rtPolicy (policy : Policy) : Bool := policy == .fifo || policy == .rr

/-- `NICE_TO_PRIO` -/
def niceToPrio (nice : Int) : Nat := (maxRtPrio + nice + 20).toNat
/-- `PRIO_TO_NICE` -/
def prioToNice (prio : Nat) : Int := prio - maxRtPrio - 20

/-- `TASK_RUNNING` -/
def taskRunning : Nat := 0
/-- `TASK_NORMAL`: the two sleeping states that a plain wake-up ends. -/
def taskNormal : Nat := 3

/-- `ENQUEUE_WAKEUP`; `ENQUEUE_WAKING` is 0 without `CONFIG_SMP`. -/
def enqueueWakeup : Nat := 1
/-- `ENQUEUE_HEAD` -/
def enqueueHead : Nat := 2
/-- `DEQUEUE_SLEEP` -/
def dequeueSleep : Nat := 1
/-- `WF_FORK` -/
def wfFork : Nat := 2

/-! ## Unsigned arithmetic -/

/-- `a - b` on an unsigned type of `w` bits. -/
def usub (w a b : Nat) : Nat := if b ≤ a then a - b else a + 2 ^ w - b

theorem usub_of_le {w a b : Nat} (h : b ≤ a) : usub w a b = a - b := if_pos h

/-! ## Tasks -/

/-- `struct sched_wrr_entity`, the two fields the class uses. Its `run_list`
is the task's place in `WrrRq.queue`. -/
structure SchedWrrEntity where
  weight    : Nat
  timeSlice : Nat
  deriving DecidableEq, Repr

/-- The accounting part of `struct sched_entity`, and what has been charged on
behalf of the task to its thread group (`account_group_exec_runtime`) and to
its accounting group (`cpuacct_charge`). -/
structure SchedEntity where
  execStart        : Nat
  sumExecRuntime   : Nat
  groupExecRuntime : Nat
  cpuacctUsage     : Nat
  deriving DecidableEq, Repr

/-- The scheduling parameters of a task. `mm` says whether it is a user task;
`piTopWaiter` is the priority of the top waiter on the rt mutexes it holds. -/
structure Task where
  state            : Nat
  onRq             : Bool
  prio             : Nat
  staticPrio       : Nat
  normalPrio       : Nat
  rtPriority       : Nat
  schedClass       : SchedClass
  policy           : Policy
  wrr              : SchedWrrEntity
  schedTaskGroup   : TaskGroup
  schedResetOnFork : Bool
  mm               : Bool
  piTopWaiter      : Option Nat
  deriving DecidableEq, Repr

/-! ## Run queues -/

/-- What was done to the WRR list, in order. Not in the source: the list
operations leave a record here, so that statements can speak about them. For a
removal it is also recorded whether one of the two counters wrapped. -/
inductive WrrEvent
  | enqueue (p : Pid) (head : Bool)
  | dequeue (p : Pid) (underflow : Bool)
  | requeue (p : Pid) (head : Bool)
  deriving DecidableEq, Repr

/-- `struct wrr_rq`. The list is kept in the order of `next`; `log` is the
record of the list operations, latest first. -/
structure WrrRq where
  queue        : List Pid
  wrrNrRunning : Nat
  totalWeight  : Nat
  log          : List WrrEvent
  deriving DecidableEq, Repr

/-- A `sched_rt_entity`: that of a task, or that of a task group below the
root (the root group has none). -/
inductive RtSe
  | task (p : Pid)
  | group (g : TaskGroup)
  deriving DecidableEq, Repr

/-- `struct rt_rq`: the one of `rq->rt` for the root group, `tg->rt_rq` for the
others. -/
structure RtRq where
  active      : PrioArray RtSe
  rtNrRunning : Nat
  highestPrio : Nat
  rtThrottled : Bool
  rtTime      : Nat
  rtNrBoosted : Nat

/-- Tasks, the current task, and the WRR run queue. -/
structure Base where
  tasks   : Pid → Task
  nrTasks : Nat
  curr    : Pid
  idle    : Pid
  stop    : Option Pid
  wrr     : WrrRq

/-- The whole scheduler state. `ext` stands for the private data of the
classes whose source is not in the tree; `hNrRunning` is `cfs.h_nr_running`;
`clockReads` counts the calls of `sched_clock_cpu` made so far. -/
structure State (σ : Type) extends Base where
  se              : Pid → SchedEntity
  rtTimeSlice     : Pid → Nat
  needResched     : Pid → Bool
  rt              : TaskGroup → RtRq
  ext             : σ
  nrRunning       : Nat
  hNrRunning      : Nat
  skipClockUpdate : Int
  clock           : Nat
  clockTask       : Nat
  clockReads      : Nat

/-! ## Updates -/

/-- Write to the fields of one task. -/
def Base.setTask (b : Base) (p : Pid) (f : Task → Task) : Base :=
  { b with tasks := Function.update b.tasks p (f (b.tasks p)) }

@[simp] theorem Base.setTask_self (b : Base) (p : Pid) (f : Task → Task) :
    (b.setTask p f).tasks p = f (b.tasks p) := by simp [Base.setTask]

theorem Base.setTask_of_ne {p q : Pid} (b : Base) (f : Task → Task) (h : q ≠ p) :
    (b.setTask p f).tasks q = b.tasks q := by simp [Base.setTask, h]

theorem Base.setTask_tasks (b : Base) (p q : Pid) (f : Task → Task) :
    (b.setTask p f).tasks q = if q = p then f (b.tasks p) else b.tasks q := by
  by_cases h : q = p <;> simp [Base.setTask, h]

@[simp] theorem Base.setTask_nrTasks (b : Base) (p : Pid) (f : Task → Task) :
    (b.setTask p f).nrTasks = b.nrTasks := rfl
@[simp] theorem Base.setTask_curr (b : Base) (p : Pid) (f : Task → Task) :
    (b.setTask p f).curr = b.curr := rfl
@[simp] theorem Base.setTask_idle (b : Base) (p : Pid) (f : Task → Task) :
    (b.setTask p f).idle = b.idle := rfl
@[simp] theorem Base.setTask_stop (b : Base) (p : Pid) (f : Task → Task) :
    (b.setTask p f).stop = b.stop := rfl
@[simp] theorem Base.setTask_wrr (b : Base) (p : Pid) (f : Task → Task) :
    (b.setTask p f).wrr = b.wrr := rfl

/-- Write to the WRR entity of one task. -/
def Base.setWrr (b : Base) (p : Pid) (f : Task → SchedWrrEntity) : Base :=
  b.setTask p fun t => { t with wrr := f t }

namespace State

variable {σ : Type}

/-- Change the inner part only. -/
def onBase (s : State σ) (f : Base → Base) : State σ := { s with toBase := f s.toBase }

@[simp] theorem onBase_toBase (s : State σ) (f : Base → Base) :
    (s.onBase f).toBase = f s.toBase := rfl

/-- Write to the fields of one task. -/
def setTask (s : State σ) (p : Pid) (f : Task → Task) : State σ :=
  s.onBase (·.setTask p f)

@[simp] theorem setTask_toBase (s : State σ) (p : Pid) (f : Task → Task) :
    (s.setTask p f).toBase = s.toBase.setTask p f := rfl

/-- Write to the WRR entity of one task. -/
def setWrr (s : State σ) (p : Pid) (f : Task → SchedWrrEntity) : State σ :=
  s.onBase (·.setWrr p f)

@[simp] theorem setWrr_toBase (s : State σ) (p : Pid) (f : Task → SchedWrrEntity) :
    (s.setWrr p f).toBase = s.toBase.setWrr p f := rfl

/-- Write to the accounting fields of one task. -/
def setSe (s : State σ) (p : Pid) (f : SchedEntity → SchedEntity) : State σ :=
  { s with se := Function.update s.se p (f (s.se p)) }

@[simp] theorem setSe_toBase (s : State σ) (p : Pid) (f : SchedEntity → SchedEntity) :
    (s.setSe p f).toBase = s.toBase := rfl

/-- `resched_task`: set `TIF_NEED_RESCHED` of `p`. -/
def reschedTask (s : State σ) (p : Pid) : State σ :=
  { s with needResched := Function.update s.needResched p true }

@[simp] theorem reschedTask_toBase (s : State σ) (p : Pid) :
    (s.reschedTask p).toBase = s.toBase := rfl

/-- `clear_tsk_need_resched` -/
def clearNeedResched (s : State σ) (p : Pid) : State σ :=
  { s with needResched := Function.update s.needResched p false }

@[simp] theorem clearNeedResched_toBase (s : State σ) (p : Pid) :
    (s.clearNeedResched p).toBase = s.toBase := rfl

def incNrRunning (s : State σ) : State σ := { s with nrRunning := s.nrRunning + 1 }

def decNrRunning (s : State σ) : State σ := { s with nrRunning := usub 32 s.nrRunning 1 }

@[simp] theorem incNrRunning_toBase (s : State σ) : s.incNrRunning.toBase = s.toBase := rfl
@[simp] theorem decNrRunning_toBase (s : State σ) : s.decNrRunning.toBase = s.toBase := rfl

end State

end LinuxKernel.Sched

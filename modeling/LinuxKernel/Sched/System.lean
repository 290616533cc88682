import LinuxKernel.Sched.Core
import LinuxKernel.Lib.Run

/-!
# Android scheduler — the system

The operations that change the scheduler state of the one cpu, each atomic
under `rq->lock`, and the state at boot. A run is any sequence of operations
that are possible when they happen (`Op.enabled`).

The conditions in `Op.enabled` are those the callers outside of the scheduler
keep: system calls and cgroup moves do not reach the idle task, a task is woken
as new only once, the idle task never sleeps or yields, a stop task is installed
or removed only while it is off the queue, and `rt_mutex_setprio` gets the value
of `rt_mutex_getprio`, which is never below the priority of the task itself.
-/

namespace LinuxKernel.Sched

open LinuxKernel.Lib

variable {σ : Type}

/-- One operation under `rq->lock`. -/
inductive Op
  -- current->state = st, before a schedule()
  | setState (st : Nat)
  | schedule (e : SchedEnv)
  | tick
  | wakeUp (p : Pid) (state wakeFlags : Nat)
  | wakeUpNewTask (p : Pid)
  | fork (mm : Bool)
  | setscheduler (p : Pid) (a : SetschedArgs)
  | rtMutexSetprio (p : Pid) (prio : Nat)
  | setUserNice (p : Pid) (nice : Int)
  | schedMoveTask (p : Pid) (g : TaskGroup)
  | schedYield (e : SchedEnv)
  -- the top waiter on the rt mutexes p holds has changed
  | piWaiter (p : Pid) (w : Option Nat)
  | rtPeriodTimer (g : TaskGroup) (overrun : Nat)
  | setStopTask (p : Option Pid)
  deriving DecidableEq

/-- The task that `wq_worker_sleeping` names exists. -/
def SchedEnv.valid (e : SchedEnv) (s : State σ) : Prop := ∀ w ∈ e.toWakeup, w < s.nrTasks

instance (e : SchedEnv) (s : State σ) : Decidable (e.valid s) :=
  inferInstanceAs (Decidable (∀ w ∈ e.toWakeup, w < s.nrTasks))

/-- A task that no queue holds and that is not running. -/
def State.offCpu (s : State σ) (p : Pid) : Prop :=
  p < s.nrTasks ∧ p ≠ s.idle ∧ p ≠ s.curr ∧ (s.tasks p).onRq = false

instance (s : State σ) (p : Pid) : Decidable (s.offCpu p) :=
  inferInstanceAs (Decidable (_ ∧ _ ∧ _ ∧ _))

/-- When an operation can happen. -/
def Op.enabled (k : Kernel σ) (s : State σ) : Op → Prop
  | .setState _ => s.curr ≠ s.idle
  | .schedule e => e.valid s
  | .tick => True
  | .wakeUp p _ _ => p < s.nrTasks
  | .wakeUpNewTask p => s.offCpu p ∧ (s.tasks p).state = taskRunning
  | .fork _ => True
  | .setscheduler p _ => p < s.nrTasks ∧ p ≠ s.idle
  | .rtMutexSetprio p prio => p < s.nrTasks ∧ prio ≤ (s.tasks p).normalPrio
  | .setUserNice p _ => p < s.nrTasks ∧ p ≠ s.idle
  | .schedMoveTask p g => p < s.nrTasks ∧ p ≠ s.idle ∧ g.length ≤ k.maxDepth
  | .schedYield e => e.valid s ∧ (s.tasks s.curr).schedClass ≠ .stop ∧
      (s.tasks s.curr).schedClass ≠ .idle
  | .piWaiter p _ => p < s.nrTasks
  | .rtPeriodTimer _ _ => True
  | .setStopTask p => (∀ q ∈ p, s.offCpu q) ∧ ∀ q ∈ s.stop, s.offCpu q

instance (k : Kernel σ) (s : State σ) : (op : Op) → Decidable (op.enabled k s)
  | .setState _ => inferInstanceAs (Decidable (_ ≠ _))
  | .schedule e => inferInstanceAs (Decidable (e.valid s))
  | .tick | .fork _ | .rtPeriodTimer _ _ => inferInstanceAs (Decidable True)
  | .wakeUp _ _ _ | .piWaiter _ _ => inferInstanceAs (Decidable (_ < _))
  | .wakeUpNewTask p => inferInstanceAs (Decidable (s.offCpu p ∧ _ = _))
  | .setscheduler _ _ | .setUserNice _ _ => inferInstanceAs (Decidable (_ < _ ∧ _ ≠ _))
  | .rtMutexSetprio _ _ => inferInstanceAs (Decidable (_ < _ ∧ _ ≤ _))
  | .schedMoveTask _ _ => inferInstanceAs (Decidable (_ < _ ∧ _ ≠ _ ∧ _ ≤ _))
  | .schedYield e => inferInstanceAs (Decidable (e.valid s ∧ _ ≠ _ ∧ _ ≠ _))
  | .setStopTask p =>
    inferInstanceAs (Decidable ((∀ q ∈ p, s.offCpu q) ∧ ∀ q ∈ s.stop, s.offCpu q))

/-- What an operation does. -/
def Op.exec (k : Kernel σ) (s : State σ) : Op → Option (State σ)
  | .setState st => some (s.setTask s.curr fun t => { t with state := st })
  | .schedule e => Sched.schedule k s e
  | .tick => some (schedulerTick k s)
  | .wakeUp p state wakeFlags => some (tryToWakeUp k s p state wakeFlags)
  | .wakeUpNewTask p => some (Sched.wakeUpNewTask k s p)
  | .fork mm => some (schedFork k s mm)
  | .setscheduler p a => some (schedSetscheduler k s p a).2
  | .rtMutexSetprio p prio => some (Sched.rtMutexSetprio k s p prio)
  | .setUserNice p nice => some (Sched.setUserNice k s p nice)
  | .schedMoveTask p g => some (Sched.schedMoveTask k s p g)
  | .schedYield e => Sched.schedule k (yieldTask k s) e
  | .piWaiter p w => some (s.setTask p fun t => { t with piTopWaiter := w })
  | .rtPeriodTimer g overrun => some (doSchedRtPeriodTimer k s g overrun)
  | .setStopTask p => some (schedSetStopTask k s p)

def step (k : Kernel σ) (s : State σ) (op : Op) : Option (State σ) :=
  if op.enabled k s then op.exec k s else none

/-! ## Boot -/

/-- `init_task` after `init_idle`: the boot thread is the idle task. -/
def initTask : Task :=
  { state := taskRunning, onRq := false, prio := niceToPrio 0, staticPrio := niceToPrio 0
    normalPrio := niceToPrio 0, rtPriority := 0, schedClass := .idle, policy := .normal
    wrr := { weight := 0, timeSlice := 0 }, schedTaskGroup := [], schedResetOnFork := false
    mm := false, piTopWaiter := none }

/-- The state after `sched_init`. -/
def boot (k : Kernel σ) : State σ :=
  { tasks := fun _ => initTask
    nrTasks := 1
    curr := 0
    idle := 0
    stop := none
    wrr := initWrrRq
    se := fun _ => ⟨0, 0, 0, 0⟩
    rtTimeSlice := fun _ => k.rrTimeslice
    needResched := fun _ => false
    rt := fun _ => initRtRq
    ext := k.ext.init
    nrRunning := 0
    hNrRunning := 0
    skipClockUpdate := 0
    clock := 0
    clockTask := 0
    clockReads := 0 }

end LinuxKernel.Sched

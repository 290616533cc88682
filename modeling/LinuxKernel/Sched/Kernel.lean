import LinuxKernel.Sched.Types
import Mathlib.Order.Monotone.Basic

/-!
# Android scheduler — what the tree does not contain

`fair.c`, `stop_task.c` and `idle_task.c` are not part of the repository, and
neither are `sched_clock_cpu`, `cgroup_path` and the bandwidth settings of the
real-time groups. They are the parameters of the model, collected in `Kernel`.

A hook of a missing class is a function from the whole state to an
`ExtEffect`. The type says what such a hook can write: the private data of its
class, the two run counters, `skip_clock_update`, the accounting fields of
tasks *of its own class*, and `TIF_NEED_RESCHED` of the current task. The laws
in `ExtClasses` are what the rest of the scheduler relies on:

* a class knows which tasks are on its queue, and only `enqueue_task` and
  `dequeue_task` change that;
* it picks a task that is on its queue, and picks none only if it has none to
  run; the idle class always picks `rq->idle`;
* the fair class changes `nr_running` and `cfs.h_nr_running` by the same
  amount, the stop class counts its task, the idle class counts nothing;
* `exec_start` is only ever set to `rq->clock_task`;
* `switched_to_fair` asks for a reschedule if the task is the running one or
  if only the idle task runs.
-/

namespace LinuxKernel.Sched

/-- Build-time and cgroup parameters. `groupPath` is what `autogroup_path` or
else `cgroup_path` prints for a group. -/
structure Config where
  HZ        : Nat
  groupPath : TaskGroup → List Char

namespace Config

/-- `WRR_FG_TIMESLICE` -/
def wrrFgTimeslice (c : Config) : Nat := 100 * c.HZ / 1000
/-- `WRR_BG_TIMESLICE` -/
def wrrBgTimeslice (c : Config) : Nat := 10 * c.HZ / 1000
/-- `RR_TIMESLICE` -/
def rrTimeslice (c : Config) : Nat := 100 * c.HZ / 1000

/-- `group_path[1] == 'b'` -/
def background (c : Config) (g : TaskGroup) : Bool := (c.groupPath g)[1]? == some 'b'

end Config

/-- The functions of `struct sched_class` that `core.c` calls without using a
result. -/
inductive Hook
  | enqueueTask | dequeueTask | yieldTask | checkPreemptCurr | putPrevTask
  | setCurrTask | taskTick | taskFork | switchedFrom | switchedTo | prioChanged
  | taskMoveGroup
  deriving DecidableEq, Repr

/-- What a hook of a missing class writes. -/
structure ExtEffect (σ : Type) where
  ext             : σ
  nrRunning       : Nat
  hNrRunning      : Nat
  skipClockUpdate : Int
  se              : Pid → SchedEntity
  resched         : Bool

/-- The effect of a hook on a state. The accounting fields are written for the
tasks of class `c` only. -/
def State.applyExt {σ : Type} (s : State σ) (c : SchedClass) (e : ExtEffect σ) : State σ :=
  { s with
    ext := e.ext
    nrRunning := e.nrRunning
    hNrRunning := e.hNrRunning
    skipClockUpdate := e.skipClockUpdate
    se := fun p => if (s.tasks p).schedClass = c then e.se p else s.se p
    needResched :=
      if e.resched then Function.update s.needResched s.curr true else s.needResched }

@[simp] theorem State.applyExt_toBase {σ : Type} (s : State σ) (c : SchedClass)
    (e : ExtEffect σ) : (s.applyExt c e).toBase = s.toBase := rfl

/-- The stop, fair and idle classes. -/
structure ExtClasses (σ : Type) where
  -- The private data at boot.
  init     : σ
  -- Is p on the queue of the class, and is it one the class may pick?
  queued   : σ → SchedClass → Pid → Bool
  eligible : σ → SchedClass → Pid → Bool
  hook     : Hook → SchedClass → State σ → Pid → Nat → ExtEffect σ
  pick     : SchedClass → State σ → Option (Pid × ExtEffect σ)
  -- queue membership
  queued_init : ∀ c p, queued init c p = false
  queued_enqueue : ∀ c s p f, queued s.ext c p = false → ∀ c' q,
    queued (hook .enqueueTask c s p f).ext c' q = (queued s.ext c' q || (c' == c && q == p))
  queued_dequeue : ∀ c s p f, queued s.ext c p = true → ∀ c' q,
    queued (hook .dequeueTask c s p f).ext c' q = (queued s.ext c' q && !(c' == c && q == p))
  queued_hook : ∀ h c s p a, h ≠ .enqueueTask → h ≠ .dequeueTask →
    queued (hook h c s p a).ext = queued s.ext
  queued_pick : ∀ c s p e, pick c s = some (p, e) → queued e.ext = queued s.ext
  -- picking
  eligible_queued : ∀ x c p, eligible x c p = true → queued x c p = true
  stop_eligible : ∀ x p, queued x .stop p = true → eligible x .stop p = true
  pick_none : ∀ c s, c ≠ .idle → (pick c s = none ↔ ∀ p, eligible s.ext c p = false)
  pick_some : ∀ c s p e, c ≠ .idle → pick c s = some (p, e) → eligible s.ext c p = true
  pick_idle : ∀ s, ∃ e, pick .idle s = some (s.idle, e)
  -- run counters
  nr_fair : ∀ h s p a, (h = .dequeueTask → queued s.ext .fair p = true) →
    ((hook h .fair s p a).nrRunning : Int) - s.nrRunning =
      (hook h .fair s p a).hNrRunning - s.hNrRunning
  nr_enqueue_stop : ∀ s p f, (hook .enqueueTask .stop s p f).nrRunning = s.nrRunning + 1 ∧
    (hook .enqueueTask .stop s p f).hNrRunning = s.hNrRunning
  nr_dequeue_stop : ∀ s p f, (hook .dequeueTask .stop s p f).nrRunning = s.nrRunning - 1 ∧
    (hook .dequeueTask .stop s p f).hNrRunning = s.hNrRunning
  nr_stop : ∀ h s p a, h ≠ .enqueueTask → h ≠ .dequeueTask →
    (hook h .stop s p a).nrRunning = s.nrRunning ∧
    (hook h .stop s p a).hNrRunning = s.hNrRunning
  nr_idle : ∀ h s p a, (hook h .idle s p a).nrRunning = s.nrRunning ∧
    (hook h .idle s p a).hNrRunning = s.hNrRunning
  nr_pick : ∀ c s p e, pick c s = some (p, e) →
    (e.nrRunning : Int) - s.nrRunning = e.hNrRunning - s.hNrRunning
  -- accounting
  start_hook : ∀ h c s p a q, (hook h c s p a).se q = s.se q ∨
    ((hook h c s p a).se q).execStart = s.clockTask
  start_pick : ∀ c s p e q, pick c s = some (p, e) →
    e.se q = s.se q ∨ (e.se q).execStart = s.clockTask
  -- rescheduling
  switchedTo_fair : ∀ s p a, (s.tasks p).onRq = true →
    (s.curr = p ∨ (s.tasks s.curr).schedClass = .idle) →
    (hook .switchedTo .fair s p a).resched = true

/-- All parameters of the scheduler model. -/
structure Kernel (σ : Type) extends Config where
  ext : ExtClasses σ
  -- The n-th value sched_clock_cpu returns: nanoseconds since boot, monotonic
  -- on one cpu and far from the sign bit of the s64 deltas made of it.
  schedClock      : Nat → Nat
  schedClock_mono : Monotone schedClock
  schedClock_lt   : ∀ n, schedClock n < 2 ^ 63
  -- rt_bandwidth of each group, and sysctl_sched_rt_runtime >= 0
  rtRuntime : TaskGroup → Nat
  rtPeriod  : TaskGroup → Nat
  rtBandwidthEnabled : Bool
  -- Depth of the task-group tree.
  maxDepth : Nat

end LinuxKernel.Sched

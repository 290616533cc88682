import LinuxKernel.Sched.Kernel
import LinuxKernel.Lib.Ring

/-!
# Android scheduler — `wrr.c`

The weighted round-robin class. What it does to the queue and to the entities
is a function on `Base`; the hooks of `wrr_sched_class` add the accounting, the
run counter and the reschedule requests.
-/

namespace LinuxKernel.Sched

open LinuxKernel.Lib

/-! ## Accounting, common to `update_curr_wrr` and `update_curr_rt` -/

section Accounting

variable {σ : Type}

/-- `delta_exec`: a `u64` difference, 0 if it is negative as an `s64`. -/
def State.deltaExec (s : State σ) : Nat :=
  let d := usub 64 s.clockTask (s.se s.curr).execStart
  if 2 ^ 63 ≤ d then 0 else d

/-- Charge the current task for the time since `exec_start` and restart it. -/
def State.chargeCurr (s : State σ) : State σ :=
  s.setSe s.curr fun e =>
    { execStart := s.clockTask
      sumExecRuntime := e.sumExecRuntime + s.deltaExec
      groupExecRuntime := e.groupExecRuntime + s.deltaExec
      cpuacctUsage := e.cpuacctUsage + s.deltaExec }

/-- `p->se.exec_start = t` -/
def State.setExecStart (s : State σ) (p : Pid) (t : Nat) : State σ :=
  s.setSe p fun e => { e with execStart := t }

@[simp] theorem State.chargeCurr_toBase (s : State σ) : s.chargeCurr.toBase = s.toBase := rfl
@[simp] theorem State.setExecStart_toBase (s : State σ) (p : Pid) (t : Nat) :
    (s.setExecStart p t).toBase = s.toBase := rfl

end Accounting

/-! ## The queue -/

/-- `init_wrr_rq` -/
def initWrrRq : WrrRq := { queue := [], wrrNrRunning := 0, totalWeight := 0, log := [] }

/-- The two tests at the start of `enqueue_wrr_entity`: a task whose weight does
not fit its group gets the weight of the group and a full slice. -/
def classify (c : Config) (g : TaskGroup) (w : SchedWrrEntity) : SchedWrrEntity :=
  if c.background g ∧ w.weight ≠ 1 then
    { weight := 1, timeSlice := c.wrrBgTimeslice }
  else if ¬ c.background g ∧ w.weight ≠ 10 then
    { weight := 10, timeSlice := c.wrrFgTimeslice }
  else w

/-- `enqueue_wrr_entity`: the weight is made to fit the group before it is added to the total. -/
def enqueueWrrEntity (c : Config) (b : Base) (p : Pid) (head : Bool) : Base :=
  let b := b.setWrr p fun t => classify c t.schedTaskGroup t.wrr
  { b with
    wrr :=
      { queue := if head then p :: b.wrr.queue else b.wrr.queue ++ [p]
        wrrNrRunning := b.wrr.wrrNrRunning + 1
        totalWeight := b.wrr.totalWeight + (b.tasks p).wrr.weight
        log := .enqueue p head :: b.wrr.log } }

/-- `dequeue_wrr_entity`; both counters are `unsigned long`, 32 bits on this machine. -/
def dequeueWrrEntity (b : Base) (p : Pid) : Base :=
  let w := (b.tasks p).wrr.weight
  { b with
    wrr :=
      { queue := b.wrr.queue.erase p
        wrrNrRunning := usub 32 b.wrr.wrrNrRunning 1
        totalWeight := usub 32 b.wrr.totalWeight w
        log := .dequeue p (b.wrr.totalWeight < w || b.wrr.wrrNrRunning < 1) :: b.wrr.log } }

/-- `requeue_task_wrr`; `list_move` puts an unlinked entity into the list as well. -/
def requeueTaskWrr (b : Base) (p : Pid) (head : Bool) : Base :=
  { b with
    wrr.queue := if head then p :: b.wrr.queue.erase p else moveTail b.wrr.queue p
    wrr.log := .requeue p head :: b.wrr.log }

/-- The slice `task_tick_wrr` hands out when the old one is used up. -/
def refill (c : Config) (weight : Nat) : Nat :=
  if weight = 1 then c.wrrBgTimeslice else c.wrrFgTimeslice

/-- The weight that `switched_to_wrr` writes. -/
def groupWeight (c : Config) (g : TaskGroup) : Nat := if c.background g then 1 else 10

/-! ## The hooks -/

section Hooks

variable {σ : Type}

/-- `update_curr_wrr` -/
def updateCurrWrr (s : State σ) : State σ :=
  if (s.tasks s.curr).schedClass ≠ .wrr then s else s.chargeCurr

/-- `enqueue_task_wrr` -/
def enqueueTaskWrr (c : Config) (s : State σ) (p : Pid) (flags : Nat) : State σ :=
  (s.onBase fun b => enqueueWrrEntity c b p (flags &&& enqueueHead != 0)).incNrRunning

/-- `dequeue_task_wrr` -/
def dequeueTaskWrr (s : State σ) (p : Pid) : State σ :=
  ((updateCurrWrr s).onBase fun b => dequeueWrrEntity b p).decNrRunning

/-- `check_preempt_curr_wrr` is empty: a task that is woken waits for its turn. -/
def checkPreemptCurrWrr (s : State σ) : State σ := s

/-- `task_fork_wrr`: the child starts without a slice. -/
def taskForkWrr (s : State σ) (p : Pid) : State σ :=
  s.setWrr p fun t => { t.wrr with timeSlice := 0 }

/-- `yield_task_wrr` -/
def yieldTaskWrr (s : State σ) : State σ :=
  s.onBase fun b => requeueTaskWrr b b.curr false

/-- `put_prev_task_wrr` -/
def putPrevTaskWrr (s : State σ) (prev : Pid) : State σ :=
  (updateCurrWrr s).setExecStart prev 0

/-- `task_tick_wrr`; `time_slice` is an unsigned int, and the two neighbours differ unless `p` is
the only entity of the queue. -/
def taskTickWrr (c : Config) (s : State σ) (p : Pid) : State σ :=
  let s := updateCurrWrr s
  let slice := usub 32 (s.tasks p).wrr.timeSlice 1
  if slice ≠ 0 then
    s.setWrr p fun t => { t.wrr with timeSlice := slice }
  else
    let s := s.setWrr p fun t => { t.wrr with timeSlice := refill c t.wrr.weight }
    if ringPrev s.wrr.queue p ≠ ringNext s.wrr.queue p then
      (s.onBase fun b => requeueTaskWrr b p false).reschedTask p
    else s

/-- `set_curr_task_wrr` -/
def setCurrTaskWrr (s : State σ) : State σ := s.setExecStart s.curr s.clockTask

/-- `pick_next_task_wrr`: the head of the list. -/
def pickNextTaskWrr (s : State σ) : Option Pid :=
  if s.wrr.wrrNrRunning = 0 then none else s.wrr.queue.head?

/-- `prio_changed_wrr` is empty. -/
def prioChangedWrr (s : State σ) : State σ := s

/-- `switched_to_wrr`: the weight is written for a task that waits, not for the running one. -/
def switchedToWrr (c : Config) (s : State σ) (p : Pid) : State σ :=
  if (s.tasks p).onRq ∧ s.curr ≠ p then
    (s.reschedTask s.curr).setWrr p fun t =>
      { t.wrr with weight := groupWeight c t.schedTaskGroup }
  else s

/-- `wrr_sched_class`. It has no `switched_from` without `CONFIG_SMP` and no
`task_move_group`. -/
def wrrHook (c : Config) : Hook → State σ → Pid → Nat → State σ
  | .enqueueTask, s, p, flags => enqueueTaskWrr c s p flags
  | .dequeueTask, s, p, _ => dequeueTaskWrr s p
  | .yieldTask, s, _, _ => yieldTaskWrr s
  | .checkPreemptCurr, s, _, _ => checkPreemptCurrWrr s
  | .putPrevTask, s, p, _ => putPrevTaskWrr s p
  | .setCurrTask, s, _, _ => setCurrTaskWrr s
  | .taskTick, s, p, _ => taskTickWrr c s p
  | .taskFork, s, p, _ => taskForkWrr s p
  | .switchedFrom, s, _, _ => s
  | .switchedTo, s, p, _ => switchedToWrr c s p
  | .prioChanged, s, _, _ => prioChangedWrr s
  | .taskMoveGroup, s, _, _ => s

end Hooks

end LinuxKernel.Sched

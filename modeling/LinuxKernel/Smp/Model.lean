import Mathlib.Logic.Function.Basic
import Mathlib.Order.Lattice

/-!
# The run queue locks

Several processors move tasks between run queues: a wakeup places a task, `__migrate_task` moves one
for the stopper, real-time tasks are pushed to other processors and pulled from them, and a worker
that goes to sleep wakes another one of its processor. Each run queue has a lock, and each task has
its `pi_lock`. The model cuts the code wherever the step of another processor can come between: at
the locks, and at every write to `task_cpu`, `on_rq`, `on_cpu` and `state` of a task, to the queues,
`rq->curr` and the lists of remote wakeups. Which tasks and processors are chosen by priorities and
loads is left open, and so is whether `wq_worker_sleeping` asks for a worker to be woken; the worker
is one that is bound to the processor, as `try_to_wake_up_local` demands.

* `Pc`        — where a processor is; `acquire` and `release` stand before the code that follows.
* `doubleRqLock`, `doubleLockBalance` — how two run queues are locked, in both builds.
* `Pc.resume` — how the code goes on after the tasks of a class have been pushed or pulled.
* `step`      — one step of one processor.
* `boot`      — the start: every task sleeps.
-/

namespace LinuxKernel.Smp

/-- `p->pi_lock` and `rq->lock`. -/
inductive Lock (Task Cpu : Type)
  | pi (p : Task)
  | rq (r : Cpu)
deriving DecidableEq

/-- `p->state`: `TASK_RUNNING`, one of the states that are woken from, or `TASK_WAKING`. -/
inductive TaskState
  | running
  | sleeping
  | waking
deriving DecidableEq, Repr

/-- What is read of a task by several processors. -/
structure TaskRec (Cpu : Type) where
  cpu : Cpu
  onRq : Bool
  onCpu : Bool
  state : TaskState
  /-- In which run queues the task is enqueued. -/
  queue : Cpu → Bool

/-- Who called for tasks to be pushed or pulled, with the run queue's lock held. -/
inductive Back (Task : Type)
  /-- `post_schedule` -/
  | post
  /-- A wakeup, or a change of priority or class, of `p`, under `p->pi_lock`. -/
  | task (p : Task)
  /-- `sched_ttwu_pending`, with the wakeups that are left. -/
  | pending (ps : List Task)
  /-- `pre_schedule` -/
  | pre
  /-- `try_to_wake_up_local`, in the middle of `__schedule` and under `p->pi_lock`. -/
  | worker (p : Task)

/-- Where a processor is. -/
inductive Pc (Task Cpu : Type)
  /-- Outside of the scheduler. -/
  | idle
  | acquire (l : Lock Task Cpu) (k : Pc Task Cpu)
  | release (l : Lock Task Cpu) (k : Pc Task Cpu)
  /-- `task_rq_lock`: `rq = task_rq(p)`. -/
  | rqOf (p : Task)
  /-- `task_rq_lock`: `rq == task_rq(p)`. -/
  | rqCheck (p : Task) (r : Cpu)
  /-- Between `task_rq_lock` and `task_rq_unlock`. -/
  | held (p : Task) (r : Cpu)
  /-- The same, between `dequeue_task` and `enqueue_task`. -/
  | taken (p : Task) (r : Cpu)
  /-- `try_to_wake_up`: `p->state & state`. -/
  | wakeState (p : Task)
  /-- `p->on_rq` -/
  | wakeOnRq (p : Task)
  /-- `__task_rq_lock` of `ttwu_remote`. -/
  | wakeRqOf (p : Task)
  | wakeRqCheck (p : Task) (r : Cpu)
  /-- `ttwu_remote` with the lock. -/
  | wakeRemote (p : Task) (r : Cpu)
  /-- `while (p->on_cpu)` -/
  | wakeSpin (p : Task)
  /-- `p->state = TASK_WAKING` -/
  | wakeMark (p : Task)
  /-- `set_task_cpu(p, select_task_rq(..))` -/
  | wakeSelect (p : Task)
  /-- `ttwu_queue` -/
  | wakeQueue (p : Task)
  /-- `ttwu_do_activate`: `activate_task`. -/
  | activate (p : Task) (r : Cpu) (b : Back Task)
  /-- `p->on_rq = 1` -/
  | activateOnRq (p : Task) (r : Cpu) (b : Back Task)
  /-- `p->state = TASK_RUNNING` -/
  | activateRun (p : Task) (r : Cpu) (b : Back Task)
  /-- `__schedule`: `prev->state`. -/
  | schedState
  /-- `prev->on_rq = 0` -/
  | schedOnRq (p : Task)
  /-- `wq_worker_sleeping`, and the checks of `try_to_wake_up_local`. -/
  | schedWorker
  /-- `raw_spin_trylock(&p->pi_lock)` -/
  | workerLock (p : Task)
  /-- `p->state & TASK_NORMAL`, with both locks. -/
  | workerState (p : Task)
  /-- `pick_next_task`, `rq->curr = next` -/
  | schedPick
  /-- `next->on_cpu = 1` -/
  | schedOn (prev : Option Task) (next : Task)
  /-- `prev->on_cpu = 0` -/
  | schedOff (prev : Option Task)
  /-- `__migrate_task` with all three locks. -/
  | migrate (p : Task) (dest : Cpu)
  /-- A dequeued task: `set_task_cpu`. -/
  | moveCpu (p : Task) (src dst : Cpu) (k : Pc Task Cpu)
  /-- Then `enqueue_task` at the other run queue. -/
  | moveEnqueue (p : Task) (dst : Cpu) (k : Pc Task Cpu)
  /-- `push_rt_tasks(rq)` -/
  | push (r : Cpu) (b : Back Task)
  | pushBalance (p : Task) (r dst : Cpu) (b : Back Task)
  | pushCheck (dropped : Bool) (p : Task) (r dst : Cpu) (b : Back Task)
  /-- `pull_rt_task(this_rq)` -/
  | pull (r : Cpu) (b : Back Task)
  | pullBalance (r src : Cpu) (b : Back Task)
  | pullPick (r src : Cpu) (b : Back Task)

/-- The state of all processors. -/
structure Sys (Task Cpu : Type) where
  task : Task → TaskRec Cpu
  /-- `cpus_allowed` -/
  allowed : Task → Cpu → Bool
  /-- The processor of a `PF_THREAD_BOUND` task, which never changes. -/
  bound : Task → Option Cpu
  owner : Lock Task Cpu → Option Cpu
  /-- `rq->curr`; `none` is the idle task. -/
  curr : Cpu → Option Task
  /-- `rq->wake_list` -/
  wakeList : Cpu → List Task
  pc : Cpu → Pc Task Cpu

/-- What a processor does next, where the code leaves a choice. -/
inductive Act (Task Cpu : Type)
  /-- The code goes on. -/
  | next
  /-- `task_rq_lock(p)` -/
  | taskRqLock (p : Task)
  /-- `try_to_wake_up(p)` -/
  | wake (p : Task)
  /-- `sched_ttwu_pending` -/
  | pending
  /-- `__schedule` -/
  | schedule
  /-- `post_schedule` -/
  | post
  /-- `migration_cpu_stop`, run by the stopper. -/
  | migrate (p : Task) (dest : Cpu)
  /-- The running task sets its own state, before it sleeps and when it need not. -/
  | setState (sleep : Bool)
  /-- Between `task_rq_lock` and `task_rq_unlock`: `dequeue_task`. -/
  | dequeue
  /-- `do_set_cpus_allowed` -/
  | setAllowed (mask : Cpu → Bool)
  /-- `check_class_changed`: `switched_to` pushes, `switched_from` and `prio_changed` pull. -/
  | changed (pull : Bool)
  /-- `signal_pending_state` -/
  | signal
  /-- `PREEMPT_ACTIVE` -/
  | preempted
  /-- A processor or a task is chosen. -/
  | cpu (r : Cpu)
  | task (p : Task)
  | push (p : Task) (dst : Cpu)
  /-- `ttwu_queue_remote` -/
  | remote

section

variable {Task Cpu : Type} [DecidableEq Task] [LinearOrder Cpu]

namespace Sys

def goto (s : Sys Task Cpu) (c : Cpu) (k : Pc Task Cpu) : Sys Task Cpu :=
  { s with pc := Function.update s.pc c k }

def setTask (s : Sys Task Cpu) (p : Task) (t : TaskRec Cpu) : Sys Task Cpu :=
  { s with task := Function.update s.task p t }

def setOwner (s : Sys Task Cpu) (l : Lock Task Cpu) (o : Option Cpu) : Sys Task Cpu :=
  { s with owner := Function.update s.owner l o }

def setQueue (s : Sys Task Cpu) (p : Task) (r : Cpu) (b : Bool) : Sys Task Cpu :=
  s.setTask p { s.task p with queue := Function.update (s.task p).queue r b }

def setCpu (s : Sys Task Cpu) (p : Task) (r : Cpu) : Sys Task Cpu :=
  s.setTask p { s.task p with cpu := r }

def setOnRq (s : Sys Task Cpu) (p : Task) (b : Bool) : Sys Task Cpu :=
  s.setTask p { s.task p with onRq := b }

def setOnCpu (s : Sys Task Cpu) (p : Task) (b : Bool) : Sys Task Cpu :=
  s.setTask p { s.task p with onCpu := b }

def setState (s : Sys Task Cpu) (p : Task) (x : TaskState) : Sys Task Cpu :=
  s.setTask p { s.task p with state := x }

def setCurr (s : Sys Task Cpu) (c : Cpu) (o : Option Task) : Sys Task Cpu :=
  { s with curr := Function.update s.curr c o }

def setWakeList (s : Sys Task Cpu) (r : Cpu) (ps : List Task) : Sys Task Cpu :=
  { s with wakeList := Function.update s.wakeList r ps }

end Sys

/-- `double_rq_lock`: the lower address first. -/
def doubleRqLock (a b : Cpu) (k : Pc Task Cpu) : Pc Task Cpu :=
  if a = b then .acquire (.rq a) k
  else if a < b then .acquire (.rq a) (.acquire (.rq b) k)
  else .acquire (.rq b) (.acquire (.rq a) k)

/-- `double_rq_unlock` -/
def doubleRqUnlock (a b : Cpu) (k : Pc Task Cpu) : Pc Task Cpu :=
  .release (.rq a) (if a = b then k else .release (.rq b) k)

/-- `double_lock_balance`, with what follows and whether the first lock was dropped on the way. With
`CONFIG_PREEMPT` it always is; without it the second lock is tried first. -/
def doubleLockBalance (preempt : Bool) (s : Sys Task Cpu) (c this busiest : Cpu)
    (k : Bool → Pc Task Cpu) :
    Sys Task Cpu :=
  if preempt then s.goto c (.release (.rq this) (doubleRqLock this busiest (k true)))
  else if s.owner (.rq busiest) = none then (s.setOwner (.rq busiest) (some c)).goto c (k false)
  else if busiest < this then
    s.goto c (.release (.rq this) (.acquire (.rq busiest) (.acquire (.rq this) (k true))))
  else s.goto c (.acquire (.rq busiest) (k false))

/-- How the caller goes on. -/
def Pc.resume (r : Cpu) : Back Task → Pc Task Cpu
  | .post => .release (.rq r) .idle
  | .task p => .release (.rq r) (.release (.pi p) .idle)
  | .pending [] => .release (.rq r) .idle
  | .pending (p :: ps) => .activate p r (.pending ps)
  | .pre => .schedPick
  | .worker p => .release (.pi p) (.pull r .pre)

/-- What a processor starts. -/
def begin (s : Sys Task Cpu) (c : Cpu) : Act Task Cpu → Option (Sys Task Cpu)
  | .taskRqLock p => some (s.goto c (.acquire (.pi p) (.rqOf p)))
  | .wake p => some (s.goto c (.acquire (.pi p) (.wakeState p)))
  | .pending =>
    -- `llist_del_all`
    some ((s.setWakeList c []).goto c (.acquire (.rq c) (.resume c (.pending (s.wakeList c)))))
  | .schedule => some (s.goto c (.acquire (.rq c) .schedState))
  | .post => some (s.goto c (.acquire (.rq c) (.push c .post)))
  | .migrate p dest =>
    -- the stopper runs on the processor that the task is to leave, so the task does not
    if s.curr c ≠ some p then
      some (s.goto c (.acquire (.pi p) (doubleRqLock c dest (.migrate p dest))))
    else none
  | .setState sleep => (s.curr c).map fun p => s.setState p (if sleep then .sleeping else .running)
  | _ => none

/-- Between `task_rq_lock(p)` and `task_rq_unlock`. -/
def held (s : Sys Task Cpu) (c : Cpu) (p : Task) (r : Cpu) : Act Task Cpu → Option (Sys Task Cpu)
  | .next => some (s.goto c (.release (.rq r) (.release (.pi p) .idle)))
  | .dequeue => if (s.task p).onRq then some ((s.setQueue p r false).goto c (.taken p r)) else none
  | .setAllowed mask =>
    -- not of a task that is bound
    if s.bound p = none then some { s with allowed := Function.update s.allowed p mask } else none
  | .changed pull => some (s.goto c (if pull then .pull r (.task p) else .push r (.task p)))
  | _ => none

/-- `__schedule` with the lock: whether `prev` is taken off the run queue. -/
def schedState (s : Sys Task Cpu) (c : Cpu) (a : Act Task Cpu) : Option (Sys Task Cpu) :=
  match s.curr c with
  | none => some (s.goto c (.pull c .pre))
  | some p =>
    if (s.task p).state = .running then some (s.goto c (.pull c .pre))
    else
      match a with
      | .preempted => some (s.goto c (.pull c .pre))
      | .signal => some ((s.setState p .running).goto c (.pull c .pre))
      | .next => some ((s.setQueue p c false).goto c (.schedOnRq p))
      | _ => none

/-- Whether a worker is to be woken, and the checks of `try_to_wake_up_local` on it. -/
def schedWorker (s : Sys Task Cpu) (c : Cpu) : Act Task Cpu → Option (Sys Task Cpu)
  | .task p =>
    if s.bound p = some c then
      some (s.goto c
        (if (s.task p).cpu ≠ c ∨ s.curr c = some p then .pull c .pre else .workerLock p))
    else none
  | .next => some (s.goto c (.pull c .pre))
  | _ => none

/-- `try_to_wake_up_local`: if the task's lock is taken, the run queue's is dropped to wait for
it. -/
def workerLock (s : Sys Task Cpu) (c : Cpu) (p : Task) : Sys Task Cpu :=
  if s.owner (.pi p) = none then (s.setOwner (.pi p) (some c)).goto c (.workerState p)
  else s.goto c (.release (.rq c) (.acquire (.pi p) (.acquire (.rq c) (.workerState p))))

/-- `try_to_wake_up_local`, with both locks. -/
def workerState (s : Sys Task Cpu) (c : Cpu) (p : Task) : Sys Task Cpu :=
  if (s.task p).state ≠ .sleeping then s.goto c (.release (.pi p) (.pull c .pre))
  else if (s.task p).onRq then (s.setState p .running).goto c (.push c (.worker p))
  else s.goto c (.activate p c (.worker p))

/-- `pick_next_task`: a task of the run queue, or the idle task. -/
def schedPick (s : Sys Task Cpu) (c : Cpu) : Act Task Cpu → Option (Sys Task Cpu)
  | .task next =>
    if !(s.task next).queue c then none
    else if s.curr c = some next then some (s.goto c (.release (.rq c) .idle))
    else some ((s.setCurr c (some next)).goto c (.schedOn (s.curr c) next))
  | .next =>
    if s.curr c = none then some (s.goto c (.release (.rq c) .idle))
    else some ((s.setCurr c none).goto c (.schedOff (s.curr c)))
  | _ => none

/-- `find_lock_lowest_rq`, after the second lock: the task is looked at again if the first was
dropped. -/
def pushCheck (s : Sys Task Cpu) (c : Cpu) (dropped : Bool) (p : Task) (r dst : Cpu)
    (b : Back Task) :
    Act Task Cpu → Option (Sys Task Cpu)
  | .task q =>
    if q ≠ p then none
    else if dropped ∧ ((s.task p).cpu ≠ r ∨ !s.allowed p dst ∨ (s.task p).onCpu ∨
      !(s.task p).onRq) then none
    else some ((s.setQueue p r false).goto c (.moveCpu p r dst (.release (.rq dst) (.push r b))))
  | .next => some (s.goto c (.release (.rq dst) (.push r b)))
  | _ => none

/-- `pull_rt_task`, with both locks: a task that does not run there and may run here, or none. -/
def pullPick (s : Sys Task Cpu) (c r src : Cpu) (b : Back Task) :
    Act Task Cpu → Option (Sys Task Cpu)
  | .task p =>
    if (s.task p).queue src ∧ !(s.task p).onCpu ∧ s.allowed p r then
      some ((s.setQueue p src false).goto c (.moveCpu p src r (.release (.rq src) (.pull r b))))
    else none
  | .next => some (s.goto c (.release (.rq src) (.pull r b)))
  | _ => none

/-- `push_rt_task`: a task that waits at the run queue is chosen, and another run queue that it may
run at, or the caller goes on. -/
def pushRtTask (s : Sys Task Cpu) (c r : Cpu) (b : Back Task) : Act Task Cpu → Option (Sys Task Cpu)
  | .push p dst =>
    if (s.task p).queue r ∧ s.curr r ≠ some p ∧ r ≠ dst ∧ s.allowed p dst then
      some (s.goto c (.pushBalance p r dst b))
    else none
  | .next => some (s.goto c (.resume r b))
  | _ => none

/-- `pull_rt_task`: another run queue is looked at, or the caller goes on. -/
def pullRtTask (s : Sys Task Cpu) (c r : Cpu) (b : Back Task) : Act Task Cpu → Option (Sys Task Cpu)
  | .cpu src => if r ≠ src then some (s.goto c (.pullBalance r src b)) else none
  | .next => some (s.goto c (.resume r b))
  | _ => none

/-- One step of processor `c`. -/
def step (preempt : Bool) (s : Sys Task Cpu) (o : Cpu × Act Task Cpu) : Option (Sys Task Cpu) :=
  let c := o.1
  match s.pc c with
  | .idle => begin s c o.2
  | .acquire l k => if s.owner l = none then some ((s.setOwner l (some c)).goto c k) else none
  | .release l k => some ((s.setOwner l none).goto c k)
  | .rqOf p => some (s.goto c (.acquire (.rq (s.task p).cpu) (.rqCheck p (s.task p).cpu)))
  | .rqCheck p r =>
    if r = (s.task p).cpu then some (s.goto c (.held p r))
    else some (s.goto c (.release (.rq r) (.release (.pi p) (.acquire (.pi p) (.rqOf p)))))
  | .held p r => held s c p r o.2
  | .taken p r => some ((s.setQueue p r true).goto c (.held p r))
  | .wakeState p =>
    if (s.task p).state = .sleeping then some (s.goto c (.wakeOnRq p))
    else some (s.goto c (.release (.pi p) .idle))
  | .wakeOnRq p => some (s.goto c (if (s.task p).onRq then .wakeRqOf p else .wakeSpin p))
  | .wakeRqOf p => some (s.goto c (.acquire (.rq (s.task p).cpu) (.wakeRqCheck p (s.task p).cpu)))
  | .wakeRqCheck p r =>
    if r = (s.task p).cpu then some (s.goto c (.wakeRemote p r))
    else some (s.goto c (.release (.rq r) (.wakeRqOf p)))
  | .wakeRemote p r =>
    -- still on its run queue: only the state is set, and `task_woken` pushes
    if (s.task p).onRq then some ((s.setState p .running).goto c (.push r (.task p)))
    else some (s.goto c (.release (.rq r) (.wakeSpin p)))
  | .wakeSpin p => if (s.task p).onCpu then none else some (s.goto c (.wakeMark p))
  | .wakeMark p => some ((s.setState p .waking).goto c (.wakeSelect p))
  | .wakeSelect p =>
    match o.2 with
    | .cpu r =>
      -- `select_fallback_rq` may leave the mask, but finds the processor of a task that is bound
      if s.allowed p r ∨ s.bound p = none then some ((s.setCpu p r).goto c (.wakeQueue p)) else none
    | .next => some (s.goto c (.wakeQueue p))
    | _ => none
  | .wakeQueue p =>
    let r := (s.task p).cpu
    match o.2 with
    | .remote => some ((s.setWakeList r (p :: s.wakeList r)).goto c (.release (.pi p) .idle))
    | .next => some (s.goto c (.acquire (.rq r) (.activate p r (.task p))))
    | _ => none
  | .activate p r b => some ((s.setQueue p r true).goto c (.activateOnRq p r b))
  | .activateOnRq p r b => some ((s.setOnRq p true).goto c (.activateRun p r b))
  | .activateRun p r b => some ((s.setState p .running).goto c (.push r b))
  | .schedState => schedState s c o.2
  | .schedOnRq p => some ((s.setOnRq p false).goto c .schedWorker)
  | .schedWorker => schedWorker s c o.2
  | .workerLock p => some (workerLock s c p)
  | .workerState p => some (workerState s c p)
  | .schedPick => schedPick s c o.2
  | .schedOn prev next => some ((s.setOnCpu next true).goto c (.schedOff prev))
  | .schedOff prev =>
    match prev with
    | none => some (s.goto c (.release (.rq c) .idle))
    | some p => some ((s.setOnCpu p false).goto c (.release (.rq c) .idle))
  | .migrate p dest =>
    let done := doubleRqUnlock c dest (.release (.pi p) .idle)
    if (s.task p).cpu = c ∧ s.allowed p dest ∧ (s.task p).onRq then
      some ((s.setQueue p c false).goto c (.moveCpu p c dest done))
    else some (s.goto c done)
  | .moveCpu p _ dst k => some ((s.setCpu p dst).goto c (.moveEnqueue p dst k))
  | .moveEnqueue p dst k => some ((s.setQueue p dst true).goto c k)
  | .push r b => pushRtTask s c r b o.2
  | .pushBalance p r dst b =>
    some (doubleLockBalance preempt s c r dst fun d => .pushCheck d p r dst b)
  | .pushCheck dropped p r dst b => pushCheck s c dropped p r dst b o.2
  | .pull r b => pullRtTask s c r b o.2
  | .pullBalance r src b => some (doubleLockBalance preempt s c r src fun _ => .pullPick r src b)
  | .pullPick r src b => pullPick s c r src b o.2

/-- Every task sleeps, every processor idles; `kthread_bind` has put each bound task at its
processor. -/
def boot (home : Task → Cpu) (mask : Task → Cpu → Bool) (bound : Task → Option Cpu) :
    Sys Task Cpu where
  task p :=
    { cpu := (bound p).getD (home p)
      onRq := false
      onCpu := false
      state := .sleeping
      queue := fun _ => false }
  allowed p r := ((bound p).map fun w => decide (r = w)).getD (mask p r)
  bound := bound
  owner _ := none
  curr _ := none
  wakeList _ := []
  pc _ := .idle

end

end LinuxKernel.Smp

import LinuxKernel.Sched.Rt

/-!
# Android scheduler — `core.c`

The functions of the core that run under `rq->lock` and decide which task is
queued where, with what parameters, and which one runs. They reach the classes
through `hookOf` and `pickOf`, which stand for the function pointers of
`struct sched_class`.

Left out: `nr_uninterruptible`, load weights, statistics and tracing, which do
not influence any of this; code under `CONFIG_SMP`; the message printing.
-/

namespace LinuxKernel.Sched

open LinuxKernel.Lib

variable {σ : Type}

/-! ## Clocks and class dispatch -/

/-- `clock_task` follows `clock`: no irq or steal time is subtracted in this configuration. -/
def updateRqClock (k : Kernel σ) (s : State σ) : State σ :=
  if s.skipClockUpdate > 0 then s
  else
    let delta := k.schedClock s.clockReads - s.clock
    { s with
      clock := s.clock + delta
      clockTask := s.clockTask + delta
      clockReads := s.clockReads + 1 }

@[simp] theorem updateRqClock_toBase (k : Kernel σ) (s : State σ) :
    (updateRqClock k s).toBase = s.toBase := by
  unfold updateRqClock; split <;> rfl

/-- `class->hook(rq, p, arg)` -/
def hookOf (k : Kernel σ) (c : SchedClass) (h : Hook) (s : State σ) (p : Pid) (a : Nat) :
    State σ :=
  match c with
  | .rt  => rtHook k h s p a
  | .wrr => wrrHook k.toConfig h s p a
  | c    => s.applyExt c (k.ext.hook h c s p a)

/-- `class->pick_next_task(rq)` -/
def pickOf (k : Kernel σ) (c : SchedClass) (s : State σ) : Option (Pid × State σ) :=
  match c with
  | .rt  => pickNextTaskRt k s
  | .wrr => (pickNextTaskWrr s).map fun p => (p, s)
  | c    => (k.ext.pick c s).map fun r => (r.1, s.applyExt c r.2)

/-- `p->sched_class->hook(rq, p, arg)` -/
def taskHook (k : Kernel σ) (h : Hook) (s : State σ) (p : Pid) (a : Nat) : State σ :=
  hookOf k (s.tasks p).schedClass h s p a

/-- `enqueue_task` -/
def enqueueTask (k : Kernel σ) (s : State σ) (p : Pid) (flags : Nat) : State σ :=
  taskHook k .enqueueTask (updateRqClock k s) p flags

/-- `dequeue_task` -/
def dequeueTask (k : Kernel σ) (s : State σ) (p : Pid) (flags : Nat) : State σ :=
  taskHook k .dequeueTask (updateRqClock k s) p flags

/-- `activate_task`, without `nr_uninterruptible`. -/
def activateTask (k : Kernel σ) (s : State σ) (p : Pid) (flags : Nat) : State σ :=
  enqueueTask k s p flags

/-- `deactivate_task`, likewise. -/
def deactivateTask (k : Kernel σ) (s : State σ) (p : Pid) (flags : Nat) : State σ :=
  dequeueTask k s p flags

/-! ## Priorities -/

/-- `normal_prio`: what a task has without a boost; a task with `SCHED_WRR` keeps its static
priority. -/
def normalPrio (t : Task) : Nat :=
  if rtPolicy t.policy then maxRtPrio - 1 - t.rtPriority else t.staticPrio

/-- `p->prio = effective_prio(p)` -/
def effectivePrio (t : Task) : Task :=
  { t with
    normalPrio := normalPrio t
    prio := if rtPrio t.prio then t.prio else normalPrio t }

/-- `rt_mutex_getprio` of `rtmutex.c`: a task runs at the priority of its top
waiter if that is higher than its own. -/
def rtMutexGetprio (t : Task) : Nat :=
  match t.piTopWaiter with
  | none => t.normalPrio
  | some w => min w t.normalPrio

/-! ## Preemption checks -/

/-- `check_class_changed`: the old class hears of it first. -/
def checkClassChanged (k : Kernel σ) (s : State σ) (p : Pid) (prevClass : SchedClass)
    (oldprio : Nat) : State σ :=
  if prevClass ≠ (s.tasks p).schedClass then
    taskHook k .switchedTo (hookOf k prevClass .switchedFrom s p 0) p 0
  else if oldprio ≠ (s.tasks p).prio then taskHook k .prioChanged s p oldprio
  else s

/-- The `for_each_class` loop of `check_preempt_curr`: is the class of `p` met before that of
`curr`? -/
def metFirst (curr p : SchedClass) : List SchedClass → Bool
  | [] => false
  | c :: cs => if c = curr then false else if c = p then true else metFirst curr p cs

/-- `check_preempt_curr`: within a class the class decides, between classes their order. -/
def checkPreemptCurr (k : Kernel σ) (s : State σ) (p : Pid) (flags : Nat) : State σ :=
  let pc := (s.tasks p).schedClass
  let cc := (s.tasks s.curr).schedClass
  let s :=
    if pc = cc then hookOf k cc .checkPreemptCurr s p flags
    else if metFirst cc pc forEachClass then s.reschedTask s.curr
    else s
  if (s.tasks s.curr).onRq ∧ s.needResched s.curr then { s with skipClockUpdate := 1 } else s

/-! ## Wake-ups -/

/-- `ttwu_activate` -/
def ttwuActivate (k : Kernel σ) (s : State σ) (p : Pid) (flags : Nat) : State σ :=
  (activateTask k s p flags).setTask p fun t => { t with onRq := true }

/-- `ttwu_do_wakeup` -/
def ttwuDoWakeup (k : Kernel σ) (s : State σ) (p : Pid) (wakeFlags : Nat) : State σ :=
  (checkPreemptCurr k s p wakeFlags).setTask p fun t => { t with state := taskRunning }

/-- `try_to_wake_up` on one processor; nothing happens if the state does not match. -/
def tryToWakeUp (k : Kernel σ) (s : State σ) (p : Pid) (state wakeFlags : Nat) : State σ :=
  if (s.tasks p).state &&& state = 0 then s
  else if (s.tasks p).onRq then ttwuDoWakeup k s p wakeFlags
  else ttwuDoWakeup k (ttwuActivate k s p enqueueWakeup) p 0

/-- `try_to_wake_up_local`; `current` is `prev` of the `schedule()` that calls it. -/
def tryToWakeUpLocal (k : Kernel σ) (s : State σ) (p : Pid) : State σ :=
  if p = s.curr then s
  else if (s.tasks p).state &&& taskNormal = 0 then s
  else
    let s := if (s.tasks p).onRq then s else ttwuActivate k s p enqueueWakeup
    ttwuDoWakeup k s p 0

/-- `wake_up_new_task` -/
def wakeUpNewTask (k : Kernel σ) (s : State σ) (p : Pid) : State σ :=
  let s := (activateTask k s p 0).setTask p fun t => { t with onRq := true }
  checkPreemptCurr k s p wfFork

/-! ## Fork -/

/-- The part of `sched_fork` that resets policy and priority. -/
def resetOnFork (t : Task) : Task :=
  if t.schedResetOnFork then
    let t :=
      if rtPolicy t.policy then
        { t with policy := .normal, staticPrio := niceToPrio 0, rtPriority := 0 }
      else if prioToNice t.staticPrio < 0 then { t with staticPrio := niceToPrio 0 }
      else t
    { t with normalPrio := t.staticPrio, prio := t.staticPrio, schedResetOnFork := false }
  else t

/-- The task `sched_fork` makes of a copy `t` of the current task. A new task
holds no lock; `mm` says whether it is a user task. -/
def forkedTask (t : Task) (mm : Bool) : Task :=
  let t := { t with
    onRq := false, state := taskRunning, prio := t.normalPrio, mm := mm, piTopWaiter := none }
  let t := resetOnFork t
  if rtPrio t.prio then t else { t with schedClass := .fair }

/-- `sched_fork`: the child is a copy of the running task; its accounting starts at zero. -/
def schedFork (k : Kernel σ) (s : State σ) (mm : Bool) : State σ :=
  let p := s.nrTasks
  let s :=
    { s with
      tasks := Function.update s.tasks p (forkedTask (s.tasks s.curr) mm)
      nrTasks := s.nrTasks + 1
      se := Function.update s.se p ⟨0, 0, 0, 0⟩
      rtTimeSlice := Function.update s.rtTimeSlice p (s.rtTimeSlice s.curr)
      needResched := Function.update s.needResched p false }
  taskHook k .taskFork s p 0

/-! ## The scheduler -/

/-- `put_prev_task` -/
def putPrevTask (k : Kernel σ) (s : State σ) (prev : Pid) : State σ :=
  let s := if (s.tasks prev).onRq ∨ s.skipClockUpdate < 0 then updateRqClock k s else s
  taskHook k .putPrevTask s prev 0

/-- The first class of the list that has a task to run. -/
def pickFrom (k : Kernel σ) (s : State σ) : List SchedClass → Option (Pid × State σ)
  | [] => none
  | c :: cs =>
    match pickOf k c s with
    | some r => some r
    | none => pickFrom k s cs

/-- `pick_next_task`; nothing is returned for the `BUG()` at its end. -/
def pickNextTask (k : Kernel σ) (s : State σ) : Option (Pid × State σ) :=
  if s.nrRunning = s.hNrRunning then
    match pickOf k .fair s with
    | some r => some r
    | none => pickFrom k s forEachClass
  else pickFrom k s forEachClass

/-- What `__schedule` finds out about `prev` outside of the scheduler:
`PREEMPT_ACTIVE`, `signal_pending_state`, and the worker that
`wq_worker_sleeping` wants to be woken. -/
structure SchedEnv where
  preemptActive : Bool
  signalPending : Bool
  toWakeup      : Option Pid
  deriving DecidableEq, Repr

/-- The first half of `__schedule`: a task that is not running any more leaves. -/
def schedulePrev (k : Kernel σ) (s : State σ) (e : SchedEnv) : State σ :=
  let prev := s.curr
  if (s.tasks prev).state ≠ taskRunning ∧ e.preemptActive = false then
    if e.signalPending then s.setTask prev fun t => { t with state := taskRunning }
    else
      let s := (deactivateTask k s prev dequeueSleep).setTask prev
        fun t => { t with onRq := false }
      match e.toWakeup with
      | none => s
      | some w => tryToWakeUpLocal k s w
  else s

/-- One round of `__schedule`; its final loop on `need_resched()` is the next one. -/
def schedule (k : Kernel σ) (s : State σ) (e : SchedEnv) : Option (State σ) :=
  let prev := s.curr
  let s := putPrevTask k (schedulePrev k s e) prev
  match pickNextTask k s with
  | none => none
  | some (next, s) =>
    let s := s.clearNeedResched prev
    some { s with skipClockUpdate := 0, curr := next }

/-- `scheduler_tick` -/
def schedulerTick (k : Kernel σ) (s : State σ) : State σ :=
  let s := updateRqClock k s
  taskHook k .taskTick s s.curr 0

/-- `sched_yield`, without the `schedule()` at its end. -/
def yieldTask (k : Kernel σ) (s : State σ) : State σ := taskHook k .yieldTask s s.curr 0

/-! ## Changes of a task's parameters -/

/-- The frame `__sched_setscheduler`, `rt_mutex_setprio` and `sched_move_task`
put around a change: take the task off its queue and off the cpu, change it,
and put it back. -/
def retask (k : Kernel σ) (s : State σ) (p : Pid) (flags : Nat)
    (change : State σ → State σ) : State σ :=
  let onRq := (s.tasks p).onRq
  let running := decide (s.curr = p)
  let s := if onRq then dequeueTask k s p 0 else s
  let s := if running then taskHook k .putPrevTask s p 0 else s
  let s := change s
  let s := if running then taskHook k .setCurrTask s p 0 else s
  if onRq then enqueueTask k s p flags else s

/-- The new class and priority of `rt_mutex_setprio`. -/
def setprioTask (prio : Nat) (t : Task) : Task :=
  { t with schedClass := if rtPrio prio then .rt else .fair, prio := prio }

/-- `rt_mutex_setprio`; `BUG_ON(prio > MAX_PRIO)` is a condition of the operation. -/
def rtMutexSetprio (k : Kernel σ) (s : State σ) (p : Pid) (prio : Nat) : State σ :=
  if p = s.idle then s
  else
    let oldprio := (s.tasks p).prio
    let prevClass := (s.tasks p).schedClass
    let s := retask k s p (if oldprio < prio then enqueueHead else 0)
      fun s => s.setTask p (setprioTask prio)
    checkClassChanged k s p prevClass oldprio

/-- `set_user_nice`: of a real-time task only the static priority is noted. -/
def setUserNice (k : Kernel σ) (s : State σ) (p : Pid) (nice : Int) : State σ :=
  if prioToNice (s.tasks p).staticPrio = nice ∨ nice < -20 ∨ nice > 19 then s
  else if rtPolicy (s.tasks p).policy then
    s.setTask p fun t => { t with staticPrio := niceToPrio nice }
  else
    let onRq := (s.tasks p).onRq
    let s := if onRq then dequeueTask k s p 0 else s
    let oldPrio := (s.tasks p).prio
    let s := s.setTask p fun t => effectivePrio { t with staticPrio := niceToPrio nice }
    let newPrio := (s.tasks p).prio
    if onRq then
      let s := enqueueTask k s p 0
      if newPrio < oldPrio ∨ (oldPrio < newPrio ∧ s.curr = p) then s.reschedTask s.curr else s
    else s

/-- `sched_move_task`: the task is moved while it is off its queue. -/
def schedMoveTask (k : Kernel σ) (s : State σ) (p : Pid) (g : TaskGroup) : State σ :=
  retask k s p 0 fun s =>
    taskHook k .taskMoveGroup (s.setTask p fun t => { t with schedTaskGroup := g }) p
      (s.tasks p).onRq.toNat

/-! ## `__sched_setscheduler` -/

/-- `EPERM` -/
def ePerm : Int := 1
/-- `EINVAL` -/
def eInval : Int := 22

/-- `SCHED_RESET_ON_FORK` -/
def schedResetOnForkFlag : BitVec 32 := 0x40000000#32

/-- The arguments of `__sched_setscheduler`, and what it asks the rest of the
kernel: `capable(CAP_SYS_NICE)`, the `RLIMIT_RTPRIO` of the task, `can_nice`,
`check_same_owner` and the result of `security_task_setscheduler`. -/
structure SetschedArgs where
  policy        : BitVec 32
  schedPriority : Int
  user          : Bool
  capable       : Bool
  rlimRtprio    : Nat
  canNice       : Bool
  sameOwner     : Bool
  security      : Int
  deriving DecidableEq, Repr

/-- The new task parameters: `__setscheduler`. -/
def setscheduler (policy : Policy) (rtPriority : Nat) (t : Task) : Task :=
  let t := { t with policy := policy, rtPriority := rtPriority }
  let t := { t with normalPrio := normalPrio t }
  let t := { t with prio := rtMutexGetprio t }
  { t with
    schedClass :=
      if policy = .wrr then .wrr
      else if rtPrio t.prio then .rt
      else .fair }

/-- The policy and the reset flag asked for; a negative policy keeps both. -/
def requestedPolicy (t : Task) (a : SetschedArgs) : Option (Policy × Bool) :=
  if a.policy.msb then some (t.policy, t.schedResetOnFork)
  else (Policy.ofNat? (a.policy &&& ~~~schedResetOnForkFlag).toNat).map
    fun policy => (policy, a.policy &&& schedResetOnForkFlag != 0)

/-- `MAX_USER_RT_PRIO` and `MAX_RT_PRIO` are the same number, so `p->mm` does not matter here. -/
def validPriority (t : Task) (a : SetschedArgs) : Bool :=
  ! (a.schedPriority < 0 || (t.mm && a.schedPriority > maxRtPrio - 1) ||
    (! t.mm && a.schedPriority > maxRtPrio - 1))

/-- What a user without `CAP_SYS_NICE` may do. -/
def permitted (t : Task) (a : SetschedArgs) (policy : Policy) (reset : Bool) : Bool :=
  ! (rtPolicy policy &&
      ((policy != t.policy && a.rlimRtprio == 0) ||
        (a.schedPriority > t.rtPriority && a.schedPriority > a.rlimRtprio))) &&
  ! (t.policy == .idle && policy != .idle && ! a.canNice) &&
  a.sameOwner &&
  ! (t.schedResetOnFork && ! reset)

/-- The checks of `__sched_setscheduler`. An error is the value it returns;
`none` stands for the return of 0 without any change. -/
def setschedulerRequest (k : Kernel σ) (stop : Option Pid) (p : Pid) (t : Task)
    (a : SetschedArgs) : Except Int (Option (Policy × Bool)) :=
  match requestedPolicy t a with
  | none => .error (-eInval)
  | some (policy, reset) =>
    if validPriority t a = false then .error (-eInval)
    else if rtPolicy policy ≠ (a.schedPriority != 0) then .error (-eInval)
    else if a.user ∧ a.capable = false ∧ permitted t a policy reset = false then .error (-ePerm)
    else if a.user ∧ a.security ≠ 0 then .error a.security
    else if stop = some p then .error (-eInval)
    else if policy = t.policy ∧ (rtPolicy policy = false ∨ a.schedPriority = t.rtPriority) then
      .ok none
    else if a.user ∧ k.rtBandwidthEnabled ∧ rtPolicy policy ∧
        k.rtRuntime t.schedTaskGroup = 0 then .error (-ePerm)
    else .ok (some (policy, reset))

/-- The change it makes to the task. -/
def setschedulerTask (policy : Policy) (rtPriority : Nat) (reset : Bool) (t : Task) : Task :=
  setscheduler policy rtPriority { t with schedResetOnFork := reset }

/-- `sched_setscheduler`: the result and the new state. -/
def schedSetscheduler (k : Kernel σ) (s : State σ) (p : Pid) (a : SetschedArgs) :
    Int × State σ :=
  match setschedulerRequest k s.stop p (s.tasks p) a with
  | .error e => (e, s)
  | .ok none => (0, s)
  | .ok (some (policy, reset)) =>
    let oldprio := (s.tasks p).prio
    let prevClass := (s.tasks p).schedClass
    let s := retask k s p 0 fun s =>
      s.setTask p (setschedulerTask policy a.schedPriority.toNat reset)
    (0, checkClassChanged k s p prevClass oldprio)

/-- `sched_setscheduler_nocheck(stop, SCHED_FIFO, MAX_RT_PRIO - 1)` -/
def stopArgs : SetschedArgs :=
  { policy := 1#32, schedPriority := 99, user := false, capable := true, rlimRtprio := 0
    canNice := true, sameOwner := true, security := 0 }

/-- The two halves of `sched_set_stop_task`: the new stop task and the old one. -/
def installStopTask (k : Kernel σ) (s : State σ) : Option Pid → State σ
  | none => s
  | some p => (schedSetscheduler k s p stopArgs).2.setTask p
      fun t => { t with schedClass := .stop }

/-- The second half: the old stop task is a real-time task again. -/
def retireStopTask (s : State σ) : Option Pid → State σ
  | none => s
  | some p => s.setTask p fun t => { t with schedClass := .rt }

/-- `sched_set_stop_task` -/
def schedSetStopTask (k : Kernel σ) (s : State σ) (stop : Option Pid) : State σ :=
  retireStopTask { installStopTask k s stop with stop := stop } s.stop

end LinuxKernel.Sched

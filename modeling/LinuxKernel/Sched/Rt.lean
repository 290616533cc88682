import LinuxKernel.Sched.Wrr

/-!
# Android scheduler — `rt.c`

The real-time class with group scheduling, on one cpu. Every task group has an
`rt_rq`, a priority array of entities: tasks of the group and the entities of
its child groups. The list operations are functions of the tasks and of all
the run queues.

Left out: the pushable lists and migration counters, which are empty stubs
without `CONFIG_SMP`; the list of leaf run queues, which nothing modelled reads;
`watchdog` and `rt.timeout`, which send signals and take no part in scheduling;
the start of the period timer, which is an operation of its own here.
-/

namespace LinuxKernel.Sched

open LinuxKernel.Lib

/-- `RUNTIME_INF` -/
def runtimeInf : Nat := 2 ^ 64 - 1

/-- The run queues of the class, one for each group; `[]` is the root group. -/
abbrev RtRqs := TaskGroup → RtRq

/-- `init_rt_rq` and `init_tg_rt_entry` -/
def initRtRq : RtRq :=
  { active := .empty, rtNrRunning := 0, highestPrio := maxRtPrio
    rtThrottled := false, rtTime := 0, rtNrBoosted := 0 }

/-! ## Entities -/

/-- `rt_rq_throttled`: a run queue with a boosted task in it runs all the same. -/
def rtRqThrottled (r : RtRq) : Bool := r.rtThrottled && r.rtNrBoosted == 0

/-- `rt_rq_of_se`: the group whose `rt_rq` an entity is queued on. -/
def rtRqOfSe (tasks : Pid → Task) : RtSe → TaskGroup
  | .task p  => (tasks p).schedTaskGroup
  | .group g => g.tail

/-- `rt_se_boosted`: a task whose priority was inherited, or a group that holds one. -/
def rtSeBoosted (tasks : Pid → Task) (rt : RtRqs) : RtSe → Bool
  | .task p  => (tasks p).prio != (tasks p).normalPrio
  | .group g => (rt g).rtNrBoosted != 0

/-- `rt_se_prio`: that of the task, or of the best task in the group. -/
def rtSePrio (tasks : Pid → Task) (rt : RtRqs) : RtSe → Nat
  | .task p  => (tasks p).prio
  | .group g => (rt g).highestPrio

/-- The entities of a group and of its ancestors, the root excepted. -/
def groupStack : TaskGroup → List RtSe
  | [] => []
  | n :: g => .group (n :: g) :: groupStack g

/-- The entities `for_each_sched_rt_entity` visits, from `se` upwards. -/
def forEachSchedRtEntity (tasks : Pid → Task) : RtSe → List RtSe
  | .task p  => .task p :: groupStack (tasks p).schedTaskGroup
  | .group g => groupStack g

/-- `on_rt_rq`: the entity is linked into one of the lists of its run queue. -/
def onRtRq (tasks : Pid → Task) (rt : RtRqs) (se : RtSe) : Bool :=
  (List.range maxRtPrio).any fun i =>
    ((rt (rtRqOfSe tasks se)).active.queue i).contains se

/-! ## Counters of one run queue -/

/-- `inc_rt_prio`: `highest_prio` after an entity has come. -/
def incRtPrio (r : RtRq) (prio : Nat) : RtRq :=
  if prio < r.highestPrio then { r with highestPrio := prio } else r

/-- `dec_rt_prio`: after one has gone, the next best is looked up in the bitmap. -/
def decRtPrio (r : RtRq) (prio : Nat) : RtRq :=
  if r.rtNrRunning ≠ 0 then
    if prio = r.highestPrio then
      { r with highestPrio := PrioArray.findFirstBit maxRtPrio r.active }
    else r
  else { r with highestPrio := maxRtPrio }

/-- `inc_rt_group` -/
def incRtGroup (r : RtRq) (boosted : Bool) : RtRq :=
  if boosted then { r with rtNrBoosted := r.rtNrBoosted + 1 } else r

/-- `dec_rt_group` -/
def decRtGroup (r : RtRq) (boosted : Bool) : RtRq :=
  if boosted then { r with rtNrBoosted := usub 32 r.rtNrBoosted 1 } else r

/-- `inc_rt_tasks` -/
def incRtTasks (r : RtRq) (prio : Nat) (boosted : Bool) : RtRq :=
  incRtGroup (incRtPrio { r with rtNrRunning := r.rtNrRunning + 1 } prio) boosted

/-- `dec_rt_tasks` -/
def decRtTasks (r : RtRq) (prio : Nat) (boosted : Bool) : RtRq :=
  decRtGroup (decRtPrio { r with rtNrRunning := usub 32 r.rtNrRunning 1 } prio) boosted

/-! ## Queueing -/

/-- A group entity is not queued while the group is throttled or empty. -/
def skipGroup (rt : RtRqs) : RtSe → Bool
  | .task _  => false
  | .group g => rtRqThrottled (rt g) || (rt g).rtNrRunning == 0

/-- `__enqueue_rt_entity` -/
def enqueueRtEntityRaw (tasks : Pid → Task) (head : Bool) (rt : RtRqs) (se : RtSe) : RtRqs :=
  if skipGroup rt se then rt
  else
    let g := rtRqOfSe tasks se
    let prio := rtSePrio tasks rt se
    let r := { rt g with active := (rt g).active.add prio se head }
    Function.update rt g (incRtTasks r prio (rtSeBoosted tasks rt se))

/-- `__dequeue_rt_entity` -/
def dequeueRtEntityRaw (tasks : Pid → Task) (rt : RtRqs) (se : RtSe) : RtRqs :=
  let g := rtRqOfSe tasks se
  let prio := rtSePrio tasks rt se
  let r := { rt g with active := (rt g).active.del prio se }
  Function.update rt g (decRtTasks r prio (rtSeBoosted tasks rt se))

/-- From the top down: the priority of an entity depends on those below it. -/
def dequeueRtStack (tasks : Pid → Task) (rt : RtRqs) (se : RtSe) : RtRqs :=
  (forEachSchedRtEntity tasks se).foldr
    (fun e rt => if onRtRq tasks rt e then dequeueRtEntityRaw tasks rt e else rt) rt

/-- `enqueue_rt_entity`: everything above the entity is taken out first, and put back from below. -/
def enqueueRtEntity (tasks : Pid → Task) (rt : RtRqs) (se : RtSe) (head : Bool) : RtRqs :=
  (forEachSchedRtEntity tasks se).foldl (enqueueRtEntityRaw tasks head)
    (dequeueRtStack tasks rt se)

/-- What `dequeue_rt_entity` does to one entity on the way up. -/
def reenqueueGroup (tasks : Pid → Task) (rt : RtRqs) : RtSe → RtRqs
  | .task _  => rt
  | .group g =>
    if (rt g).rtNrRunning ≠ 0 then enqueueRtEntityRaw tasks false rt (.group g) else rt

/-- `dequeue_rt_entity`: only groups that still hold something are put back. -/
def dequeueRtEntity (tasks : Pid → Task) (rt : RtRqs) (se : RtSe) : RtRqs :=
  (forEachSchedRtEntity tasks se).foldl (reenqueueGroup tasks) (dequeueRtStack tasks rt se)

/-- `requeue_rt_entity` -/
def requeueRtEntity (tasks : Pid → Task) (head : Bool) (rt : RtRqs) (se : RtSe) : RtRqs :=
  if onRtRq tasks rt se then
    let g := rtRqOfSe tasks se
    Function.update rt g
      { rt g with active := (rt g).active.move (rtSePrio tasks rt se) se head }
  else rt

/-- `requeue_task_rt`: the task and every group above it go to the end of their lists. -/
def requeueTaskRt (tasks : Pid → Task) (rt : RtRqs) (p : Pid) (head : Bool) : RtRqs :=
  (forEachSchedRtEntity tasks (.task p)).foldl (requeueRtEntity tasks head) rt

section Hooks

variable {σ : Type}

/-- Write to the run queues of the class. -/
def State.setRt (s : State σ) (rt : RtRqs) : State σ := { s with rt := rt }

@[simp] theorem State.setRt_toBase (s : State σ) (rt : RtRqs) :
    (s.setRt rt).toBase = s.toBase := rfl

/-- Write to the fields of one `rt_rq`. -/
def State.setRtRq (s : State σ) (g : TaskGroup) (f : RtRq → RtRq) : State σ :=
  s.setRt (Function.update s.rt g (f (s.rt g)))

@[simp] theorem State.setRtRq_toBase (s : State σ) (g : TaskGroup) (f : RtRq → RtRq) :
    (s.setRtRq g f).toBase = s.toBase := rfl

/-! ## Bandwidth -/

/-- `sched_rt_rq_enqueue`: a group that may run again is enqueued, and may preempt. -/
def schedRtRqEnqueue (s : State σ) (g : TaskGroup) : State σ :=
  if (s.rt g).rtNrRunning ≠ 0 then
    let s := if g ≠ [] ∧ ¬ onRtRq s.tasks s.rt (.group g) then
        s.setRt (enqueueRtEntity s.tasks s.rt (.group g) false)
      else s
    if (s.rt g).highestPrio < (s.tasks s.curr).prio then s.reschedTask s.curr else s
  else s

/-- `sched_rt_rq_dequeue`: a group that is throttled leaves its run queue. -/
def schedRtRqDequeue (s : State σ) (g : TaskGroup) : State σ :=
  if g ≠ [] ∧ onRtRq s.tasks s.rt (.group g) then
    s.setRt (dequeueRtEntity s.tasks s.rt (.group g))
  else s

/-- `sched_rt_runtime_exceeded`; the second component is the result. `balance_runtime` does nothing
on one cpu. -/
def schedRtRuntimeExceeded (k : Kernel σ) (s : State σ) (g : TaskGroup) : State σ × Bool :=
  if (s.rt g).rtThrottled then (s, rtRqThrottled (s.rt g))
  else if k.rtRuntime g ≥ k.rtPeriod g then (s, false)
  else if k.rtRuntime g = runtimeInf then (s, false)
  else if (s.rt g).rtTime > k.rtRuntime g then
    let s := s.setRtRq g fun r =>
      if k.rtRuntime g ≠ 0 then { r with rtThrottled := true } else { r with rtTime := 0 }
    if rtRqThrottled (s.rt g) then (schedRtRqDequeue s g, true) else (s, false)
  else (s, false)

/-- One round of the loop in `update_curr_rt`, for the run queue of group `g`. -/
def chargeRtRq (k : Kernel σ) (delta : Nat) (s : State σ) (g : TaskGroup) : State σ :=
  if k.rtRuntime g ≠ runtimeInf then
    let s := s.setRtRq g fun r => { r with rtTime := r.rtTime + delta }
    let (s, exceeded) := schedRtRuntimeExceeded k s g
    if exceeded then s.reschedTask s.curr else s
  else s

/-- `update_curr_rt`: the running task is charged, and so are all groups above it. -/
def updateCurrRt (k : Kernel σ) (s : State σ) : State σ :=
  if (s.tasks s.curr).schedClass ≠ .rt then s
  else
    let delta := s.deltaExec
    let s := s.chargeCurr
    if !k.rtBandwidthEnabled then s
    else (forEachSchedRtEntity s.tasks (.task s.curr)).foldl
      (fun t se => chargeRtRq k delta t (rtRqOfSe s.tasks se)) s

/-- The body of `do_sched_rt_period_timer` for the `rt_rq` of one group on the
only cpu. Its result only says whether to restart the timer. -/
def doSchedRtPeriodTimer (k : Kernel σ) (s : State σ) (g : TaskGroup) (overrun : Nat) :
    State σ :=
  if (s.rt g).rtTime ≠ 0 then
    let runtime := k.rtRuntime g
    let s := s.setRtRq g fun r => { r with rtTime := r.rtTime - min r.rtTime (overrun * runtime) }
    if (s.rt g).rtThrottled ∧ (s.rt g).rtTime < runtime then
      let s := s.setRtRq g fun r => { r with rtThrottled := false }
      let s := if (s.rt g).rtNrRunning ≠ 0 ∧ s.curr = s.idle then
          { s with skipClockUpdate := -1 }
        else s
      schedRtRqEnqueue s g
    else s
  else if (s.rt g).rtNrRunning ≠ 0 ∧ ¬ rtRqThrottled (s.rt g) then schedRtRqEnqueue s g
  else s

/-! ## The hooks -/

/-- `enqueue_task_rt` -/
def enqueueTaskRt (s : State σ) (p : Pid) (flags : Nat) : State σ :=
  (s.setRt (enqueueRtEntity s.tasks s.rt (.task p) (flags &&& enqueueHead != 0))).incNrRunning

/-- `dequeue_task_rt` -/
def dequeueTaskRt (k : Kernel σ) (s : State σ) (p : Pid) : State σ :=
  let s := updateCurrRt k s
  (s.setRt (dequeueRtEntity s.tasks s.rt (.task p))).decNrRunning

/-- `yield_task_rt` -/
def yieldTaskRt (s : State σ) : State σ :=
  s.setRt (requeueTaskRt s.tasks s.rt s.curr false)

/-- `check_preempt_curr_rt`: a smaller number is a better priority. -/
def checkPreemptCurrRt (s : State σ) (p : Pid) : State σ :=
  if (s.tasks p).prio < (s.tasks s.curr).prio then s.reschedTask s.curr else s

/-- `pick_next_rt_entity`; nothing for the `BUG_ON`. -/
def pickNextRtEntity (r : RtRq) : Option RtSe :=
  (r.active.queue (PrioArray.findFirstBit maxRtPrio r.active)).head?

/-- The loop of `_pick_next_task_rt`, over at most `n` levels of groups. -/
def descendRt (rt : RtRqs) : Nat → TaskGroup → Option Pid
  | 0, _ => none
  | n + 1, g =>
    match pickNextRtEntity (rt g) with
    | none => none
    | some (.task p) => some p
    | some (.group h) => descendRt rt n h

/-- `_pick_next_task_rt`; nothing if the root run queue is empty or throttled. -/
def pickNextTaskRt (k : Kernel σ) (s : State σ) : Option (Pid × State σ) :=
  if (s.rt []).rtNrRunning = 0 then none
  else if rtRqThrottled (s.rt []) then none
  else match descendRt s.rt (k.maxDepth + 1) [] with
    | none => none
    | some p => some (p, s.setExecStart p s.clockTask)

/-- `put_prev_task_rt` -/
def putPrevTaskRt (k : Kernel σ) (s : State σ) : State σ := updateCurrRt k s

/-- `switched_to_rt` -/
def switchedToRt (s : State σ) (p : Pid) : State σ :=
  if (s.tasks p).onRq ∧ s.curr ≠ p ∧ (s.tasks p).prio < (s.tasks s.curr).prio then
    s.reschedTask s.curr
  else s

/-- `prio_changed_rt`: the running task asks for a reschedule if its priority got worse, any other
task if it is better than the running one. -/
def prioChangedRt (s : State σ) (p : Pid) (oldprio : Nat) : State σ :=
  if (s.tasks p).onRq = false then s
  else if s.curr = p then
    if oldprio < (s.tasks p).prio then s.reschedTask p else s
  else if (s.tasks p).prio < (s.tasks s.curr).prio then s.reschedTask s.curr
  else s

/-- `run_list.prev != run_list.next`, in the list the entity would be in. -/
def hasNeighbours (tasks : Pid → Task) (rt : RtRqs) (se : RtSe) : Bool :=
  let queue := (rt (rtRqOfSe tasks se)).active.queue (rtSePrio tasks rt se)
  decide (ringPrev queue se ≠ ringNext queue se)

/-- `task_tick_rt`: of the two policies only `SCHED_RR` has slices. -/
def taskTickRt (k : Kernel σ) (s : State σ) (p : Pid) : State σ :=
  let s := updateCurrRt k s
  if (s.tasks p).policy ≠ .rr then s
  else
    let slice := usub 32 (s.rtTimeSlice p) 1
    if slice ≠ 0 then { s with rtTimeSlice := Function.update s.rtTimeSlice p slice }
    else
      let s := { s with rtTimeSlice := Function.update s.rtTimeSlice p k.rrTimeslice }
      if (forEachSchedRtEntity s.tasks (.task p)).any (hasNeighbours s.tasks s.rt) then
        (s.setRt (requeueTaskRt s.tasks s.rt p false)).reschedTask p
      else s

/-- `set_curr_task_rt` -/
def setCurrTaskRt (s : State σ) : State σ := s.setExecStart s.curr s.clockTask

/-- `rt_sched_class`. It has no `task_fork` and no `task_move_group`, and no
`switched_from` without `CONFIG_SMP`. -/
def rtHook (k : Kernel σ) : Hook → State σ → Pid → Nat → State σ
  | .enqueueTask, s, p, flags => enqueueTaskRt s p flags
  | .dequeueTask, s, p, _ => dequeueTaskRt k s p
  | .yieldTask, s, _, _ => yieldTaskRt s
  | .checkPreemptCurr, s, p, _ => checkPreemptCurrRt s p
  | .putPrevTask, s, _, _ => putPrevTaskRt k s
  | .setCurrTask, s, _, _ => setCurrTaskRt s
  | .taskTick, s, p, _ => taskTickRt k s p
  | .taskFork, s, _, _ => s
  | .switchedFrom, s, _, _ => s
  | .switchedTo, s, p, _ => switchedToRt s p
  | .prioChanged, s, p, oldprio => prioChangedRt s p oldprio
  | .taskMoveGroup, s, _, _ => s

end Hooks

end LinuxKernel.Sched

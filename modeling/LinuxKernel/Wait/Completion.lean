import LinuxKernel.Wait.Queue

/-!
# Completions

`complete`, `complete_all` and the functions that wait for a completion, called by the tasks of the
scheduler in any order.

Every call holds `x->wait.lock` but for the time it spends in `schedule_timeout`. So a call of
`wait_for_common` is cut there: `Op.wait` is the part before it sleeps for the first time,
`Op.resume` the part from a return of `schedule_timeout` to the next sleep or to the end. In between
anything may happen that the scheduler does, timers and signals included, which are wake-ups like
any other.

* `System.Inv`           — who is on the queue, who sleeps, and that enough of them are awake.
* `exec_balance`         — one step: what it adds to `done` and takes from it.
* `completion_accounts`  — over a run: `done` is what was signalled less what the callers were told
  they got.
* `completion_wakes`     — no lost wake-up: as many waiters are runnable as `done` asks for.
-/

namespace LinuxKernel.Wait

open LinuxKernel.Lib LinuxKernel.Sched

variable {σ : Type}

/-! ## The functions -/

/-- `TASK_INTERRUPTIBLE` -/
def taskInterruptible : Nat := 1
/-- `TASK_UNINTERRUPTIBLE` -/
def taskUninterruptible : Nat := 2
/-- `TASK_WAKEKILL` -/
def taskWakekill : Nat := 128
/-- `TASK_KILLABLE` -/
def taskKillable : Nat := taskWakekill ||| taskUninterruptible

/-- `MAX_SCHEDULE_TIMEOUT` -/
def maxScheduleTimeout : Int := 2 ^ 31 - 1
/-- `ERESTARTSYS` -/
def eRestartSys : Int := 512
/-- `UINT_MAX/2` -/
def uintMaxHalf : Nat := 2 ^ 31 - 1

/-- The functions that wait for a completion; their timeouts are of type `unsigned long`. -/
inductive WaitKind
  | plain
  | plainTimeout (timeout : BitVec 32)
  | interruptible
  | interruptibleTimeout (timeout : BitVec 32)
  | killable
  | killableTimeout (timeout : BitVec 32)
  deriving DecidableEq, Repr

namespace WaitKind

/-- The two arguments of `wait_for_common`; the timeout is converted to `long`. -/
def timeout : WaitKind → Int
  | .plain | .interruptible | .killable => maxScheduleTimeout
  | .plainTimeout t | .interruptibleTimeout t | .killableTimeout t => t.toInt

def state : WaitKind → Nat
  | .plain | .plainTimeout _ => taskUninterruptible
  | .interruptible | .interruptibleTimeout _ => taskInterruptible
  | .killable | .killableTimeout _ => taskKillable

/-- Has the function no timeout argument? -/
def untimed : WaitKind → Bool
  | .plain | .interruptible | .killable => true
  | _ => false

/-- What the function returns when `wait_for_common` returns `t`; `wait_for_completion` returns
nothing. -/
def result : WaitKind → Int → Option Int
  | .plain, _ => none
  | .interruptible, t | .killable, t => some (if t = -eRestartSys then t else 0)
  | .plainTimeout _, t | .interruptibleTimeout _, t | .killableTimeout _, t => some t

/-- Does the result say that the completion was there? By the comments over the functions this is 0
without a timeout and a positive number with one; the result of `wait_for_completion_timeout` is
unsigned. -/
def completed (kind : WaitKind) (t : Int) : Bool :=
  match kind with
  | .plain => true
  | .plainTimeout _ => kind.result t ≠ some 0
  | .interruptible | .killable => kind.result t = some 0
  | .interruptibleTimeout _ | .killableTimeout _ => (kind.result t).any (0 < ·)

end WaitKind

/-- `TIF_SIGPENDING`, and whether `SIGKILL` is among the pending signals. -/
structure Signals where
  pending : Bool
  kill    : Bool
  deriving DecidableEq, Repr

def signalPendingState (state : Nat) (sig : Signals) : Bool :=
  state &&& (taskInterruptible ||| taskWakekill) != 0 && sig.pending &&
    (state &&& taskInterruptible != 0 || sig.kill)

/-- A call of `wait_for_common` in `schedule_timeout(timeout)`. -/
structure Call where
  kind    : WaitKind
  timeout : Int
  deriving DecidableEq, Repr

/-- The values `schedule_timeout` can return. A negative timeout is an error, and it returns at
once. -/
def scheduleTimeoutReturns (timeout left : Int) : Prop :=
  if timeout = maxScheduleTimeout then left = maxScheduleTimeout
  else 0 ≤ left ∧ left ≤ max timeout 0

instance (timeout left : Int) : Decidable (scheduleTimeoutReturns timeout left) := by
  unfold scheduleTimeoutReturns
  infer_instance

/-- The scheduler, one `struct completion`, and the calls that are asleep or about to go on. -/
structure System (σ : Type) where
  sched : State σ
  done  : BitVec 32
  wait  : List WaitQueueEntry
  calls : Pid → Option Call

/-- `init_completion` -/
def System.init (s : State σ) : System σ :=
  { sched := s, done := 0, wait := [], calls := fun _ => none }

/-- What an operation returns to its caller. -/
inductive Outcome
  | none
  | sleeping
  | returned (kind : WaitKind) (t : Int)
  | tried (ok : Bool)
  deriving DecidableEq, Repr

/-- `timeout ?: 1` -/
def orOne (timeout : Int) : Int := if timeout = 0 then 1 else timeout

/-- `x->done--`, at the end of `do_wait_for_common`. -/
def takeDone (x : System σ) (kind : WaitKind) (timeout : Int) : System σ × Outcome :=
  ({ x with done := x.done - 1 }, .returned kind (orOne timeout))

/-- From `__remove_wait_queue` to the end. -/
def leaveQueue (x : System σ) (kind : WaitKind) (timeout : Int) : System σ × Outcome :=
  let p := x.sched.curr
  let x := { x with
    wait := x.wait.filter (·.task ≠ p)
    calls := Function.update x.calls p none }
  if x.done = 0 then (x, .returned kind timeout) else takeDone x kind timeout

/-- The body of the loop, up to `spin_unlock_irq`. -/
def waitRound (x : System σ) (call : Call) (sig : Signals) : System σ × Outcome :=
  if signalPendingState call.kind.state sig then leaveQueue x call.kind (-eRestartSys)
  else
    ({ x with
      sched := x.sched.setTask x.sched.curr fun t => { t with state := call.kind.state }
      calls := Function.update x.calls x.sched.curr (some call) }, .sleeping)

/-- `do_wait_for_common`, up to its first sleep. -/
def doWaitForCommon (x : System σ) (kind : WaitKind) (sig : Signals) : System σ × Outcome :=
  if x.done = 0 then
    waitRound { x with wait := x.wait ++ [⟨x.sched.curr, true⟩] } ⟨kind, kind.timeout⟩ sig
  else takeDone x kind kind.timeout

/-- `schedule_timeout` has returned: the condition of the loop, and what follows. -/
def resumeWait (x : System σ) (call : Call) (left : Int) (sig : Signals) : System σ × Outcome :=
  if x.done = 0 ∧ left ≠ 0 then waitRound x { call with timeout := left } sig
  else leaveQueue x call.kind left

def complete (k : Kernel σ) (x : System σ) : System σ :=
  { x with done := x.done + 1, sched := wakeUpCommon k taskNormal 0 x.wait 1 x.sched }

def completeAll (k : Kernel σ) (x : System σ) : System σ :=
  { x with
    done := x.done + BitVec.ofNat 32 uintMaxHalf
    sched := wakeUpCommon k taskNormal 0 x.wait 0 x.sched }

def tryWaitForCompletion (x : System σ) : System σ × Outcome :=
  if x.done = 0 then (x, .tried false) else ({ x with done := x.done - 1 }, .tried true)

def completionDone (x : System σ) : Bool := x.done != 0

/-- One step: an operation of the scheduler, or one under `x->wait.lock`. The tasks that wait do so
as the current task. -/
inductive Op
  | sched (op : Sched.Op)
  | wait (kind : WaitKind) (sig : Signals)
  | resume (left : Int) (sig : Signals)
  | complete
  | completeAll
  | tryWait
  deriving DecidableEq

/-- A task in `schedule_timeout` does not write its own state. -/
def writesState : Sched.Op → Bool
  | .setState _ => true
  | _ => false

def exec (k : Kernel σ) (x : System σ) : Op → Option (System σ × Outcome)
  | .sched op =>
    if writesState op = true ∧ (x.calls x.sched.curr).isSome then none
    else (Sched.step k x.sched op).map fun s => ({ x with sched := s }, .none)
  | .wait kind sig =>
    if x.sched.curr = x.sched.idle ∨ (x.calls x.sched.curr).isSome then none
    else some (doWaitForCommon x kind sig)
  | .resume left sig =>
    match x.calls x.sched.curr with
    | none => none
    | some call =>
      if (x.sched.tasks x.sched.curr).state = taskRunning ∧
          scheduleTimeoutReturns call.timeout left then
        some (resumeWait x call left sig)
      else none
  | .complete => some (complete k x, .none)
  | .completeAll => some (completeAll k x, .none)
  | .tryWait => some (tryWaitForCompletion x)

def System.next (k : Kernel σ) (x : System σ) (op : Op) : Option (System σ) :=
  (exec k x op).map (·.1)

/-! ## Counting -/

/-- How many completions an operation signals. -/
def Op.signalled : Op → Nat
  | .complete => 1
  | .completeAll => uintMaxHalf
  | _ => 0

/-- How many completions its caller is told that it got. -/
def Outcome.taken : Outcome → Nat
  | .returned kind t => (kind.completed t).toNat
  | .tried ok => ok.toNat
  | _ => 0

def taken (k : Kernel σ) (r : StepRec (System σ) Op) : Nat :=
  match exec k r.pre r.op with
  | some (_, outcome) => outcome.taken
  | none => 0

/-- The timeout fits into the type `wait_for_common` has for it. -/
def Op.timely : Op → Prop
  | .wait kind _ => 0 ≤ kind.timeout
  | _ => True

/-! ## The invariant -/

namespace System

def waiters (x : System σ) : List Pid := x.wait.map (·.task)

/-- The waiters that sleep. -/
def sleeping (x : System σ) : List Pid := x.waiters.filter (sleeps x.sched taskNormal)

/-- The invariant of a completion. The queue holds the tasks that are in `schedule_timeout`; each is
in the state it waits in, or awake and on its run queue. `enough` says that nobody was forgotten:
`done` of the waiters, or all of them, are awake. -/
structure Inv (k : Kernel σ) (x : System σ) : Prop where
  sched     : Sched.Inv k x.sched
  nodup     : x.waiters.Nodup
  exclusive : ∀ w ∈ x.wait, w.exclusive = true
  call      : ∀ p, p ∈ x.waiters ↔ (x.calls p).isSome = true
  task      : ∀ p ∈ x.waiters, p < x.sched.nrTasks ∧ p ≠ x.sched.idle
  state     : ∀ p c, x.calls p = some c →
    ((x.sched.tasks p).state = taskRunning ∧ (x.sched.tasks p).onRq = true) ∨
      (x.sched.tasks p).state = c.kind.state
  timeout   : ∀ p c, x.calls p = some c → c.kind.untimed = true → c.timeout = maxScheduleTimeout
  enough    : min x.done.toNat x.waiters.length + x.sleeping.length ≤ x.waiters.length

end System

theorem WaitKind.state_sleeps (kind : WaitKind) : kind.state &&& taskNormal ≠ 0 := by
  cases kind <;> simp [WaitKind.state, taskUninterruptible, taskInterruptible,
    taskKillable, taskWakekill, taskNormal]

theorem not_sleeps_of_running {s : State σ} {p : Pid} {mode : Nat}
    (h : (s.tasks p).state = taskRunning) : sleeps s mode p = false := by
  simp [sleeps, h, taskRunning]

/-- A task that keeps its state or wakes up does not fall asleep. -/
theorem RunKept.sleeps {s t : State σ} {p : Pid} {mode : Nat} (h : RunKept (s.tasks p) (t.tasks p))
    (hs : Wait.sleeps t mode p = true) : Wait.sleeps s mode p = true := by
  rcases h with ⟨hst, -⟩ | ⟨hrun, -⟩
  · unfold Wait.sleeps at hs ⊢
    rwa [hst] at hs
  · rw [not_sleeps_of_running hrun] at hs
    cases hs

/-- A scheduler step does not touch the number of tasks but by a fork, nor the idle task. -/
theorem step_frame {k : Kernel σ} {s t : State σ} {op : Sched.Op}
    (hstep : Sched.step k s op = some t) :
    s.nrTasks ≤ t.nrTasks ∧ t.idle = s.idle := by
  obtain ⟨-, hout, -⟩ := step_outline hstep
  constructor
  · have hnr : t.nrTasks = (op.outline k s.toBase.outline).nrTasks := by
      rw [← Base.outline_nrTasks, hout]
    rcases Op.outline_nrTasks k s.toBase.outline op with h | ⟨-, h⟩ <;>
      rw [hnr, h, Base.outline_nrTasks]
    omega
  · rw [← Base.outline_idle, hout]
    exact (Op.outline_curr k s.toBase.outline op).2

theorem wakeUpCommon_frame (k : Kernel σ) (mode flags : Nat) (q : List WaitQueueEntry) (nr : Int)
    (s : State σ) : (wakeUpCommon k mode flags q nr s).nrTasks = s.nrTasks ∧
      (wakeUpCommon k mode flags q nr s).idle = s.idle := by
  induction q generalizing nr s with
  | nil => exact ⟨rfl, rfl⟩
  | cons w q ih =>
    have hfirst : (tryToWakeUp k s w.task mode flags).nrTasks = s.nrTasks ∧
        (tryToWakeUp k s w.task mode flags).idle = s.idle := by
      refine ⟨tryToWakeUp_nrTasks .., ?_⟩
      rw [← Base.outline_idle, tryToWakeUp_outline]
      split <;> rfl
    have hrest := fun nr => ih nr (tryToWakeUp k s w.task mode flags)
    simp only [hfirst] at hrest
    unfold wakeUpCommon defaultWakeFunction
    dsimp only
    split
    · split
      · exact hfirst
      · exact hrest _
    · exact hrest _

theorem toNat_sub_one {d : BitVec 32} (h : d ≠ 0) : (d - 1).toNat = d.toNat - 1 := by
  have hpos : d.toNat ≠ 0 := fun h0 => h (BitVec.eq_of_toNat_eq h0)
  have hone : (1 : BitVec 32).toNat = 1 := rfl
  have := d.isLt
  rw [BitVec.toNat_sub, hone]
  omega

namespace System.Inv

variable {k : Kernel σ} {x : System σ} {p : Pid}

theorem init {s : State σ} (hs : Sched.Inv k s) : Inv k (System.init s) where
  sched := hs
  nodup := List.nodup_nil
  exclusive w hw := by cases hw
  call p := by simp [System.init, waiters]
  task p hp := by cases hp
  state p c hc := by cases hc
  timeout p c hc := by cases hc
  enough := Nat.le_refl _

/-- **Scheduler rule.** The scheduler may do anything that leaves the waiters asleep or wakes them
up, and `done` may change, as long as enough of them are awake. -/
theorem setSched {s : State σ} {d : BitVec 32} (h : Inv k x) (hs : Sched.Inv k s)
    (htask : ∀ p ∈ x.waiters, p < s.nrTasks ∧ p ≠ s.idle ∧ RunKept (x.sched.tasks p) (s.tasks p))
    (henough : min d.toNat x.waiters.length + (x.waiters.filter (sleeps s taskNormal)).length ≤
      x.waiters.length) : Inv k { x with sched := s, done := d } where
  sched := hs
  nodup := h.nodup
  exclusive := h.exclusive
  call := h.call
  task p hp := ⟨(htask p hp).1, (htask p hp).2.1⟩
  state p c hc := by
    have hp : p ∈ x.waiters := (h.call p).mpr (by rw [hc]; rfl)
    rcases (htask p hp).2.2 with ⟨hst, hon⟩ | hrun
    · rcases h.state p c hc with ⟨h0, hq⟩ | hkind
      · exact Or.inl ⟨hst.trans h0, hon h0 hq⟩
      · exact Or.inr (hst.trans hkind)
    · exact Or.inl hrun
  timeout := h.timeout
  enough := henough

theorem setDone {d : BitVec 32} (h : Inv k x) (hd : d.toNat ≤ x.done.toNat) :
    Inv k { x with done := d } := by
  refine h.setSched h.sched (fun p hp => ⟨(h.task p hp).1, (h.task p hp).2, .of_eq rfl rfl⟩) ?_
  have := h.enough
  unfold sleeping at this
  omega

theorem schedStep {s : State σ} {op : Sched.Op} (h : Inv k x)
    (hstep : Sched.step k x.sched op = some s)
    (hop : writesState op = true → (x.calls x.sched.curr).isSome = false) :
    Inv k { x with sched := s } := by
  have hkept : ∀ p ∈ x.waiters, RunKept (x.sched.tasks p) (s.tasks p) := by
    intro p hp
    refine step_runState h.sched hstep (h.task p hp).1 (h.task p hp).2 ?_
    rintro st rfl rfl
    have := hop rfl
    rw [(h.call _).mp hp] at this
    cases this
  obtain ⟨hnr, hidle⟩ := step_frame hstep
  refine h.setSched (h.sched.step hstep)
    (fun p hp => ⟨(h.task p hp).1.trans_le hnr, hidle ▸ (h.task p hp).2, hkept p hp⟩) ?_
  have hle : (x.waiters.filter (sleeps s taskNormal)).length ≤ x.sleeping.length := by
    unfold sleeping
    rw [← List.countP_eq_length_filter, ← List.countP_eq_length_filter]
    exact List.countP_mono_left fun p hp hs => (hkept p hp).sleeps hs
  have := h.enough
  omega

/-- **Wake-up rule.** A wake-up of the queue may come with a new value of `done` if it reaches
enough of the sleepers. -/
theorem wakeUp {nr : Int} {d : BitVec 32} (h : Inv k x)
    (henough : min d.toNat x.waiters.length +
      (x.sleeping.filter fun p => p ∉ woken (sleeps x.sched taskNormal) x.wait nr).length ≤
        x.waiters.length) :
    Inv k { x with done := d, sched := wakeUpCommon k taskNormal 0 x.wait nr x.sched } := by
  have htask : ∀ p, ((wakeUpCommon k taskNormal 0 x.wait nr x.sched).tasks p).params = _ :=
    wakeUpCommon_task h.nodup
  -- a task is woken or untouched, whatever its call
  have hkept : ∀ p, RunKept (x.sched.tasks p)
      ((wakeUpCommon k taskNormal 0 x.wait nr x.sched).tasks p) := by
    intro p
    have hp := htask p
    split at hp
    · exact Or.inr ⟨congrArg Task.state hp, congrArg Task.onRq hp⟩
    · rw [Task.eq_of_params hp]
      exact .of_eq rfl rfl
  obtain ⟨hnr, hidle⟩ := wakeUpCommon_frame k taskNormal 0 x.wait nr x.sched
  refine h.setSched ?_ (fun p hp => ⟨hnr ▸ (h.task p hp).1, hidle ▸ (h.task p hp).2, hkept p⟩) ?_
  · -- the wakeups are steps of the scheduler
    refine (wakeUpCommon_run fun w hw => ?_).invariant (fun _ _ _ hI hstep => hI.step hstep) h.sched
    exact (h.task w.task (List.mem_map_of_mem hw)).1
  · refine Nat.le_trans (Nat.add_le_add_left ?_ _) henough
    unfold sleeping
    rw [List.filter_filter, ← List.countP_eq_length_filter, ← List.countP_eq_length_filter]
    refine List.countP_mono_left fun p _ hs => ?_
    rw [Bool.and_eq_true, decide_eq_true_eq]
    -- who still sleeps slept before and was not woken
    refine ⟨fun hw => ?_, (hkept p).sleeps hs⟩
    have hp := htask p
    rw [if_pos hw] at hp
    have hrun : ((wakeUpCommon k taskNormal 0 x.wait nr x.sched).tasks p).state = taskRunning :=
      congrArg Task.state hp
    rw [not_sleeps_of_running hrun] at hs
    cases hs

theorem complete (h : Inv k x) : Inv k (Wait.complete k x) := by
  refine h.wakeUp ?_
  have hwoken : woken (sleeps x.sched taskNormal) x.wait 1 = x.sleeping.take 1 :=
    woken_exclusive (n := 0) h.exclusive
  have hle : (x.sleeping.filter fun p => p ∉ x.sleeping.take 1).length ≤ x.sleeping.length - 1 := by
    cases x.sleeping with
    | nil => exact Nat.le_refl _
    | cons p rest =>
      simp only [List.take_succ_cons, List.take_zero, List.filter_cons, List.mem_singleton,
        not_true_eq_false, decide_false, Bool.false_eq_true, if_false]
      exact List.length_filter_le ..
  have hdone : (x.done + 1).toNat ≤ x.done.toNat + 1 := by
    rw [BitVec.toNat_add]
    exact Nat.mod_le ..
  have hsleep : x.sleeping.length ≤ x.waiters.length := List.length_filter_le ..
  have := h.enough
  rw [hwoken]
  omega

theorem wakeUpAll (h : Inv k x) (d : BitVec 32) :
    Inv k { x with done := d, sched := wakeUpCommon k taskNormal 0 x.wait 0 x.sched } := by
  refine h.wakeUp ?_
  have hwoken : woken (sleeps x.sched taskNormal) x.wait 0 = x.sleeping := woken_all (Int.le_refl 0)
  have hnone : (x.sleeping.filter fun p => p ∉ x.sleeping) = [] :=
    List.filter_eq_nil_iff.mpr fun p hp => by simp [hp]
  rw [hwoken, hnone]
  exact Nat.min_le_right ..

theorem completeAll (h : Inv k x) : Inv k (Wait.completeAll k x) := h.wakeUpAll _

/-- The current task goes to sleep while nothing is there to take. -/
theorem sleep {wait : List WaitQueueEntry} {c : Call} (h : Inv k x) (hdone : x.done = 0)
    (hidle : x.sched.curr ≠ x.sched.idle) (hnodup : (wait.map (·.task)).Nodup)
    (hexcl : ∀ w ∈ wait, w.exclusive = true)
    (hmem : ∀ p, p ∈ wait.map (·.task) ↔ p ∈ x.waiters ∨ p = x.sched.curr)
    (htimeout : c.kind.untimed = true → c.timeout = maxScheduleTimeout) :
    Inv k { x with
      sched := x.sched.setTask x.sched.curr fun t => { t with state := c.kind.state }
      wait := wait
      calls := Function.update x.calls x.sched.curr (some c) } where
  -- the caller's state is written as a step of the scheduler
  sched := by
    have hstep : Sched.step k x.sched (.setState c.kind.state) = _ := if_pos hidle
    exact h.sched.step hstep
  nodup := hnodup
  exclusive := hexcl
  call p := by
    refine (hmem p).trans ?_
    by_cases hp : p = x.sched.curr
    · simp [hp]
    · simp [hp, h.call]
  task p hp := by
    rcases (hmem p).mp hp with hw | rfl
    · exact h.task p hw
    · exact ⟨h.sched.curr.1, hidle⟩
  state p d hd := by
    replace hd : Function.update x.calls x.sched.curr (some c) p = some d := hd
    by_cases hp : p = x.sched.curr
    · subst hp
      rw [Function.update_self] at hd
      obtain rfl := Option.some.inj hd
      right
      rw [State.setTask_toBase, Base.setTask_self]
    · rw [Function.update_of_ne hp] at hd
      rw [State.setTask_toBase, Base.setTask_of_ne _ _ hp]
      exact h.state p d hd
  timeout p d hd := by
    replace hd : Function.update x.calls x.sched.curr (some c) p = some d := hd
    by_cases hp : p = x.sched.curr
    · subst hp
      rw [Function.update_self] at hd
      obtain rfl := Option.some.inj hd
      exact htimeout
    · rw [Function.update_of_ne hp] at hd
      exact h.timeout p d hd
  -- nothing is signalled: any number of waiters may sleep
  enough := by
    have h0 : x.done.toNat = 0 := by rw [hdone]; rfl
    show min x.done.toNat _ + _ ≤ _
    rw [h0, Nat.zero_min, Nat.zero_add]
    exact List.length_filter_le ..

/-- The current task, being awake, leaves the queue and takes what it finds. -/
theorem leave {d : BitVec 32} (h : Inv k x) (hcall : (x.calls x.sched.curr).isSome = true)
    (hrun : (x.sched.tasks x.sched.curr).state = taskRunning) (hd : d.toNat = x.done.toNat - 1) :
    Inv k { x with
      done := d
      wait := x.wait.filter (·.task ≠ x.sched.curr)
      calls := Function.update x.calls x.sched.curr none } := by
  have hmap : (x.wait.filter (·.task ≠ x.sched.curr)).map (·.task) =
      x.waiters.filter (· ≠ x.sched.curr) := by
    unfold waiters
    rw [List.filter_map]
    rfl
  have hp := (h.call x.sched.curr).mpr hcall
  refine ⟨h.sched, ?_, ?_, ?_, ?_, ?_, ?_, ?_⟩
  · -- the queue without the caller is `waiters` without the caller
    show ((x.wait.filter (·.task ≠ x.sched.curr)).map (·.task)).Nodup
    rw [hmap]
    exact h.nodup.filter _
  · intro w hw
    exact h.exclusive w (List.mem_filter.mp hw).1
  · intro p
    show p ∈ (x.wait.filter (·.task ≠ x.sched.curr)).map (·.task) ↔ _
    rw [hmap, List.mem_filter, h.call]
    by_cases hp : p = x.sched.curr
    · simp [hp]
    · simp [hp]
  · intro p hp
    replace hp : p ∈ (x.wait.filter (·.task ≠ x.sched.curr)).map (·.task) := hp
    rw [hmap] at hp
    exact h.task p (List.mem_filter.mp hp).1
  · intro p c hc
    replace hc : Function.update x.calls x.sched.curr none p = some c := hc
    by_cases hp : p = x.sched.curr
    · subst hp
      rw [Function.update_self] at hc
      cases hc
    · rw [Function.update_of_ne hp] at hc
      exact h.state p c hc
  · intro p c hc
    replace hc : Function.update x.calls x.sched.curr none p = some c := hc
    by_cases hp : p = x.sched.curr
    · subst hp
      rw [Function.update_self] at hc
      cases hc
    · rw [Function.update_of_ne hp] at hc
      exact h.timeout p c hc
  · -- one waiter less, and it was not one of the sleepers
    show min d.toNat ((x.wait.filter (·.task ≠ x.sched.curr)).map (·.task)).length +
      (((x.wait.filter (·.task ≠ x.sched.curr)).map (·.task)).filter
        (sleeps x.sched taskNormal)).length ≤
        ((x.wait.filter (·.task ≠ x.sched.curr)).map (·.task)).length
    -- the caller was queued once
    have hlen : (x.waiters.filter (· ≠ x.sched.curr)).length + 1 = x.waiters.length := by
      have herase : x.waiters.filter (· ≠ x.sched.curr) = x.waiters.erase x.sched.curr := by
        rw [h.nodup.erase_eq_filter]
        exact List.filter_congr fun p _ => by by_cases hpc : p = x.sched.curr <;> simp [hpc]
      rw [herase, List.length_erase_of_mem hp]
      have := List.length_pos_of_mem hp
      omega
    -- and it runs
    have hsleep : (x.waiters.filter (· ≠ x.sched.curr)).filter (sleeps x.sched taskNormal) =
        x.sleeping := by
      unfold sleeping
      rw [List.filter_filter]
      refine List.filter_congr fun p _ => ?_
      by_cases hpc : p = x.sched.curr
      · subst hpc
        simp [not_sleeps_of_running hrun]
      · simp [hpc]
    have hlt : x.sleeping.length ≤ (x.waiters.filter (· ≠ x.sched.curr)).length := by
      rw [← hsleep]
      exact List.length_filter_le ..
    have := h.enough
    rw [hmap, hsleep]
    omega

theorem leaveQueue {kind : WaitKind} {timeout : Int} (h : Inv k x)
    (hcall : (x.calls x.sched.curr).isSome = true)
    (hrun : (x.sched.tasks x.sched.curr).state = taskRunning) :
    Inv k (Wait.leaveQueue x kind timeout).1 := by
  unfold Wait.leaveQueue takeDone
  dsimp only
  split
  · next hdone =>
    refine h.leave (d := x.done) hcall hrun ?_
    rw [hdone]
    rfl
  · next hdone =>
    refine h.leave hcall hrun ?_
    exact toNat_sub_one hdone

theorem resumeWait {c : Call} {left : Int} {sig : Signals} (h : Inv k x)
    (hcall : x.calls x.sched.curr = some c)
    (hrun : (x.sched.tasks x.sched.curr).state = taskRunning)
    (hleft : scheduleTimeoutReturns c.timeout left) :
    Inv k (Wait.resumeWait x c left sig).1 := by
  have hsome : (x.calls x.sched.curr).isSome = true := by rw [hcall]; rfl
  have hp := (h.call x.sched.curr).mpr hsome
  unfold Wait.resumeWait waitRound
  split
  · next hloop =>
    split
    · exact h.leaveQueue hsome hrun
    · refine h.sleep (c := { c with timeout := left }) hloop.1 (h.task _ hp).2 h.nodup h.exclusive
        (fun p => ?_) fun huntimed => ?_
      · exact ⟨Or.inl, fun hor => hor.elim id fun heq => heq ▸ hp⟩
      · have hmax := h.timeout _ _ hcall huntimed
        rwa [scheduleTimeoutReturns, if_pos hmax] at hleft
  · exact h.leaveQueue hsome hrun

/-- A task that finds a signal before its first sleep leaves everything as it was. -/
theorem leaveQueue_new {kind : WaitKind} {timeout : Int} (hdone : x.done = 0)
    (hp : x.sched.curr ∉ x.waiters) (hcall : x.calls x.sched.curr = none) :
    Wait.leaveQueue { x with wait := x.wait ++ [⟨x.sched.curr, true⟩] } kind timeout =
      (x, .returned kind timeout) := by
  have hwait : (x.wait ++ [(⟨x.sched.curr, true⟩ : WaitQueueEntry)]).filter
      (·.task ≠ x.sched.curr) = x.wait := by
    rw [List.filter_append]
    have hkeep : x.wait.filter (·.task ≠ x.sched.curr) = x.wait := by
      refine List.filter_eq_self.mpr fun w hw => ?_
      rw [decide_eq_true_eq]
      rintro heq
      exact hp (List.mem_map.mpr ⟨w, hw, heq⟩)
    rw [hkeep]
    simp
  have hcalls : Function.update x.calls x.sched.curr none = x.calls := by
    rw [← hcall, Function.update_eq_self]
  unfold Wait.leaveQueue
  dsimp only
  rw [if_pos hdone, hwait, hcalls]

theorem doWaitForCommon {kind : WaitKind} {sig : Signals} (h : Inv k x)
    (hidle : x.sched.curr ≠ x.sched.idle) (hcall : x.calls x.sched.curr = none) :
    Inv k (Wait.doWaitForCommon x kind sig).1 := by
  have hp : x.sched.curr ∉ x.waiters := by
    rw [h.call, hcall]
    simp
  unfold Wait.doWaitForCommon
  split
  · next hdone =>
    unfold waitRound
    split
    · rw [leaveQueue_new hdone hp hcall]
      exact h
    · refine h.sleep (c := ⟨kind, kind.timeout⟩) hdone hidle ?_ ?_ ?_ ?_
      · rw [List.map_append, List.nodup_append]
        refine ⟨h.nodup, List.nodup_singleton _, ?_⟩
        rintro a ha b hb rfl
        rw [List.mem_singleton.mp hb] at ha
        exact hp ha
      · intro w hw
        rcases List.mem_append.mp hw with hw | hw
        · exact h.exclusive w hw
        · rw [List.mem_singleton.mp hw]
      · intro p
        simp [waiters]
      · intro huntimed
        cases kind <;> first | rfl | cases huntimed
  · next hdone =>
    refine h.setDone ?_
    rw [toNat_sub_one hdone]
    omega

/-- **Every step keeps the invariant.** -/
theorem next {y : System σ} {op : Op} (h : Inv k x) (hnext : x.next k op = some y) : Inv k y := by
  obtain ⟨⟨y', outcome⟩, hexec, rfl⟩ := Option.map_eq_some_iff.mp hnext
  cases op with
  | sched op =>
    simp only [exec] at hexec
    split at hexec
    · cases hexec
    · next hop =>
      obtain ⟨s, hstep, heq⟩ := Option.map_eq_some_iff.mp hexec
      cases heq
      exact h.schedStep hstep fun hw => by simpa [hw] using hop
  | wait kind sig =>
    simp only [exec] at hexec
    split at hexec
    · cases hexec
    · next hen =>
      rw [not_or] at hen
      have hI : Inv k (Wait.doWaitForCommon x kind sig).1 :=
        h.doWaitForCommon hen.1 (by simpa using hen.2)
      rw [Option.some.inj hexec] at hI
      exact hI
  | resume left sig =>
    simp only [exec] at hexec
    split at hexec
    · cases hexec
    · next c hcall =>
      split at hexec
      · next hen =>
        have hI : Inv k (Wait.resumeWait x c left sig).1 := h.resumeWait hcall hen.1 hen.2
        rw [Option.some.inj hexec] at hI
        exact hI
      · cases hexec
  | complete =>
    cases hexec
    exact h.complete
  | completeAll =>
    obtain rfl := (Prod.mk.inj (Option.some.inj hexec)).1
    exact h.completeAll
  | tryWait =>
    simp only [exec, tryWaitForCompletion] at hexec
    split at hexec
    · cases hexec
      exact h
    · next hdone =>
      cases hexec
      refine h.setDone ?_
      rw [toNat_sub_one hdone]
      omega

end System.Inv

/-! ## Accounts -/

theorem WaitKind.completed_orOne (kind : WaitKind) {t : Int} (ht : 0 ≤ t) :
    kind.completed (orOne t) = true := by
  have hpos : 0 < orOne t := by
    unfold orOne
    split
    · exact Int.one_pos
    · omega
  have hsig : orOne t ≠ -eRestartSys := by
    unfold eRestartSys
    omega
  cases kind <;> simp [completed, result, hsig, hpos, hpos.ne']

theorem WaitKind.completed_interrupted {kind : WaitKind} {sig : Signals}
    (h : signalPendingState kind.state sig = true) : kind.completed (-eRestartSys) = false := by
  have hplain : signalPendingState taskUninterruptible sig = false := by
    simp [signalPendingState, taskUninterruptible, taskInterruptible, taskWakekill]
  cases kind with
  | plain => exact absurd (h.symm.trans hplain) (by simp)
  | plainTimeout t => exact absurd (h.symm.trans hplain) (by simp)
  | _ => simp [completed, result, eRestartSys]

theorem WaitKind.completed_zero {kind : WaitKind} (h : kind.untimed = false) :
    kind.completed 0 = false := by
  cases kind with
  | plain => cases h
  | interruptible => cases h
  | killable => cases h
  | _ => simp [completed, result]

theorem scheduleTimeoutReturns.nonneg {timeout left : Int}
    (h : scheduleTimeoutReturns timeout left) :
    0 ≤ left := by
  unfold scheduleTimeoutReturns at h
  split at h
  · rw [h]
    decide
  · exact h.1

section Balance

variable {k : Kernel σ} {x y : System σ} {outcome : Outcome}

/-- What an outcome takes from `done`. -/
def Balanced (x : System σ) (r : System σ × Outcome) : Prop :=
  r.1.done.toNat + r.2.taken = x.done.toNat

theorem takeDone_balanced {kind : WaitKind} {t : Int} (hdone : x.done ≠ 0) (ht : 0 ≤ t) :
    Balanced x (takeDone x kind t) := by
  have hpos : x.done.toNat ≠ 0 := fun h0 => hdone (BitVec.eq_of_toNat_eq h0)
  unfold Balanced takeDone
  simp only [Outcome.taken, kind.completed_orOne ht, toNat_sub_one hdone, Bool.toNat_true]
  omega

theorem leaveQueue_balanced {kind : WaitKind} {t : Int} (ht : x.done ≠ 0 → 0 ≤ t)
    (hnot : x.done = 0 → kind.completed t = false) : Balanced x (leaveQueue x kind t) := by
  unfold leaveQueue
  dsimp only
  split
  · next hdone => simp [Balanced, Outcome.taken, hnot hdone]
  · next hdone => exact takeDone_balanced hdone (ht hdone)

theorem waitRound_balanced {c : Call} {sig : Signals} (hdone : x.done = 0) :
    Balanced x (waitRound x c sig) := by
  unfold waitRound
  split
  · next hsig =>
    exact leaveQueue_balanced (fun h => absurd hdone h) fun _ => WaitKind.completed_interrupted hsig
  · simp [Balanced, Outcome.taken]

theorem doWaitForCommon_balanced {kind : WaitKind} {sig : Signals} (ht : 0 ≤ kind.timeout) :
    Balanced x (doWaitForCommon x kind sig) := by
  unfold doWaitForCommon
  split
  · next hdone => exact waitRound_balanced (x := { x with wait := _ }) hdone
  · next hdone => exact takeDone_balanced hdone ht

theorem resumeWait_balanced {c : Call} {left : Int} {sig : Signals}
    (hleft : scheduleTimeoutReturns c.timeout left)
    (htimeout : c.kind.untimed = true → c.timeout = maxScheduleTimeout) :
    Balanced x (resumeWait x c left sig) := by
  unfold resumeWait
  split
  · next hloop => exact waitRound_balanced hloop.1
  · next hloop =>
    refine leaveQueue_balanced (fun _ => hleft.nonneg) fun hdone => ?_
    -- the loop has ended without a completion: the time was up, so there was a timeout
    have hzero : left = 0 := by
      by_contra hne
      exact hloop ⟨hdone, hne⟩
    subst hzero
    refine WaitKind.completed_zero ?_
    by_contra huntimed
    rw [Bool.not_eq_false] at huntimed
    rw [scheduleTimeoutReturns, if_pos (htimeout huntimed)] at hleft
    exact absurd hleft (by decide)

/-- **One step.** `done` grows by what is signalled and shrinks by what the caller is told it
got. -/
theorem exec_balance {op : Op} (h : System.Inv k x) (hexec : exec k x op = some (y, outcome))
    (htime : op.timely) (hlt : x.done.toNat + op.signalled < 2 ^ 32) :
    y.done.toNat + outcome.taken = x.done.toNat + op.signalled := by
  cases op with
  | sched op =>
    simp only [exec] at hexec
    split at hexec
    · cases hexec
    · obtain ⟨s, -, heq⟩ := Option.map_eq_some_iff.mp hexec
      cases heq
      rfl
  | wait kind sig =>
    simp only [exec] at hexec
    split at hexec
    · cases hexec
    · have hb : Balanced x (doWaitForCommon x kind sig) := doWaitForCommon_balanced htime
      rw [Option.some.inj hexec] at hb
      exact hb
  | resume left sig =>
    simp only [exec] at hexec
    split at hexec
    · cases hexec
    · next c hcall =>
      split at hexec
      · next hen =>
        have hb : Balanced x (resumeWait x c left sig) :=
          resumeWait_balanced hen.2 (h.timeout _ _ hcall)
        rw [Option.some.inj hexec] at hb
        exact hb
      · cases hexec
  | complete =>
    obtain ⟨rfl, rfl⟩ := Prod.mk.inj (Option.some.inj hexec)
    -- `done++` does not wrap
    have hone : (1 : BitVec 32).toNat = 1 := rfl
    replace hlt : x.done.toNat + 1 < 2 ^ 32 := hlt
    show (x.done + 1).toNat + 0 = x.done.toNat + 1
    rw [BitVec.toNat_add, hone, Nat.mod_eq_of_lt hlt, Nat.add_zero]
  | completeAll =>
    obtain ⟨rfl, rfl⟩ := Prod.mk.inj (Option.some.inj hexec)
    -- nor does `done += UINT_MAX/2`
    have hhalf : (BitVec.ofNat 32 uintMaxHalf).toNat = uintMaxHalf := by decide
    replace hlt : x.done.toNat + uintMaxHalf < 2 ^ 32 := hlt
    show (x.done + BitVec.ofNat 32 uintMaxHalf).toNat + 0 = x.done.toNat + uintMaxHalf
    rw [BitVec.toNat_add, hhalf, Nat.mod_eq_of_lt hlt, Nat.add_zero]
  | tryWait =>
    simp only [exec, tryWaitForCompletion] at hexec
    split at hexec
    · cases hexec
      rfl
    · next hdone =>
      cases hexec
      have hpos : x.done.toNat ≠ 0 := fun h0 => hdone (BitVec.eq_of_toNat_eq h0)
      show (x.done - 1).toNat + 1 = x.done.toNat
      rw [toNat_sub_one hdone]
      omega

end Balance

/-! ## Results -/

/-- The waiters that can run: awake, and on the queue of their class. -/
def System.runnable (x : System σ) : List Pid :=
  x.waiters.filter fun p =>
    (x.sched.tasks p).state == taskRunning && (x.sched.tasks p).onRq

theorem System.Inv.length_runnable {k : Kernel σ} {x : System σ} (h : Inv k x) :
    x.runnable.length + x.sleeping.length = x.waiters.length := by
  unfold runnable sleeping
  rw [← List.countP_eq_length_filter, ← List.countP_eq_length_filter,
    List.length_eq_countP_add_countP (p := sleeps x.sched taskNormal), Nat.add_comm]
  congr 1
  refine List.countP_congr fun p hp => ?_
  obtain ⟨c, hc⟩ := Option.isSome_iff_exists.mp ((h.call p).mp hp)
  rcases h.state p c hc with ⟨hst, hon⟩ | hst
  · simp [hst, hon, sleeps, taskRunning]
  · have hne := c.kind.state_sleeps
    have h0 : c.kind.state ≠ 0 := by
      intro h0
      rw [h0] at hne
      exact hne (Nat.zero_and _)
    simp [hst, sleeps, hne, h0, taskRunning]

/-- **No lost wake-up.** From the initialisation of a completion on, with any tasks waiting,
signalling, timing out, being interrupted and being scheduled in any order: of the tasks that wait,
as many are runnable as there are completions to take, or all of them are. So if no waiter can run,
there is nothing to take or nobody waits. -/
theorem completion_wakes (k : Kernel σ) {s : State σ} (hs : Reachable (Sched.step k) (boot k) s)
    {x : System σ} (hx : Reachable (System.next k) (System.init s) x) :
    min x.done.toNat x.waiters.length ≤ x.runnable.length := by
  have h : System.Inv k x := hx.invariant (fun _ _ _ h hnext => h.next hnext)
    (System.Inv.init (Sched.Inv.reachable hs))
  have hlen := h.length_runnable
  have := h.enough
  omega

/-- Task 1 waits, sleeps, is woken by a `complete()`, runs again and returns. -/
def waitOps : List Op :=
  [.sched (.fork true), .sched (.wakeUpNewTask 1), .sched (.schedule ⟨false, false, none⟩),
    .wait .plain ⟨false, false⟩, .sched (.schedule ⟨false, false, none⟩), .complete,
    .sched (.schedule ⟨false, false, none⟩), .resume maxScheduleTimeout ⟨false, false⟩]

/-- After the `complete()` one completion is there, and its waiter can run. -/
theorem completion_wakes_one : ∃ x,
    Reachable (System.next fifoKernel) (System.init (boot fifoKernel)) x ∧
      x.done = 1 ∧ x.waiters = [1] ∧ 1 ≤ x.runnable.length := by
  have hrun : (run (System.next fifoKernel) (System.init (boot fifoKernel)) (waitOps.take 6)).any
      (fun x => x.done = 1 ∧ x.waiters = [1]) = true := by decide +kernel
  obtain ⟨x, hx, hq⟩ := Option.any_eq_true _ _ |>.mp hrun
  obtain ⟨hdone, hwait⟩ := of_decide_eq_true hq
  have hreach := run_reachable hx
  have hle := completion_wakes fifoKernel (.init _) hreach
  rw [hdone, hwait] at hle
  exact ⟨x, hreach, hdone, hwait, hle⟩

/-- **Accounts.** From the initialisation of a completion on, in any order of steps and as long as
fewer than `2^32` completions were signalled: `done` is the number of completions signalled less the
number of calls that were told they got one. None is lost, none is handed out twice, and a call that
fails takes none. -/
theorem completion_accounts (k : Kernel σ) {s : State σ} (hs : Reachable (Sched.step k) (boot k) s)
    {tr : List (StepRec (System σ) Op)} {x : System σ}
    (hx : Steps (System.next k) (System.init s) tr x) (htime : ∀ r ∈ tr, r.op.timely)
    (hlt : (tr.map fun r => r.op.signalled).sum < 2 ^ 32) :
    x.done.toNat + (tr.map (taken k)).sum = (tr.map fun r => r.op.signalled).sum := by
  have hinv := (hx.invariant (P := System.Inv k) (fun r _ hnext h => h.next hnext)
    (System.Inv.init (Sched.Inv.reachable hs))).2
  have hzero : (System.init s).done.toNat = 0 := rfl
  have hbal := hx.balance_below (fun x => x.done.toNat) (fun r => r.op.signalled) (taken k) (2 ^ 32)
    (fun r hr hbound => ?_) (by rw [hzero, Nat.zero_add]; exact hlt)
  · rwa [hzero, Nat.zero_add] at hbal
  · obtain ⟨⟨y, outcome⟩, hexec, hpost⟩ := Option.map_eq_some_iff.mp (hx.step_of_mem hr)
    have hstep := exec_balance (hinv r hr).1 hexec (htime r hr) hbound
    unfold taken
    rw [hexec, ← hpost]
    exact hstep

/-- One is signalled and one call gets it. -/
theorem completion_accounts_one : ∃ tr x,
    Steps (System.next fifoKernel) (System.init (boot fifoKernel)) tr x ∧
      (tr.map fun r => r.op.signalled).sum = 1 ∧
      x.done.toNat + (tr.map (taken fifoKernel)).sum = (tr.map fun r => r.op.signalled).sum := by
  have hrun : (run (System.next fifoKernel) (System.init (boot fifoKernel)) waitOps).isSome =
      true := by
    decide +kernel
  obtain ⟨x, hx⟩ := Option.isSome_iff_exists.mp hrun
  have hops : (trace (System.next fifoKernel) (System.init (boot fifoKernel)) waitOps).map
      (fun r => r.op) = waitOps := by decide +kernel
  have hsum : ((trace (System.next fifoKernel) (System.init (boot fifoKernel)) waitOps).map
      fun r => r.op.signalled).sum = 1 := by
    rw [show (fun r : StepRec (System _) Op => r.op.signalled) = Op.signalled ∘
      fun r => r.op from rfl, ← List.map_map, hops]
    rfl
  refine ⟨_, x, run_steps hx, hsum, ?_⟩
  refine completion_accounts fifoKernel (.init _) (run_steps hx) (fun r hr => ?_)
    (by rw [hsum]; decide)
  have hop : r.op ∈ waitOps := hops ▸ List.mem_map_of_mem (f := fun r => r.op) hr
  have htimely : ∀ op ∈ waitOps, op.timely := by
    simp [waitOps, Op.timely, WaitKind.timeout, maxScheduleTimeout]
  exact htimely _ hop

end LinuxKernel.Wait

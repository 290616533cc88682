import LinuxKernel.Sched.Fifo
import LinuxKernel.Sched.Policy

/-!
# Wait queues — `__wake_up_common`

The wake-up of the tasks on a wait queue, over the scheduler state, and what the other operations
of the scheduler do to a sleeping task.

* `wakeUpCommon_task`    — the tasks of `woken` become runnable, all others stay as they are.
* `wakeUpCommon_run`     — a wake-up is a run of wake-up operations of the scheduler.
* `wakeUp_wakes`         — with the queue in the order `add_wait_queue` and its exclusive variant
  build up, all tasks that are not exclusive wake up and of the others the first ones.
* `step_runState`        — a scheduler step leaves a task asleep or awake, or wakes it up.
-/

namespace LinuxKernel.Wait

open LinuxKernel.Lib LinuxKernel.Sched

variable {σ : Type}

/-! ## The queue -/

/-- `wait_queue_t` as `DECLARE_WAITQUEUE` and `init_waitqueue_entry` make it: `private` is a task
and `func` is `default_wake_function`. `exclusive` is `WQ_FLAG_EXCLUSIVE`. -/
structure WaitQueueEntry where
  task      : Pid
  exclusive : Bool
  deriving DecidableEq, Repr

/-- The task is in one of the states of the mask. -/
def sleeps (s : State σ) (mode : Nat) (p : Pid) : Bool := (s.tasks p).state &&& mode != 0

/-- The result of `try_to_wake_up` is whether the state matched. -/
def defaultWakeFunction (k : Kernel σ) (s : State σ) (w : WaitQueueEntry) (mode wakeFlags : Nat) :
    State σ × Bool :=
  (tryToWakeUp k s w.task mode wakeFlags, sleeps s mode w.task)

/-- `__wake_up_common`, for the rest of the queue that is still to be visited. -/
def wakeUpCommon (k : Kernel σ) (mode wakeFlags : Nat) :
    List WaitQueueEntry → Int → State σ → State σ
  | [], _, s => s
  | w :: q, nrExclusive, s =>
    let (s, success) := defaultWakeFunction k s w mode wakeFlags
    if success && w.exclusive then
      if nrExclusive - 1 = 0 then s else wakeUpCommon k mode wakeFlags q (nrExclusive - 1) s
    else wakeUpCommon k mode wakeFlags q nrExclusive s

/-! ## Whom a wake-up reaches -/

/-- The tasks a wake-up makes runnable, in this order. -/
def woken (asleep : Pid → Bool) : List WaitQueueEntry → Int → List Pid
  | [], _ => []
  | w :: q, nrExclusive =>
    if asleep w.task then
      if w.exclusive then
        if nrExclusive - 1 = 0 then [w.task] else w.task :: woken asleep q (nrExclusive - 1)
      else w.task :: woken asleep q nrExclusive
    else woken asleep q nrExclusive

section Woken

variable {asleep asleep' : Pid → Bool} {q : List WaitQueueEntry} {nr : Int}

theorem woken_sublist (asleep : Pid → Bool) (q : List WaitQueueEntry) (nr : Int) :
    (woken asleep q nr).Sublist (q.map (·.task)) := by
  induction q generalizing nr with
  | nil => exact List.Sublist.refl _
  | cons w q ih =>
    rw [woken, List.map_cons]
    split
    · split
      · split
        · exact (List.nil_sublist _).cons_cons _
        · exact (ih _).cons_cons _
      · exact (ih _).cons_cons _
    · exact (ih _).cons _

theorem woken_congr (h : ∀ w ∈ q, asleep' w.task = asleep w.task) :
    woken asleep' q nr = woken asleep q nr := by
  induction q generalizing nr with
  | nil => rfl
  | cons w q ih =>
    have hq : ∀ nr, woken asleep' q nr = woken asleep q nr :=
      fun nr => ih fun v hv => h v (List.mem_cons_of_mem _ hv)
    rw [woken, woken, h w (List.mem_cons_self ..), hq, hq]

/-- With `nr_exclusive` zero the whole queue is visited. -/
theorem woken_all (hnr : nr ≤ 0) : woken asleep q nr = (q.map (·.task)).filter asleep := by
  induction q generalizing nr with
  | nil => rfl
  | cons w q ih =>
    rw [woken, List.map_cons, List.filter_cons, if_neg (by omega : ¬ nr - 1 = 0),
      ih (by omega : nr - 1 ≤ 0), ih hnr, ite_self]

/-- Entries that are not exclusive are all visited. -/
theorem woken_shared_append {shared : List WaitQueueEntry}
    (h : ∀ w ∈ shared, w.exclusive = false) :
    woken asleep (shared ++ q) nr = (shared.map (·.task)).filter asleep ++ woken asleep q nr := by
  induction shared with
  | nil => rfl
  | cons w shared ih =>
    have hw := h w (List.mem_cons_self ..)
    rw [List.cons_append, woken, hw, ih fun v hv => h v (List.mem_cons_of_mem _ hv), List.map_cons,
      List.filter_cons]
    split <;> rfl

/-- Of exclusive entries the first ones are woken that are asleep. -/
theorem woken_exclusive (h : ∀ w ∈ q, w.exclusive = true) {n : Nat} :
    woken asleep q (n + 1 : Nat) = ((q.map (·.task)).filter asleep).take (n + 1) := by
  induction q generalizing n with
  | nil => rfl
  | cons w q ih =>
    have hw := h w (List.mem_cons_self ..)
    have hq : ∀ w ∈ q, w.exclusive = true := fun v hv => h v (List.mem_cons_of_mem _ hv)
    rw [woken, hw, ih hq, List.map_cons, List.filter_cons]
    split
    · cases n with
      | zero => simp
      | succ n =>
        have hnr : ((n + 1 + 1 : Nat) : Int) - 1 = (n + 1 : Nat) := by omega
        rw [hnr, ih hq, if_pos rfl, if_neg (by omega), List.take_succ_cons]
    · rfl

end Woken

/-! ## What a wake-up does -/

section Effect

variable {k : Kernel σ} {s : State σ} {mode flags : Nat} {q : List WaitQueueEntry} {nr : Int}

theorem tryToWakeUp_outline (k : Kernel σ) (s : State σ) (p : Pid) (mode flags : Nat) :
    (tryToWakeUp k s p mode flags).toBase.outline =
      if sleeps s mode p then s.toBase.outline.setTask p wakeTask else s.toBase.outline := by
  unfold tryToWakeUp sleeps
  by_cases h : (s.tasks p).state &&& mode = 0
  · simp [h]
  · simp only [h, if_false, bne_iff_ne, ne_eq, not_false_iff, if_true]
    exact wakeup_outline ..

/-- What is left of a task without its WRR entity, after a wake-up of `p`. -/
theorem tryToWakeUp_params (k : Kernel σ) (s : State σ) (p q : Pid) (mode flags : Nat) :
    ((tryToWakeUp k s p mode flags).tasks q).params =
      if q = p ∧ sleeps s mode p then wakeTask (s.tasks q).params else (s.tasks q).params := by
  rw [← Base.outline_tasks, tryToWakeUp_outline]
  by_cases hs : sleeps s mode p = true
  · rw [if_pos hs, Base.setTask_tasks]
    by_cases hq : q = p
    · subst hq
      simp [hs]
    · simp [hq]
  · rw [if_neg hs, if_neg fun h => hs h.2, Base.outline_tasks]

theorem sleeps_eq {t : State σ} {p : Pid} (h : (t.tasks p).params = (s.tasks p).params) :
    sleeps t mode p = sleeps s mode p := by
  unfold sleeps
  rw [Task.eq_of_params h]

/-- **Wake-up.** The tasks of `woken` are put on their queues and become runnable, and nothing
else changes but WRR entities. -/
theorem wakeUpCommon_task (hq : (q.map (·.task)).Nodup) (p : Pid) :
    ((wakeUpCommon k mode flags q nr s).tasks p).params =
      if p ∈ woken (sleeps s mode) q nr then wakeTask (s.tasks p).params
      else (s.tasks p).params := by
  induction q generalizing nr s with
  | nil => rfl
  | cons w q ih =>
    obtain ⟨hw, hq⟩ := List.nodup_cons.mp hq
    -- the rest of the queue finds its tasks as they were
    have hkeep : ∀ v ∈ q, sleeps (tryToWakeUp k s w.task mode flags) mode v.task =
        sleeps s mode v.task := by
      intro v hv
      refine sleeps_eq ?_
      rw [tryToWakeUp_params, if_neg]
      rintro ⟨heq, -⟩
      exact hw (List.mem_map.mpr ⟨v, hv, heq⟩)
    have hrest : ∀ nr', ((wakeUpCommon k mode flags q nr'
        (tryToWakeUp k s w.task mode flags)).tasks p).params =
        if p ∈ (if sleeps s mode w.task then [w.task] else []) ++ woken (sleeps s mode) q nr'
        then wakeTask (s.tasks p).params else (s.tasks p).params := by
      intro nr'
      have hnot : w.task ∉ woken (sleeps s mode) q nr' :=
        fun hmem => hw ((woken_sublist ..).subset hmem)
      rw [ih hq, woken_congr hkeep, tryToWakeUp_params]
      by_cases hp : p = w.task
      · subst hp
        simp [hnot]
      · simp only [hp, false_and, if_false, List.mem_append]
        split <;> simp [*]
    unfold wakeUpCommon defaultWakeFunction
    dsimp only
    rw [woken]
    by_cases hs : sleeps s mode w.task = true
    · simp only [hs, Bool.true_and, if_true]
      by_cases he : w.exclusive = true
      · simp only [he, if_true]
        split
        · rw [tryToWakeUp_params]
          simp [hs]
        · simpa [hs] using hrest (nr - 1)
      · simpa [hs, he] using hrest nr
    · simpa [hs] using hrest nr

theorem tryToWakeUp_step {p : Pid} (hp : p < s.nrTasks) :
    step k s (.wakeUp p mode flags) = some (tryToWakeUp k s p mode flags) := if_pos hp

theorem tryToWakeUp_nrTasks (k : Kernel σ) (s : State σ) (p : Pid) (mode flags : Nat) :
    (tryToWakeUp k s p mode flags).nrTasks = s.nrTasks := by
  rw [← Base.outline_nrTasks, tryToWakeUp_outline]
  split <;> rfl

/-- A wake-up is a run of the scheduler. -/
theorem wakeUpCommon_run (hlt : ∀ w ∈ q, w.task < s.nrTasks) :
    Reachable (step k) s (wakeUpCommon k mode flags q nr s) := by
  induction q generalizing nr s with
  | nil => exact .init s
  | cons w q ih =>
    have hfirst : Reachable (step k) s (tryToWakeUp k s w.task mode flags) :=
      (Reachable.init s).step (tryToWakeUp_step (hlt w (List.mem_cons_self ..)))
    have hrest : ∀ nr', Reachable (step k) s
        (wakeUpCommon k mode flags q nr' (tryToWakeUp k s w.task mode flags)) := by
      intro nr'
      refine hfirst.trans (ih fun v hv => ?_)
      rw [tryToWakeUp_nrTasks]
      exact hlt v (List.mem_cons_of_mem _ hv)
    unfold wakeUpCommon defaultWakeFunction
    dsimp only
    split
    · split
      · exact hfirst
      · exact hrest _
    · exact hrest _

end Effect

/-! ## The order of the queue -/

/-- The calls of `wait.h` that link entries: `__add_wait_queue` puts a task in front,
`__add_wait_queue_tail_exclusive` puts one at the end and sets `WQ_FLAG_EXCLUSIVE`. -/
inductive QueueOp
  | add (p : Pid)
  | addTailExclusive (p : Pid)
  | remove (p : Pid)
  deriving DecidableEq, Repr

/-- A task has one entry at most. -/
def QueueOp.next (q : List WaitQueueEntry) : QueueOp → Option (List WaitQueueEntry)
  | .add p => if p ∈ q.map (·.task) then none else some (⟨p, false⟩ :: q)
  | .addTailExclusive p => if p ∈ q.map (·.task) then none else some (q ++ [⟨p, true⟩])
  | .remove p => some (q.filter (·.task ≠ p))

/-- No duplicates, and the exclusive entries come last. -/
structure Ordered (q : List WaitQueueEntry) : Prop where
  nodup : (q.map (·.task)).Nodup
  split : q = q.filter (fun w => !w.exclusive) ++ q.filter (·.exclusive)

theorem Ordered.next {q q' : List WaitQueueEntry} {op : QueueOp} (h : Ordered q)
    (hnext : op.next q = some q') : Ordered q' := by
  cases op with
  | add p =>
    simp only [QueueOp.next] at hnext
    split at hnext
    · cases hnext
    · next hp =>
      obtain rfl := Option.some.inj hnext
      refine ⟨List.nodup_cons.mpr ⟨hp, h.nodup⟩, ?_⟩
      simpa using h.split
  | addTailExclusive p =>
    simp only [QueueOp.next] at hnext
    split at hnext
    · cases hnext
    · next hp =>
      obtain rfl := Option.some.inj hnext
      constructor
      · rw [List.map_append, List.nodup_append]
        refine ⟨h.nodup, List.nodup_singleton _, ?_⟩
        rintro a ha b hb rfl
        rw [List.mem_singleton.mp hb] at ha
        exact hp ha
      · rw [List.filter_append, List.filter_append]
        simpa [← List.append_assoc] using h.split
  | remove p =>
    obtain rfl := Option.some.inj hnext
    constructor
    · exact h.nodup.sublist (List.filter_sublist.map _)
    · conv_lhs => rw [h.split]
      rw [List.filter_append]
      exact congrArg₂ _ (List.filter_comm ..) (List.filter_comm ..)

theorem Ordered.run {ops : List QueueOp} {q : List WaitQueueEntry}
    (h : Lib.run QueueOp.next [] ops = some q) : Ordered q :=
  (run_reachable h).invariant (fun _ _ _ h hnext => h.next hnext) ⟨List.nodup_nil, rfl⟩

/-- Whom a wake-up with `nr_exclusive = nr` should reach: all sleepers that are not exclusive, and
of the exclusive ones the first `nr` in the order they came, or all if `nr` is zero. -/
def meant (asleep : Pid → Bool) (q : List WaitQueueEntry) (nr : Nat) : List Pid :=
  let shared := ((q.filter fun w => !w.exclusive).map (·.task)).filter asleep
  let exclusive := ((q.filter (·.exclusive)).map (·.task)).filter asleep
  shared ++ if nr = 0 then exclusive else exclusive.take nr

theorem Ordered.woken_eq {q : List WaitQueueEntry} (h : Ordered q)
    (asleep : Pid → Bool) (nr : Nat) :
    woken asleep q nr = meant asleep q nr := by
  rw [h.split, woken_shared_append (by simp), ← h.split, meant]
  congr 1
  cases nr with
  | zero => exact woken_all (le_refl _)
  | succ n => rw [if_neg (Nat.succ_ne_zero n), woken_exclusive (by simp)]

/-- **Wake-up of a wait queue.** In a queue built up by any sequence of additions and removals, with
one entry at most for each task, and in any state of the scheduler, `__wake_up_common` makes the
sleepers that are not exclusive runnable, and of the exclusive ones the `nr_exclusive` that came
first, or all if it is zero. The state and `on_rq` of every other task stay as they are. -/
theorem wakeUp_wakes (k : Kernel σ) (s : State σ) (mode flags nr : Nat) {ops : List QueueOp}
    {q : List WaitQueueEntry} (hq : Lib.run QueueOp.next [] ops = some q) (p : Pid) :
    let t := (wakeUpCommon k mode flags q nr s).tasks p
    if p ∈ meant (sleeps s mode) q nr then t.state = taskRunning ∧ t.onRq = true
    else t.state = (s.tasks p).state ∧ t.onRq = (s.tasks p).onRq := by
  have h := Ordered.run hq
  have ht : ((wakeUpCommon k mode flags q nr s).tasks p).params = _ := wakeUpCommon_task h.nodup p
  rw [h.woken_eq] at ht
  dsimp only
  split at ht
  · next hp =>
    rw [if_pos hp]
    exact ⟨congrArg Task.state ht, congrArg Task.onRq ht⟩
  · next hp =>
    rw [if_neg hp, Task.eq_of_params ht]
    exact ⟨rfl, rfl⟩

/-- Of three exclusive sleepers and one that is not, one of each kind wakes up. -/
def sleepers : State (SchedClass → List Pid) :=
  { boot fifoKernel with nrTasks := 5, tasks := fun _ => { initTask with state := 1 } }

def sleepersWoken : State (SchedClass → List Pid) :=
  wakeUpCommon fifoKernel taskNormal 0 [⟨4, false⟩, ⟨1, true⟩, ⟨2, true⟩, ⟨3, true⟩] 1 sleepers

theorem wakeUp_wakes_two :
    [1, 2, 3, 4].map (fun p => (sleepersWoken.tasks p).state) =
      [taskRunning, 1, 1, taskRunning] := by
  have hq : run QueueOp.next []
      [.addTailExclusive 1, .addTailExclusive 2, .add 4, .addTailExclusive 3] =
      some [⟨4, false⟩, ⟨1, true⟩, ⟨2, true⟩, ⟨3, true⟩] := by decide
  have h := wakeUp_wakes fifoKernel sleepers taskNormal 0 1 hq
  have hmeant : meant (sleeps sleepers taskNormal)
      [⟨4, false⟩, ⟨1, true⟩, ⟨2, true⟩, ⟨3, true⟩] 1 = [4, 1] := by decide
  rw [hmeant] at h
  have h1 : (sleepersWoken.tasks 1).state = taskRunning := (h 1).1
  have h2 : (sleepersWoken.tasks 2).state = 1 := (h 2).1
  have h3 : (sleepersWoken.tasks 3).state = 1 := (h 3).1
  have h4 : (sleepersWoken.tasks 4).state = taskRunning := (h 4).1
  simp only [List.map_cons, List.map_nil, h1, h2, h3, h4]

/-! ## Other steps of the scheduler -/

/-- A task stays asleep or awake, on its queue if awake, or it is awake and on its queue now. -/
def RunKept (t u : Task) : Prop :=
  (u.state = t.state ∧ (t.state = taskRunning → t.onRq = true → u.onRq = true)) ∨
    (u.state = taskRunning ∧ u.onRq = true)

theorem RunKept.of_eq {t u : Task} (hs : u.state = t.state) (hon : u.onRq = t.onRq) : RunKept t u :=
  Or.inl ⟨hs, fun _ h => hon ▸ h⟩

theorem RunKept.trans {t u v : Task} (htu : RunKept t u) (huv : RunKept u v) : RunKept t v := by
  rcases huv with ⟨hs, hon⟩ | hrun
  · rcases htu with ⟨hs', hon'⟩ | ⟨hs', hon'⟩
    · exact Or.inl ⟨hs.trans hs', fun h0 h => hon (hs'.trans h0) (hon' h0 h)⟩
    · exact Or.inr ⟨hs.trans hs', hon hs' hon'⟩
  · exact Or.inr hrun

theorem RunKept.setTask {b : Base} {p q : Pid} {f : Task → Task}
    (h : q = p → RunKept (b.tasks q) (f (b.tasks q))) :
    RunKept (b.tasks q) ((b.setTask p f).tasks q) := by
  rw [Base.setTask_tasks]
  split
  · next hq =>
    subst hq
    exact h rfl
  · exact .of_eq rfl rfl

theorem outlinePrev_runKept {b : Base} {q : Pid} (e : SchedEnv)
    (hcurr : q = b.curr → (b.tasks q).onRq = true) :
    RunKept (b.tasks q) ((outlinePrev b e).tasks q) := by
  unfold outlinePrev
  split
  · next hst =>
    split
    · exact .setTask fun hq => Or.inr ⟨rfl, hcurr hq⟩
    · have hoff : RunKept (b.tasks q)
          ((b.setTask b.curr fun t => { t with onRq := false }).tasks q) := by
        refine .setTask fun hq => Or.inl ⟨rfl, fun h0 => ?_⟩
        rw [hq] at h0
        exact absurd h0 hst.1
      cases e.toWakeup with
      | none => exact hoff
      | some w =>
        dsimp only
        rcases outlineWakeLocal_cases (b.setTask b.curr fun t => { t with onRq := false }) w
          with hno | ⟨-, -, hyes⟩
        · rw [hno]
          exact hoff
        · rw [hyes]
          exact hoff.trans (.setTask fun _ => Or.inr ⟨rfl, rfl⟩)
  · exact .of_eq rfl rfl

theorem outlineSetscheduler_runKept (k : Kernel σ) (b : Base) (p q : Pid) (a : SetschedArgs) :
    RunKept (b.tasks q) ((outlineSetscheduler k b p a).tasks q) := by
  rcases outlineSetscheduler_cases k b p a with he | ⟨policy, reset, -, he⟩
  · rw [he]
    exact .of_eq rfl rfl
  · rw [he]
    exact .setTask fun _ => .of_eq rfl rfl

theorem effectivePrio_runKept (t : Task) (n : Nat) :
    RunKept t (effectivePrio { t with staticPrio := n }) := by
  unfold effectivePrio
  split <;> exact .of_eq rfl rfl

theorem setStopTask_runKept (k : Kernel σ) (b : Base) (q : Pid) (stop : Option Pid) :
    RunKept (b.tasks q) (((Op.setStopTask stop).outline k b).tasks q) := by
  have hinstall : RunKept (b.tasks q) ((outlineInstall k b stop).tasks q) := by
    cases stop with
    | none => exact .of_eq rfl rfl
    | some p =>
      refine (outlineSetscheduler_runKept k b p q stopArgs).trans ?_
      rw [outlineInstall]
      exact .setTask fun _ => .of_eq rfl rfl
  show RunKept (b.tasks q)
    ((outlineRetire { outlineInstall k b stop with stop := stop } b.stop).tasks q)
  cases b.stop with
  | none => exact hinstall
  | some p =>
    refine hinstall.trans ?_
    rw [outlineRetire]
    exact RunKept.setTask (b := { outlineInstall k b stop with stop := stop }) fun _ =>
      .of_eq rfl rfl

/-- Of the operations only a change of its own state puts a task to sleep. -/
theorem Op.outline_runKept {k : Kernel σ} {b : Base} {q : Pid} {op : Op} (hlt : q < b.nrTasks)
    (hcurr : q = b.curr → (b.tasks q).onRq = true) (hop : ∀ st, op = .setState st → q ≠ b.curr) :
    RunKept (b.tasks q) ((op.outline k b).tasks q) := by
  cases op with
  | setState st =>
    rw [Op.outline]
    exact .setTask fun hq => absurd hq (hop st rfl)
  | schedule e => exact outlinePrev_runKept e hcurr
  | tick => exact .of_eq rfl rfl
  | wakeUp p state flags =>
    rw [Op.outline]
    split
    · exact .of_eq rfl rfl
    · exact .setTask fun _ => Or.inr ⟨rfl, rfl⟩
  | wakeUpNewTask p =>
    rw [Op.outline]
    exact .setTask fun _ => Or.inl ⟨rfl, fun _ _ => rfl⟩
  | fork mm =>
    show RunKept _ (Function.update b.tasks b.nrTasks (forkedTask (b.tasks b.curr) mm) q)
    rw [Function.update_of_ne (Nat.ne_of_lt hlt)]
    exact .of_eq rfl rfl
  | setscheduler p a => exact outlineSetscheduler_runKept k b p q a
  | rtMutexSetprio p prio =>
    rw [Op.outline]
    split
    · exact .of_eq rfl rfl
    · exact .setTask fun _ => .of_eq rfl rfl
  | setUserNice p nice =>
    rw [Op.outline]
    split
    · exact .of_eq rfl rfl
    · split
      · exact .setTask fun _ => .of_eq rfl rfl
      · exact .setTask fun _ => effectivePrio_runKept ..
  | schedMoveTask p g =>
    rw [Op.outline]
    exact .setTask fun _ => .of_eq rfl rfl
  | schedYield e => exact outlinePrev_runKept e hcurr
  | piWaiter p w =>
    rw [Op.outline]
    exact .setTask fun _ => .of_eq rfl rfl
  | rtPeriodTimer g n => exact .of_eq rfl rfl
  | setStopTask stop => exact setStopTask_runKept k b q stop

/-- **Scheduler steps.** A step that is not its own change of state leaves a task asleep or awake,
or wakes it up. -/
theorem step_runState {k : Kernel σ} {s t : State σ} {op : Op} {p : Pid} (hI : Inv k s)
    (hstep : step k s op = some t) (hlt : p < s.nrTasks) (hidle : p ≠ s.idle)
    (hop : ∀ st, op = .setState st → p ≠ s.curr) : RunKept (s.tasks p) (t.tasks p) := by
  obtain ⟨-, hout, -⟩ := step_outline hstep
  have hkept : RunKept (s.toBase.outline.tasks p) ((op.outline k s.toBase.outline).tasks p) := by
    refine Op.outline_runKept hlt (fun hp => ?_) hop
    exact hI.curr.2 (hp ▸ hidle) ▸ (by rw [hp]; rfl)
  have htask : (t.tasks p).params = (op.outline k s.toBase.outline).tasks p := by
    rw [← Base.outline_tasks, hout]
  rw [← htask] at hkept
  exact hkept

end LinuxKernel.Wait

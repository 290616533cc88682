import Mathlib.Data.List.Basic
import LinuxKernel.Smp.Model

/-!
# Tasks that are bound to a processor

`try_to_wake_up_local` enqueues a worker at the run queue of the processor that it runs on, also
after it has given the lock of that run queue back and taken it again. The worker cannot have been
moved meanwhile, because it is bound: its mask holds one processor, and whoever moves a task looks
at the mask.

* `targets`    — the tasks that a processor is about to move, and where to.
* `workers`    — the worker that a processor is about to wake from `__schedule`.
* `Bound`      — a bound task is at its processor.
* `Bound.step` — every step keeps it there.
-/

namespace LinuxKernel.Smp

variable {Task Cpu : Type}

/-- The tasks that a processor is about to move, with the run queues they are to go to. -/
def targets : Pc Task Cpu → List (Task × Cpu)
  | .acquire _ k | .release _ k | .moveEnqueue _ _ k => targets k
  | .moveCpu p _ dst k => (p, dst) :: targets k
  | .pushBalance p _ dst _ | .pushCheck _ p _ dst _ => [(p, dst)]
  | _ => []

/-- The worker that a processor is about to wake in `try_to_wake_up_local`. -/
def workers : Pc Task Cpu → List Task
  | .acquire _ k | .release _ k | .moveCpu _ _ _ k | .moveEnqueue _ _ k => workers k
  | .workerLock p | .workerState p => [p]
  | _ => []

/-- A bound task is at its processor, may run nowhere else, and is not about to be moved. -/
structure Bound (s : Sys Task Cpu) : Prop where
  cpu : ∀ p w, s.bound p = some w → (s.task p).cpu = w
  allowed : ∀ p w r, s.bound p = some w → s.allowed p r = true → r = w
  target : ∀ c p r w, (p, r) ∈ targets (s.pc c) → s.bound p = some w → r = w
  worker : ∀ c p, p ∈ workers (s.pc c) → s.bound p = some c

variable [LinearOrder Cpu] {s s' : Sys Task Cpu} {a b c r : Cpu} {k k₀ : Pc Task Cpu} {p : Task}
  {back : Back Task}

/-! ## Steps of one processor -/

/-- What a step has to show for the tasks that it is about to move or wake. -/
theorem Bound.update (h : Bound s) (hpc : s'.pc = Function.update s.pc c k)
    (hbound : s'.bound = s.bound) (hallowed : s'.allowed = s.allowed)
    (hcpu : ∀ p w, s.bound p = some w → (s'.task p).cpu = w)
    (htarget : ∀ p r w, (p, r) ∈ targets k → s.bound p = some w → r = w)
    (hworker : ∀ p ∈ workers k, s.bound p = some c) : Bound s' := by
  refine ⟨?_, ?_, fun d p r w hx => ?_, fun d p hp => ?_⟩
  · rwa [hbound]
  · rw [hbound, hallowed]
    exact h.allowed
  · rw [hpc] at hx
    rw [hbound]
    by_cases hd : d = c
    · rw [hd, Function.update_self] at hx
      exact htarget p r w hx
    · rw [Function.update_of_ne hd] at hx
      exact h.target d p r w hx
  · rw [hpc] at hp
    rw [hbound]
    by_cases hd : d = c
    · rw [hd, Function.update_self] at hp
      exact hd ▸ hworker p hp
    · rw [Function.update_of_ne hd] at hp
      exact h.worker d p hp

/-- A step that writes to no task, and moves no more tasks than it was about to. -/
theorem Bound.goto (h : Bound s) (hk : s.pc c = k₀) (htargets : targets k ⊆ targets k₀)
    (hworkers : workers k ⊆ workers k₀) : Bound (s.goto c k) :=
  h.update rfl rfl rfl h.cpu (fun p r w hx => h.target c p r w (hk ▸ htargets hx))
    fun p hp => h.worker c p (hk ▸ hworkers hp)

/-- A step to a place where nothing is about to be moved. -/
theorem Bound.leave (h : Bound s) (htargets : targets k = []) (hworkers : workers k = []) :
    Bound (s.goto c k) :=
  h.goto rfl (by simp [htargets]) (by simp [hworkers])

/-- Who holds a lock does not matter. -/
theorem Bound.setOwner [DecidableEq Task] (h : Bound s) (l : Lock Task Cpu) (o : Option Cpu) :
    Bound (s.setOwner l o) :=
  ⟨h.cpu, h.allowed, h.target, h.worker⟩

section Write

variable [DecidableEq Task] {t : TaskRec Cpu}

omit [LinearOrder Cpu] in
/-- A write that leaves the tasks where they are. -/
theorem Bound.setTask (h : Bound s) (hcpu : t.cpu = (s.task p).cpu) : Bound (s.setTask p t) := by
  refine ⟨fun q w hq => ?_, h.allowed, h.target, h.worker⟩
  by_cases heq : q = p
  · subst heq
    rw [show (s.setTask q t).task q = t from Function.update_self .., hcpu]
    exact h.cpu q w hq
  · rw [show (s.setTask p t).task q = s.task q from Function.update_of_ne heq _ _]
    exact h.cpu q w hq

/-- A step that writes to a task and leaves it where it is. -/
theorem Bound.write (h : Bound s) (hk : s.pc c = k₀) (hcpu : t.cpu = (s.task p).cpu)
    (htargets : targets k ⊆ targets k₀) (hworkers : workers k ⊆ workers k₀) :
    Bound ((s.setTask p t).goto c k) :=
  (h.setTask hcpu).goto hk htargets hworkers

/-- The same, to a place where nothing is about to be moved. -/
theorem Bound.writeLeave (h : Bound s) (hcpu : t.cpu = (s.task p).cpu) (htargets : targets k = [])
    (hworkers : workers k = []) : Bound ((s.setTask p t).goto c k) :=
  (h.setTask hcpu).leave htargets hworkers

omit [LinearOrder Cpu] in
/-- `set_task_cpu`, to the processor of the task if it is bound. -/
theorem Bound.setCpu (h : Bound s) (hr : ∀ w, s.bound p = some w → r = w) :
    Bound (s.setCpu p r) := by
  refine ⟨fun q w hq => ?_, h.allowed, h.target, h.worker⟩
  by_cases heq : q = p
  · subst heq
    rw [show (s.setCpu q r).task q = { s.task q with cpu := r } from Function.update_self ..]
    exact hr w hq
  · rw [show (s.setCpu p r).task q = s.task q from Function.update_of_ne heq _ _]
    exact h.cpu q w hq

end Write

/-! ## Places that are built from others -/

theorem targets_doubleRqLock : targets (doubleRqLock a b k) = targets k := by
  unfold doubleRqLock
  split_ifs <;> rfl

theorem workers_doubleRqLock : workers (doubleRqLock a b k) = workers k := by
  unfold doubleRqLock
  split_ifs <;> rfl

theorem targets_doubleRqUnlock : targets (doubleRqUnlock a b k) = targets k := by
  unfold doubleRqUnlock
  split_ifs <;> rfl

theorem workers_doubleRqUnlock : workers (doubleRqUnlock a b k) = workers k := by
  unfold doubleRqUnlock
  split_ifs <;> rfl

omit [LinearOrder Cpu] in
/-- No caller is about to move a task. -/
theorem targets_resume : targets (.resume r back : Pc Task Cpu) = [] := by
  cases back with
  | pending ps => cases ps <;> rfl
  | _ => rfl

omit [LinearOrder Cpu] in
theorem workers_resume : workers (.resume r back : Pc Task Cpu) = [] := by
  cases back with
  | pending ps => cases ps <;> rfl
  | _ => rfl

variable [DecidableEq Task]

/-- `double_lock_balance` does not change what is about to be moved. -/
theorem Bound.balance (h : Bound s) (preempt : Bool) {next : Bool → Pc Task Cpu} (hk : s.pc c = k₀)
    (htargets : ∀ x, targets (next x) ⊆ targets k₀)
    (hworkers : ∀ x, workers (next x) ⊆ workers k₀) :
    Bound (doubleLockBalance preempt s c a b next) := by
  unfold doubleLockBalance
  split_ifs
  · refine h.goto hk ?_ ?_
    · rw [targets, targets_doubleRqLock]
      exact htargets true
    · rw [workers, workers_doubleRqLock]
      exact hworkers true
  · exact (h.setOwner _ _).goto hk (htargets false) (hworkers false)
  · exact h.goto hk (htargets true) (hworkers true)
  · exact h.goto hk (htargets false) (hworkers false)

/-! ## Every step -/

variable {act : Act Task Cpu} {o : Cpu × Act Task Cpu}

/-- What a processor starts with. -/
theorem Bound.begin (h : Bound s) (hstep : begin s c act = some s') :
    Bound s' := by
  cases act with
  | taskRqLock p | wake p | schedule | post =>
    obtain rfl := Option.some.inj hstep
    exact h.leave rfl rfl
  | pending =>
    obtain rfl := Option.some.inj hstep
    have hlist : Bound (s.setWakeList c []) := ⟨h.cpu, h.allowed, h.target, h.worker⟩
    exact hlist.leave targets_resume workers_resume
  | migrate p dest =>
    simp only [Smp.begin] at hstep
    split_ifs at hstep
    obtain rfl := Option.some.inj hstep
    exact h.leave targets_doubleRqLock workers_doubleRqLock
  | setState sleep =>
    obtain ⟨p, -, rfl⟩ := Option.map_eq_some_iff.mp hstep
    exact h.setTask rfl
  | _ => cases hstep

/-- `do_set_cpus_allowed` does not change the mask of a bound task. -/
theorem Bound.heldStep (h : Bound s) (hstep : held s c p r act = some s') : Bound s' := by
  cases act with
  | next =>
    obtain rfl := Option.some.inj hstep
    exact h.leave rfl rfl
  | dequeue =>
    simp only [Smp.held] at hstep
    split_ifs at hstep
    obtain rfl := Option.some.inj hstep
    exact h.writeLeave rfl rfl rfl
  | setAllowed mask =>
    simp only [Smp.held] at hstep
    split_ifs at hstep with hfree
    obtain rfl := Option.some.inj hstep
    refine ⟨h.cpu, fun q w r hq hr => ?_, h.target, h.worker⟩
    -- the mask of a bound task is not written to
    have hne : q ≠ p := by
      rintro rfl
      rw [show s.bound q = some w from hq] at hfree
      cases hfree
    refine h.allowed q w r hq ?_
    rw [← hr]
    exact (congrFun (Function.update_of_ne hne mask s.allowed) r).symm
  | changed pull =>
    obtain rfl := Option.some.inj hstep
    cases pull <;> exact h.leave rfl rfl
  | _ => cases hstep

/-- `__schedule`, up to the dequeued task. -/
theorem Bound.schedStateStep (h : Bound s) (hstep : schedState s c act = some s') : Bound s' := by
  unfold schedState at hstep
  cases hcurr : s.curr c with
  | none =>
    rw [hcurr] at hstep
    obtain rfl := Option.some.inj hstep
    exact h.leave rfl rfl
  | some p =>
    simp only [hcurr] at hstep
    split_ifs at hstep
    · obtain rfl := Option.some.inj hstep
      exact h.leave rfl rfl
    · cases act with
      | preempted =>
        obtain rfl := Option.some.inj hstep
        exact h.leave rfl rfl
      | signal | next =>
        obtain rfl := Option.some.inj hstep
        exact h.writeLeave rfl rfl rfl
      | _ => cases hstep

/-- The worker that is to be woken is bound to this processor. -/
theorem Bound.schedWorkerStep (h : Bound s) (hstep : schedWorker s c act = some s') : Bound s' := by
  cases act with
  | task p =>
    simp only [schedWorker] at hstep
    split_ifs at hstep with hbound hcheck
    · obtain rfl := Option.some.inj hstep
      exact h.leave rfl rfl
    · obtain rfl := Option.some.inj hstep
      refine h.update rfl rfl rfl h.cpu (fun _ _ _ hx => absurd hx List.not_mem_nil) fun q hq => ?_
      rw [List.mem_singleton.mp hq]
      exact hbound
  | next =>
    obtain rfl := Option.some.inj hstep
    exact h.leave rfl rfl
  | _ => cases hstep

/-- `try_to_wake_up_local` takes the lock or waits for it. -/
theorem Bound.workerLockStep (h : Bound s) (hk : s.pc c = .workerLock p) :
    Bound (workerLock s c p) := by
  unfold workerLock
  split_ifs
  · exact (h.setOwner _ _).goto hk (List.Subset.refl _) (List.Subset.refl _)
  · exact h.goto hk (List.Subset.refl _) (List.Subset.refl _)

/-- `try_to_wake_up_local` with both locks. -/
theorem Bound.workerStateStep (h : Bound s) : Bound (workerState s c p) := by
  unfold workerState
  split_ifs
  · exact h.leave rfl rfl
  · exact h.writeLeave rfl rfl rfl
  · exact h.leave rfl rfl

/-- `pick_next_task` -/
theorem Bound.schedPickStep (h : Bound s) (hstep : schedPick s c act = some s') : Bound s' := by
  have hcurr : ∀ o, Bound (s.setCurr c o) := fun o => ⟨h.cpu, h.allowed, h.target, h.worker⟩
  cases act with
  | task next | next =>
    simp only [schedPick] at hstep
    split_ifs at hstep <;> obtain rfl := Option.some.inj hstep
    · exact h.leave rfl rfl
    · exact (hcurr _).leave rfl rfl
  | _ => cases hstep

/-- A task that is pushed goes to a processor of its mask. -/
theorem Bound.pushStep (h : Bound s) (hstep : pushRtTask s c r back act = some s') : Bound s' := by
  cases act with
  | push p dst =>
    simp only [pushRtTask] at hstep
    split_ifs at hstep with hcheck
    obtain rfl := Option.some.inj hstep
    refine h.update rfl rfl rfl h.cpu (fun q r w hx hq => ?_) fun _ hp => absurd hp List.not_mem_nil
    obtain ⟨rfl, rfl⟩ := Prod.mk.inj (List.mem_singleton.mp hx)
    exact h.allowed _ w _ hq hcheck.2.2.2
  | next =>
    obtain rfl := Option.some.inj hstep
    exact h.leave targets_resume workers_resume
  | _ => cases hstep

/-- `push_rt_task` moves the task to the run queue that it was chosen for. -/
theorem Bound.pushCheckStep (h : Bound s) {dropped : Bool} {dst : Cpu}
    (hk : s.pc c = .pushCheck dropped p r dst back)
    (hstep : pushCheck s c dropped p r dst back act = some s') : Bound s' := by
  cases act with
  | task q =>
    simp only [Smp.pushCheck] at hstep
    split_ifs at hstep
    obtain rfl := Option.some.inj hstep
    exact h.write hk rfl (List.Subset.refl _) (List.Subset.refl _)
  | next =>
    obtain rfl := Option.some.inj hstep
    exact h.leave rfl rfl
  | _ => cases hstep

omit [DecidableEq Task] in
/-- `pull_rt_task` looks at another run queue, or returns. -/
theorem Bound.pullStep (h : Bound s) (hstep : pullRtTask s c r back act = some s') : Bound s' := by
  cases act with
  | cpu src =>
    simp only [pullRtTask] at hstep
    split_ifs at hstep
    obtain rfl := Option.some.inj hstep
    exact h.leave rfl rfl
  | next =>
    obtain rfl := Option.some.inj hstep
    exact h.leave targets_resume workers_resume
  | _ => cases hstep

/-- A task that is pulled may run here. -/
theorem Bound.pullPickStep (h : Bound s) {src : Cpu}
    (hstep : pullPick s c r src back act = some s') :
    Bound s' := by
  cases act with
  | task p =>
    simp only [Smp.pullPick] at hstep
    split_ifs at hstep with hcheck
    obtain rfl := Option.some.inj hstep
    have hset : Bound (s.setQueue p src false) := h.setTask rfl
    refine hset.update rfl rfl rfl hset.cpu (fun q r w hx hq => ?_) fun _ hp =>
      absurd hp List.not_mem_nil
    obtain ⟨rfl, rfl⟩ := Prod.mk.inj (List.mem_singleton.mp hx)
    exact h.allowed _ w _ hq hcheck.2.2
  | next =>
    obtain rfl := Option.some.inj hstep
    exact h.leave rfl rfl
  | _ => cases hstep

/-- `__migrate_task` looks at the mask. -/
theorem Bound.migrateStep (h : Bound s) {dest : Cpu} :
    Bound (if (s.task p).cpu = c ∧ s.allowed p dest ∧ (s.task p).onRq then
      (s.setQueue p c false).goto c
        (.moveCpu p c dest (doubleRqUnlock c dest (.release (.pi p) .idle)))
    else s.goto c (doubleRqUnlock c dest (.release (.pi p) .idle))) := by
  split_ifs with hcheck
  · have hset : Bound (s.setQueue p c false) := h.setTask rfl
    refine hset.update rfl rfl rfl hset.cpu (fun q r w hx hq => ?_) fun q hq => ?_
    · rw [targets, targets_doubleRqUnlock] at hx
      obtain ⟨rfl, rfl⟩ := Prod.mk.inj (List.mem_singleton.mp hx)
      exact h.allowed _ w _ hq hcheck.2.1
    · rw [workers, workers_doubleRqUnlock] at hq
      exact absurd hq List.not_mem_nil
  · exact h.leave targets_doubleRqUnlock workers_doubleRqUnlock

/-- **Every step leaves the bound tasks where they are.** -/
theorem Bound.step (h : Bound s) {preempt : Bool} (hstep : step preempt s o = some s') :
    Bound s' := by
  obtain ⟨c, act⟩ := o
  unfold Smp.step at hstep
  cases hk : s.pc c with
  | idle =>
    simp only [hk] at hstep
    exact h.begin hstep
  | acquire l k =>
    simp only [hk] at hstep
    split_ifs at hstep
    obtain rfl := Option.some.inj hstep
    exact (h.setOwner _ _).goto hk (List.Subset.refl _) (List.Subset.refl _)
  | release l k =>
    simp only [hk] at hstep
    obtain rfl := Option.some.inj hstep
    exact (h.setOwner _ _).goto hk (List.Subset.refl _) (List.Subset.refl _)
  | held p r =>
    simp only [hk] at hstep
    exact h.heldStep hstep
  | rqCheck p r | wakeState p | wakeRqCheck p r =>
    simp only [hk, ← apply_ite some] at hstep
    obtain rfl := Option.some.inj hstep
    split_ifs <;> exact h.leave rfl rfl
  | wakeRemote p r =>
    simp only [hk, ← apply_ite some] at hstep
    obtain rfl := Option.some.inj hstep
    split_ifs
    · exact h.writeLeave rfl rfl rfl
    · exact h.leave rfl rfl
  | wakeSpin p =>
    simp only [hk] at hstep
    split_ifs at hstep
    obtain rfl := Option.some.inj hstep
    exact h.leave rfl rfl
  | wakeOnRq p =>
    simp only [hk] at hstep
    obtain rfl := Option.some.inj hstep
    split_ifs <;> exact h.leave rfl rfl
  -- the new processor is one the task may run on
  | wakeSelect p =>
    simp only [hk] at hstep
    cases act with
    | cpu r =>
      dsimp only at hstep
      split_ifs at hstep with hcheck
      obtain rfl := Option.some.inj hstep
      refine (h.setCpu fun w hw => ?_).leave rfl rfl
      exact hcheck.elim (h.allowed p w r hw) fun hfree => by rw [hfree] at hw; cases hw
    | next =>
      obtain rfl := Option.some.inj hstep
      exact h.leave rfl rfl
    | _ => cases hstep
  | wakeQueue p =>
    simp only [hk] at hstep
    cases act with
    | remote =>
      obtain rfl := Option.some.inj hstep
      have hlist : ∀ r ps, Bound (s.setWakeList r ps) := fun r ps =>
        ⟨h.cpu, h.allowed, h.target, h.worker⟩
      exact (hlist _ _).leave rfl rfl
    | next =>
      obtain rfl := Option.some.inj hstep
      exact h.leave rfl rfl
    | _ => cases hstep
  | schedState =>
    simp only [hk] at hstep
    exact h.schedStateStep hstep
  | schedWorker =>
    simp only [hk] at hstep
    exact h.schedWorkerStep hstep
  | workerLock p =>
    simp only [hk] at hstep
    obtain rfl := Option.some.inj hstep
    exact h.workerLockStep hk
  | workerState p =>
    simp only [hk] at hstep
    obtain rfl := Option.some.inj hstep
    exact h.workerStateStep
  | schedPick =>
    simp only [hk] at hstep
    exact h.schedPickStep hstep
  | schedOff prev =>
    simp only [hk] at hstep
    cases prev with
    | none =>
      obtain rfl := Option.some.inj hstep
      exact h.leave rfl rfl
    | some p =>
      obtain rfl := Option.some.inj hstep
      exact h.writeLeave rfl rfl rfl
  | migrate p dest =>
    simp only [hk, ← apply_ite some] at hstep
    obtain rfl := Option.some.inj hstep
    exact h.migrateStep
  -- the target was chosen from the task's mask
  | moveCpu p src dst k =>
    simp only [hk] at hstep
    obtain rfl := Option.some.inj hstep
    have hset : Bound (s.setCpu p dst) :=
      h.setCpu fun w hw => h.target c p dst w (hk ▸ List.mem_cons_self) hw
    exact hset.goto hk (List.subset_cons_self _ _) (List.Subset.refl _)
  | moveEnqueue p dst k =>
    simp only [hk] at hstep
    obtain rfl := Option.some.inj hstep
    exact h.write hk rfl (List.Subset.refl _) (List.Subset.refl _)
  | push r b =>
    simp only [hk] at hstep
    exact h.pushStep hstep
  | pushBalance p r dst b =>
    simp only [hk] at hstep
    obtain rfl := Option.some.inj hstep
    exact h.balance preempt hk (fun _ => List.Subset.refl _) fun _ => List.Subset.refl _
  | pushCheck dropped p r dst b =>
    simp only [hk] at hstep
    exact h.pushCheckStep hk hstep
  | pull r b =>
    simp only [hk] at hstep
    exact h.pullStep hstep
  | pullBalance r src b =>
    simp only [hk] at hstep
    obtain rfl := Option.some.inj hstep
    exact h.balance preempt hk (fun _ => List.Subset.refl _) fun _ => List.Subset.refl _
  | pullPick r src b =>
    simp only [hk] at hstep
    exact h.pullPickStep hstep
  | taken p r | wakeMark p | activate p r b | activateOnRq p r b | activateRun p r b | schedOnRq p
  | schedOn prev p =>
    simp only [hk] at hstep
    obtain rfl := Option.some.inj hstep
    exact h.writeLeave rfl rfl rfl
  | rqOf p | wakeRqOf p =>
    simp only [hk] at hstep
    obtain rfl := Option.some.inj hstep
    exact h.leave rfl rfl

omit [DecidableEq Task] in
/-- At the start every bound task is at its processor. -/
theorem Bound.boot {home : Task → Cpu} {mask : Task → Cpu → Bool}
    {bound : Task → Option Cpu} : Bound (boot home mask bound) := by
  refine ⟨fun p w hp => ?_, fun p w r hp hr => ?_, fun c p r w hx => absurd hx List.not_mem_nil,
    fun c p hp => absurd hp List.not_mem_nil⟩
  · have hp : bound p = some w := hp
    simp [Smp.boot, hp]
  · have hp : bound p = some w := hp
    simpa [Smp.boot, hp] using hr

end LinuxKernel.Smp

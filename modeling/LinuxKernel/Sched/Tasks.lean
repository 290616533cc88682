import LinuxKernel.Sched.System
import LinuxKernel.Sched.RtInv

/-!
# Android scheduler — the tasks without their queues

An abstract model of the scheduler that keeps the parameters of the tasks and
forgets the queues: `Base.outline` drops the WRR run queue and the WRR entities.
The hooks of the classes never write anything else of `Base`, so the effect of
an operation on the outline is a function of the outline (`Op.outline`), up to
the task that `schedule` picks.

## Results

* `hookOf_outline`   — no hook changes the outline.
* `step_outline`     — refinement: every step of the scheduler is the step
  `Op.outline` of the abstract model, up to the choice of the next task.
* `TaskInv.outline`  — the abstract model keeps the parameters consistent:
  `normal_prio` is the one of policy and nice value, a boost only raises,
  the real-time class has real-time priorities only, and the WRR class has
  `SCHED_WRR` tasks only.
-/

namespace LinuxKernel.Sched

open LinuxKernel.Lib

variable {σ : Type}

/-! ## Outlines -/

/-- A task without its WRR entity. -/
def Task.params (t : Task) : Task := { t with wrr := ⟨0, 0⟩ }

/-- Tasks with the same parameters agree in everything but the WRR entity. -/
theorem Task.eq_of_params {t t' : Task} (h : t'.params = t.params) :
    t' = { t with wrr := t'.wrr } := by
  cases t
  cases t'
  simpa [Task.params] using h

theorem Task.onRq_eq {t t' : Task} (h : t'.params = t.params) : t'.onRq = t.onRq := by
  rw [Task.eq_of_params h]

theorem Task.schedClass_eq {t t' : Task} (h : t'.params = t.params) :
    t'.schedClass = t.schedClass := by
  rw [Task.eq_of_params h]

/-- The state without what only the WRR class writes to: its entities and its run queue. -/
def Base.outline (b : Base) : Base :=
  { b with tasks := fun p => (b.tasks p).params, wrr := initWrrRq }

@[simp] theorem Base.outline_tasks (b : Base) (p : Pid) :
    b.outline.tasks p = (b.tasks p).params := rfl
@[simp] theorem Base.outline_nrTasks (b : Base) : b.outline.nrTasks = b.nrTasks := rfl
@[simp] theorem Base.outline_curr (b : Base) : b.outline.curr = b.curr := rfl
@[simp] theorem Base.outline_idle (b : Base) : b.outline.idle = b.idle := rfl
@[simp] theorem Base.outline_stop (b : Base) : b.outline.stop = b.stop := rfl

/-- States with the same outline have the same tasks, up to their WRR entities. -/
theorem Base.params_eq {b b' : Base} (h : b'.outline = b.outline) (p : Pid) :
    (b'.tasks p).params = (b.tasks p).params :=
  congrFun (congrArg Base.tasks h) p

theorem Base.nrTasks_eq {b b' : Base} (h : b'.outline = b.outline) : b'.nrTasks = b.nrTasks := by
  rw [← Base.outline_nrTasks, h, Base.outline_nrTasks]

theorem Base.curr_eq {b b' : Base} (h : b'.outline = b.outline) : b'.curr = b.curr := by
  rw [← Base.outline_curr, h, Base.outline_curr]

/-- Writing parameters commutes with forgetting the rest. -/
theorem Base.setTask_outline {b : Base} {p : Pid} {f : Task → Task}
    (hf : ∀ t, (f t).params = f t.params) :
    (b.setTask p f).outline = b.outline.setTask p f := by
  have htasks : ∀ q, ((b.setTask p f).outline).tasks q = (b.outline.setTask p f).tasks q := by
    intro q
    rw [Base.outline_tasks, Base.setTask_tasks, Base.setTask_tasks]
    split
    · exact hf _
    · rfl
  have := funext htasks
  unfold Base.outline at this ⊢
  exact congrArg (fun ts => { b with tasks := ts, wrr := initWrrRq }) this

/-- Writing a WRR entity does not show. -/
@[simp] theorem Base.setWrr_outline (b : Base) (p : Pid) (f : Task → SchedWrrEntity) :
    (b.setWrr p f).outline = b.outline := by
  have htasks : ∀ q, ((b.setWrr p f).tasks q).params = (b.tasks q).params := by
    intro q
    rw [Base.setWrr, Base.setTask_tasks]
    split
    · next hq => rw [hq]; rfl
    · rfl
  unfold Base.outline
  exact congrArg (fun ts => { b with tasks := ts, wrr := initWrrRq }) (funext htasks)

/-! ## Hooks -/

/-- The real-time class writes neither to a task nor to the WRR queue. -/
@[simp] theorem rtHook_toBase (k : Kernel σ) (h : Hook) (s : State σ) (p : Pid) (a : Nat) :
    (rtHook k h s p a).toBase = s.toBase := by
  cases h with
  | enqueueTask => rfl
  | dequeueTask =>
    show (updateCurrRt k s).toBase = s.toBase
    exact updateCurrRt_toBase k s
  | yieldTask => rfl
  | checkPreemptCurr =>
    show (checkPreemptCurrRt s p).toBase = s.toBase
    unfold checkPreemptCurrRt
    split <;> rfl
  | putPrevTask => exact updateCurrRt_toBase k s
  | setCurrTask => rfl
  | taskTick =>
    have hb := updateCurrRt_toBase k s
    show (taskTickRt k s p).toBase = s.toBase
    unfold taskTickRt
    dsimp only
    split
    · exact hb
    · split
      · exact hb
      · split <;> exact hb
  | taskFork => rfl
  | switchedFrom => rfl
  | switchedTo =>
    show (switchedToRt s p).toBase = s.toBase
    unfold switchedToRt
    split <;> rfl
  | prioChanged =>
    show (prioChangedRt s p a).toBase = s.toBase
    unfold prioChangedRt
    split
    · rfl
    · split
      · split <;> rfl
      · split <;> rfl
  | taskMoveGroup => rfl

@[simp] theorem updateCurrWrr_toBase (s : State σ) : (updateCurrWrr s).toBase = s.toBase := by
  unfold updateCurrWrr; split <;> rfl

/-- The operations of the WRR queue write to entities and the queue only. -/
@[simp] theorem enqueueWrrEntity_outline (c : Config) (b : Base) (p : Pid) (head : Bool) :
    (enqueueWrrEntity c b p head).outline = b.outline :=
  Base.setWrr_outline b p fun t => classify c t.schedTaskGroup t.wrr

@[simp] theorem dequeueWrrEntity_outline (b : Base) (p : Pid) :
    (dequeueWrrEntity b p).outline = b.outline := rfl

@[simp] theorem requeueTaskWrr_outline (b : Base) (p : Pid) (head : Bool) :
    (requeueTaskWrr b p head).outline = b.outline := rfl

/-- So do the hooks of the WRR class. -/
theorem wrrHook_outline (c : Config) (h : Hook) (s : State σ) (p : Pid) (a : Nat) :
    (wrrHook c h s p a).toBase.outline = s.toBase.outline := by
  cases h with
  | taskTick =>
    simp only [wrrHook, taskTickWrr]
    split
    · simp
    · split <;> simp
  | switchedTo =>
    simp only [wrrHook, switchedToWrr]
    split <;> simp
  | _ =>
    simp [wrrHook, enqueueTaskWrr, dequeueTaskWrr, yieldTaskWrr, checkPreemptCurrWrr,
      putPrevTaskWrr, setCurrTaskWrr, taskForkWrr, prioChangedWrr]

/-- The classes other than WRR leave `Base` alone. -/
theorem hookOf_toBase {c : SchedClass} (hc : c ≠ .wrr) (k : Kernel σ) (h : Hook) (s : State σ)
    (p : Pid) (a : Nat) : (hookOf k c h s p a).toBase = s.toBase := by
  cases c with
  | wrr => exact absurd rfl hc
  | rt => exact rtHook_toBase k h s p a
  | stop => rfl
  | fair => rfl
  | idle => rfl

/-- **No hook changes the outline.** -/
@[simp] theorem hookOf_outline (k : Kernel σ) (c : SchedClass) (h : Hook) (s : State σ) (p : Pid)
    (a : Nat) : (hookOf k c h s p a).toBase.outline = s.toBase.outline := by
  by_cases hc : c = .wrr
  · subst hc
    exact wrrHook_outline _ h s p a
  · rw [hookOf_toBase hc]

/-- **Hooks do not change the outline**, whatever the class. -/
@[simp] theorem taskHook_outline (k : Kernel σ) (h : Hook) (s : State σ) (p : Pid) (a : Nat) :
    (taskHook k h s p a).toBase.outline = s.toBase.outline := hookOf_outline ..

/-- Nor does the core when it calls a hook: a task is put on its queue. -/
@[simp] theorem enqueueTask_outline (k : Kernel σ) (s : State σ) (p : Pid) (flags : Nat) :
    (enqueueTask k s p flags).toBase.outline = s.toBase.outline := by
  rw [enqueueTask, taskHook_outline, updateRqClock_toBase]

/-- A task is taken from its queue. -/
@[simp] theorem dequeueTask_outline (k : Kernel σ) (s : State σ) (p : Pid) (flags : Nat) :
    (dequeueTask k s p flags).toBase.outline = s.toBase.outline := by
  rw [dequeueTask, taskHook_outline, updateRqClock_toBase]

/-- What follows a change of the class does not change the outline. -/
@[simp] theorem checkClassChanged_outline (k : Kernel σ) (s : State σ) (p : Pid)
    (c : SchedClass) (oldprio : Nat) :
    (checkClassChanged k s p c oldprio).toBase.outline = s.toBase.outline := by
  unfold checkClassChanged
  split
  · rw [taskHook_outline, hookOf_outline]
  · split
    · rw [taskHook_outline]
    · rfl

/-- The test for preemption does not change the outline. -/
@[simp] theorem checkPreemptCurr_outline (k : Kernel σ) (s : State σ) (p : Pid) (flags : Nat) :
    (checkPreemptCurr k s p flags).toBase.outline = s.toBase.outline := by
  unfold checkPreemptCurr
  dsimp only
  split <;> split <;> (try split) <;> simp

/-! ## The abstract model -/

theorem Base.setTask_congr {b : Base} {p : Pid} {f g : Task → Task}
    (h : f (b.tasks p) = g (b.tasks p)) : b.setTask p f = b.setTask p g := by
  unfold Base.setTask
  rw [h]

theorem Base.setTask_setTask (b : Base) (p : Pid) (f g : Task → Task) :
    (b.setTask p f).setTask p g = b.setTask p (g ∘ f) := by
  unfold Base.setTask
  simp

/-- A task that was put on a queue and made runnable. -/
def wakeTask (t : Task) : Task := { t with onRq := true, state := taskRunning }

/-- `try_to_wake_up_local` on outlines. -/
def outlineWakeLocal (b : Base) (w : Pid) : Base :=
  if w = b.curr ∨ (b.tasks w).state &&& taskNormal = 0 then b else b.setTask w wakeTask

/-- The first half of `__schedule` on outlines. -/
def outlinePrev (b : Base) (e : SchedEnv) : Base :=
  if (b.tasks b.curr).state ≠ taskRunning ∧ e.preemptActive = false then
    if e.signalPending then b.setTask b.curr fun t => { t with state := taskRunning }
    else
      let b := b.setTask b.curr fun t => { t with onRq := false }
      match e.toWakeup with
      | none => b
      | some w => outlineWakeLocal b w
  else b

/-- `__sched_setscheduler` on outlines. -/
def outlineSetscheduler (k : Kernel σ) (b : Base) (p : Pid) (a : SetschedArgs) : Base :=
  match setschedulerRequest k b.stop p (b.tasks p) a with
  | .ok (some (policy, reset)) =>
    b.setTask p (setschedulerTask policy a.schedPriority.toNat reset)
  | _ => b

/-- The two halves of `sched_set_stop_task` on outlines. -/
def outlineInstall (k : Kernel σ) (b : Base) : Option Pid → Base
  | none => b
  | some p => (outlineSetscheduler k b p stopArgs).setTask p fun t => { t with schedClass := .stop }

def outlineRetire (b : Base) : Option Pid → Base
  | none => b
  | some p => b.setTask p fun t => { t with schedClass := .rt }

/-- What an operation does to the outline, the choice of the next task apart. -/
def Op.outline (k : Kernel σ) (b : Base) : Op → Base
  | .setState st => b.setTask b.curr fun t => { t with state := st }
  | .schedule e => outlinePrev b e
  | .tick => b
  | .wakeUp p state _ =>
    if (b.tasks p).state &&& state = 0 then b else b.setTask p wakeTask
  | .wakeUpNewTask p => b.setTask p fun t => { t with onRq := true }
  | .fork mm =>
    { b with
      tasks := Function.update b.tasks b.nrTasks (forkedTask (b.tasks b.curr) mm)
      nrTasks := b.nrTasks + 1 }
  | .setscheduler p a => outlineSetscheduler k b p a
  | .rtMutexSetprio p prio => if p = b.idle then b else b.setTask p (setprioTask prio)
  | .setUserNice p nice =>
    if prioToNice (b.tasks p).staticPrio = nice ∨ nice < -20 ∨ nice > 19 then b
    else if rtPolicy (b.tasks p).policy then
      b.setTask p fun t => { t with staticPrio := niceToPrio nice }
    else b.setTask p fun t => effectivePrio { t with staticPrio := niceToPrio nice }
  | .schedMoveTask p g => b.setTask p fun t => { t with schedTaskGroup := g }
  | .schedYield e => outlinePrev b e
  | .piWaiter p w => b.setTask p fun t => { t with piTopWaiter := w }
  | .rtPeriodTimer _ _ => b
  | .setStopTask stop => outlineRetire { outlineInstall k b stop with stop := stop } b.stop

/-- An effective request: what was asked for is well formed, concerns an ordinary
task and differs from what the task has. -/
theorem setschedulerRequest_ok {k : Kernel σ} {stop : Option Pid} {p : Pid} {t : Task}
    {a : SetschedArgs} {policy : Policy} {reset : Bool}
    (h : setschedulerRequest k stop p t a = .ok (some (policy, reset))) :
    requestedPolicy t a = some (policy, reset) ∧ validPriority t a = true ∧
      rtPolicy policy = (a.schedPriority != 0) ∧ stop ≠ some p ∧
      ¬ (policy = t.policy ∧ (rtPolicy policy = false ∨ a.schedPriority = t.rtPriority)) := by
  unfold setschedulerRequest at h
  split at h
  · cases h
  · next policy' reset' hreq =>
    split at h
    · cases h
    · next hvalid =>
      split at h
      · cases h
      · next hrt =>
        split at h
        · cases h
        · split at h
          · cases h
          · split at h
            · cases h
            · next hstop =>
              split at h
              · cases h
              · next hsame =>
                split at h
                · cases h
                · obtain ⟨rfl, rfl⟩ := Prod.mk.inj (Option.some.inj (Except.ok.inj h))
                  exact ⟨hreq, by simpa using hvalid, by simpa using hrt, hstop, hsame⟩

/-- A request is refused, needs nothing, or changes the task. -/
theorem outlineSetscheduler_cases (k : Kernel σ) (b : Base) (p : Pid) (a : SetschedArgs) :
    outlineSetscheduler k b p a = b ∨ ∃ policy reset,
      setschedulerRequest k b.stop p (b.tasks p) a = .ok (some (policy, reset)) ∧
      outlineSetscheduler k b p a =
        b.setTask p (setschedulerTask policy a.schedPriority.toNat reset) := by
  unfold outlineSetscheduler
  split
  · next policy reset h => exact Or.inr ⟨policy, reset, h, rfl⟩
  · exact Or.inl rfl

/-- A worker is woken if it sleeps and is not the running task. -/
theorem outlineWakeLocal_cases (b : Base) (w : Pid) :
    outlineWakeLocal b w = b ∨
      (w ≠ b.curr ∧ (b.tasks w).state &&& taskNormal ≠ 0 ∧
        outlineWakeLocal b w = b.setTask w wakeTask) := by
  unfold outlineWakeLocal
  split
  · exact Or.inl rfl
  · next h =>
    rw [not_or] at h
    exact Or.inr ⟨h.1, h.2, rfl⟩

/-- Neither half of the model moves the two fixed points of a run queue. -/
theorem outlineSetscheduler_curr (k : Kernel σ) (b : Base) (p : Pid) (a : SetschedArgs) :
    (outlineSetscheduler k b p a).curr = b.curr ∧
      (outlineSetscheduler k b p a).idle = b.idle := by
  rcases outlineSetscheduler_cases k b p a with h | ⟨policy, reset, -, h⟩ <;>
    rw [h] <;> exact ⟨rfl, rfl⟩

/-- The running task stays until the next one is chosen. -/
theorem outlinePrev_curr (b : Base) (e : SchedEnv) :
    (outlinePrev b e).curr = b.curr ∧ (outlinePrev b e).idle = b.idle := by
  unfold outlinePrev
  split
  · split
    · exact ⟨rfl, rfl⟩
    · cases e.toWakeup with
      | none => exact ⟨rfl, rfl⟩
      | some w =>
        dsimp only
        rcases outlineWakeLocal_cases
          (b.setTask b.curr fun t => { t with onRq := false }) w with h | ⟨-, -, h⟩ <;>
          rw [h] <;> exact ⟨rfl, rfl⟩
  · exact ⟨rfl, rfl⟩

theorem outlineInstall_curr (k : Kernel σ) (b : Base) (stop : Option Pid) :
    (outlineInstall k b stop).curr = b.curr ∧ (outlineInstall k b stop).idle = b.idle := by
  cases stop with
  | none => exact ⟨rfl, rfl⟩
  | some p => exact outlineSetscheduler_curr k b p stopArgs

theorem outlineRetire_curr (b : Base) (q : Option Pid) :
    (outlineRetire b q).curr = b.curr ∧ (outlineRetire b q).idle = b.idle := by
  cases q <;> exact ⟨rfl, rfl⟩

/-- No outline moves the running task or the idle task. -/
theorem Op.outline_curr (k : Kernel σ) (b : Base) (op : Op) :
    (op.outline k b).curr = b.curr ∧ (op.outline k b).idle = b.idle := by
  cases op with
  | schedule e => exact outlinePrev_curr b e
  | schedYield e => exact outlinePrev_curr b e
  | setscheduler p a => exact outlineSetscheduler_curr k b p a
  | setStopTask stop =>
    have hi := outlineInstall_curr k b stop
    have hr := outlineRetire_curr { outlineInstall k b stop with stop := stop } b.stop
    exact ⟨hr.1.trans hi.1, hr.2.trans hi.2⟩
  | wakeUp p state flags =>
    show (if _ then _ else _ : Base).curr = b.curr ∧ (if _ then _ else _ : Base).idle = b.idle
    split <;> exact ⟨rfl, rfl⟩
  | rtMutexSetprio p prio =>
    show (if _ then _ else _ : Base).curr = b.curr ∧ (if _ then _ else _ : Base).idle = b.idle
    split <;> exact ⟨rfl, rfl⟩
  | setUserNice p nice =>
    show (if _ then _ else if _ then _ else _ : Base).curr = b.curr ∧
      (if _ then _ else if _ then _ else _ : Base).idle = b.idle
    split
    · exact ⟨rfl, rfl⟩
    · split <;> exact ⟨rfl, rfl⟩
  | setState st => exact ⟨rfl, rfl⟩
  | tick => exact ⟨rfl, rfl⟩
  | wakeUpNewTask p => exact ⟨rfl, rfl⟩
  | fork mm => exact ⟨rfl, rfl⟩
  | schedMoveTask p g => exact ⟨rfl, rfl⟩
  | piWaiter p w => exact ⟨rfl, rfl⟩
  | rtPeriodTimer g n => exact ⟨rfl, rfl⟩

/-- The operations that end in a choice of the next task. -/
def Op.switches : Op → Bool
  | .schedule _ | .schedYield _ => true
  | _ => false

/-! ## Refinement -/

/-- What a fork does to a task does not depend on its WRR entity. -/
theorem resetOnFork_params (t : Task) : (resetOnFork t).params = resetOnFork t.params := by
  cases hr : t.schedResetOnFork <;> cases hp : rtPolicy t.policy <;>
    by_cases hn : prioToNice t.staticPrio < 0 <;>
    simp [resetOnFork, Task.params, hr, hp, hn]

theorem forkedTask_params (t : Task) (mm : Bool) :
    (forkedTask t mm).params = forkedTask t.params mm := by
  have hfair : ∀ u : Task, (if rtPrio u.prio then u else { u with schedClass := .fair }).params =
      if rtPrio u.params.prio then u.params else { u.params with schedClass := .fair } := by
    intro u
    show _ = if rtPrio u.prio then _ else _
    split <;> rfl
  unfold forkedTask
  dsimp only
  rw [hfair, resetOnFork_params]
  rfl

/-- A task that is taken from its queue, changed and put back: only the change is seen. -/
theorem retask_outline (k : Kernel σ) (s : State σ) (p : Pid) (flags : Nat)
    {change : State σ → State σ} {f : Task → Task} (hf : ∀ t, (f t).params = f t.params)
    (hchange : ∀ u : State σ, (change u).toBase.outline = (u.setTask p f).toBase.outline) :
    (retask k s p flags change).toBase.outline = s.toBase.outline.setTask p f := by
  -- everything around the change is hooks
  have hoff : ∀ (c : Bool) (u : State σ),
      (if c then dequeueTask k u p 0 else u).toBase.outline = u.toBase.outline := by
    intro c u
    cases c <;> simp
  have hput : ∀ (c : Bool) (h : Hook) (u : State σ),
      (if c then taskHook k h u p 0 else u).toBase.outline = u.toBase.outline := by
    intro c h u
    cases c <;> simp
  have hon : ∀ (c : Bool) (u : State σ),
      (if c then enqueueTask k u p flags else u).toBase.outline = u.toBase.outline := by
    intro c u
    cases c <;> simp
  unfold retask
  dsimp only
  rw [hon, hput, hchange, State.setTask_toBase, Base.setTask_outline hf, hput, hoff]

/-- A task that is woken is runnable. -/
theorem ttwuDoWakeup_outline (k : Kernel σ) (s : State σ) (p : Pid) (flags : Nat) :
    (ttwuDoWakeup k s p flags).toBase.outline =
      s.toBase.outline.setTask p fun t => { t with state := taskRunning } := by
  rw [ttwuDoWakeup, State.setTask_toBase, Base.setTask_outline, checkPreemptCurr_outline]
  exact fun t => rfl

/-- A task that is activated has `on_rq`. -/
theorem ttwuActivate_outline (k : Kernel σ) (s : State σ) (p : Pid) (flags : Nat) :
    (ttwuActivate k s p flags).toBase.outline =
      s.toBase.outline.setTask p fun t => { t with onRq := true } := by
  rw [ttwuActivate, State.setTask_toBase, Base.setTask_outline, activateTask,
    enqueueTask_outline]
  exact fun t => rfl

/-- Both ways of waking a task, on the queue already or not. -/
theorem wakeup_outline (k : Kernel σ) (s : State σ) (p : Pid) (f₁ f₂ f₃ : Nat) :
    (if (s.tasks p).onRq then ttwuDoWakeup k s p f₁
      else ttwuDoWakeup k (ttwuActivate k s p f₂) p f₃).toBase.outline =
      s.toBase.outline.setTask p wakeTask := by
  split
  · next hon =>
    rw [ttwuDoWakeup_outline]
    refine Base.setTask_congr ?_
    simp [wakeTask, Task.params, hon]
  · rw [ttwuDoWakeup_outline, ttwuActivate_outline, Base.setTask_setTask]
    rfl

/-- The worker that `__schedule` wakes. -/
theorem tryToWakeUpLocal_outline (k : Kernel σ) (s : State σ) (w : Pid) :
    (tryToWakeUpLocal k s w).toBase.outline = outlineWakeLocal s.toBase.outline w := by
  have hwake : (ttwuDoWakeup k (if (s.tasks w).onRq then s
      else ttwuActivate k s w enqueueWakeup) w 0).toBase.outline =
      s.toBase.outline.setTask w wakeTask := by
    rw [← wakeup_outline k s w 0 enqueueWakeup 0]
    split <;> rfl
  have hout : outlineWakeLocal s.toBase.outline w =
      if w = s.curr ∨ (s.tasks w).state &&& taskNormal = 0 then s.toBase.outline
      else s.toBase.outline.setTask w wakeTask := rfl
  rw [tryToWakeUpLocal, hout]
  by_cases hw : w = s.curr
  · rw [if_pos hw, if_pos (Or.inl hw)]
  · by_cases hst : (s.tasks w).state &&& taskNormal = 0
    · rw [if_neg hw, if_pos hst, if_pos (Or.inr hst)]
    · rw [if_neg hw, if_neg hst, if_neg (not_or.mpr ⟨hw, hst⟩), hwake]

/-- The first half of `__schedule`. -/
theorem schedulePrev_outline (k : Kernel σ) (s : State σ) (e : SchedEnv) :
    (schedulePrev k s e).toBase.outline = outlinePrev s.toBase.outline e := by
  rw [schedulePrev, outlinePrev]
  by_cases hs : (s.tasks s.curr).state ≠ taskRunning ∧ e.preemptActive = false
  · have hs' : (s.toBase.outline.tasks s.toBase.outline.curr).state ≠ taskRunning ∧
        e.preemptActive = false := hs
    rw [if_pos hs, if_pos hs']
    split
    · rw [State.setTask_toBase, Base.setTask_outline, Base.outline_curr]
      exact fun t => rfl
    · have hoff : ((deactivateTask k s s.curr dequeueSleep).setTask s.curr
          fun t => { t with onRq := false }).toBase.outline =
          s.toBase.outline.setTask s.curr fun t => { t with onRq := false } := by
        rw [State.setTask_toBase, Base.setTask_outline, deactivateTask, dequeueTask_outline]
        exact fun t => rfl
      cases e.toWakeup with
      | none => exact hoff
      | some w =>
        dsimp only
        rw [tryToWakeUpLocal_outline, hoff, Base.outline_curr]
  · have hs' : ¬ ((s.toBase.outline.tasks s.toBase.outline.curr).state ≠ taskRunning ∧
        e.preemptActive = false) := hs
    rw [if_neg hs, if_neg hs']

/-- What a class writes when it picks a task: the real-time class restarts
`exec_start`, the WRR class writes nothing. -/
theorem pickOf_cases {k : Kernel σ} {c : SchedClass} {s t : State σ} {p : Pid}
    (h : pickOf k c s = some (p, t)) :
    (c = .rt ∧ t = s.setExecStart p s.clockTask) ∨ (c = .wrr ∧ t = s) ∨
      (c ≠ .rt ∧ c ≠ .wrr ∧ ∃ e, k.ext.pick c s = some (p, e) ∧ t = s.applyExt c e) := by
  cases c with
  | rt =>
    unfold pickOf pickNextTaskRt at h
    dsimp only at h
    split at h
    · cases h
    · split at h
      · cases h
      · split at h
        · cases h
        · obtain ⟨rfl, rfl⟩ := Prod.mk.inj (Option.some.inj h)
          exact Or.inl ⟨rfl, rfl⟩
  | wrr =>
    obtain ⟨q, -, hq⟩ := Option.map_eq_some_iff.mp h
    obtain ⟨-, rfl⟩ := Prod.mk.inj hq
    exact Or.inr (Or.inl ⟨rfl, rfl⟩)
  | stop | fair | idle =>
    obtain ⟨⟨q, e⟩, he, hq⟩ := Option.map_eq_some_iff.mp h
    obtain ⟨rfl, rfl⟩ := Prod.mk.inj hq
    exact Or.inr (Or.inr ⟨by simp, by simp, e, he, rfl⟩)

/-- To pick a task changes no task. -/
theorem pickOf_toBase {k : Kernel σ} {c : SchedClass} {s t : State σ} {p : Pid}
    (h : pickOf k c s = some (p, t)) : t.toBase = s.toBase := by
  rcases pickOf_cases h with ⟨-, rfl⟩ | ⟨-, rfl⟩ | ⟨-, -, e, -, rfl⟩
  · rfl
  · rfl
  · rfl

/-- `pick_next_task` ends with the pick of some class. -/
theorem pickNextTask_pickOf {k : Kernel σ} {s : State σ} {r : Pid × State σ}
    (h : pickNextTask k s = some r) : ∃ c, pickOf k c s = some r := by
  have hwalk : ∀ cs, pickFrom k s cs = some r → ∃ c, pickOf k c s = some r := by
    intro cs
    induction cs with
    | nil =>
      intro hr
      cases hr
    | cons c cs ih =>
      intro hr
      unfold pickFrom at hr
      split at hr
      · next q hq =>
        rw [Option.some.inj hr] at hq
        exact ⟨c, hq⟩
      · exact ih hr
  unfold pickNextTask at h
  split at h
  · split at h
    · next q hq =>
      rw [Option.some.inj h] at hq
      exact ⟨.fair, hq⟩
    · exact hwalk _ h
  · exact hwalk _ h

theorem putPrevTask_outline (k : Kernel σ) (s : State σ) (p : Pid) :
    (putPrevTask k s p).toBase.outline = s.toBase.outline := by
  unfold putPrevTask
  dsimp only
  split <;> simp

/-- `__schedule`: the previous task may leave or be signalled, a worker may wake up, and there is a
new running task. -/
theorem schedule_outline {k : Kernel σ} {s t : State σ} {e : SchedEnv}
    (h : schedule k s e = some t) :
    t.toBase.outline = { outlinePrev s.toBase.outline e with curr := t.curr } := by
  unfold schedule at h
  dsimp only at h
  split at h
  · cases h
  · next next u hpick =>
    obtain rfl := Option.some.inj h
    obtain ⟨c, hc⟩ := pickNextTask_pickOf hpick
    have hu : u.toBase.outline = outlinePrev s.toBase.outline e := by
      rw [pickOf_toBase hc, putPrevTask_outline, schedulePrev_outline]
    rw [← hu]
    rfl

/-- `sched_setscheduler` -/
theorem schedSetscheduler_outline (k : Kernel σ) (s : State σ) (p : Pid) (a : SetschedArgs) :
    (schedSetscheduler k s p a).2.toBase.outline = outlineSetscheduler k s.toBase.outline p a := by
  have hreq : setschedulerRequest k s.toBase.outline.stop p (s.toBase.outline.tasks p) a =
      setschedulerRequest k s.stop p (s.tasks p) a := rfl
  rw [schedSetscheduler, outlineSetscheduler, hreq]
  cases setschedulerRequest k s.stop p (s.tasks p) a with
  | error e => rfl
  | ok r =>
    cases r with
    | none => rfl
    | some r =>
      dsimp only
      rw [checkClassChanged_outline]
      exact retask_outline k s p 0 (fun t => rfl) fun u => rfl

/-- `rt_mutex_setprio`, which spares the idle task. -/
theorem rtMutexSetprio_outline (k : Kernel σ) (s : State σ) (p : Pid) (prio : Nat) :
    (rtMutexSetprio k s p prio).toBase.outline =
      if p = s.idle then s.toBase.outline else s.toBase.outline.setTask p (setprioTask prio) := by
  unfold rtMutexSetprio
  split
  · rfl
  · dsimp only
    rw [checkClassChanged_outline]
    exact retask_outline k s p _ (fun t => rfl) fun u => rfl

/-- `sched_move_task` -/
theorem schedMoveTask_outline (k : Kernel σ) (s : State σ) (p : Pid) (g : TaskGroup) :
    (schedMoveTask k s p g).toBase.outline =
      s.toBase.outline.setTask p fun t => { t with schedTaskGroup := g } := by
  refine retask_outline k s p 0 (fun t => rfl) fun u => ?_
  rw [taskHook_outline]

/-- `set_user_nice` -/
theorem setUserNice_outline (k : Kernel σ) (s : State σ) (p : Pid) (nice : Int) :
    (setUserNice k s p nice).toBase.outline =
      (Op.setUserNice p nice).outline k s.toBase.outline := by
  have hop : (Op.setUserNice p nice).outline k s.toBase.outline =
      if prioToNice (s.tasks p).staticPrio = nice ∨ nice < -20 ∨ nice > 19 then s.toBase.outline
      else if rtPolicy (s.tasks p).policy then
        s.toBase.outline.setTask p fun t => { t with staticPrio := niceToPrio nice }
      else s.toBase.outline.setTask p
        fun t => effectivePrio { t with staticPrio := niceToPrio nice } := rfl
  rw [hop, setUserNice]
  split
  · rfl
  · split
    · rw [State.setTask_toBase, Base.setTask_outline]
      exact fun t => rfl
    · have hset : ∀ u : State σ, u.toBase.outline = s.toBase.outline →
          (u.setTask p fun t => effectivePrio
            { t with staticPrio := niceToPrio nice }).toBase.outline
          = s.toBase.outline.setTask p
            fun t => effectivePrio { t with staticPrio := niceToPrio nice } := by
        intro u hu
        rw [State.setTask_toBase, Base.setTask_outline, hu]
        exact fun t => rfl
      have htail : ∀ (u : State σ) (c : Prop) [Decidable c] (q : Pid),
          (if c then (enqueueTask k u p 0).reschedTask q
            else enqueueTask k u p 0).toBase.outline = u.toBase.outline := by
        intro u c _ q
        split <;> simp
      cases (s.tasks p).onRq
      · exact hset s rfl
      · exact (htail _ _ _).trans (hset (dequeueTask k s p 0) (dequeueTask_outline k s p 0))

/-- `sched_fork` -/
theorem schedFork_outline (k : Kernel σ) (s : State σ) (mm : Bool) :
    (schedFork k s mm).toBase.outline = (Op.fork mm).outline k s.toBase.outline := by
  unfold schedFork
  dsimp only
  rw [taskHook_outline]
  have htasks : (fun p => (Function.update s.tasks s.nrTasks
      (forkedTask (s.tasks s.curr) mm) p).params) =
      Function.update (fun p => (s.tasks p).params) s.nrTasks
        (forkedTask (s.tasks s.curr).params mm) := by
    funext q
    by_cases hq : q = s.nrTasks
    · subst hq
      rw [Function.update_self, Function.update_self, forkedTask_params]
    · rw [Function.update_of_ne hq, Function.update_of_ne hq]
  show Base.mk _ _ _ _ _ _ = Base.mk _ _ _ _ _ _
  rw [htasks]
  rfl

/-- `sched_set_stop_task` -/
theorem schedSetStopTask_outline (k : Kernel σ) (s : State σ) (stop : Option Pid) :
    (schedSetStopTask k s stop).toBase.outline =
      (Op.setStopTask stop).outline k s.toBase.outline := by
  have hnew : (installStopTask k s stop).toBase.outline =
      outlineInstall k s.toBase.outline stop := by
    cases stop with
    | none => rfl
    | some p =>
      rw [installStopTask, outlineInstall, State.setTask_toBase, Base.setTask_outline,
        schedSetscheduler_outline]
      exact fun t => rfl
  have hold : ∀ (u : State σ) (q : Option Pid),
      (retireStopTask u q).toBase.outline = outlineRetire u.toBase.outline q := by
    intro u q
    cases q with
    | none => rfl
    | some q =>
      rw [retireStopTask, outlineRetire, State.setTask_toBase, Base.setTask_outline]
      exact fun t => rfl
  have hop : (Op.setStopTask stop).outline k s.toBase.outline =
      outlineRetire { outlineInstall k s.toBase.outline stop with stop := stop } s.stop := rfl
  rw [schedSetStopTask, hold, hop, ← hnew]
  rfl

/-- **Refinement.** Every step of the scheduler does to the outline what the
abstract model says, up to the task that runs afterwards; only the operations
that end in `schedule` change that one. -/
theorem step_outline {k : Kernel σ} {s t : State σ} {op : Op} (h : step k s op = some t) :
    op.enabled k s ∧
      t.toBase.outline = { op.outline k s.toBase.outline with curr := t.curr } ∧
      (op.switches = false → t.curr = s.curr) := by
  unfold step at h
  split at h
  case isFalse => cases h
  case isTrue hen =>
    -- for an operation that keeps the current task, its outline says everything
    have hkeep : ∀ u : State σ, u.toBase.outline = op.outline k s.toBase.outline → u = t →
        t.toBase.outline = { op.outline k s.toBase.outline with curr := t.curr } ∧
          (op.switches = false → t.curr = s.curr) := by
      rintro u hu rfl
      have hcurr := (Op.outline_curr k s.toBase.outline op).1
      have hc : u.curr = s.curr := by
        rw [← Base.outline_curr, hu, hcurr, Base.outline_curr]
      refine ⟨?_, fun _ => hc⟩
      rw [hu, hc, ← Base.outline_curr s.toBase, ← hcurr]
    refine ⟨hen, ?_⟩
    cases op with
    | setState st =>
      refine hkeep _ ?_ (Option.some.inj h)
      rw [State.setTask_toBase, Base.setTask_outline]
      · rfl
      · exact fun t => rfl
    | schedule e => exact ⟨schedule_outline h, fun hs => by cases hs⟩
    | tick =>
      refine hkeep _ ?_ (Option.some.inj h)
      rw [schedulerTick, taskHook_outline, updateRqClock_toBase]
      rfl
    | wakeUp p state flags =>
      refine hkeep _ ?_ (Option.some.inj h)
      have hop : (Op.wakeUp p state flags).outline k s.toBase.outline =
          if (s.tasks p).state &&& state = 0 then s.toBase.outline
          else s.toBase.outline.setTask p wakeTask := rfl
      rw [hop, tryToWakeUp]
      split
      · rfl
      · exact wakeup_outline ..
    | wakeUpNewTask p =>
      refine hkeep _ ?_ (Option.some.inj h)
      rw [wakeUpNewTask, checkPreemptCurr_outline, State.setTask_toBase, Base.setTask_outline,
        activateTask, enqueueTask_outline]
      · rfl
      · exact fun t => rfl
    | fork mm => exact hkeep _ (schedFork_outline ..) (Option.some.inj h)
    | setscheduler p a => exact hkeep _ (schedSetscheduler_outline ..) (Option.some.inj h)
    | rtMutexSetprio p prio => exact hkeep _ (rtMutexSetprio_outline ..) (Option.some.inj h)
    | setUserNice p nice => exact hkeep _ (setUserNice_outline ..) (Option.some.inj h)
    | schedMoveTask p g => exact hkeep _ (schedMoveTask_outline ..) (Option.some.inj h)
    | schedYield e =>
      have hs := schedule_outline (s := yieldTask k s) h
      rw [yieldTask, taskHook_outline] at hs
      exact ⟨hs, fun hs => by cases hs⟩
    | piWaiter p w =>
      refine hkeep _ ?_ (Option.some.inj h)
      rw [State.setTask_toBase, Base.setTask_outline]
      · rfl
      · exact fun t => rfl
    | rtPeriodTimer g n =>
      refine hkeep _ ?_ (Option.some.inj h)
      rw [doSchedRtPeriodTimer_toBase]
      rfl
    | setStopTask stop => exact hkeep _ (schedSetStopTask_outline ..) (Option.some.inj h)

end LinuxKernel.Sched

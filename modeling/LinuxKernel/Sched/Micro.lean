import LinuxKernel.Sched.TaskInv
import Mathlib.Logic.Relation
import Mathlib.Data.Finset.Basic
import Mathlib.Data.Finset.Range

/-!
# Android scheduler — operations as sequences of small steps

`p->on_rq` changes a little after the queues do. To state what holds between
two actions inside an operation, a configuration pairs the state with the set
`R` of tasks that are on the queue of their class. Every operation is a sequence
of the small steps `Micro` within its `Scope`: at most one task, the *actor*,
leaves a queue, and tasks are changed only in the ways the scope allows.
`schedule` ends in a switch from one task to the next, `Switches`, and nothing
else does.

## Results

* `retask_path`, `checkPreemptCurr_path`, … — the pieces of `core.c`.
* `step_path` — from a state with consistent tasks, every operation is such a
  sequence, and `R` is the set of the tasks with `on_rq` at both ends.

An invariant of the queues then needs a proof for each small step and for
nothing else.
-/

namespace LinuxKernel.Sched

variable {σ : Type}

/-- The tasks with `on_rq` set. -/
def Base.queued (b : Base) : Finset Pid :=
  (Finset.range b.nrTasks).filter fun p => (b.tasks p).onRq

theorem Base.mem_queued {b : Base} {p : Pid} :
    p ∈ b.queued ↔ p < b.nrTasks ∧ (b.tasks p).onRq = true := by
  simp [Base.queued]

theorem Base.queued_eq {b b' : Base} (h : b'.outline = b.outline) : b'.queued = b.queued := by
  ext p
  rw [Base.mem_queued, Base.mem_queued, Base.nrTasks_eq h, Task.onRq_eq (Base.params_eq h p)]

theorem Base.queued_setTask {b : Base} {p : Pid} {f : Task → Task}
    (h : (f (b.tasks p)).onRq = (b.tasks p).onRq) : (b.setTask p f).queued = b.queued := by
  ext q
  rw [Base.mem_queued, Base.mem_queued, Base.setTask_nrTasks, Base.setTask_tasks]
  split
  · next hq => rw [h, hq]
  · rfl

theorem Base.queued_setOnRq {b : Base} {p : Pid} {f : Task → Task} (hp : p < b.nrTasks)
    (h : (f (b.tasks p)).onRq = true) : (b.setTask p f).queued = insert p b.queued := by
  ext q
  rw [Finset.mem_insert, Base.mem_queued, Base.mem_queued, Base.setTask_nrTasks,
    Base.setTask_tasks]
  by_cases hq : q = p
  · subst hq
    simp [h, hp]
  · simp [hq]

theorem Base.queued_clearOnRq {b : Base} {p : Pid} {f : Task → Task}
    (h : (f (b.tasks p)).onRq = false) : (b.setTask p f).queued = b.queued.erase p := by
  ext q
  rw [Finset.mem_erase, Base.mem_queued, Base.mem_queued, Base.setTask_nrTasks,
    Base.setTask_tasks]
  by_cases hq : q = p
  · subst hq
    simp [h]
  · simp [hq]

/-- A new task is not queued. -/
theorem Base.queued_newTask {b b' : Base} {u : Task} (hnr : b'.nrTasks = b.nrTasks + 1)
    (htasks : b'.tasks = Function.update b.tasks b.nrTasks u) (hu : u.onRq = false) :
    b'.queued = b.queued := by
  ext q
  rw [Base.mem_queued, Base.mem_queued, hnr, htasks, Function.update_apply]
  split
  · next hq => simp [hu, hq]
  · next hq =>
    refine and_congr_left fun _ => ?_
    rw [Nat.lt_succ_iff_lt_or_eq]
    exact or_iff_left hq

/-! ## Small steps -/

/-- What a class needs to queue a task. -/
structure Queueable (k : Kernel σ) (t : Task) : Prop where
  not_idle : t.schedClass ≠ .idle
  rt_prio  : t.schedClass = .rt → t.prio < maxRtPrio
  depth    : t.schedTaskGroup.length ≤ k.maxDepth

theorem TaskOk.queueable {k : Kernel σ} {t : Task} (h : TaskOk k.maxDepth t)
    (hc : t.schedClass ≠ .idle) : Queueable k t := ⟨hc, h.rt_prio, h.depth⟩

theorem Queueable.of_params {k : Kernel σ} {t t' : Task} (h : Queueable k t)
    (he : t'.params = t.params) : Queueable k t' := by
  rw [Task.eq_of_params he]
  exact ⟨h.not_idle, h.rt_prio, h.depth⟩

/-- Hooks that change neither queues nor entities. -/
def Hook.quiet : Hook → Bool
  | .checkPreemptCurr | .switchedFrom | .prioChanged | .taskMoveGroup => true
  | _ => false

/-- A state with the set of tasks that are on the queue of their class. -/
structure Cfg (σ : Type) where
  state : State σ
  on    : Finset Pid

/-- `task_move_group`, in the operation that calls it. -/
def moveHook (k : Kernel σ) (moved : Option Nat) (s : State σ) (p : Pid) : State σ :=
  match moved with
  | none => s
  | some a => taskHook k .taskMoveGroup s p a

@[simp] theorem moveHook_outline (k : Kernel σ) (moved : Option Nat) (s : State σ) (p : Pid) :
    (moveHook k moved s p).toBase.outline = s.toBase.outline := by
  cases moved <;> simp [moveHook]

/-- The running task p is put, changed (and moved between groups) and set again. -/
def cycleCurr (k : Kernel σ) (s : State σ) (p : Pid) (f : Task → Task) (moved : Option Nat) :
    State σ :=
  taskHook k .setCurrTask
    (moveHook k moved ((taskHook k .putPrevTask s p 0).setTask p f) p) p 0

/-- The end of `__schedule`: prev is put and next becomes the current task. -/
def switchTo (s : State σ) (prev next : Pid) : State σ :=
  { s.clearNeedResched prev with skipClockUpdate := 0, curr := next }

/-- What an operation may do: the task it takes off a queue, the changes it makes
to a task, and whether it may end the throttling of a group. The run state of a
task may always change. -/
structure Scope where
  actor    : Pid
  edit     : Pid → Task → Task → Prop
  timer    : Prop
  edit_run : ∀ p u b n, edit p u { u with onRq := b, state := n }

/-- The small steps of an operation. -/
inductive Micro (k : Kernel σ) (A : Scope) : Cfg σ → Cfg σ → Prop
  | clock (s : State σ) (R : Finset Pid) : Micro k A ⟨s, R⟩ ⟨updateRqClock k s, R⟩
  | flags (s : State σ) (R : Finset Pid) (resched : Pid → Bool) (skip : Int)
      (hresched : ∀ p, s.needResched p = true → resched p = true) :
      Micro k A ⟨s, R⟩ ⟨{ s with needResched := resched, skipClockUpdate := skip }, R⟩
  | edit (s : State σ) (R : Finset Pid) (p : Pid) (f : Task → Task)
      (hwrr : (f (s.tasks p)).wrr = (s.tasks p).wrr)
      (hon : p ∈ R → (f (s.tasks p)).schedClass = (s.tasks p).schedClass ∧
        (f (s.tasks p)).prio = (s.tasks p).prio ∧
        (f (s.tasks p)).schedTaskGroup = (s.tasks p).schedTaskGroup)
      (hedit : A.edit p (s.tasks p) (f (s.tasks p))) :
      Micro k A ⟨s, R⟩ ⟨s.setTask p f, R⟩
  | enqueue (s : State σ) (R : Finset Pid) (p : Pid) (flags : Nat) (hp : p ∉ R)
      (hq : Queueable k (s.tasks p))
      (hhead : (s.tasks p).schedClass = .wrr → flags &&& enqueueHead = 0) :
      Micro k A ⟨s, R⟩ ⟨taskHook k .enqueueTask s p flags, insert p R⟩
  | dequeue (s : State σ) (R : Finset Pid) (flags : Nat) (ha : A.actor ∈ R) :
      Micro k A ⟨s, R⟩ ⟨taskHook k .dequeueTask s A.actor flags, R.erase A.actor⟩
  | hook (s : State σ) (R : Finset Pid) (c : SchedClass) (h : Hook) (p : Pid) (arg : Nat)
      (hh : h.quiet = true) : Micro k A ⟨s, R⟩ ⟨hookOf k c h s p arg, R⟩
  | switchedTo (s : State σ) (R : Finset Pid) (p : Pid)
      (hp : (s.tasks p).onRq = true → p ∈ R) :
      Micro k A ⟨s, R⟩ ⟨taskHook k .switchedTo s p 0, R⟩
  | cycle (s : State σ) (R : Finset Pid) (p : Pid) (f : Task → Task) (moved : Option Nat)
      (hcurr : s.curr = p) (hp : p ∉ R) (hwrr : ∀ t, (f t).wrr = t.wrr)
      (hedit : A.edit p (s.tasks p) (f (s.tasks p))) :
      Micro k A ⟨s, R⟩ ⟨cycleCurr k s p f moved, R⟩
  | yield (s : State σ) (R : Finset Pid) (ha : A.actor = s.curr) (hR : s.curr ∈ R) :
      Micro k A ⟨s, R⟩ ⟨taskHook k .yieldTask s s.curr 0, R⟩
  | tick (s : State σ) (R : Finset Pid) (ha : A.actor = s.curr)
      (hR : (s.tasks s.curr).schedClass = .wrr → s.curr ∈ R) :
      Micro k A ⟨s, R⟩ ⟨taskHook k .taskTick s s.curr 0, R⟩
  | fork (s : State σ) (R : Finset Pid) (mm : Bool) (hR : ∀ p ∈ R, p < s.nrTasks)
      (hc : (forkedTask (s.tasks s.curr) mm).schedClass ≠ .wrr) :
      Micro k A ⟨s, R⟩ ⟨schedFork k s mm, R⟩
  | periodTimer (s : State σ) (R : Finset Pid) (g : TaskGroup) (n : Nat) (htimer : A.timer) :
      Micro k A ⟨s, R⟩ ⟨doSchedRtPeriodTimer k s g n, R⟩
  | setStop (s : State σ) (R : Finset Pid) (stop : Option Pid) :
      Micro k A ⟨s, R⟩ ⟨{ s with stop := stop }, R⟩

/-- Sequences of small steps. -/
abbrev Path (k : Kernel σ) (A : Scope) : Cfg σ → Cfg σ → Prop :=
  Relation.ReflTransGen (Micro k A)

theorem Micro.path {k : Kernel σ} {A : Scope} {c d : Cfg σ} (h : Micro k A c d) : Path k A c d :=
  .single h

/-- The end of `schedule`: the current task is put and what a class picks becomes
the current task. -/
def Switches (k : Kernel σ) (s t : State σ) : Prop :=
  ∃ c next u, pickOf k c (taskHook k .putPrevTask s s.curr 0) = some (next, u) ∧
    t = switchTo u s.curr next

/-! ## Pieces of the core -/

section Pieces

variable (k : Kernel σ) (A : Scope) {s : State σ} {R : Finset Pid} {p : Pid}

theorem reschedTask_path (s : State σ) (R : Finset Pid) (p : Pid) :
    Path k A ⟨s, R⟩ ⟨s.reschedTask p, R⟩ := by
  refine (Micro.flags s R _ s.skipClockUpdate fun q hq => ?_).path
  rw [Function.update_apply]
  split
  · rfl
  · exact hq

theorem checkPreemptCurr_path (s : State σ) (R : Finset Pid) (p : Pid) (flags : Nat) :
    Path k A ⟨s, R⟩ ⟨checkPreemptCurr k s p flags, R⟩ := by
  unfold checkPreemptCurr
  dsimp only
  have hskip : ∀ u : State σ, Path k A ⟨u, R⟩
      ⟨if (u.tasks u.curr).onRq = true ∧ u.needResched u.curr = true then
        { u with skipClockUpdate := 1 } else u, R⟩ := by
    intro u
    split
    · exact (Micro.flags u R u.needResched 1 fun _ h => h).path
    · exact .refl
  refine Relation.ReflTransGen.trans ?_ (hskip _)
  split
  · exact (Micro.hook s R _ .checkPreemptCurr p flags rfl).path
  · split
    · exact reschedTask_path k A s R _
    · exact .refl

theorem checkClassChanged_path (c : SchedClass) (oldprio : Nat)
    (hp : (s.tasks p).onRq = true → p ∈ R) :
    Path k A ⟨s, R⟩ ⟨checkClassChanged k s p c oldprio, R⟩ := by
  unfold checkClassChanged
  split
  · refine .head (Micro.hook s R c .switchedFrom p 0 rfl) (Micro.switchedTo _ R p ?_).path
    intro hon
    rw [Task.onRq_eq (Base.params_eq (hookOf_outline k c .switchedFrom s p 0) p)] at hon
    exact hp hon
  · split
    · exact (Micro.hook s R _ .prioChanged p oldprio rfl).path
    · exact .refl

theorem enqueueTask_path (flags : Nat) (hp : p ∉ R) (hq : Queueable k (s.tasks p))
    (hhead : (s.tasks p).schedClass = .wrr → flags &&& enqueueHead = 0) :
    Path k A ⟨s, R⟩ ⟨enqueueTask k s p flags, insert p R⟩ := by
  have htasks : (updateRqClock k s).tasks p = (s.tasks p) :=
    congrArg (fun b => Base.tasks b p) (updateRqClock_toBase k s)
  refine .head (Micro.clock s R) (Micro.enqueue _ R p flags hp ?_ ?_).path
  · rw [htasks]
    exact hq
  · rw [htasks]
    exact hhead

theorem dequeueTask_path (flags : Nat) (ha : A.actor ∈ R) :
    Path k A ⟨s, R⟩ ⟨dequeueTask k s A.actor flags, R.erase A.actor⟩ :=
  .head (Micro.clock s R) (Micro.dequeue _ R flags ha).path

/-- The frame around a change of parameters. -/
theorem retask_path {f : Task → Task} {change : State σ → State σ} (flags : Nat)
    (hact : A.actor = p) (hon : (s.tasks p).onRq = true ↔ p ∈ R)
    (hrun : s.curr = p → (s.tasks p).onRq = true)
    (hwrr : ∀ t, (f t).wrr = t.wrr) (hparams : ∀ t, (f t).params = f t.params)
    (hchange : ∀ u : State σ, ∃ moved, change u = moveHook k moved (u.setTask p f) p)
    (hedit : ∀ u : Task, u.params = (s.tasks p).params → A.edit p u (f u))
    (hq : (s.tasks p).onRq = true → Queueable k (f (s.tasks p)))
    (hhead : (f (s.tasks p)).schedClass = .wrr → flags &&& enqueueHead = 0) :
    Path k A ⟨s, R⟩ ⟨retask k s p flags change, R⟩ := by
  -- the change of a task that is neither queued nor running
  have hoff : ∀ (u : State σ) (R' : Finset Pid), u.toBase.outline = s.toBase.outline → p ∉ R' →
      Path k A ⟨u, R'⟩ ⟨change u, R'⟩ := by
    intro u R' hu hp
    obtain ⟨moved, hm⟩ := hchange u
    rw [hm]
    refine .head (Micro.edit u R' p f (hwrr _) (fun h => absurd h hp)
      (hedit _ (Base.params_eq hu p))) ?_
    cases moved with
    | none => exact .refl
    | some arg => exact (Micro.hook _ R' _ .taskMoveGroup p arg rfl).path
  have hout : ∀ u : State σ, (change u).toBase.outline = u.toBase.outline.setTask p f := by
    intro u
    obtain ⟨moved, hm⟩ := hchange u
    rw [hm, moveHook_outline, State.setTask_toBase, Base.setTask_outline hparams]
  unfold retask
  cases honRq : (s.tasks p).onRq with
  | false =>
    have hcurr : s.curr ≠ p := fun h => by rw [hrun h] at honRq; cases honRq
    have hp : p ∉ R := fun h => by rw [hon.mpr h] at honRq; cases honRq
    simpa [hcurr] using hoff s R rfl hp
  | true =>
    have hp : p ∈ R := hon.mp honRq
    have hnot : p ∉ R.erase p := Finset.notMem_erase p R
    have hcurr : (dequeueTask k s p 0).curr = s.curr :=
      Base.curr_eq (dequeueTask_outline k s p 0)
    -- the middle part, with the task off its queue
    have hdeq := dequeueTask_outline k s p 0
    have hmid : Path k A ⟨dequeueTask k s p 0, R.erase p⟩
        ⟨if s.curr = p then
            taskHook k .setCurrTask (change (taskHook k .putPrevTask (dequeueTask k s p 0) p 0)) p 0
          else change (dequeueTask k s p 0), R.erase p⟩ := by
      split
      · next hc =>
        obtain ⟨moved, hm⟩ := hchange (taskHook k .putPrevTask (dequeueTask k s p 0) p 0)
        rw [hm]
        exact (Micro.cycle _ _ p f moved (hcurr.trans hc) hnot hwrr
          (hedit _ (Base.params_eq hdeq p))).path
      · exact hoff _ _ hdeq hnot
    have hmidOut : (if s.curr = p then
        taskHook k .setCurrTask (change (taskHook k .putPrevTask (dequeueTask k s p 0) p 0)) p 0
        else change (dequeueTask k s p 0)).toBase.outline = s.toBase.outline.setTask p f := by
      split <;> simp [hout]
    generalize hu : (if s.curr = p then
        taskHook k .setCurrTask (change (taskHook k .putPrevTask (dequeueTask k s p 0) p 0)) p 0
        else change (dequeueTask k s p 0)) = u at hmid hmidOut
    have htask : (u.tasks p).params = (f (s.tasks p)).params := by
      have h := congrArg (fun b => Base.tasks b p) hmidOut
      simp only [Base.outline_tasks, Base.setTask_self] at h
      rw [h, hparams]
    have henq := enqueueTask_path k A (s := u) (R := R.erase p) (p := p) flags hnot
      ((hq honRq).of_params htask) (by rw [Task.schedClass_eq htask]; exact hhead)
    rw [Finset.insert_erase hp] at henq
    have hout := dequeueTask_path k A (s := s) 0 (hact.symm ▸ hp)
    rw [hact] at hout
    have hall := hout.trans (hmid.trans henq)
    rw [← hu] at hall
    by_cases hc : s.curr = p
    · simpa [hc] using hall
    · simpa [hc] using hall

theorem setUserNice_path (nice : Int) (hact : A.actor = p)
    (hon : (s.tasks p).onRq = true ↔ p ∈ R)
    (hstatic : A.edit p (s.tasks p) { s.tasks p with staticPrio := niceToPrio nice })
    (hedit : rtPolicy (s.tasks p).policy = false → ∀ u : Task, u.params = (s.tasks p).params →
      A.edit p u (effectivePrio { u with staticPrio := niceToPrio nice }))
    (hq : (s.tasks p).onRq = true →
      Queueable k (effectivePrio { s.tasks p with staticPrio := niceToPrio nice })) :
    Path k A ⟨s, R⟩ ⟨setUserNice k s p nice, R⟩ := by
  unfold setUserNice
  split
  · exact .refl
  · split
    · exact (Micro.edit s R p _ rfl (fun _ => ⟨rfl, rfl, rfl⟩) hstatic).path
    · next hpol =>
      have hedit := hedit (by simpa using hpol)
      dsimp only
      generalize hf : (fun t : Task => effectivePrio { t with staticPrio := niceToPrio nice }) = f
      have hwrr : ∀ t, (f t).wrr = t.wrr := fun t => by rw [← hf]; rfl
      have hedit : ∀ u : Task, u.params = (s.tasks p).params → A.edit p u (f u) := by
        rw [← hf]
        exact hedit
      cases honRq : (s.tasks p).onRq with
      | false =>
        have hp : p ∉ R := fun h => by rw [hon.mpr h] at honRq; cases honRq
        exact (Micro.edit s R p f (hwrr _) (fun h => absurd h hp) (hedit _ rfl)).path
      | true =>
        have hp : p ∈ R := hon.mp honRq
        have hnot : p ∉ R.erase p := Finset.notMem_erase p R
        have hparams : ((dequeueTask k s p 0).tasks p).params = (s.tasks p).params :=
          Base.params_eq (dequeueTask_outline k s p 0) p
        have hqueue : Queueable k (((dequeueTask k s p 0).setTask p f).tasks p) := by
          refine (hq honRq).of_params ?_
          show ((Base.setTask _ p f).tasks p).params = _
          rw [Base.setTask_self, Task.eq_of_params hparams, ← hf]
          rfl
        have henq := enqueueTask_path k A (s := (dequeueTask k s p 0).setTask p f)
          (R := R.erase p) (p := p) 0 hnot hqueue fun _ => rfl
        rw [Finset.insert_erase hp] at henq
        have hset := (Micro.edit (k := k) (A := A) (dequeueTask k s p 0) (R.erase p) p f
          (hwrr _) (fun h => absurd h hnot) (hedit _ hparams)).path
        have hout := dequeueTask_path k A (s := s) 0 (hact.symm ▸ hp)
        rw [hact] at hout
        have hall := hout.trans (hset.trans henq)
        simp only [if_true]
        split
        · exact hall.trans (reschedTask_path k A _ R _)
        · exact hall

theorem ttwuActivate_path (flags : Nat) (hp : p ∉ R) (hq : Queueable k (s.tasks p))
    (hhead : flags &&& enqueueHead = 0) :
    Path k A ⟨s, R⟩ ⟨ttwuActivate k s p flags, insert p R⟩ :=
  (enqueueTask_path k A flags hp hq fun _ => hhead).trans
    (Micro.edit _ _ p _ rfl (fun _ => ⟨rfl, rfl, rfl⟩) (A.edit_run ..)).path

theorem ttwuDoWakeup_path (s : State σ) (R : Finset Pid) (p : Pid) (flags : Nat) :
    Path k A ⟨s, R⟩ ⟨ttwuDoWakeup k s p flags, R⟩ :=
  (checkPreemptCurr_path k A s R p flags).trans
    (Micro.edit _ _ p _ rfl (fun _ => ⟨rfl, rfl, rfl⟩) (A.edit_run ..)).path

/-- Waking a task, on the queue already or not. -/
theorem wakeup_path (f₁ f₃ : Nat) (hon : (s.tasks p).onRq = true ↔ p ∈ R)
    (hq : Queueable k (s.tasks p)) :
    Path k A ⟨s, R⟩ ⟨if (s.tasks p).onRq then ttwuDoWakeup k s p f₁
      else ttwuDoWakeup k (ttwuActivate k s p enqueueWakeup) p f₃, insert p R⟩ := by
  split
  · next h =>
    rw [Finset.insert_eq_of_mem (hon.mp h)]
    exact ttwuDoWakeup_path k A s R p f₁
  · next h =>
    exact (ttwuActivate_path k A enqueueWakeup (fun hp => h (hon.mpr hp)) hq rfl).trans
      (ttwuDoWakeup_path k A _ _ p f₃)

end Pieces

/-! ## Operations -/

/-- The current task exists and, unless it is the idle task, is on a queue. -/
def CurrOk (b : Base) : Prop :=
  b.curr < b.nrTasks ∧ (b.curr ≠ b.idle → (b.tasks b.curr).onRq = true)

theorem CurrOk.of_outline {b b' : Base} (h : b'.outline = b.outline) (hc : CurrOk b) :
    CurrOk b' := by
  have hidle : b'.idle = b.idle := by rw [← Base.outline_idle, h, Base.outline_idle]
  unfold CurrOk
  rw [Base.curr_eq h, Base.nrTasks_eq h, hidle, Task.onRq_eq (Base.params_eq h _)]
  exact hc

theorem CurrOk.mem_queued {b : Base} (hc : CurrOk b) (hne : b.curr ≠ b.idle) :
    b.curr ∈ b.queued :=
  Base.mem_queued.mpr ⟨hc.1, hc.2 hne⟩

@[simp] theorem Base.queued_outline (b : Base) : b.outline.queued = b.queued := rfl

theorem Base.onRq_iff_mem {b : Base} {p : Pid} (hp : p < b.nrTasks) :
    (b.tasks p).onRq = true ↔ p ∈ b.queued := by
  rw [Base.mem_queued]
  exact ⟨fun h => ⟨hp, h⟩, fun h => h.2⟩

section Operations

variable {k : Kernel σ} {A : Scope} {s t : State σ} {p : Pid}

/-- The worker that is woken while prev goes to sleep. -/
theorem tryToWakeUpLocal_path (hT : TaskInv k.maxDepth s.toBase) (hp : p < s.nrTasks) :
    Path k A ⟨s, s.queued⟩ ⟨tryToWakeUpLocal k s p, (tryToWakeUpLocal k s p).queued⟩ := by
  unfold tryToWakeUpLocal
  split
  · exact .refl
  · split
    · exact .refl
    · next hst =>
      have hqueue := (hT.task p hp).queueable (hT.class_ne_idle hp (hT.ne_idle_of_state hst))
      have hwake := wakeup_path k A 0 0 (Base.onRq_iff_mem hp) hqueue
      have heq : (if (s.tasks p).onRq = true then ttwuDoWakeup k s p 0
          else ttwuDoWakeup k (ttwuActivate k s p enqueueWakeup) p 0) =
          ttwuDoWakeup k (if (s.tasks p).onRq = true then s
            else ttwuActivate k s p enqueueWakeup) p 0 := by
        split <;> rfl
      have hqueued : (ttwuDoWakeup k (if (s.tasks p).onRq = true then s
          else ttwuActivate k s p enqueueWakeup) p 0).queued = insert p s.queued := by
        rw [← heq, ← Base.queued_outline, wakeup_outline]
        exact Base.queued_setOnRq (b := s.toBase.outline) (f := wakeTask) hp rfl
      dsimp only
      rw [hqueued, ← heq]
      exact hwake

theorem schedulePrev_path {e : SchedEnv} (hact : A.actor = s.curr)
    (hT : TaskInv k.maxDepth s.toBase) (hC : CurrOk s.toBase) (he : e.valid s) :
    Path k A ⟨s, s.queued⟩ ⟨schedulePrev k s e, (schedulePrev k s e).queued⟩ := by
  unfold schedulePrev
  dsimp only
  split
  · next hs =>
    have hne : s.curr ≠ s.idle := by
      intro hi
      rw [hi, hT.idle_state] at hs
      exact hs.1 rfl
    split
    · have hR : (s.setTask s.curr fun t => { t with state := taskRunning }).queued = s.queued :=
        Base.queued_setTask rfl
      rw [hR]
      exact (Micro.edit s _ s.curr _ rfl (fun _ => ⟨rfl, rfl, rfl⟩) (A.edit_run ..)).path
    · -- prev leaves its queue, and on_rq is cleared
      have hmem := hC.mem_queued hne
      generalize hu : (deactivateTask k s s.curr dequeueSleep).setTask s.curr
        (fun t => { t with onRq := false }) = u
      have hout : u.toBase.outline =
          s.toBase.outline.setTask s.curr fun t => { t with onRq := false } := by
        rw [← hu, State.setTask_toBase, Base.setTask_outline, deactivateTask, dequeueTask_outline]
        exact fun t => rfl
      have hR : u.queued = s.queued.erase s.curr := by
        rw [← Base.queued_outline, hout, Base.queued_clearOnRq rfl, Base.queued_outline]
      have hpath : Path k A ⟨s, s.queued⟩ ⟨u, u.queued⟩ := by
        have hdeq := dequeueTask_path k A (s := s) dequeueSleep (hact.symm ▸ hmem)
        rw [hact] at hdeq
        rw [hR, ← hu]
        exact hdeq.trans
          (Micro.edit _ _ s.curr _ rfl (fun _ => ⟨rfl, rfl, rfl⟩) (A.edit_run ..)).path
      cases hw : e.toWakeup with
      | none => exact hpath
      | some w =>
        have hTu : TaskInv k.maxDepth u.toBase := by
          refine TaskInv.of_outline ?_
          rw [hout]
          exact hT.to_outline.setRunState (f := fun t => { t with onRq := false }) hC.1 hne
            fun t => rfl
        have hnr : u.nrTasks = s.nrTasks := by
          rw [← Base.outline_nrTasks, hout, Base.setTask_nrTasks, Base.outline_nrTasks]
        exact hpath.trans (tryToWakeUpLocal_path hTu (hnr ▸ he w (by rw [hw]; rfl)))
  · exact .refl

theorem schedule_path {e : SchedEnv} (hact : A.actor = s.curr)
    (hT : TaskInv k.maxDepth s.toBase) (hC : CurrOk s.toBase) (he : e.valid s)
    (h : schedule k s e = some t) :
    ∃ w, Path k A ⟨s, s.queued⟩ ⟨w, t.queued⟩ ∧ Switches k w t := by
  have hprev := schedulePrev_path hact hT hC he
  have hcurr : (schedulePrev k s e).curr = s.curr := by
    rw [← Base.outline_curr, schedulePrev_outline, (outlinePrev_curr _ e).1, Base.outline_curr]
  unfold schedule at h
  dsimp only at h
  split at h
  · cases h
  · next next u hpick =>
    obtain rfl := Option.some.inj h
    obtain ⟨c, hc⟩ := pickNextTask_pickOf hpick
    -- the clock is updated or not before prev is put
    unfold putPrevTask at hc
    dsimp only at hc
    generalize schedulePrev k s e = v at hprev hcurr hc
    have hclock : ∀ w : State σ, w.toBase.outline = v.toBase.outline →
        Path k A ⟨v, v.queued⟩ ⟨w, v.queued⟩ →
        pickOf k c (taskHook k .putPrevTask w s.curr 0) = some (next, u) →
        ∃ w, Path k A ⟨s, s.queued⟩ ⟨w, (switchTo u s.curr next).queued⟩ ∧
          Switches k w (switchTo u s.curr next) := by
      intro w hw hvw hwpick
      have hwcurr : w.curr = s.curr := (Base.curr_eq hw).trans hcurr
      have hq : (switchTo u s.curr next).queued = v.queued := by
        have h1 : (switchTo u s.curr next).queued = u.queued := rfl
        rw [h1, pickOf_toBase hwpick]
        exact Base.queued_eq ((taskHook_outline ..).trans hw)
      rw [hq]
      refine ⟨w, hprev.trans hvw, c, next, u, ?_, ?_⟩
      · rw [hwcurr]
        exact hwpick
      · rw [hwcurr]
    split at hc
    · exact hclock _ (by rw [updateRqClock_toBase]) (Micro.clock v _).path hc
    · exact hclock v rfl .refl hc

/-- A change of parameters followed by `check_class_changed`. -/
theorem retask_checked_path {f : Task → Task} (hact : A.actor = p) (hC : CurrOk s.toBase)
    (hp : p < s.nrTasks)
    (hne : p ≠ s.idle) (flags : Nat) (c : SchedClass) (oldprio : Nat)
    (hwrr : ∀ t, (f t).wrr = t.wrr) (hparams : ∀ t, (f t).params = f t.params)
    (honRq : ∀ t, (f t).onRq = t.onRq)
    (hedit : ∀ u : Task, u.params = (s.tasks p).params → A.edit p u (f u))
    (hq : Queueable k (f (s.tasks p)))
    (hhead : (f (s.tasks p)).schedClass = .wrr → flags &&& enqueueHead = 0) :
    Path k A ⟨s, s.queued⟩
      ⟨checkClassChanged k (retask k s p flags fun u => u.setTask p f) p c oldprio, s.queued⟩ := by
  have hretask : Path k A ⟨s, s.queued⟩ ⟨retask k s p flags fun u => u.setTask p f, s.queued⟩ :=
    retask_path k A (f := f) flags hact (Base.onRq_iff_mem hp) (fun hc => hc ▸ hC.2 (hc ▸ hne)) hwrr
      hparams (fun u => ⟨none, rfl⟩) hedit (fun _ => hq) hhead
  refine hretask.trans (checkClassChanged_path k A _ _ fun hon => ?_)
  have hout : (retask k s p flags fun u => u.setTask p f).toBase.outline =
      s.toBase.outline.setTask p f := retask_outline k s p flags hparams fun u => rfl
  have htask := congrArg (fun b => (Base.tasks b p).onRq) hout
  simp only [Base.setTask_self, honRq] at htask
  exact (Base.onRq_iff_mem hp).mp (htask.symm.trans hon)

theorem schedSetscheduler_path (hact : A.actor = p) (hT : TaskInv k.maxDepth s.toBase)
    (hC : CurrOk s.toBase) (hp : p < s.nrTasks) (hne : p ≠ s.idle) (a : SetschedArgs)
    (hedit : ∀ policy reset,
      setschedulerRequest k s.stop p (s.tasks p) a = .ok (some (policy, reset)) →
      ∀ u : Task, u.params = (s.tasks p).params →
        A.edit p u (setschedulerTask policy a.schedPriority.toNat reset u)) :
    Path k A ⟨s, s.queued⟩ ⟨(schedSetscheduler k s p a).2, s.queued⟩ := by
  rcases hreq : setschedulerRequest k s.stop p (s.tasks p) a with e | _ | ⟨policy, reset⟩
  · rw [schedSetscheduler, hreq]
  · rw [schedSetscheduler, hreq]
  · rw [schedSetscheduler, hreq]
    refine retask_checked_path hact hC hp hne 0 _ _ (fun t => rfl) (fun t => rfl) (fun t => rfl)
      (hedit policy reset hreq) (((hT.task p hp).setscheduler _ _ _).queueable ?_) (fun _ => rfl)
    simp only [setschedulerTask, setscheduler]
    split
    · simp
    · split <;> simp

/-! ## The scope of an operation -/

/-- The tasks that are not of the WRR class before and after. -/
def changed (s t : State σ) (q : Pid) : Prop :=
  (s.tasks q).schedClass ≠ .wrr ∨ (t.tasks q).schedClass ≠ .wrr

/-- A task without a boost by priority inheritance. -/
def Task.plain (t : Task) : Prop := t.prio = t.normalPrio ∧ t.piTopWaiter = none

/-- The operations of priority inheritance, and the period timer. -/
def Op.inherits : Op → Bool
  | .rtMutexSetprio _ _ | .piWaiter _ _ => true
  | _ => false

def Op.isTimer : Op → Bool
  | .rtPeriodTimer _ _ => true
  | _ => false

/-- The scope of an operation that leads from `s` to `t`: a task that is in the
WRR class at both ends stays in it, and outside of priority inheritance no task is
boosted. -/
def Op.scope (op : Op) (s t : State σ) (a : Pid) : Scope where
  actor := a
  edit p u u' := (u'.schedClass = u.schedClass ∨ changed s t p) ∧
    (op.inherits = false → u.plain → u'.plain)
  timer := op.isTimer = true
  edit_run _ _ _ _ := ⟨Or.inl rfl, fun _ h => h⟩

theorem setschedulerTask_plain {u : Task} (h : u.plain) (policy : Policy) (n : Nat)
    (reset : Bool) : (setschedulerTask policy n reset u).plain := by
  refine ⟨?_, h.2⟩
  show rtMutexGetprio _ = _
  unfold rtMutexGetprio
  dsimp only
  rw [h.2]
  rfl

theorem TaskOk.effectivePrio_plain {D : Nat} {u : Task} (hok : TaskOk D u)
    (hpol : rtPolicy u.policy = false) (h : u.plain) (n : Nat) :
    (effectivePrio { u with staticPrio := n }).plain := by
  have hr : rtPrio u.prio = false := by rw [h.1, hok.rtPrio_normal, hpol]
  refine ⟨?_, h.2⟩
  show (if rtPrio u.prio = true then u.prio else _) = _
  rw [hr]
  rfl

/-- An effective request concerns a task that is not of the WRR class at both
ends: with the class goes the policy, and the request is for another one. -/
theorem setscheduler_changed {a : SetschedArgs} {policy : Policy} {reset : Bool}
    (hT : TaskInv k.maxDepth s.toBase) (hp : p < s.nrTasks)
    (hreq : setschedulerRequest k s.stop p (s.tasks p) a = .ok (some (policy, reset)))
    (hout : (t.tasks p).schedClass =
      (setschedulerTask policy a.schedPriority.toNat reset (s.tasks p)).schedClass) :
    changed s t p := by
  refine or_iff_not_imp_left.mpr fun hc hwrr => ?_
  rw [not_not] at hc
  have hpol := (hT.task p hp).wrr_policy hc
  have hnew : policy ≠ .wrr := by
    rintro rfl
    exact (setschedulerRequest_ok hreq).2.2.2.2 ⟨hpol.symm, Or.inl rfl⟩
  rw [hwrr] at hout
  simp only [setschedulerTask, setscheduler, if_neg hnew] at hout
  split at hout <;> cases hout

/-- No stop task is queued or dequeued by becoming one. -/
theorem setStopTask_queued (k : Kernel σ) (b : Base) (stop : Option Pid) :
    ((Op.setStopTask stop).outline k b).queued = b.queued := by
  have hinstall : (outlineInstall k b stop).queued = b.queued := by
    cases stop with
    | none => rfl
    | some p =>
      rw [outlineInstall, Base.queued_setTask rfl]
      rcases outlineSetscheduler_cases k b p stopArgs with he | ⟨policy, reset, -, he⟩
      · rw [he]
      · rw [he, Base.queued_setTask rfl]
  show (outlineRetire { outlineInstall k b stop with stop := stop } b.stop).queued = _
  cases b.stop with
  | none => exact hinstall
  | some q =>
    rw [outlineRetire, Base.queued_setTask rfl]
    exact hinstall

theorem step_exec {op : Op} (h : step k s op = some t) : op.enabled k s ∧ op.exec k s = some t := by
  unfold step at h
  split at h
  · next hen => exact ⟨hen, h⟩
  · simp at h

/-- The outline says what class a task has after an operation. -/
theorem step_class {op : Op} (h : step k s op = some t) (q : Pid) :
    (t.tasks q).schedClass = ((op.outline k s.toBase.outline).tasks q).schedClass := by
  have hout := congrArg (fun b => (Base.tasks b q).schedClass) (step_outline h).2.1
  exact hout

/-- It also says which tasks have `on_rq`. -/
theorem step_queued {op : Op} (h : step k s op = some t) {u : Finset Pid}
    (hu : (op.outline k s.toBase.outline).queued = u) : t.queued = u := by
  rw [← Base.queued_outline, (step_outline h).2.1, ← hu]
  rfl

theorem step_tick_path (hT : TaskInv k.maxDepth s.toBase) (hC : CurrOk s.toBase)
    (h : step k s .tick = some t) :
    ∃ a, Path k (Op.scope .tick s t a) ⟨s, s.queued⟩ ⟨t, t.queued⟩ := by
  obtain ⟨-, hexec⟩ := step_exec h
  have hR := step_queued h (u := s.queued) rfl
  obtain rfl := Option.some.inj hexec
  refine ⟨s.curr, ?_⟩
  rw [hR]
  have hb := updateRqClock_toBase k s
  refine .head (Micro.clock s _) (Micro.tick _ _ ?_ ?_).path
  · rw [hb]
    rfl
  · rw [hb]
    intro hc
    refine hC.mem_queued fun hi => ?_
    rw [(hT.idle_class _ hC.1).mpr hi] at hc
    cases hc

theorem step_wakeUp_path {p : Pid} {state flags : Nat} (hT : TaskInv k.maxDepth s.toBase)
    (h : step k s (.wakeUp p state flags) = some t) :
    ∃ a, Path k (Op.scope (.wakeUp p state flags) s t a) ⟨s, s.queued⟩ ⟨t, t.queued⟩ := by
  obtain ⟨hen, hexec⟩ := step_exec h
  refine ⟨0, ?_⟩
  obtain rfl := Option.some.inj hexec
  unfold tryToWakeUp
  split
  · exact .refl
  · next hst =>
    have hqueue := (hT.task p hen).queueable (hT.class_ne_idle hen (hT.ne_idle_of_state hst))
    have hR : (if (s.tasks p).onRq = true then ttwuDoWakeup k s p flags
        else ttwuDoWakeup k (ttwuActivate k s p enqueueWakeup) p 0).queued =
        insert p s.queued := by
      rw [← Base.queued_outline, wakeup_outline]
      exact Base.queued_setOnRq (b := s.toBase.outline) (f := wakeTask) hen rfl
    rw [hR]
    exact wakeup_path k _ flags 0 (Base.onRq_iff_mem hen) hqueue

theorem step_wakeUpNewTask_path {p : Pid} (hT : TaskInv k.maxDepth s.toBase)
    (h : step k s (.wakeUpNewTask p) = some t) :
    ∃ a, Path k (Op.scope (.wakeUpNewTask p) s t a) ⟨s, s.queued⟩ ⟨t, t.queued⟩ := by
  obtain ⟨hen, hexec⟩ := step_exec h
  obtain ⟨⟨hp, hne, -, hoff⟩, -⟩ := hen
  refine ⟨0, ?_⟩
  have hR := step_queued h (Base.queued_setOnRq (b := s.toBase.outline)
    (f := fun t => { t with onRq := true }) hp rfl)
  rw [hR]
  obtain rfl := Option.some.inj hexec
  have hnot : p ∉ s.queued := by
    rw [← Base.onRq_iff_mem hp, hoff]
    simp
  exact (ttwuActivate_path k _ 0 hnot ((hT.task p hp).queueable (hT.class_ne_idle hp hne))
    rfl).trans (checkPreemptCurr_path k _ _ _ p wfFork)

/-- The new task has no `on_rq`. -/
theorem step_fork_path {mm : Bool} (hT : TaskInv k.maxDepth s.toBase) (hC : CurrOk s.toBase)
    (h : step k s (.fork mm) = some t) :
    ∃ a, Path k (Op.scope (.fork mm) s t a) ⟨s, s.queued⟩ ⟨t, t.queued⟩ := by
  obtain ⟨-, hexec⟩ := step_exec h
  obtain ⟨-, hnwrr, -, hoff⟩ := (hT.task _ hC.1).forkedTask mm (hT.idle_not_rt hC.1)
  have hR : t.queued = s.queued := by
    refine step_queued h ?_
    rw [← Base.queued_outline s.toBase]
    refine Base.queued_newTask rfl rfl ?_
    rw [Base.outline_tasks, ← forkedTask_params]
    exact hoff
  rw [hR]
  obtain rfl := Option.some.inj hexec
  exact ⟨0, (Micro.fork s _ mm (fun p hp => (Base.mem_queued.mp hp).1) hnwrr).path⟩

theorem step_setscheduler_path {p : Pid} {a : SetschedArgs} (hT : TaskInv k.maxDepth s.toBase)
    (hC : CurrOk s.toBase)
    (h : step k s (.setscheduler p a) = some t) :
    ∃ c, Path k (Op.scope (.setscheduler p a) s t c) ⟨s, s.queued⟩ ⟨t, t.queued⟩ := by
  obtain ⟨hen, hexec⟩ := step_exec h
  have hR : t.queued = s.queued := by
    refine step_queued h ?_
    show (outlineSetscheduler k s.toBase.outline p a).queued = _
    rcases outlineSetscheduler_cases k s.toBase.outline p a with he | ⟨policy, reset, -, he⟩
    · rw [he, Base.queued_outline]
    · rw [he, Base.queued_setTask rfl, Base.queued_outline]
  have hedit : ∀ policy reset,
      setschedulerRequest k s.stop p (s.tasks p) a = .ok (some (policy, reset)) →
      ∀ u : Task, u.params = (s.tasks p).params →
        ((Op.setscheduler p a).scope s t p).edit p u
          (setschedulerTask policy a.schedPriority.toNat reset u) := by
    intro policy reset hreq u _
    refine ⟨Or.inr (setscheduler_changed hT hen.1 hreq ?_),
      fun _ hu => setschedulerTask_plain hu _ _ _⟩
    have hreq' : setschedulerRequest k s.toBase.outline.stop p (s.toBase.outline.tasks p) a =
        .ok (some (policy, reset)) := hreq
    rw [step_class h p, Op.outline, outlineSetscheduler, hreq', Base.setTask_self]
    rfl
  have hset : (schedSetscheduler k s p a).2 = t := Option.some.inj hexec
  have hpath := schedSetscheduler_path (p := p) (A := (Op.setscheduler p a).scope s t p) rfl
    hT hC hen.1 hen.2 a hedit
  rw [hset] at hpath
  rw [hR]
  exact ⟨p, hpath⟩

/-- The task leaves the WRR class, if it was of it. -/
theorem step_rtMutexSetprio_path {p : Pid} {prio : Nat} (hT : TaskInv k.maxDepth s.toBase)
    (hC : CurrOk s.toBase)
    (h : step k s (.rtMutexSetprio p prio) = some t) :
    ∃ a, Path k (Op.scope (.rtMutexSetprio p prio) s t a) ⟨s, s.queued⟩ ⟨t, t.queued⟩ := by
  obtain ⟨hen, hexec⟩ := step_exec h
  have hR : t.queued = s.queued := by
    refine step_queued h ?_
    show (if _ then _ else _ : Base).queued = _
    split
    · rfl
    · rw [Base.queued_setTask rfl, Base.queued_outline]
  rw [hR]
  refine ⟨p, ?_⟩
  by_cases hne : p = s.idle
  · have hsame : rtMutexSetprio k s p prio = s := if_pos hne
    rw [← Option.some.inj hexec, hsame]
  · have hX : changed s t p := by
      have hcls := step_class h p
      rw [Op.outline, Base.outline_idle, if_neg hne, Base.setTask_self] at hcls
      refine Or.inr fun hwrr => ?_
      have := hcls.symm.trans hwrr
      simp only [setprioTask] at this
      split at this <;> cases this
    have hset : checkClassChanged k (retask k s p
        (if (s.tasks p).prio < prio then enqueueHead else 0) fun u =>
          u.setTask p (setprioTask prio))
        p (s.tasks p).schedClass (s.tasks p).prio = t :=
      (if_neg hne).symm.trans (Option.some.inj hexec)
    have hact : ((Op.rtMutexSetprio p prio).scope s t p).actor = p := rfl
    have hedit : ∀ u : Task, u.params = (s.tasks p).params →
        ((Op.rtMutexSetprio p prio).scope s t p).edit p u (setprioTask prio u) :=
      fun u _ => ⟨Or.inr hX, by simp [Op.inherits]⟩
    generalize (Op.rtMutexSetprio p prio).scope s t p = A at hact hedit ⊢
    rw [← hset]
    refine retask_checked_path hact hC hen.1 hne _ _ _ (fun t => rfl) (fun t => rfl)
      (fun t => rfl) hedit (((hT.task p hen.1).setprio hen.2).queueable ?_) fun hc => ?_
    · simp only [setprioTask]
      split <;> simp
    · simp only [setprioTask] at hc
      split at hc <;> cases hc

theorem step_setUserNice_path {p : Pid} {nice : Int} (hT : TaskInv k.maxDepth s.toBase)
    (h : step k s (.setUserNice p nice) = some t) :
    ∃ a, Path k (Op.scope (.setUserNice p nice) s t a) ⟨s, s.queued⟩ ⟨t, t.queued⟩ := by
  obtain ⟨hen, hexec⟩ := step_exec h
  have hR : t.queued = s.queued := by
    refine step_queued h ?_
    show (if _ then _ else if _ then _ else _ : Base).queued = _
    split
    · rfl
    · split
      · rw [Base.queued_setTask rfl, Base.queued_outline]
      · rw [Base.queued_setTask rfl, Base.queued_outline]
  rw [hR]
  obtain rfl := Option.some.inj hexec
  have hok := hT.task p hen.1
  refine ⟨p, setUserNice_path k _ nice rfl (Base.onRq_iff_mem hen.1) ⟨Or.inl rfl, fun _ h => h⟩
    (fun hpol u hu => ⟨Or.inl rfl, fun _ hplain => ?_⟩) fun _ => ?_⟩
  · have hpol' : rtPolicy u.policy = false := by
      rw [Task.eq_of_params hu]
      exact hpol
    exact (TaskOk.of_params (hu ▸ hok.params)).effectivePrio_plain hpol' hplain _
  refine ⟨hT.class_ne_idle hen.1 hen.2, fun hc => ?_, hok.depth⟩
  have hlt := hok.rt_prio hc
  show (if rtPrio (s.tasks p).prio then (s.tasks p).prio else _) < maxRtPrio
  rw [if_pos (by simpa [rtPrio] using hlt)]
  exact hlt

theorem step_schedMoveTask_path {p : Pid} {g : TaskGroup} (hT : TaskInv k.maxDepth s.toBase)
    (hC : CurrOk s.toBase)
    (h : step k s (.schedMoveTask p g) = some t) :
    ∃ a, Path k (Op.scope (.schedMoveTask p g) s t a) ⟨s, s.queued⟩ ⟨t, t.queued⟩ := by
  obtain ⟨hen, hexec⟩ := step_exec h
  obtain ⟨hp, hne, hg⟩ := hen
  have hR := step_queued h (Base.queued_setTask (b := s.toBase.outline) (p := p)
    (f := fun t => { t with schedTaskGroup := g }) rfl)
  rw [hR]
  obtain rfl := Option.some.inj hexec
  have hok := hT.task p hp
  exact ⟨p, retask_path k _ (f := fun t => { t with schedTaskGroup := g }) 0 rfl
    (Base.onRq_iff_mem hp) (fun hc => hc ▸ hC.2 (hc ▸ hne)) (fun t => rfl) (fun t => rfl)
    (fun u => ⟨some _, rfl⟩) (fun u _ => ⟨Or.inl rfl, fun _ h => h⟩)
    (fun _ => ⟨hT.class_ne_idle hp hne, hok.rt_prio, hg⟩) fun _ => rfl⟩

/-- The old and the new stop task end in a class of their own. -/
theorem setStopTask_changed {stop : Option Pid}
    (h : step k s (.setStopTask stop) = some t) {p : Pid}
    (hp : s.stop = some p ∨ stop = some p) : changed s t p := by
  refine Or.inr fun hwrr => ?_
  have hcls := (step_class h p).symm.trans hwrr
  rw [Op.outline, Base.outline_stop] at hcls
  by_cases hold : s.stop = some p
  · rw [hold, outlineRetire, Base.setTask_self] at hcls
    cases hcls
  · rw [hp.resolve_left hold, outlineInstall] at hcls
    cases hq : s.stop with
    | none =>
      rw [hq, outlineRetire, Base.setTask_self] at hcls
      cases hcls
    | some q =>
      have hne : p ≠ q := fun h => hold (h ▸ hq)
      rw [hq, outlineRetire, Base.setTask_of_ne _ _ hne, Base.setTask_self] at hcls
      cases hcls

theorem retireStopTask_path (hedit : ∀ q, s.stop = some q → ∀ u : Task,
      A.edit q u { u with schedClass := .rt }) (hoff : ∀ q, s.stop = some q → q ∉ s.queued)
    (u : State σ) : Path k A ⟨u, s.queued⟩ ⟨retireStopTask u s.stop, s.queued⟩ := by
  cases hq : s.stop with
  | none => exact .refl
  | some q =>
    exact .single (Micro.edit u _ q _ rfl (fun h => absurd h (hoff q hq)) (hedit q hq _))

theorem step_setStopTask_path {stop : Option Pid} (hT : TaskInv k.maxDepth s.toBase)
    (hC : CurrOk s.toBase) (h : step k s (.setStopTask stop) = some t) :
    ∃ a, Path k (Op.scope (.setStopTask stop) s t a) ⟨s, s.queued⟩ ⟨t, t.queued⟩ := by
  obtain ⟨⟨hnew, hold⟩, hexec⟩ := step_exec h
  -- the tasks concerned are off their queues
  have hoff : ∀ q, s.offCpu q → q ∉ s.queued := by
    intro q hq hmem
    have honRq := (Base.mem_queued.mp hmem).2
    rw [hq.2.2.2] at honRq
    cases honRq
  have hretire : ∀ (a : Pid) (u : State σ), Path k ((Op.setStopTask stop).scope s t a)
      ⟨u, s.queued⟩ ⟨retireStopTask u s.stop, s.queued⟩ := by
    intro a u
    exact retireStopTask_path (A := (Op.setStopTask stop).scope s t a)
      (fun q hq _ => ⟨Or.inr (setStopTask_changed h (Or.inl hq)), fun _ h => h⟩)
      (fun q hq => hoff q (hold q hq)) u
  have hset : retireStopTask { installStopTask k s stop with stop := stop } s.stop = t :=
    Option.some.inj hexec
  rw [step_queued h (setStopTask_queued k s.toBase.outline stop)]
  cases stop with
  | none =>
    refine ⟨0, ?_⟩
    have hpath := Relation.ReflTransGen.head (Micro.setStop s _ none) (hretire 0 _)
    change Path k _ _ ⟨retireStopTask { installStopTask k s none with stop := none } s.stop, _⟩
      at hpath
    rwa [hset] at hpath
  | some p =>
    have hp := hnew p rfl
    have hX := setStopTask_changed h (Or.inr rfl)
    have hpath := (schedSetscheduler_path (A := (Op.setStopTask (some p)).scope s t p) rfl hT hC
      hp.1 hp.2.1 stopArgs fun _ _ _ u _ =>
        ⟨Or.inr hX, fun _ hu => setschedulerTask_plain hu _ _ _⟩).trans
      (.head (Micro.edit _ _ p (fun t => { t with schedClass := .stop }) rfl
        (fun h => absurd h (hoff p hp)) ⟨Or.inr hX, fun _ h => h⟩)
      (.head (Micro.setStop _ _ (some p)) (hretire p _)))
    change Path k _ _ ⟨retireStopTask { installStopTask k s (some p) with stop := some p }
      s.stop, _⟩ at hpath
    rw [hset] at hpath
    exact ⟨p, hpath⟩

/-- An operation that does not end in `schedule`. -/
theorem step_path_keep {op : Op} (hT : TaskInv k.maxDepth s.toBase) (hC : CurrOk s.toBase)
    (h : step k s op = some t) (hsw : op.switches = false) :
    ∃ a, Path k (op.scope s t a) ⟨s, s.queued⟩ ⟨t, t.queued⟩ := by
  obtain ⟨-, hexec⟩ := step_exec h
  cases op with
  | setState st =>
    obtain rfl := Option.some.inj hexec
    refine ⟨0, ?_⟩
    have hR : (s.setTask s.curr fun t => { t with state := st }).queued = s.queued :=
      Base.queued_setTask rfl
    rw [hR]
    exact (Micro.edit s _ s.curr _ rfl (fun _ => ⟨rfl, rfl, rfl⟩) (Scope.edit_run ..)).path
  | schedule e => cases hsw
  | tick => exact step_tick_path hT hC h
  | wakeUp p state flags => exact step_wakeUp_path hT h
  | wakeUpNewTask p => exact step_wakeUpNewTask_path hT h
  | fork mm => exact step_fork_path hT hC h
  | setscheduler p a => exact step_setscheduler_path hT hC h
  | rtMutexSetprio p prio => exact step_rtMutexSetprio_path hT hC h
  | setUserNice p nice => exact step_setUserNice_path hT h
  | schedMoveTask p g => exact step_schedMoveTask_path hT hC h
  | schedYield e => cases hsw
  | piWaiter p w =>
    obtain rfl := Option.some.inj hexec
    refine ⟨0, ?_⟩
    have hR : (s.setTask p fun t => { t with piTopWaiter := w }).queued = s.queued :=
      Base.queued_setTask rfl
    rw [hR]
    exact .single (Micro.edit s _ p _ rfl (fun _ => ⟨rfl, rfl, rfl⟩)
      ⟨Or.inl rfl, by simp [Op.inherits]⟩)
  | rtPeriodTimer g n =>
    have hR := step_queued h (u := s.queued) rfl
    rw [hR]
    obtain rfl := Option.some.inj hexec
    exact ⟨0, (Micro.periodTimer s _ g n rfl).path⟩
  | setStopTask stop => exact step_setStopTask_path hT hC h

/-- **Decomposition.** Every operation is a sequence of small steps, followed by a
switch if the operation ends in `schedule`. The tasks on a queue are those with
`on_rq` before and after it. -/
theorem step_path {op : Op} (hT : TaskInv k.maxDepth s.toBase) (hC : CurrOk s.toBase)
    (h : step k s op = some t) :
    ∃ a w, Path k (op.scope s t a) ⟨s, s.queued⟩ ⟨w, t.queued⟩ ∧
      (op.switches = true ∧ Switches k w t ∨ op.switches = false ∧ w = t) := by
  obtain ⟨hen, hexec⟩ := step_exec h
  by_cases hsw : op.switches = false
  · obtain ⟨a, hpath⟩ := step_path_keep hT hC h hsw
    exact ⟨a, t, hpath, Or.inr ⟨hsw, rfl⟩⟩
  · cases op with
    | schedule e =>
      obtain ⟨w, hpath, hw⟩ := schedule_path
        (A := (Op.schedule e).scope s t s.curr) rfl hT hC hen hexec
      exact ⟨s.curr, w, hpath, Or.inl ⟨rfl, hw⟩⟩
    | schedYield e =>
      obtain ⟨he, -, hnidle⟩ := hen
      have hne : s.curr ≠ s.idle := fun hi => hnidle ((hT.idle_class _ hC.1).mpr hi)
      have hyout : (yieldTask k s).toBase.outline = s.toBase.outline := taskHook_outline ..
      have hyT : TaskInv k.maxDepth (yieldTask k s).toBase := by
        refine TaskInv.of_outline ?_
        rw [hyout]
        exact hT.to_outline
      obtain ⟨w, hrest, hw⟩ := schedule_path (A := (Op.schedYield e).scope s t s.curr)
        (Base.curr_eq hyout).symm hyT (CurrOk.of_outline hyout hC)
        (fun w hw => (Base.nrTasks_eq hyout).symm ▸ he w hw) hexec
      rw [Base.queued_eq hyout] at hrest
      exact ⟨s.curr, w, .head (Micro.yield s _ rfl (hC.mem_queued hne)) hrest, Or.inl ⟨rfl, hw⟩⟩
    | _ => exact absurd rfl hsw

end Operations

end LinuxKernel.Sched

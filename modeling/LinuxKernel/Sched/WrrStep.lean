import LinuxKernel.Sched.Invariant

/-!
# Android scheduler — all that ever happens to the WRR queue

Seen from the WRR class, an operation of the core is a sequence of six kinds of events. `WrrStep`
lists them, and `Micro.wrrStep` says that there are no others; a switch of the running task is none
of them (`Switches.toBase`): in particular nothing is ever put at the head of the queue, and only
the actor of an operation leaves it or moves in it.
-/

namespace LinuxKernel.Sched

open LinuxKernel.Lib

variable {σ : Type}

/-- What a small step with actor `a` does to the WRR queue and entities. -/
inductive WrrStep (c : Config) (a : Pid) (b b' : Base) : Prop
  -- the queue stays; entities are kept, or copied to a new task
  | stay (hqueue : b'.wrr = b.wrr) (hent : ∀ p, ∃ q, (b'.tasks p).wrr = (b.tasks q).wrr)
  | enqueue (p : Pid) (hp : p ∉ b.wrr.queue) (h : b' = enqueueWrrEntity c b p false)
  | dequeue (ha : a ∈ b.wrr.queue) (h : b' = dequeueWrrEntity b a)
  | requeue (ha : a ∈ b.wrr.queue) (h : b' = requeueTaskWrr b a false)
  -- a tick that leaves something of the slice
  | tick (ha : a ∈ b.wrr.queue) (n : Nat) (hn : n = usub 32 (b.tasks a).wrr.timeSlice 1)
      (hpos : n ≠ 0) (h : b' = b.setWrr a fun t => { t.wrr with timeSlice := n })
  -- a tick that uses it up, for the only task of the queue and for one of several
  | refill (ha : a ∈ b.wrr.queue)
      (h : b' = b.setWrr a fun t => { t.wrr with timeSlice := refill c t.wrr.weight })
  | turn (ha : a ∈ b.wrr.queue)
      (h : b' = requeueTaskWrr
        (b.setWrr a fun t => { t.wrr with timeSlice := refill c t.wrr.weight }) a false)

theorem WrrStep.of_eq {c : Config} {a : Pid} {b b' : Base} (hqueue : b'.wrr = b.wrr)
    (htasks : b'.tasks = b.tasks) : WrrStep c a b b' :=
  .stay hqueue fun p => ⟨p, by rw [htasks]⟩

/-- A change of a task's other parameters. -/
theorem WrrStep.edit {c : Config} {a p : Pid} {b b₀ : Base} {f : Task → Task} (hb : b = b₀)
    (hf : (f (b.tasks p)).wrr = (b.tasks p).wrr) : WrrStep c a b₀ (b.setTask p f) := by
  subst hb
  refine .stay rfl fun q => ⟨q, ?_⟩
  rw [Base.setTask_tasks]
  split
  · next hq => rw [hf, hq]
  · rfl

theorem forkedTask_wrr (t : Task) (mm : Bool) : (forkedTask t mm).wrr = t.wrr := by
  have hreset : ∀ t : Task, (resetOnFork t).wrr = t.wrr := by
    intro t
    unfold resetOnFork
    split
    · dsimp only
      split
      · rfl
      · split <;> rfl
    · rfl
  unfold forkedTask
  dsimp only
  split
  · rw [hreset]
  · exact hreset _

section Hooks

variable {k : Kernel σ} {s : State σ} {R : Finset Pid} {a p : Pid}

/-- Hooks that touch no queue leave tasks and queue as they are. -/
theorem hookOf_plain (k : Kernel σ) (c : SchedClass) {h : Hook} (hh : h.plain = true)
    (s : State σ) (p : Pid) (arg : Nat) : (hookOf k c h s p arg).toBase = s.toBase := by
  by_cases hc : c = .wrr
  · subst hc
    obtain ⟨se, hse⟩ := wrrHook_plain k.toConfig hh s p arg
    show (wrrHook k.toConfig h s p arg).toBase = s.toBase
    rw [hse]
  · exact hookOf_toBase hc k h s p arg

theorem moveHook_toBase (k : Kernel σ) (moved : Option Nat) (s : State σ) (p : Pid) :
    (moveHook k moved s p).toBase = s.toBase := by
  cases moved with
  | none => rfl
  | some arg => exact hookOf_plain k _ rfl s p arg

/-- A hook is an event on the WRR queue only for a task of the class. -/
theorem taskHook_wrrStep {h : Hook} {arg : Nat}
    (hwrr : (s.tasks p).schedClass = .wrr →
      WrrStep k.toConfig a s.toBase (wrrHook k.toConfig h s p arg).toBase) :
    WrrStep k.toConfig a s.toBase (taskHook k h s p arg).toBase := by
  unfold taskHook
  by_cases hc : (s.tasks p).schedClass = .wrr
  · rw [hc]
    exact hwrr hc
  · rw [hookOf_toBase hc]
    exact .of_eq rfl rfl

theorem taskTickWrr_wrrStep (ha : a ∈ s.toBase.wrr.queue) :
    WrrStep k.toConfig a s.toBase (taskTickWrr k.toConfig s a).toBase := by
  obtain ⟨se, hse⟩ := updateCurrWrr_eq s
  unfold taskTickWrr
  rw [hse]
  dsimp only
  split
  · next hpos => exact .tick ha _ rfl hpos rfl
  · split
    · exact .turn ha rfl
    · exact .refill ha rfl

theorem switchedTo_wrrStep (hQ : QInv k s R) (hp : (s.tasks p).onRq = true → p ∈ R) :
    WrrStep k.toConfig a s.toBase (taskHook k .switchedTo s p 0).toBase := by
  refine taskHook_wrrStep fun hc => ?_
  show WrrStep k.toConfig a s.toBase (switchedToWrr k.toConfig s p).toBase
  unfold switchedToWrr
  split
  · next hon =>
    -- the weight written is the one the entity has
    have hmem : p ∈ s.toBase.wrr.queue := hQ.wrr.mem.mpr ⟨hp hon.1, hc⟩
    refine .of_eq rfl ?_
    rw [State.setWrr_toBase, State.reschedTask_toBase]
    funext q
    by_cases hqp : q = p
    · subst hqp
      rw [Base.setWrr, Base.setTask_self, ← hQ.wrr.weight hmem]
    · exact Base.setTask_of_ne s.toBase _ hqp
  · exact .of_eq rfl rfl

end Hooks

/-- A switch leaves tasks and queue as they are. -/
theorem Switches.toBase {k : Kernel σ} {s t : State σ} (h : Switches k s t) :
    t.toBase = { s.toBase with curr := t.curr } := by
  obtain ⟨c, next, u, hpick, rfl⟩ := h
  have hu : u.toBase = s.toBase :=
    (pickOf_toBase hpick).trans (hookOf_plain k _ rfl s s.curr 0)
  show { u.toBase with curr := next } = _
  rw [hu]
  rfl

/-- **Inversion.** There are no other events on the WRR queue. -/
theorem Micro.wrrStep {k : Kernel σ} {A : Scope} {c d : Cfg σ} (hm : Micro k A c d)
    (hQ : QInv k c.state c.on) :
    WrrStep k.toConfig A.actor c.state.toBase d.state.toBase := by
  cases hm with
  | clock s R =>
    rw [updateRqClock_toBase]
    exact .of_eq rfl rfl
  | flags s R resched skip hresched => exact .of_eq rfl rfl
  | edit s R p f hwrr hon => exact .edit rfl hwrr
  | enqueue s R p flags hp hq hhead =>
    refine taskHook_wrrStep fun hc => .enqueue p (fun hmem => hp (hQ.wrr.mem.mp hmem).1) ?_
    show enqueueWrrEntity k.toConfig s.toBase p (flags &&& enqueueHead != 0) = _
    rw [hhead hc]
    rfl
  | dequeue s R flags ha =>
    refine taskHook_wrrStep fun hc => .dequeue (hQ.wrr.mem.mpr ⟨ha, hc⟩) ?_
    show dequeueWrrEntity (updateCurrWrr s).toBase A.actor = _
    rw [updateCurrWrr_toBase]
  | hook s R c hk p arg hh =>
    have hplain : hk.plain = true := by
      cases hk <;> first | rfl | cases hh
    rw [hookOf_plain k c hplain]
    exact .of_eq rfl rfl
  | switchedTo s R p hp => exact switchedTo_wrrStep hQ hp
  | cycle s R p f moved hcurr hp hwrr =>
    show WrrStep k.toConfig A.actor s.toBase (cycleCurr k s p f moved).toBase
    unfold cycleCurr taskHook
    rw [hookOf_plain k _ rfl, moveHook_toBase, State.setTask_toBase]
    exact .edit (hookOf_plain k _ rfl s p 0) (hwrr _)
  | yield s R ha hR =>
    refine taskHook_wrrStep fun hc => ?_
    rw [ha]
    exact .requeue (hQ.wrr.mem.mpr ⟨hR, hc⟩) rfl
  | tick s R ha hR =>
    refine taskHook_wrrStep fun hc => ?_
    rw [ha]
    exact taskTickWrr_wrrStep (hQ.wrr.mem.mpr ⟨hR hc, hc⟩)
  | fork s R mm hR hc =>
    show WrrStep k.toConfig A.actor s.toBase (schedFork k s mm).toBase
    unfold schedFork taskHook
    dsimp only
    rw [Function.update_self, hookOf_toBase hc]
    refine .stay rfl fun p => ?_
    by_cases hp : p = s.nrTasks
    · refine ⟨s.curr, ?_⟩
      rw [hp]
      exact (congrArg Task.wrr (Function.update_self ..)).trans (forkedTask_wrr _ mm)
    · exact ⟨p, congrArg Task.wrr (Function.update_of_ne hp _ _)⟩
  | periodTimer s R g n htimer =>
    rw [doSchedRtPeriodTimer_toBase]
    exact .of_eq rfl rfl
  | setStop s R stop => exact .of_eq rfl rfl

end LinuxKernel.Sched

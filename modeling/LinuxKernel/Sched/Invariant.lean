import LinuxKernel.Sched.Pick
import LinuxKernel.Sched.Fifo

/-!
# Android scheduler — what holds in every reachable state

* `Inv`            — the task parameters are consistent, the current task is
  queued or the idle task, and the queues hold what `on_rq` says.
* `Inv.step`       — every operation keeps it.
* `Inv.reachable`  — so it holds in every state reached from boot.
* `Inv.small_steps` — the rule by which other invariants follow.
* `wrrRq_reachable` — the invariant of the WRR run queue, spelled out.
-/

namespace LinuxKernel.Sched

open LinuxKernel.Lib

variable {σ : Type}

/-! ## Boot -/

/-- At boot nothing is queued. -/
theorem RtInv.boot (k : Kernel σ) {T : Pid → Prop} (hT : ∀ p, ¬ T p) :
    RtInv k.maxDepth T noGroup (boot k).tasks (Sched.boot k).rt where
  rq g := RtRqInv.initRtRq ..
  task_mem {g p} := by
    refine iff_of_false ?_ fun h => hT p h.1
    rintro ⟨i, hi⟩
    cases hi
  attached {n g} _ := by
    refine iff_of_false ?_ (by simp [skipGroup, Sched.boot, initRtRq])
    rintro ⟨i, hi⟩
    cases hi

theorem QInv.boot (k : Kernel σ) : QInv k (boot k) ∅ where
  wrr := WrrInv.init ..
  rt := RtInv.boot k fun p hp => absurd hp.1 (Finset.notMem_empty p)
  ext {c p} hc := by
    refine iff_of_false ?_ fun h => absurd h.1 (Finset.notMem_empty p)
    show ¬ k.ext.queued k.ext.init c p = true
    rw [k.ext.queued_init]
    simp
  idle hp := absurd hp (Finset.notMem_empty _)
  count := rfl

/-- At boot there is the idle task only. -/
theorem TaskInv.boot (k : Kernel σ) : TaskInv k.maxDepth (boot k).toBase where
  task p _ := ⟨show maxRtPrio ≤ niceToPrio 0 by decide, rfl, le_rfl, by simp [Sched.boot, initTask],
    by simp [Sched.boot, initTask], Nat.zero_le _⟩
  idle_lt := Nat.zero_lt_one
  idle_off := rfl
  idle_state := rfl
  idle_policy := rfl
  idle_class p hp := iff_of_true rfl (Nat.lt_one_iff.mp hp)
  stop_ok p hp := by cases hp

theorem queued_boot (k : Kernel σ) : (boot k).queued = ∅ := rfl

/-! ## The current task -/

/-- A change that does not take `on_rq` from a task. -/
theorem Base.queued_subset_setTask {b : Base} {p : Pid} {f : Task → Task}
    (h : (b.tasks p).onRq = true → (f (b.tasks p)).onRq = true) :
    b.queued ⊆ (b.setTask p f).queued := by
  intro q hq
  rw [Base.mem_queued] at hq ⊢
  refine ⟨hq.1, ?_⟩
  rw [Base.setTask_tasks]
  split
  · next hqp => exact h (hqp ▸ hq.2)
  · exact hq.2

/-- `sched_setscheduler` takes no task from its queue. -/
theorem outlineSetscheduler_queued (k : Kernel σ) (b : Base) (p : Pid) (a : SetschedArgs) :
    b.queued ⊆ (outlineSetscheduler k b p a).queued := by
  rcases outlineSetscheduler_cases k b p a with he | ⟨policy, reset, -, he⟩
  · rw [he]
  · rw [he]
    exact Base.queued_subset_setTask id

/-- Only `schedule` takes tasks off their queues for good. -/
theorem Op.outline_queued (k : Kernel σ) (b : Base) (op : Op) (h : op.switches = false) :
    b.queued ⊆ (op.outline k b).queued := by
  cases op with
  | setState st => exact Base.queued_subset_setTask id
  | schedule e => cases h
  | tick => exact subset_rfl
  | wakeUp p state flags =>
    rw [Op.outline]
    split
    · exact subset_rfl
    · exact Base.queued_subset_setTask fun _ => rfl
  | wakeUpNewTask p => exact Base.queued_subset_setTask fun _ => rfl
  | fork mm =>
    intro q hq
    rw [Base.mem_queued] at hq ⊢
    refine ⟨Nat.lt_succ_of_lt hq.1, ?_⟩
    show (Function.update b.tasks b.nrTasks _ q).onRq = true
    rw [Function.update_of_ne (Nat.ne_of_lt hq.1)]
    exact hq.2
  | setscheduler p a => exact outlineSetscheduler_queued k b p a
  | rtMutexSetprio p prio =>
    rw [Op.outline]
    split
    · exact subset_rfl
    · exact Base.queued_subset_setTask id
  | setUserNice p nice =>
    rw [Op.outline]
    split
    · exact subset_rfl
    · split
      · exact Base.queued_subset_setTask id
      · exact Base.queued_subset_setTask id
  | schedMoveTask p g => exact Base.queued_subset_setTask id
  | schedYield e => cases h
  | piWaiter p w => exact Base.queued_subset_setTask id
  | rtPeriodTimer g n => exact subset_rfl
  | setStopTask stop => exact (setStopTask_queued k b stop).ge

/-! ## The invariant -/

/-- Every path of micro steps keeps the queues in order. -/
theorem QInv.path {k : Kernel σ} {A : Scope} {c d : Cfg σ} (h : QInv k c.state c.on)
    (hpath : Path k A c d) : QInv k d.state d.on := by
  induction hpath with
  | refl => exact h
  | tail _ hm ih => exact QInv.micro hm ih

/-- The invariant of the scheduler. -/
structure Inv (k : Kernel σ) (s : State σ) : Prop where
  tasks  : TaskInv k.maxDepth s.toBase
  curr   : CurrOk s.toBase
  queues : QInv k s s.queued

namespace Inv

variable {k : Kernel σ} {s t : State σ}

/-- The invariant holds at boot. -/
theorem boot (k : Kernel σ) : Inv k (boot k) where
  tasks := TaskInv.boot k
  curr := ⟨Nat.zero_lt_one, fun h => absurd rfl h⟩
  queues := by
    rw [queued_boot]
    exact QInv.boot k

/-- When `schedule` comes to pick the next task, all queues are in order. -/
theorem queues_putPrev {e : SchedEnv} (h : Inv k s) (he : e.valid s) :
    QInv k (putPrevTask k (schedulePrev k s e) s.curr) (schedulePrev k s e).queued := by
  have hprev := h.queues.path (schedulePrev_path (A := (Op.schedule e).scope s s s.curr)
    rfl h.tasks h.curr he)
  unfold putPrevTask
  refine QInv.hook ?_ rfl _ _ _
  split
  · exact hprev.updateRqClock
  · exact hprev

/-- What `__schedule` runs next was picked in a state whose queues are in order. -/
theorem schedule_pick {e : SchedEnv} (h : Inv k s) (he : e.valid s)
    (hs : schedule k s e = some t) : ∃ v u, QInv k v t.queued ∧
      pickNextTask k v = some (t.curr, u) ∧ t = switchTo u s.curr t.curr := by
  have hput := h.queues_putPrev he
  unfold schedule at hs
  dsimp only at hs
  split at hs
  · cases hs
  · next next u hpick =>
    obtain rfl := Option.some.inj hs
    obtain ⟨c, hc⟩ := pickNextTask_pickOf hpick
    generalize schedulePrev k s e = v at hput hpick hc
    have hqueued : u.queued = v.queued := by
      rw [pickOf_toBase hc]
      exact Base.queued_eq (putPrevTask_outline ..)
    refine ⟨putPrevTask k v s.curr, u, ?_, hpick, rfl⟩
    show QInv k _ u.queued
    rw [hqueued]
    exact hput

/-- So is what every operation runs next that ends in a choice. -/
theorem switch_pick {op : Op} (h : Inv k s) (hsw : op.switches = true)
    (hstep : step k s op = some t) : ∃ v u, QInv k v t.queued ∧
      pickNextTask k v = some (t.curr, u) ∧ t = switchTo u s.curr t.curr := by
  obtain ⟨hen, -, -⟩ := step_outline hstep
  have hexec : op.exec k s = some t := by rwa [Sched.step, if_pos hen] at hstep
  cases op with
  | schedule e => exact h.schedule_pick hen hexec
  | schedYield e =>
    obtain ⟨he, -, hnidle⟩ := hen
    have hyout : (yieldTask k s).toBase.outline = s.toBase.outline := taskHook_outline ..
    have hne : s.curr ≠ s.idle := fun hi => hnidle ((h.tasks.idle_class _ h.curr.1).mpr hi)
    have hy : Inv k (yieldTask k s) := by
      refine ⟨TaskInv.of_outline ?_, CurrOk.of_outline hyout h.curr, ?_⟩
      · rw [hyout]
        exact h.tasks.to_outline
      · rw [Base.queued_eq hyout]
        exact h.queues.yield (h.curr.mem_queued hne)
    have hpick := hy.schedule_pick (fun w hw => (Base.nrTasks_eq hyout).symm ▸ he w hw) hexec
    rwa [Base.curr_eq hyout] at hpick
  | _ => cases hsw

/-- **Every operation keeps the invariant.** -/
theorem step {op : Op} (h : Inv k s) (hstep : step k s op = some t) : Inv k t := by
  have hT := h.tasks.step h.curr.1 hstep
  obtain ⟨a, w, hpath, hend⟩ := step_path h.tasks h.curr hstep
  have hw : QInv k w t.queued := h.queues.path hpath
  refine ⟨hT, ?_, ?_⟩
  swap
  · rcases hend with ⟨-, hs⟩ | ⟨-, rfl⟩
    · exact hw.switch hs
    · exact hw
  obtain ⟨-, hout, hkeep⟩ := step_outline hstep
  -- the idle task or a queued one runs
  have hrun : t.curr = t.idle ∨ t.curr ∈ t.queued → CurrOk t.toBase := by
    rintro (hidle | hmem)
    · exact ⟨hidle ▸ hT.idle_lt, fun hne => absurd hidle hne⟩
    · rw [Base.mem_queued] at hmem
      exact ⟨hmem.1, fun _ => hmem.2⟩
  cases hsw : op.switches with
  | true =>
    obtain ⟨v, u, hv, hpick, ht⟩ := h.switch_pick hsw hstep
    obtain ⟨c, hc⟩ := pickNextTask_pickOf hpick
    refine hrun ?_
    rcases hv.pick_some hc with ⟨-, hidle⟩ | ⟨-, hmem, -⟩
    · left
      have hi : t.idle = u.idle := by rw [ht]; rfl
      rw [hidle, hi, pickOf_toBase hc]
    · exact Or.inr hmem
  | false =>
    -- no switch: the current task stays queued
    have hcurr := hkeep hsw
    by_cases hidle : s.curr = s.idle
    · refine hrun (Or.inl ?_)
      have hi : t.idle = s.idle := by
        rw [← Base.outline_idle, hout, ← Base.outline_idle s.toBase]
        exact (Op.outline_curr k s.toBase.outline op).2
      rw [hcurr, hi, hidle]
    · refine hrun (Or.inr ?_)
      have hsub := Op.outline_queued k s.toBase.outline op hsw (h.curr.mem_queued hidle)
      rw [← Base.queued_outline, hout, hcurr]
      exact hsub

/-- **The invariant holds in every run.** -/
theorem reachable (hs : Reachable (Sched.step k) (Sched.boot k) s) : Inv k s :=
  hs.invariant (fun _ _ _ h hstep => h.step hstep) (Inv.boot k)

/-- **Rule of small steps.** What holds at boot and is kept by every small step
and every switch between queues in order holds in every reachable state. -/
theorem small_steps {P : Cfg σ → Prop} (hboot : P ⟨Sched.boot k, ∅⟩)
    (hmicro : ∀ A c d, QInv k c.state c.on → P c → Micro k A c d → P d)
    (hswitch : ∀ s t R, QInv k s R → P ⟨s, R⟩ → Switches k s t → P ⟨t, R⟩)
    (hs : Reachable (Sched.step k) (Sched.boot k) s) : P ⟨s, s.queued⟩ := by
  have hpath : ∀ {A : Scope} {c d : Cfg σ}, Path k A c d → QInv k c.state c.on → P c →
      QInv k d.state d.on ∧ P d := by
    intro A c d hp hQ hP
    induction hp with
    | refl => exact ⟨hQ, hP⟩
    | tail _ hm ih => exact ⟨QInv.micro hm ih.1, hmicro _ _ _ ih.1 ih.2 hm⟩
  have hrun := hs.invariant (P := fun s => Inv k s ∧ P ⟨s, s.queued⟩) ?_
    ⟨Inv.boot k, by rw [queued_boot]; exact hboot⟩
  · exact hrun.2
  · intro s op t ⟨hI, hP⟩ hstep
    obtain ⟨a, w, hp, hend⟩ := step_path hI.tasks hI.curr hstep
    obtain ⟨hQw, hPw⟩ := hpath hp hI.queues hP
    refine ⟨hI.step hstep, ?_⟩
    rcases hend with ⟨-, hs⟩ | ⟨-, rfl⟩
    · exact hswitch w t _ hQw hPw hs
    · exact hPw

end Inv

/-- **The WRR run queue.** In every state reached from boot, the queue has no
duplicates, holds exactly the tasks of the class with `on_rq` set, both counters
are right, and no counter ever wrapped on the way. -/
theorem wrrRq_reachable (k : Kernel σ) (s : State σ) (hs : Reachable (step k) (boot k) s) :
    s.toBase.wrr.queue.Nodup ∧
    (∀ p, p ∈ s.toBase.wrr.queue ↔
      p < s.nrTasks ∧ (s.tasks p).schedClass = .wrr ∧ (s.tasks p).onRq = true) ∧
    s.toBase.wrr.wrrNrRunning = s.toBase.wrr.queue.length ∧
    s.toBase.wrr.totalWeight = (s.toBase.wrr.queue.map fun p => (s.tasks p).wrr.weight).sum ∧
    ∀ p, WrrEvent.dequeue p true ∉ s.toBase.wrr.log := by
  have h := (Inv.reachable hs).queues.wrr
  refine ⟨h.nodup, fun p => ?_, h.nr, h.total, fun p hp => ?_⟩
  · rw [h.mem, Base.mem_queued]
    tauto
  · have := h.log _ hp
    cases this

/-- A foreground and a background task, both woken. -/
def wrrOps : List Op :=
  [.fork true, .fork true, .schedMoveTask 2 [1], .setscheduler 1 (request 6#32 0),
    .setscheduler 2 (request 6#32 0), .wakeUpNewTask 1, .wakeUpNewTask 2]

theorem wrrRq_two_tasks : ∃ s, Reachable (step fifoKernel) (boot fifoKernel) s ∧
    s.toBase.wrr.queue = [1, 2] ∧ s.toBase.wrr.totalWeight = 11 ∧
    s.toBase.wrr.queue.Nodup ∧ s.toBase.wrr.wrrNrRunning = s.toBase.wrr.queue.length := by
  have hrun : (run (step fifoKernel) (boot fifoKernel) wrrOps).any (fun s =>
      s.toBase.wrr.queue = [1, 2] ∧ s.toBase.wrr.totalWeight = 11) = true := by decide +kernel
  obtain ⟨s, hs, hq⟩ := Option.any_eq_true _ _ |>.mp hrun
  have hreach := run_reachable hs
  obtain ⟨hnodup, -, hnr, -⟩ := wrrRq_reachable fifoKernel s hreach
  have hq := of_decide_eq_true hq
  exact ⟨s, hreach, hq.1, hq.2, hnodup, hnr⟩

end LinuxKernel.Sched

import LinuxKernel.Sched.Micro

/-!
# Android scheduler — what the hooks leave alone

Frame facts for the hooks of the three kinds of classes, stated once for all
fields that later invariants look at.

* `RtFrame s t` — from `s` to `t` the tasks and the WRR queue, the missing
  classes, the counters and the clocks stay; reschedule requests only appear;
  only tasks of the real-time class are charged.
* `Quiet s t` — throttling flags also only appear, and no run queue counts a
  boosted entity that was not there.
* `rtHook_quiet` — every real-time hook but the two queueing ones is quiet;
  `rtHook_cases` is the case rule for them.
* `doSchedRtPeriodTimer_frame` — the period timer, which may end throttling.
-/

namespace LinuxKernel.Sched

open LinuxKernel.Lib

variable {σ : Type}

/-- What the real-time class leaves alone: all but its run queues, requests to reschedule and the
accounting fields of its own tasks. -/
structure RtFrame (s t : State σ) : Prop where
  toBase    : t.toBase = s.toBase
  ext       : t.ext = s.ext
  nr        : t.nrRunning = s.nrRunning
  hNr       : t.hNrRunning = s.hNrRunning
  clock     : t.clock = s.clock
  clockTask : t.clockTask = s.clockTask
  se        : ∀ q, (s.tasks q).schedClass ≠ .rt → t.se q = s.se q
  start     : ∀ q, t.se q = s.se q ∨ (t.se q).execStart = s.clockTask
  resched   : ∀ q, s.needResched q = true → t.needResched q = true

/-- No run queue counts a boosted entity. -/
def Unboosted (rt : RtRqs) : Prop := ∀ g, (rt g).rtNrBoosted = 0

/-- A step of the real-time class that unthrottles no run queue and boosts no entity. -/
structure Quiet (s t : State σ) : Prop extends RtFrame s t where
  throttled : ∀ g, (s.rt g).rtThrottled = true → (t.rt g).rtThrottled = true
  unboosted : Unboosted s.rt → Unboosted t.rt

namespace RtFrame

variable {s t u : State σ}

theorem refl (s : State σ) : RtFrame s s :=
  ⟨rfl, rfl, rfl, rfl, rfl, rfl, fun _ _ => rfl, fun _ => Or.inl rfl, fun _ h => h⟩

theorem trans (h₁ : RtFrame s t) (h₂ : RtFrame t u) : RtFrame s u where
  toBase := h₂.toBase.trans h₁.toBase
  ext := h₂.ext.trans h₁.ext
  nr := h₂.nr.trans h₁.nr
  hNr := h₂.hNr.trans h₁.hNr
  clock := h₂.clock.trans h₁.clock
  clockTask := h₂.clockTask.trans h₁.clockTask
  se q hq := (h₂.se q (by rw [h₁.toBase]; exact hq)).trans (h₁.se q hq)
  start q := by
    rcases h₂.start q with h | h
    · rw [h]
      exact h₁.start q
    · rw [h, h₁.clockTask]
      exact Or.inr rfl
  resched q hq := h₂.resched q (h₁.resched q hq)

/-- A request to reschedule is not part of the frame. -/
theorem reschedTask (s : State σ) (p : Pid) : RtFrame s (s.reschedTask p) where
  toBase := rfl
  ext := rfl
  nr := rfl
  hNr := rfl
  clock := rfl
  clockTask := rfl
  se _ _ := rfl
  start _ := Or.inl rfl
  resched q hq := by
    by_cases hqp : q = p <;> simp [State.reschedTask, hqp, hq]

/-- Nor are the run queues of the class. -/
theorem setRt (s : State σ) (rt : RtRqs) : RtFrame s (s.setRt rt) :=
  ⟨rfl, rfl, rfl, rfl, rfl, rfl, fun _ _ => rfl, fun _ => Or.inl rfl, fun _ hq => hq⟩

/-- Writes to the accounting fields of a task of the real-time class. -/
theorem setSe (s : State σ) {p : Pid} {f : SchedEntity → SchedEntity}
    (hp : (s.tasks p).schedClass = .rt) (hf : (f (s.se p)).execStart = s.clockTask) :
    RtFrame s (s.setSe p f) where
  toBase := rfl
  ext := rfl
  nr := rfl
  hNr := rfl
  clock := rfl
  clockTask := rfl
  se q hq := by
    have hqp : q ≠ p := fun h => hq (h ▸ hp)
    simp [State.setSe, hqp]
  start q := by
    by_cases hqp : q = p
    · subst hqp
      exact Or.inr (by simpa [State.setSe] using hf)
    · exact Or.inl (by simp [State.setSe, hqp])
  resched _ hq := hq

end RtFrame

namespace Quiet

variable {s t u : State σ}

theorem refl (s : State σ) : Quiet s s := ⟨RtFrame.refl s, fun _ h => h, fun h => h⟩

theorem trans (h₁ : Quiet s t) (h₂ : Quiet t u) : Quiet s u :=
  ⟨h₁.toRtFrame.trans h₂.toRtFrame, fun g hg => h₂.throttled g (h₁.throttled g hg),
    fun h => h₂.unboosted (h₁.unboosted h)⟩

/-- A request to reschedule is quiet. -/
theorem reschedTask (s : State σ) (p : Pid) : Quiet s (s.reschedTask p) :=
  ⟨RtFrame.reschedTask s p, fun _ h => h, fun h => h⟩

/-- A write to the run queues that keeps both properties is quiet. -/
theorem setRt (s : State σ) {rt : RtRqs}
    (h : ∀ g, (s.rt g).rtThrottled = true → (rt g).rtThrottled = true)
    (hb : Unboosted s.rt → Unboosted rt) : Quiet s (s.setRt rt) :=
  ⟨RtFrame.setRt s rt, h, hb⟩

/-- A write to one run queue that keeps both properties is quiet. -/
theorem setRtRq (s : State σ) (g : TaskGroup) {f : RtRq → RtRq}
    (h : (s.rt g).rtThrottled = true → (f (s.rt g)).rtThrottled = true)
    (hb : (f (s.rt g)).rtNrBoosted = (s.rt g).rtNrBoosted) : Quiet s (s.setRtRq g f) := by
  refine setRt s (fun g' hg' => ?_) fun hs g' => ?_
  · by_cases hg : g' = g
    · subst hg
      rw [Function.update_self]
      exact h hg'
    · rw [Function.update_of_ne hg]
      exact hg'
  · by_cases hg : g' = g
    · subst hg
      rw [Function.update_self, hb]
      exact hs g'
    · rw [Function.update_of_ne hg]
      exact hs g'

/-- A write to the accounting fields of a task of the class is quiet. -/
theorem setSe (s : State σ) {p : Pid} {f : SchedEntity → SchedEntity}
    (hp : (s.tasks p).schedClass = .rt) (hf : (f (s.se p)).execStart = s.clockTask) :
    Quiet s (s.setSe p f) := ⟨RtFrame.setSe s hp hf, fun _ h => h, fun h => h⟩

end Quiet

/-! ## Boosts -/

section Boosts

variable {tasks : Pid → Task} {rt : RtRqs} {se : RtSe}

/-- An entity that is not boosted is not counted as one when it comes. -/
theorem incRtTasks_rtNrBoosted (r : RtRq) (prio : Nat) :
    (incRtTasks r prio false).rtNrBoosted = r.rtNrBoosted := by
  show (incRtPrio { r with rtNrRunning := r.rtNrRunning + 1 } prio).rtNrBoosted = _
  unfold incRtPrio
  split <;> rfl

/-- An entity that is not boosted is not counted as one when it goes. -/
theorem decRtTasks_rtNrBoosted (r : RtRq) (prio : Nat) :
    (decRtTasks r prio false).rtNrBoosted = r.rtNrBoosted := by
  show (decRtPrio { r with rtNrRunning := usub 32 r.rtNrRunning 1 } prio).rtNrBoosted = _
  unfold decRtPrio
  split
  · split <;> rfl
  · rfl

/-- An entity that is no boosted task. -/
def plainSe (tasks : Pid → Task) : RtSe → Prop
  | .task p  => (tasks p).prio = (tasks p).normalPrio
  | .group _ => True

/-- The entity of a group is no boosted task. -/
theorem groupStack_plainSe (g : TaskGroup) : ∀ e ∈ groupStack g, plainSe tasks e := by
  induction g with
  | nil => simp [groupStack]
  | cons n g ih =>
    intro e he
    rcases List.mem_cons.mp he with rfl | he
    · exact trivial
    · exact ih e he

/-- Of an entity and all those above it, only the first can be a boosted task. -/
theorem forEachSchedRtEntity_plainSe (hse : plainSe tasks se) :
    ∀ e ∈ forEachSchedRtEntity tasks se, plainSe tasks e := by
  cases se with
  | task p =>
    intro e he
    rcases List.mem_cons.mp he with rfl | he
    · exact hse
    · exact groupStack_plainSe _ e he
  | group g => exact groupStack_plainSe g

namespace Unboosted

/-- Without boosted tasks no entity is boosted, that of a group included. -/
theorem rtSeBoosted (h : Unboosted rt) (hse : plainSe tasks se) :
    rtSeBoosted tasks rt se = false := by
  cases se with
  | task p =>
    have hprio : (tasks p).prio = (tasks p).normalPrio := hse
    simp [Sched.rtSeBoosted, hprio]
  | group g => simp [Sched.rtSeBoosted, h g]

/-- A write to one run queue that keeps its count. -/
theorem update (h : Unboosted rt) {g : TaskGroup} {r : RtRq}
    (hr : r.rtNrBoosted = (rt g).rtNrBoosted) : Unboosted (Function.update rt g r) := by
  intro g'
  by_cases hg : g' = g
  · subst hg
    rw [Function.update_self, hr]
    exact h g'
  · rw [Function.update_of_ne hg]
    exact h g'

/-- `__enqueue_rt_entity` of an entity that is not boosted. -/
theorem enqueueRtEntityRaw (h : Unboosted rt) (hse : plainSe tasks se) (head : Bool) :
    Unboosted (enqueueRtEntityRaw tasks head rt se) := by
  unfold Sched.enqueueRtEntityRaw
  split
  · exact h
  · refine h.update ?_
    rw [h.rtSeBoosted hse, incRtTasks_rtNrBoosted]

/-- `__dequeue_rt_entity` of such an entity. -/
theorem dequeueRtEntityRaw (h : Unboosted rt) (hse : plainSe tasks se) :
    Unboosted (dequeueRtEntityRaw tasks rt se) := by
  refine h.update ?_
  rw [h.rtSeBoosted hse, decRtTasks_rtNrBoosted]

/-- The entities of a list are enqueued one after another. -/
theorem foldl_enqueueRaw (h : Unboosted rt) (head : Bool) {l : List RtSe}
    (hl : ∀ e ∈ l, plainSe tasks e) :
    Unboosted (l.foldl (Sched.enqueueRtEntityRaw tasks head) rt) := by
  induction l generalizing rt with
  | nil => exact h
  | cons e l ih =>
    exact ih (h.enqueueRtEntityRaw (hl e (List.mem_cons_self ..)) head)
      fun e' he' => hl e' (List.mem_cons_of_mem _ he')

/-- `dequeue_rt_stack`, from the top down. -/
theorem dequeueRtStack (h : Unboosted rt) (hse : plainSe tasks se) :
    Unboosted (dequeueRtStack tasks rt se) := by
  have hl := forEachSchedRtEntity_plainSe hse
  unfold Sched.dequeueRtStack
  generalize forEachSchedRtEntity tasks se = l at hl
  induction l with
  | nil => exact h
  | cons e l ih =>
    rw [List.foldr_cons]
    have ih := ih fun e' he' => hl e' (List.mem_cons_of_mem _ he')
    split
    · exact ih.dequeueRtEntityRaw (hl e (List.mem_cons_self ..))
    · exact ih

/-- `enqueue_rt_entity` -/
theorem enqueueRtEntity (h : Unboosted rt) (hse : plainSe tasks se) (head : Bool) :
    Unboosted (enqueueRtEntity tasks rt se head) :=
  (h.dequeueRtStack hse).foldl_enqueueRaw head (forEachSchedRtEntity_plainSe hse)

/-- `dequeue_rt_entity`, with the groups that are put back. -/
theorem dequeueRtEntity (h : Unboosted rt) (hse : plainSe tasks se) :
    Unboosted (dequeueRtEntity tasks rt se) := by
  have hstack := h.dequeueRtStack hse
  have hfold : ∀ g, Unboosted ((groupStack g).foldl (reenqueueGroup tasks)
      (Sched.dequeueRtStack tasks rt se)) := by
    intro g
    rw [foldl_reenqueueGroup]
    exact hstack.foldl_enqueueRaw false (groupStack_plainSe g)
  unfold Sched.dequeueRtEntity
  cases se with
  | task p => exact hfold _
  | group g => exact hfold g

/-- `requeue_task_rt` -/
theorem requeueTaskRt (h : Unboosted rt) (p : Pid) (head : Bool) :
    Unboosted (requeueTaskRt tasks rt p head) := by
  unfold Sched.requeueTaskRt
  induction forEachSchedRtEntity tasks (.task p) generalizing rt with
  | nil => exact h
  | cons e l ih =>
    refine ih ?_
    unfold requeueRtEntity
    split
    · exact h.update rfl
    · exact h

end Unboosted

end Boosts

/-! ## Throttling flags -/

/-- To enqueue an entity throttles and unthrottles nothing. -/
theorem enqueueRtEntityRaw_throttled (tasks : Pid → Task) (head : Bool) (rt : RtRqs) (se : RtSe)
    (g : TaskGroup) :
    (enqueueRtEntityRaw tasks head rt se g).rtThrottled = (rt g).rtThrottled := by
  unfold enqueueRtEntityRaw
  split
  · rfl
  · by_cases hg : g = rtRqOfSe tasks se
    · subst hg
      simp
    · simp [hg]

/-- To dequeue an entity throttles and unthrottles nothing. -/
theorem dequeueRtEntityRaw_throttled (tasks : Pid → Task) (rt : RtRqs) (se : RtSe)
    (g : TaskGroup) : (dequeueRtEntityRaw tasks rt se g).rtThrottled = (rt g).rtThrottled := by
  unfold dequeueRtEntityRaw
  by_cases hg : g = rtRqOfSe tasks se
  · subst hg
    simp
  · simp [hg]

theorem foldl_enqueueRaw_throttled (tasks : Pid → Task) (head : Bool) (l : List RtSe) (rt : RtRqs)
    (g : TaskGroup) :
    (l.foldl (enqueueRtEntityRaw tasks head) rt g).rtThrottled = (rt g).rtThrottled := by
  induction l generalizing rt with
  | nil => rfl
  | cons se l ih => rw [List.foldl_cons, ih, enqueueRtEntityRaw_throttled]

theorem dequeueRtStack_throttled (tasks : Pid → Task) (rt : RtRqs) (se : RtSe) (g : TaskGroup) :
    (dequeueRtStack tasks rt se g).rtThrottled = (rt g).rtThrottled := by
  unfold dequeueRtStack
  induction forEachSchedRtEntity tasks se with
  | nil => rfl
  | cons e l ih =>
    rw [List.foldr_cons]
    split
    · rw [dequeueRtEntityRaw_throttled, ih]
    · exact ih

theorem enqueueRtEntity_throttled (tasks : Pid → Task) (rt : RtRqs) (se : RtSe) (head : Bool)
    (g : TaskGroup) : (enqueueRtEntity tasks rt se head g).rtThrottled = (rt g).rtThrottled := by
  rw [enqueueRtEntity, foldl_enqueueRaw_throttled, dequeueRtStack_throttled]

theorem dequeueRtEntity_throttled (tasks : Pid → Task) (rt : RtRqs) (se : RtSe) (g : TaskGroup) :
    (dequeueRtEntity tasks rt se g).rtThrottled = (rt g).rtThrottled := by
  have hfold : ∀ (h : TaskGroup) (rt : RtRqs), ((groupStack h).foldl (reenqueueGroup tasks) rt
      g).rtThrottled = (rt g).rtThrottled := by
    intro h rt
    rw [foldl_reenqueueGroup, foldl_enqueueRaw_throttled]
  unfold dequeueRtEntity
  cases se with
  | task p =>
    rw [forEachSchedRtEntity, List.foldl_cons, reenqueueGroup, hfold, dequeueRtStack_throttled]
  | group h => rw [forEachSchedRtEntity, hfold, dequeueRtStack_throttled]

theorem requeueTaskRt_throttled (tasks : Pid → Task) (rt : RtRqs) (p : Pid) (head : Bool)
    (g : TaskGroup) : (requeueTaskRt tasks rt p head g).rtThrottled = (rt g).rtThrottled := by
  unfold requeueTaskRt
  induction forEachSchedRtEntity tasks (.task p) generalizing rt with
  | nil => rfl
  | cons se l ih =>
    rw [List.foldl_cons, ih, requeueRtEntity]
    split
    · by_cases hg : g = rtRqOfSe tasks se
      · subst hg
        simp
      · simp [hg]
    · rfl

/-! ## Real-time hooks -/

/-- `sched_rt_rq_dequeue` is quiet. -/
theorem schedRtRqDequeue_quiet (s : State σ) (g : TaskGroup) :
    Quiet s (schedRtRqDequeue s g) := by
  unfold schedRtRqDequeue
  split
  · exact Quiet.setRt s (fun h hh => by rw [dequeueRtEntity_throttled]; exact hh)
      fun hb => hb.dequeueRtEntity (show plainSe s.tasks (.group g) from trivial)
  · exact Quiet.refl s

/-- `sched_rt_runtime_exceeded` throttles a run queue at most. -/
theorem schedRtRuntimeExceeded_quiet (k : Kernel σ) (s : State σ) (g : TaskGroup) :
    Quiet s (schedRtRuntimeExceeded k s g).1 := by
  unfold schedRtRuntimeExceeded
  split
  · exact Quiet.refl s
  · split
    · exact Quiet.refl s
    · split
      · exact Quiet.refl s
      · split
        · have hset : Quiet s (s.setRtRq g fun r =>
              if k.rtRuntime g ≠ 0 then { r with rtThrottled := true }
              else { r with rtTime := 0 }) := by
            refine Quiet.setRtRq s g (fun h => ?_) ?_
            · split
              · rfl
              · exact h
            · split <;> rfl
          have hend : ∀ u : State σ, Quiet s u →
              Quiet s (if rtRqThrottled (u.rt g) = true then (schedRtRqDequeue u g, true)
                else (u, false)).1 := by
            intro u hu
            split
            · exact hu.trans (schedRtRqDequeue_quiet u g)
            · exact hu
          exact hend _ hset
        · exact Quiet.refl s

/-- One round of the loop that charges the run time to the groups. -/
theorem chargeRtRq_quiet (k : Kernel σ) (d : Nat) (s : State σ) (g : TaskGroup) :
    Quiet s (chargeRtRq k d s g) := by
  unfold chargeRtRq
  split
  · have hset : Quiet s (s.setRtRq g fun r => { r with rtTime := r.rtTime + d }) :=
      Quiet.setRtRq s g (fun h => h) rfl
    have hex := hset.trans (schedRtRuntimeExceeded_quiet k _ g)
    dsimp only
    split
    · exact hex.trans (Quiet.reschedTask _ _)
    · exact hex
  · exact Quiet.refl s

/-- **`update_curr_rt` is quiet.** It is called by most hooks of the class. -/
theorem updateCurrRt_quiet (k : Kernel σ) (s : State σ) : Quiet s (updateCurrRt k s) := by
  have hloop : ∀ (l : List RtSe) (tasks : Pid → Task) (d : Nat) (u : State σ),
      Quiet u (l.foldl (fun t se => chargeRtRq k d t (rtRqOfSe tasks se)) u) := by
    intro l tasks d
    induction l with
    | nil => exact Quiet.refl
    | cons se l ih => exact fun u => (chargeRtRq_quiet k d u _).trans (ih _)
  unfold updateCurrRt
  split
  · exact Quiet.refl s
  · next hc =>
    rw [not_not] at hc
    have hcharge : Quiet s s.chargeCurr := Quiet.setSe s hc rfl
    dsimp only
    split
    · exact hcharge
    · exact hcharge.trans (hloop _ _ _ _)

/-- The hooks of the real-time class that do not queue are quiet;
`set_curr_task` is called for a current task of the class. -/
theorem rtHook_quiet (k : Kernel σ) (h : Hook) (s : State σ) (p : Pid) (a : Nat)
    (he : h ≠ .enqueueTask) (hd : h ≠ .dequeueTask)
    (hs : h = .setCurrTask → (s.tasks s.curr).schedClass = .rt) : Quiet s (rtHook k h s p a) := by
  have hresched : ∀ (c : Prop) [Decidable c] (q : Pid),
      Quiet s (if c then s.reschedTask q else s) := by
    intro c _ q
    split
    · exact Quiet.reschedTask s q
    · exact Quiet.refl s
  cases h with
  | enqueueTask => exact absurd rfl he
  | dequeueTask => exact absurd rfl hd
  | yieldTask =>
    exact Quiet.setRt s (fun g hg => by rw [requeueTaskRt_throttled]; exact hg)
      fun hb => hb.requeueTaskRt s.curr false
  | checkPreemptCurr => exact hresched _ _
  | putPrevTask => exact updateCurrRt_quiet k s
  | setCurrTask =>
    exact Quiet.setSe s (f := fun e => { e with execStart := s.clockTask }) (hs rfl) rfl
  | taskTick =>
    have hu := updateCurrRt_quiet k s
    show Quiet s (taskTickRt k s p)
    unfold taskTickRt
    dsimp only
    generalize updateCurrRt k s = u at hu
    have hslice : ∀ x, Quiet u { u with rtTimeSlice := x } := fun x =>
      ⟨⟨rfl, rfl, rfl, rfl, rfl, rfl, fun _ _ => rfl, fun _ => Or.inl rfl, fun _ h => h⟩,
        fun _ h => h, fun h => h⟩
    split
    · exact hu
    · split
      · exact hu.trans (hslice _)
      · split
        · refine (hu.trans (hslice _)).trans ((Quiet.setRt _ (fun g hg => ?_) fun hb => ?_).trans
            (Quiet.reschedTask _ p))
          · rw [requeueTaskRt_throttled]
            exact hg
          · exact hb.requeueTaskRt p false
        · exact hu.trans (hslice _)
  | taskFork => exact Quiet.refl s
  | switchedFrom => exact Quiet.refl s
  | switchedTo => exact hresched _ _
  | prioChanged =>
    show Quiet s (prioChangedRt s p a)
    unfold prioChangedRt
    split
    · exact Quiet.refl s
    · split
      · exact hresched _ _
      · exact hresched _ _
  | taskMoveGroup => exact Quiet.refl s

/-- Case rule for the hooks of the real-time class: two queue, `set_curr_task` is
called for any current task, and all others are quiet. -/
theorem rtHook_cases {Q : State σ → Prop} (k : Kernel σ) (h : Hook) (s : State σ) (p : Pid)
    (a : Nat) (henq : Q (enqueueTaskRt s p a)) (hdeq : Q (dequeueTaskRt k s p))
    (hset : Q (setCurrTaskRt s)) (hquiet : ∀ u, Quiet s u → Q u) : Q (rtHook k h s p a) := by
  by_cases he : h = .enqueueTask
  · subst he
    exact henq
  · by_cases hd : h = .dequeueTask
    · subst hd
      exact hdeq
    · by_cases hs : h = .setCurrTask
      · subst hs
        exact hset
      · exact hquiet _ (rtHook_quiet k h s p a he hd fun hh => absurd hh hs)

/-- `sched_rt_rq_enqueue` stays within the frame, but may unthrottle. -/
theorem schedRtRqEnqueue_frame (s : State σ) (g : TaskGroup) :
    RtFrame s (schedRtRqEnqueue s g) := by
  unfold schedRtRqEnqueue
  split
  · have hend : ∀ u : State σ, RtFrame s u → RtFrame s
        (if (u.rt g).highestPrio < (u.tasks u.curr).prio then u.reschedTask u.curr else u) := by
      intro u hu
      split
      · exact hu.trans (RtFrame.reschedTask u _)
      · exact hu
    refine hend _ ?_
    split
    · exact RtFrame.setRt s _
    · exact RtFrame.refl s
  · exact RtFrame.refl s

/-- So does the period timer. -/
theorem doSchedRtPeriodTimer_frame (k : Kernel σ) (s : State σ) (g : TaskGroup) (n : Nat) :
    RtFrame s (doSchedRtPeriodTimer k s g n) := by
  have hskip : ∀ (u : State σ) (x : Int), RtFrame u { u with skipClockUpdate := x } :=
    fun u x =>
      ⟨rfl, rfl, rfl, rfl, rfl, rfl, fun _ _ => rfl, fun _ => Or.inl rfl, fun _ h => h⟩
  unfold doSchedRtPeriodTimer
  split
  · dsimp only
    split
    · refine RtFrame.trans ?_ (schedRtRqEnqueue_frame _ g)
      split
      · exact ((RtFrame.setRt s _).trans (RtFrame.setRt _ _)).trans (hskip _ _)
      · exact (RtFrame.setRt s _).trans (RtFrame.setRt _ _)
    · exact RtFrame.setRt s _
  · split
    · exact schedRtRqEnqueue_frame s g
    · exact RtFrame.refl s

/-- Either nothing is enqueued or the entity of the group is. -/
theorem schedRtRqEnqueue_rt (s : State σ) (g : TaskGroup) : (schedRtRqEnqueue s g).rt = s.rt ∨
    (schedRtRqEnqueue s g).rt = enqueueRtEntity s.tasks s.rt (.group g) false := by
  have hend : ∀ u : State σ,
      (if (u.rt g).highestPrio < (u.tasks u.curr).prio then u.reschedTask u.curr else u).rt =
        u.rt := by
    intro u
    split <;> rfl
  unfold schedRtRqEnqueue
  split
  · dsimp only
    rw [hend]
    split
    · exact Or.inr rfl
    · exact Or.inl rfl
  · exact Or.inl rfl

/-- The timer writes the run queue of its group, and if it ends throttling there,
`sched_rt_rq_enqueue` follows. -/
theorem doSchedRtPeriodTimer_cases (k : Kernel σ) (s : State σ) (g : TaskGroup) (n : Nat) :
    ∃ (u : State σ) (r : RtRq), u.rt = Function.update s.rt g r ∧
      r.rtNrBoosted = (s.rt g).rtNrBoosted ∧
      (doSchedRtPeriodTimer k s g n = schedRtRqEnqueue u g ∨
        doSchedRtPeriodTimer k s g n = u ∧ r.rtThrottled = (s.rt g).rtThrottled) := by
  unfold doSchedRtPeriodTimer
  split
  · dsimp only
    split
    · split
      · refine ⟨_, { s.rt g with
          rtTime := (s.rt g).rtTime - min (s.rt g).rtTime (n * k.rtRuntime g)
          rtThrottled := false }, ?_, rfl, Or.inl rfl⟩
        simp [State.setRtRq, State.setRt]
      · refine ⟨_, { s.rt g with
          rtTime := (s.rt g).rtTime - min (s.rt g).rtTime (n * k.rtRuntime g)
          rtThrottled := false }, ?_, rfl, Or.inl rfl⟩
        simp [State.setRtRq, State.setRt]
    · exact ⟨_, { s.rt g with
        rtTime := (s.rt g).rtTime - min (s.rt g).rtTime (n * k.rtRuntime g) }, rfl, rfl,
        Or.inr ⟨rfl, rfl⟩⟩
  · have hsame : s.rt = Function.update s.rt g (s.rt g) := (Function.update_eq_self g s.rt).symm
    split
    · exact ⟨s, s.rt g, hsame, rfl, Or.inl rfl⟩
    · exact ⟨s, s.rt g, hsame, rfl, Or.inr ⟨rfl, rfl⟩⟩

/-- The period timer may end throttling, but boosts nothing. -/
theorem doSchedRtPeriodTimer_unboosted (k : Kernel σ) (s : State σ) (g : TaskGroup) (n : Nat)
    (h : Unboosted s.rt) : Unboosted (doSchedRtPeriodTimer k s g n).rt := by
  obtain ⟨u, r, hu, hr, ht⟩ := doSchedRtPeriodTimer_cases k s g n
  have hub : Unboosted u.rt := by
    rw [hu]
    exact h.update hr
  rcases ht with ht | ⟨ht, -⟩
  · rw [ht]
    rcases schedRtRqEnqueue_rt u g with he | he
    · rw [he]
      exact hub
    · rw [he]
      exact hub.enqueueRtEntity (show plainSe u.tasks (.group g) from trivial) false
  · rw [ht]
    exact hub

/-- Only `sched_rt_rq_enqueue` follows the end of throttling. -/
theorem doSchedRtPeriodTimer_throttled {k : Kernel σ} {s t : State σ} {g h : TaskGroup} {n : Nat}
    (ht : doSchedRtPeriodTimer k s g n = t) (hs : (s.rt h).rtThrottled = true)
    (hopen : (t.rt h).rtThrottled = false) : h = g ∧ ∃ u, schedRtRqEnqueue u g = t := by
  obtain ⟨u, r, hu, -, hcase⟩ := doSchedRtPeriodTimer_cases k s g n
  rw [ht] at hcase
  have hrt : (t.rt h).rtThrottled = (u.rt h).rtThrottled := by
    rcases hcase with rfl | ⟨rfl, -⟩
    · rcases schedRtRqEnqueue_rt u g with he | he
      · rw [he]
      · rw [he, enqueueRtEntity_throttled]
    · rfl
  rw [hrt, hu] at hopen
  by_cases hg : h = g
  · subst hg
    rw [Function.update_self] at hopen
    rcases hcase with rfl | ⟨-, hr⟩
    · exact ⟨rfl, u, rfl⟩
    · rw [hr, hs] at hopen
      cases hopen
  · rw [Function.update_of_ne hg, hs] at hopen
    cases hopen

end LinuxKernel.Sched

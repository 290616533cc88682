import LinuxKernel.Sched.Tasks

/-!
# Android scheduler — consistency of the task parameters

What holds of the parameters of every task between operations, proved on the
abstract model of `Sched.Tasks` and carried over to the scheduler by
`step_outline`.

* `TaskOk`       — one task: its normal priority belongs to its policy and nice
  value, a boost only raises its priority, its class fits.
* `TaskInv`      — all tasks, with the idle task and the stop task in their
  places.
* `TaskInv.step` — every step keeps it.
-/

namespace LinuxKernel.Sched

variable {σ : Type}

/-! ## One task -/

/-- The parameters of a task are consistent. -/
structure TaskOk (D : Nat) (t : Task) : Prop where
  static     : maxRtPrio ≤ t.staticPrio
  normal     : t.normalPrio = normalPrio t
  prio_le    : t.prio ≤ t.normalPrio
  rt_prio    : t.schedClass = .rt → t.prio < maxRtPrio
  wrr_policy : t.schedClass = .wrr → t.policy = .wrr
  depth      : t.schedTaskGroup.length ≤ D

namespace TaskOk

variable {D : Nat} {t : Task}

theorem of_params (h : TaskOk D t.params) : TaskOk D t :=
  ⟨h.static, h.normal, h.prio_le, h.rt_prio, h.wrr_policy, h.depth⟩

theorem params (h : TaskOk D t) : TaskOk D t.params :=
  ⟨h.static, h.normal, h.prio_le, h.rt_prio, h.wrr_policy, h.depth⟩

/-- A task whose policy is not real-time has its normal priority outside the
real-time range, and conversely. -/
theorem rtPrio_normal (h : TaskOk D t) : rtPrio t.normalPrio = rtPolicy t.policy := by
  rw [h.normal, normalPrio]
  have hs := h.static
  unfold maxRtPrio at hs
  cases rtPolicy t.policy <;> simp [rtPrio, maxRtPrio] <;> omega

theorem setscheduler (h : TaskOk D t) (policy : Policy) (n : Nat) (reset : Bool) :
    TaskOk D (setschedulerTask policy n reset t) where
  static := h.static
  normal := rfl
  prio_le := by
    show rtMutexGetprio _ ≤ _
    unfold rtMutexGetprio
    split
    · exact le_rfl
    · exact min_le_right _ _
  rt_prio hc := by
    simp only [setschedulerTask, Sched.setscheduler] at hc ⊢
    split at hc
    · cases hc
    · split at hc
      · next hrt => simpa [rtPrio] using hrt
      · cases hc
  wrr_policy hc := by
    simp only [setschedulerTask, Sched.setscheduler] at hc ⊢
    split at hc
    · next hp => exact hp
    · split at hc <;> cases hc
  depth := h.depth

theorem setprio (h : TaskOk D t) {prio : Nat} (hle : prio ≤ t.normalPrio) :
    TaskOk D (setprioTask prio t) where
  static := h.static
  normal := h.normal
  prio_le := hle
  rt_prio hc := by
    simp only [setprioTask] at hc ⊢
    split at hc
    · next hrt => simpa [rtPrio] using hrt
    · cases hc
  wrr_policy hc := by
    simp only [setprioTask] at hc
    split at hc <;> cases hc
  depth := h.depth

/-- A new nice value of a task with a policy other than real-time. -/
theorem nice (h : TaskOk D t) (hpol : rtPolicy t.policy = false) {prio : Nat}
    (hprio : maxRtPrio ≤ prio) : TaskOk D (effectivePrio { t with staticPrio := prio }) where
  static := hprio
  normal := rfl
  prio_le := by
    have hn : normalPrio { t with staticPrio := prio } = prio := by simp [normalPrio, hpol]
    show (if rtPrio t.prio then t.prio else _) ≤ normalPrio { t with staticPrio := prio }
    rw [hn]
    split
    · next hrt =>
      have : t.prio < maxRtPrio := by simpa [rtPrio] using hrt
      omega
    · exact le_rfl
  rt_prio hc := by
    have hlt := h.rt_prio hc
    show (if rtPrio t.prio then t.prio else _) < maxRtPrio
    rw [if_pos (by simpa [rtPrio] using hlt)]
    exact hlt
  wrr_policy := h.wrr_policy
  depth := h.depth

theorem staticPrio (h : TaskOk D t) (hpol : rtPolicy t.policy = true) {prio : Nat}
    (hprio : maxRtPrio ≤ prio) : TaskOk D { t with staticPrio := prio } where
  static := hprio
  normal := by
    have := h.normal
    simpa [normalPrio, hpol] using this
  prio_le := h.prio_le
  rt_prio := h.rt_prio
  wrr_policy := h.wrr_policy
  depth := h.depth

/-- The reset of a fork either does nothing or gives a task that is consistent
again and has no real-time priority. -/
theorem resetOnFork_cases (hs : maxRtPrio ≤ t.staticPrio) :
    Sched.resetOnFork t = t ∨
      maxRtPrio ≤ (Sched.resetOnFork t).staticPrio ∧
        (Sched.resetOnFork t).normalPrio = normalPrio (Sched.resetOnFork t) ∧
        (Sched.resetOnFork t).prio = (Sched.resetOnFork t).normalPrio ∧
        maxRtPrio ≤ (Sched.resetOnFork t).prio := by
  have h120 : maxRtPrio ≤ niceToPrio 0 := by decide
  have hnormal : rtPolicy .normal = false := rfl
  cases hr : t.schedResetOnFork
  · left
    simp [Sched.resetOnFork, hr]
  · right
    cases hpol : rtPolicy t.policy
    · by_cases hneg : prioToNice t.staticPrio < 0 <;>
        simp [Sched.resetOnFork, hr, hpol, hneg, normalPrio, h120, hs]
    · simp [Sched.resetOnFork, hr, hpol, normalPrio, h120, hnormal]

theorem resetOnFork_frame (t : Task) :
    (Sched.resetOnFork t).schedClass = t.schedClass ∧
      (Sched.resetOnFork t).schedTaskGroup = t.schedTaskGroup ∧
      (Sched.resetOnFork t).onRq = t.onRq ∧ (Sched.resetOnFork t).state = t.state := by
  unfold Sched.resetOnFork
  split
  · dsimp only
    split
    · exact ⟨rfl, rfl, rfl, rfl⟩
    · split <;> exact ⟨rfl, rfl, rfl, rfl⟩
  · exact ⟨rfl, rfl, rfl, rfl⟩

/-- **A forked task is consistent.** It is never in the WRR class, whatever its
policy: a `SCHED_WRR` parent has no real-time priority to pass on. -/
theorem forkedTask (h : TaskOk D t) (mm : Bool)
    (hidle : t.schedClass = .idle → rtPolicy t.policy = false) :
    TaskOk D (forkedTask t mm) ∧ (forkedTask t mm).schedClass ≠ .wrr ∧
      (forkedTask t mm).schedClass ≠ .idle ∧ (forkedTask t mm).onRq = false := by
  unfold Sched.forkedTask
  dsimp only
  generalize hu : ({ t with
    onRq := false, state := taskRunning, prio := t.normalPrio, mm := mm,
    piTopWaiter := none } : Task) = u
  have hstatic : maxRtPrio ≤ u.staticPrio := by rw [← hu]; exact h.static
  have hnormal : u.normalPrio = normalPrio u := by rw [← hu]; exact h.normal
  have hprio : u.prio = u.normalPrio := by rw [← hu]
  have hclass : u.schedClass = t.schedClass := by rw [← hu]
  have hdepth : u.schedTaskGroup.length ≤ D := by rw [← hu]; exact h.depth
  have honRq : u.onRq = false := by rw [← hu]
  have hrt : rtPrio u.prio = rtPolicy t.policy := by rw [← hu]; exact h.rtPrio_normal
  obtain ⟨hfc, hfg, hfo, -⟩ := resetOnFork_frame u
  have hreset : maxRtPrio ≤ (Sched.resetOnFork u).staticPrio ∧
      (Sched.resetOnFork u).normalPrio = normalPrio (Sched.resetOnFork u) ∧
      (Sched.resetOnFork u).prio = (Sched.resetOnFork u).normalPrio ∧
      (rtPrio (Sched.resetOnFork u).prio = true → rtPolicy t.policy = true) := by
    rcases resetOnFork_cases hstatic with he | ⟨h1, h2, h3, h4⟩
    · rw [he]
      exact ⟨hstatic, hnormal, hprio, fun hr => hrt ▸ hr⟩
    · refine ⟨h1, h2, h3, fun hr => ?_⟩
      simp only [rtPrio, decide_eq_true_eq] at hr
      omega
  obtain ⟨h1, h2, h3, h4⟩ := hreset
  split
  · next hr =>
    -- a real-time priority: the class is the parent's
    have hpol := h4 hr
    have hwrr : (Sched.resetOnFork u).schedClass ≠ .wrr := by
      rw [hfc, hclass]
      intro hc
      rw [h.wrr_policy hc] at hpol
      cases hpol
    refine ⟨⟨h1, h2, le_of_eq h3, fun _ => by simpa [rtPrio] using hr,
      fun hc => absurd hc hwrr, hfg ▸ hdepth⟩, hwrr, ?_, hfo.trans honRq⟩
    rw [hfc, hclass]
    intro hc
    rw [hidle hc] at hpol
    cases hpol
  · exact ⟨⟨h1, h2, le_of_eq h3, by simp, by simp, hfg ▸ hdepth⟩, by simp, by simp, hfo.trans honRq⟩

end TaskOk

/-! ## All tasks -/

/-- The parameters of all tasks are consistent; the idle task stays idle and off
every queue; the stop task, if there is one, poses as a `SCHED_FIFO` task. -/
structure TaskInv (D : Nat) (b : Base) : Prop where
  task        : ∀ p < b.nrTasks, TaskOk D (b.tasks p)
  idle_lt     : b.idle < b.nrTasks
  idle_off    : (b.tasks b.idle).onRq = false
  idle_state  : (b.tasks b.idle).state = taskRunning
  idle_policy : (b.tasks b.idle).policy = .normal
  idle_class  : ∀ p < b.nrTasks, (b.tasks p).schedClass = .idle ↔ p = b.idle
  stop_ok     : ∀ p, b.stop = some p →
    p < b.nrTasks ∧ p ≠ b.idle ∧ (b.tasks p).policy = .fifo

namespace TaskInv

variable {D : Nat} {b : Base} {p : Pid} {f : Task → Task}

theorem of_outline (h : TaskInv D b.outline) : TaskInv D b where
  task p hp := (h.task p hp).of_params
  idle_lt := h.idle_lt
  idle_off := h.idle_off
  idle_state := h.idle_state
  idle_policy := h.idle_policy
  idle_class := h.idle_class
  stop_ok := h.stop_ok

theorem to_outline (h : TaskInv D b) : TaskInv D b.outline where
  task p hp := (h.task p hp).params
  idle_lt := h.idle_lt
  idle_off := h.idle_off
  idle_state := h.idle_state
  idle_policy := h.idle_policy
  idle_class := h.idle_class
  stop_ok := h.stop_ok

/-- A task of the idle class is the idle task. -/
theorem idle_not_rt (h : TaskInv D b) {p : Pid} (hp : p < b.nrTasks)
    (hc : (b.tasks p).schedClass = .idle) : rtPolicy (b.tasks p).policy = false := by
  rw [(h.idle_class p hp).mp hc, h.idle_policy]
  rfl

theorem setCurr (h : TaskInv D b) (q : Pid) : TaskInv D { b with curr := q } :=
  ⟨h.task, h.idle_lt, h.idle_off, h.idle_state, h.idle_policy, h.idle_class, h.stop_ok⟩

/-- **Write rule.** A write to one task keeps the invariant if it keeps the task
consistent, and the idle and the stop task what they are. -/
theorem setTask (h : TaskInv D b) (hok : TaskOk D (f (b.tasks p)))
    (hclass : (f (b.tasks p)).schedClass = .idle ↔ (b.tasks p).schedClass = .idle)
    (hidle : p = b.idle → (f (b.tasks p)).onRq = (b.tasks p).onRq ∧
      (f (b.tasks p)).state = (b.tasks p).state ∧ (f (b.tasks p)).policy = (b.tasks p).policy)
    (hstop : b.stop = some p → (f (b.tasks p)).policy = (b.tasks p).policy) :
    TaskInv D (b.setTask p f) := by
  -- fields of the idle task
  have hid : ∀ {α : Type} (g : Task → α), (p = b.idle → g (f (b.tasks p)) = g (b.tasks p)) →
      g ((b.setTask p f).tasks b.idle) = g (b.tasks b.idle) := by
    intro α g hg
    rw [Base.setTask_tasks]
    split
    · next hp =>
      rw [hg hp.symm, hp]
    · rfl
  refine ⟨fun q hq => ?_, h.idle_lt, ?_, ?_, ?_, fun q hq => ?_, fun q hq => ?_⟩
  · rw [Base.setTask_tasks]
    split
    · exact hok
    · exact h.task q hq
  · exact (hid Task.onRq fun hp => (hidle hp).1).trans h.idle_off
  · exact (hid Task.state fun hp => (hidle hp).2.1).trans h.idle_state
  · exact (hid Task.policy fun hp => (hidle hp).2.2).trans h.idle_policy
  · rw [Base.setTask_tasks]
    split
    · next hp =>
      subst hp
      rw [hclass]
      exact h.idle_class q hq
    · exact h.idle_class q hq
  · obtain ⟨hlt, hne, hpol⟩ := h.stop_ok q hq
    refine ⟨hlt, hne, ?_⟩
    rw [Base.setTask_tasks]
    split
    · next hp =>
      subst hp
      rw [hstop hq]
      exact hpol
    · exact hpol

theorem class_ne_idle (h : TaskInv D b) (hp : p < b.nrTasks) (hne : p ≠ b.idle) :
    (b.tasks p).schedClass ≠ .idle :=
  fun hc => hne ((h.idle_class p hp).mp hc)

/-- Writing only run state: whether the task is queued and its `state`. -/
theorem setRunState (h : TaskInv D b) (hp : p < b.nrTasks) (hne : p ≠ b.idle)
    (hf : ∀ t, f t = { t with onRq := (f t).onRq, state := (f t).state }) :
    TaskInv D (b.setTask p f) := by
  have hok := h.task p hp
  have hclass : (f (b.tasks p)).schedClass = (b.tasks p).schedClass := by rw [hf]
  have hpol : (f (b.tasks p)).policy = (b.tasks p).policy := by rw [hf]
  refine h.setTask ?_ (by rw [hclass]) (fun he => absurd he hne) fun _ => hpol
  rw [hf]
  exact ⟨hok.static, hok.normal, hok.prio_le, hok.rt_prio, hok.wrr_policy, hok.depth⟩

/-- Writing only the class, as the two halves of `sched_set_stop_task` do. -/
theorem setClass (h : TaskInv D b) (hp : p < b.nrTasks) (hne : p ≠ b.idle) {c : SchedClass}
    (hidle : c ≠ .idle) (hwrr : c ≠ .wrr) (hrt : c = .rt → (b.tasks p).prio < maxRtPrio) :
    TaskInv D (b.setTask p fun t => { t with schedClass := c }) := by
  have hok := h.task p hp
  exact h.setTask ⟨hok.static, hok.normal, hok.prio_le, hrt, fun hc => absurd hc hwrr, hok.depth⟩
    (iff_of_false hidle (h.class_ne_idle hp hne)) (fun he => absurd he hne) fun _ => rfl

theorem outlineSetscheduler {k : Kernel σ} (h : TaskInv D b) (hp : p < b.nrTasks)
    (hne : p ≠ b.idle) (a : SetschedArgs) : TaskInv D (outlineSetscheduler k b p a) := by
  rcases outlineSetscheduler_cases k b p a with he | ⟨policy, reset, hreq, he⟩
  · rw [he]
    exact h
  · rw [he]
    have hclass := h.class_ne_idle hp hne
    refine h.setTask ((h.task p hp).setscheduler _ _ _) (iff_of_false ?_ hclass)
      (fun hi => absurd hi hne) fun hstop => ?_
    · simp only [setschedulerTask, setscheduler]
      split
      · simp
      · split <;> simp
    · -- a request on the stop task is refused
      exact absurd hstop (setschedulerRequest_ok hreq).2.2.2.1

theorem setStop (h : TaskInv D b) (stop : Option Pid)
    (hs : ∀ p, stop = some p → p < b.nrTasks ∧ p ≠ b.idle ∧ (b.tasks p).policy = .fifo) :
    TaskInv D { b with stop := stop } :=
  ⟨h.task, h.idle_lt, h.idle_off, h.idle_state, h.idle_policy, h.idle_class, hs⟩

/-- `sched_setscheduler_nocheck` leaves the future stop task with `SCHED_FIFO`. -/
theorem policy_stopArgs {k : Kernel σ} (h : TaskInv D b) (p : Pid) :
    ((Sched.outlineSetscheduler k b p stopArgs).tasks p).policy = .fifo := by
  have hvalid : validPriority (b.tasks p) stopArgs = true := by
    cases hm : (b.tasks p).mm <;> simp [validPriority, hm, stopArgs, maxRtPrio]
  have hreq : requestedPolicy (b.tasks p) stopArgs = some (.fifo, false) := rfl
  unfold Sched.outlineSetscheduler
  split
  · next policy reset hok =>
    have := (setschedulerRequest_ok hok).1
    rw [hreq] at this
    obtain ⟨rfl, -⟩ := Prod.mk.inj (Option.some.inj this)
    rw [Base.setTask_self]
    rfl
  · next hno =>
    by_contra hpol
    by_cases hstop : b.stop = some p
    · exact hpol (h.stop_ok p hstop).2.2
    · refine hno .fifo false ?_
      have hne : ¬ Policy.fifo = (b.tasks p).policy := fun he => hpol he.symm
      have hrt : rtPolicy .fifo = (stopArgs.schedPriority != 0) := rfl
      have huser : stopArgs.user = false := rfl
      simp [setschedulerRequest, hreq, hvalid, hstop, hne, hrt, huser]

theorem outlineSetscheduler_other {k : Kernel σ} {q : Pid} (hq : q ≠ p) (a : SetschedArgs) :
    (Sched.outlineSetscheduler k b p a).tasks q = b.tasks q := by
  rcases outlineSetscheduler_cases k b p a with he | ⟨policy, reset, -, he⟩
  · rw [he]
  · rw [he, Base.setTask_of_ne _ _ hq]

theorem outlineSetscheduler_nrTasks (k : Kernel σ) (b : Base) (p : Pid) (a : SetschedArgs) :
    (Sched.outlineSetscheduler k b p a).nrTasks = b.nrTasks := by
  rcases outlineSetscheduler_cases k b p a with he | ⟨policy, reset, -, he⟩ <;> rw [he]
  rfl

/-- Installing a new stop task and retiring the old one. -/
theorem outlineSetStop {k : Kernel σ} (h : TaskInv D b) (stop : Option Pid)
    (hnew : ∀ p, stop = some p → p < b.nrTasks ∧ p ≠ b.idle) :
    TaskInv D (outlineRetire { outlineInstall k b stop with stop := stop } b.stop) := by
  have hinstall : TaskInv D (outlineInstall k b stop) ∧
      (outlineInstall k b stop).nrTasks = b.nrTasks ∧
      (∀ p, stop = some p → ((outlineInstall k b stop).tasks p).policy = .fifo) ∧
      ∀ q, stop ≠ some q → (outlineInstall k b stop).tasks q = b.tasks q := by
    cases stop with
    | none => exact ⟨h, rfl, by simp, fun q _ => rfl⟩
    | some p =>
      obtain ⟨hlt, hne⟩ := hnew p rfl
      have hset := h.outlineSetscheduler (k := k) hlt hne stopArgs
      have hnr := outlineSetscheduler_nrTasks k b p stopArgs
      have hidle := (outlineSetscheduler_curr k b p stopArgs).2
      have hpol := h.policy_stopArgs (k := k) p
      refine ⟨hset.setClass (by rw [hnr]; exact hlt) (by rw [hidle]; exact hne) (by simp) (by simp)
        (by simp), hnr, ?_, ?_⟩
      · intro q hq
        obtain rfl := Option.some.inj hq
        rw [outlineInstall, Base.setTask_self]
        exact hpol
      · intro q hq
        have hqp : q ≠ p := fun he => hq (by rw [he])
        rw [outlineInstall, Base.setTask_of_ne _ _ hqp, outlineSetscheduler_other hqp]
  obtain ⟨hinv, hnr, hpol, hother⟩ := hinstall
  have hidle := (outlineInstall_curr k b stop).2
  have hstop := hinv.setStop stop fun p hp => by
    rw [hnr, hidle]
    exact ⟨(hnew p hp).1, (hnew p hp).2, hpol p hp⟩
  cases hold : b.stop with
  | none => exact hstop
  | some q =>
    -- the retired task goes to the real-time class with its SCHED_FIFO priority
    obtain ⟨hlt, hne, hqpol⟩ := h.stop_ok q hold
    have hfifo : ((outlineInstall k b stop).tasks q).policy = .fifo := by
      by_cases hq : stop = some q
      · exact hpol q hq
      · rw [hother q hq]
        exact hqpol
    have hok := hinv.task q (by rw [hnr]; exact hlt)
    have hprio : ((outlineInstall k b stop).tasks q).prio < maxRtPrio := by
      have hle := hok.prio_le
      have hrt := hok.rtPrio_normal
      rw [hfifo] at hrt
      have : ((outlineInstall k b stop).tasks q).normalPrio < maxRtPrio := by
        simpa [rtPrio, rtPolicy] using hrt
      omega
    exact hstop.setClass (hnr ▸ hlt) (hidle ▸ hne) (by simp) (by simp) fun _ => hprio

/-- A task that a wake-up finds asleep is not the idle task. -/
theorem ne_idle_of_state (h : TaskInv D b) {mask : Nat} (hst : (b.tasks p).state &&& mask ≠ 0) :
    p ≠ b.idle := by
  rintro rfl
  rw [h.idle_state] at hst
  exact hst (Nat.zero_and mask)

theorem outlinePrev (h : TaskInv D b) (hcurr : b.curr < b.nrTasks) {e : SchedEnv}
    (he : ∀ w ∈ e.toWakeup, w < b.nrTasks) : TaskInv D (outlinePrev b e) := by
  unfold Sched.outlinePrev
  split
  · next hs =>
    -- the idle task never sleeps
    have hne : b.curr ≠ b.idle := by
      intro hi
      rw [hi, h.idle_state] at hs
      exact hs.1 rfl
    split
    · exact h.setRunState hcurr hne fun t => rfl
    · have hoff : TaskInv D (b.setTask b.curr fun t => { t with onRq := false }) :=
        h.setRunState hcurr hne fun t => rfl
      cases hw : e.toWakeup with
      | none => exact hoff
      | some w =>
        dsimp only
        rcases outlineWakeLocal_cases (b.setTask b.curr fun t => { t with onRq := false }) w
          with hno | ⟨-, hst, hyes⟩
        · rw [hno]
          exact hoff
        · rw [hyes]
          exact hoff.setRunState (he w (by rw [hw]; rfl)) (hoff.ne_idle_of_state hst) fun t => rfl
  · exact h

/-- The new task of a fork. -/
theorem fork (h : TaskInv D b) (hcurr : b.curr < b.nrTasks) (mm : Bool) :
    TaskInv D { b with
      tasks := Function.update b.tasks b.nrTasks (forkedTask (b.tasks b.curr) mm)
      nrTasks := b.nrTasks + 1 } := by
  obtain ⟨hok, -, hnidle, -⟩ := (h.task _ hcurr).forkedTask mm (h.idle_not_rt hcurr)
  have hold : ∀ q, q < b.nrTasks →
      Function.update b.tasks b.nrTasks (forkedTask (b.tasks b.curr) mm) q = b.tasks q :=
    fun q hq => Function.update_of_ne (Nat.ne_of_lt hq) _ _
  have hlt := h.idle_lt
  refine ⟨fun q hq => ?_, ?_, ?_, ?_, ?_, fun q hq => ?_, fun q hq => ?_⟩
  · rcases Nat.lt_succ_iff_lt_or_eq.mp hq with hq | rfl
    · show TaskOk D (Function.update b.tasks b.nrTasks _ q)
      rw [hold q hq]
      exact h.task q hq
    · show TaskOk D (Function.update b.tasks b.nrTasks _ b.nrTasks)
      rw [Function.update_self]
      exact hok
  · exact Nat.lt_succ_of_lt hlt
  · exact (congrArg Task.onRq (hold _ hlt)).trans h.idle_off
  · exact (congrArg Task.state (hold _ hlt)).trans h.idle_state
  · exact (congrArg Task.policy (hold _ hlt)).trans h.idle_policy
  · rcases Nat.lt_succ_iff_lt_or_eq.mp hq with hq | rfl
    · show (Function.update b.tasks b.nrTasks _ q).schedClass = .idle ↔ _
      rw [hold q hq]
      exact h.idle_class q hq
    · show (Function.update b.tasks b.nrTasks _ b.nrTasks).schedClass = .idle ↔ _
      rw [Function.update_self]
      exact iff_of_false hnidle (Nat.ne_of_gt hlt)
  · obtain ⟨h1, h2, h3⟩ := h.stop_ok q hq
    exact ⟨Nat.lt_succ_of_lt h1, h2, (congrArg Task.policy (hold q h1)).trans h3⟩

/-- Every operation keeps the parameters consistent in the abstract model. -/
theorem outline {k : Kernel σ} {s : State σ} {op : Op} (hD : D = k.maxDepth)
    (h : TaskInv D s.toBase.outline) (hcurr : s.curr < s.nrTasks) (hen : op.enabled k s) :
    TaskInv D (op.outline k s.toBase.outline) := by
  cases op with
  | setState st =>
    exact h.setRunState (f := fun t => { t with state := st }) hcurr hen fun t => rfl
  | schedule e => exact h.outlinePrev hcurr hen
  | tick => exact h
  | wakeUp p state flags =>
    show TaskInv D (if _ then _ else _)
    split
    · exact h
    · next hst => exact h.setRunState hen (h.ne_idle_of_state hst) fun t => rfl
  | wakeUpNewTask p =>
    exact h.setRunState (f := fun t => { t with onRq := true }) hen.1.1 hen.1.2.1 fun t => rfl
  | fork mm => exact h.fork hcurr mm
  | setscheduler p a => exact h.outlineSetscheduler hen.1 hen.2 a
  | rtMutexSetprio p prio =>
    show TaskInv D (if _ then _ else _)
    split
    · exact h
    · next hne =>
      refine h.setTask ((h.task p hen.1).setprio hen.2)
        (iff_of_false ?_ (h.class_ne_idle hen.1 hne)) (fun hi => absurd hi hne) fun _ => rfl
      show (if rtPrio prio then SchedClass.rt else .fair) ≠ .idle
      split <;> simp
  | setUserNice p nice =>
    show TaskInv D (if _ then _ else if _ then _ else _)
    split
    · exact h
    · next hrange =>
      have hprio : maxRtPrio ≤ niceToPrio nice := by
        unfold niceToPrio maxRtPrio
        omega
      split
      · next hpol =>
        exact h.setTask ((h.task p hen.1).staticPrio hpol hprio) Iff.rfl
          (fun hi => absurd hi hen.2) fun _ => rfl
      · next hpol =>
        exact h.setTask ((h.task p hen.1).nice (by simpa using hpol) hprio) Iff.rfl
          (fun hi => absurd hi hen.2) fun _ => rfl
  | schedMoveTask p g =>
    have hok := h.task p hen.1
    exact h.setTask (f := fun t => { t with schedTaskGroup := g })
      ⟨hok.static, hok.normal, hok.prio_le, hok.rt_prio, hok.wrr_policy, hD ▸ hen.2.2⟩
      Iff.rfl (fun hi => absurd hi hen.2.1) fun _ => rfl
  | schedYield e => exact h.outlinePrev hcurr hen.1
  | piWaiter p w =>
    have hok := h.task p hen
    exact h.setTask (f := fun t => { t with piTopWaiter := w })
      ⟨hok.static, hok.normal, hok.prio_le, hok.rt_prio, hok.wrr_policy, hok.depth⟩
      Iff.rfl (fun _ => ⟨rfl, rfl, rfl⟩) fun _ => rfl
  | rtPeriodTimer g n => exact h
  | setStopTask stop =>
    exact h.outlineSetStop stop fun p hp => ⟨(hen.1 p hp).1, (hen.1 p hp).2.1⟩

/-- **Every step keeps the task parameters consistent.** -/
theorem step {k : Kernel σ} {s t : State σ} {op : Op} (h : TaskInv k.maxDepth s.toBase)
    (hcurr : s.curr < s.nrTasks) (hstep : step k s op = some t) :
    TaskInv k.maxDepth t.toBase := by
  obtain ⟨hen, hout, -⟩ := step_outline hstep
  refine TaskInv.of_outline ?_
  rw [hout]
  exact (TaskInv.outline rfl h.to_outline hcurr hen).setCurr _

end TaskInv

end LinuxKernel.Sched

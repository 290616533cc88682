import LinuxKernel.Sched.Invariant

/-!
# Android scheduler — the real-time class runs the highest priority

`_pick_next_task_rt` goes down from the root run queue and takes the first entity
of the highest list at each level. A group stands in its parent's array with the
highest priority found below it, so the way down follows the best task.

* `RtInv.highest_le`      — a task that no throttled group holds back counts in
  every run queue above it.
* `RtInv.descendRt_first` — the way down ends at a task of the highest priority,
  and every entity passed is the first of its list.
* `rt_runs_highest`       — so after every `schedule` that leaves a real-time task
  waiting, the task that runs is at least as urgent.
-/

namespace LinuxKernel.Sched

open LinuxKernel.Lib PrioArray

variable {σ : Type}

/-- The entity is the first of its list. -/
def FirstInList (tasks : Pid → Task) (rt : RtRqs) (se : RtSe) : Prop :=
  ((rt (rtRqOfSe tasks se)).active.queue (rtSePrio tasks rt se)).head? = some se

theorem mem_groupStack {g : TaskGroup} {se : RtSe} :
    se ∈ groupStack g ↔ ∃ n k, se = .group (n :: k) ∧ n :: k <:+ g := by
  induction g with
  | nil => simp [groupStack]
  | cons m g ih =>
    rw [groupStack, List.mem_cons, ih]
    constructor
    · rintro (rfl | ⟨n, k, rfl, hk⟩)
      · exact ⟨m, g, rfl, List.suffix_rfl⟩
      · exact ⟨n, k, rfl, List.suffix_cons_iff.mpr (Or.inr hk)⟩
    · rintro ⟨n, k, rfl, hk⟩
      rcases List.suffix_cons_iff.mp hk with he | hk
      · exact Or.inl (congrArg RtSe.group he)
      · exact Or.inr ⟨n, k, rfl, hk⟩

section Down

variable {D : Nat} {T : Pid → Prop} {tasks : Pid → Task} {rt : RtRqs} {p : Pid}

/-- An unthrottled task is never more urgent than the highest priority any run
queue above it shows. -/
theorem RtInv.highest_le (h : RtInv D T noGroup tasks rt) (hp : T p)
    (hel : rtEligible tasks rt p = true) :
    ∀ g, g <:+ (tasks p).schedTaskGroup → (rt g).highestPrio ≤ (tasks p).prio := by
  have hnr := h.nr_ne_zero_of_eligible hp hel
  rw [rtEligible_iff] at hel
  have hself : (rt (tasks p).schedTaskGroup).highestPrio ≤ (tasks p).prio := by
    rw [(h.rq _).highest]
    exact (h.rq _).wf.findFirstBit_le_lvl (h.task_mem.mpr ⟨hp, rfl⟩)
  generalize (tasks p).schedTaskGroup = g₀ at hel hself hnr
  induction g₀ with
  | nil =>
    intro g hg
    rwa [List.suffix_nil.mp hg]
  | cons n g₀ ih =>
    intro g hg
    have hsuf : ∀ {k}, k <:+ g₀ → k <:+ n :: g₀ := fun hk => List.suffix_cons_iff.mpr (Or.inr hk)
    rcases List.suffix_cons_iff.mp hg with rfl | hg
    · exact hself
    · -- the entity of the group stands in its parent's array
      have hmem : Mem (.group (n :: g₀)) (rt g₀).active := by
        rw [h.attached (fun hx => hx)]
        simp [skipGroup, hel _ List.suffix_rfl, hnr _ List.suffix_rfl]
      have hup : (rt g₀).highestPrio ≤ (rt (n :: g₀)).highestPrio := by
        rw [(h.rq g₀).highest]
        exact (h.rq g₀).wf.findFirstBit_le_lvl hmem
      exact ih (fun k hk => hel k (hsuf hk)) (hup.trans hself) (fun k hk => hnr k (hsuf hk)) g hg

/-- What `pick_next_rt_entity` takes is the first of its list and has the highest
priority of its run queue. -/
theorem RtRqInv.pick_first {lvl : RtSe → Nat} {g : TaskGroup} {r : RtRq} {se : RtSe}
    (h : RtRqInv D lvl g r) (hpick : pickNextRtEntity r = some se) :
    Mem se r.active ∧ lvl se = r.highestPrio ∧ (r.active.queue (lvl se)).head? = some se := by
  have hmem : se ∈ r.active.queue (findFirstBit maxRtPrio r.active) := List.mem_of_head? hpick
  have hlvl : lvl se = findFirstBit maxRtPrio r.active := (h.wf.lvl_eq hmem).symm
  refine ⟨⟨_, hmem⟩, hlvl.trans h.highest.symm, ?_⟩
  rw [hlvl]
  exact hpick

/-- **The way down** from a run queue ends at a task of its highest priority, in or
below its group; every entity passed on the way is the first of its list. -/
theorem RtInv.descendRt_first (h : RtInv D T noGroup tasks rt) {n : Nat} {g : TaskGroup}
    (hp : Sched.descendRt rt n g = some p) :
    g <:+ (tasks p).schedTaskGroup ∧ (tasks p).prio = (rt g).highestPrio ∧
      ∀ se ∈ forEachSchedRtEntity tasks (.task p), g <:+ rtRqOfSe tasks se →
        FirstInList tasks rt se := by
  induction n generalizing g with
  | zero => cases hp
  | succ n ih =>
    rw [Sched.descendRt] at hp
    split at hp
    · cases hp
    · next q hpick =>
      obtain rfl := Option.some.inj hp
      obtain ⟨hmem, hprio, hfirst⟩ := (h.rq g).pick_first hpick
      obtain ⟨-, hg⟩ := h.task_mem.mp hmem
      refine ⟨hg ▸ List.suffix_rfl, hprio, fun se hse hbelow => ?_⟩
      rcases List.mem_cons.mp hse with rfl | hse
      · show ((rt (tasks q).schedTaskGroup).active.queue _).head? = _
        rw [hg]
        exact hfirst
      · -- the entities above the group of the task hang on other run queues
        obtain ⟨m, k, rfl, hk⟩ := mem_groupStack.mp hse
        rw [hg] at hk
        exact absurd (hk.length_le.trans hbelow.length_le) (by simp [rtRqOfSe])
    · next k hpick =>
      obtain ⟨hmem, hprio, hfirst⟩ := (h.rq g).pick_first hpick
      obtain ⟨m, rfl⟩ := (h.rq g).group_mem hmem
      obtain ⟨hsuf, htop, hrest⟩ := ih hp
      refine ⟨(List.suffix_cons m g).trans hsuf, htop.trans hprio, fun se hse hbelow => ?_⟩
      by_cases hin : m :: g <:+ rtRqOfSe tasks se
      · exact hrest se hse hin
      · -- the only entity between the two run queues is that of the group
        rcases List.mem_cons.mp hse with rfl | hse
        · exact absurd hsuf hin
        · obtain ⟨j, k, rfl, hk⟩ := mem_groupStack.mp hse
          have heq : j :: k = m :: g := by
            rcases List.suffix_or_suffix_of_suffix hk hsuf with hle | hle
            · refine hle.eq_of_length_le ?_
              have := List.IsSuffix.length_le hbelow
              simpa [rtRqOfSe] using this
            · rcases List.suffix_cons_iff.mp hle with he | hle
              · exact he.symm
              · exact absurd hle hin
          rw [heq]
          exact hfirst

end Down

/-! ## After a switch -/

theorem pickNextTaskRt_descend {k : Kernel σ} {s u : State σ} {p : Pid}
    (h : pickNextTaskRt k s = some (p, u)) : descendRt s.rt (k.maxDepth + 1) [] = some p := by
  unfold pickNextTaskRt at h
  split at h
  · cases h
  · split at h
    · cases h
    · split at h
      · cases h
      · next q hq =>
        rw [hq, (Prod.mk.inj (Option.some.inj h)).1]

/-- A switch, seen from the run queues: `v` is the state in which the next task is
picked, by the first class that has one. -/
theorem Inv.switch_class {k : Kernel σ} {s t : State σ} {op : Op} (h : Inv k s)
    (hsw : op.switches = true) (hstep : Sched.step k s op = some t) : ∃ v u c,
      QInv k v t.queued ∧ pickOf k c v = some (t.curr, u) ∧
      (∀ c', c'.rank < c.rank → pickOf k c' v = none) ∧
      t.tasks = v.tasks ∧ t.idle = v.idle ∧ t.rt = v.rt := by
  obtain ⟨v, u, hv, hpick, ht⟩ := h.switch_pick hsw hstep
  rw [hv.pickNextTask_eq] at hpick
  obtain ⟨c, hc, hhigher⟩ := pickFrom_forEachClass hpick
  refine ⟨v, u, c, hv, hc, hhigher, ?_, ?_, ?_⟩
  · rw [ht, ← pickOf_toBase hc]
    rfl
  · rw [ht, ← pickOf_toBase hc]
    rfl
  · rw [ht]
    rcases pickOf_cases hc with ⟨-, rfl⟩ | ⟨-, rfl⟩ | ⟨-, -, e, -, rfl⟩ <;> rfl

/-- **The highest priority runs.** After every `schedule` from a reachable state, if
a real-time task `q` is queued that no throttled group holds back, then the stop task
runs or a real-time task does that is not held back either, is at least as urgent as
`q`, and stands first in its list at every level up to the root. -/
theorem rt_runs_highest {k : Kernel σ} {s t : State σ} {op : Op}
    (hs : Reachable (step k) (boot k) s) (hsw : op.switches = true)
    (hstep : step k s op = some t) {q : Pid} (hq : q ∈ t.queued)
    (hrt : (t.tasks q).schedClass = .rt) (hel : rtEligible t.tasks t.rt q = true) :
    (t.tasks t.curr).schedClass = .stop ∨
      ((t.tasks t.curr).schedClass = .rt ∧ rtEligible t.tasks t.rt t.curr = true ∧
        (t.tasks t.curr).prio ≤ (t.tasks q).prio ∧
        ∀ se ∈ forEachSchedRtEntity t.tasks (.task t.curr), FirstInList t.tasks t.rt se) := by
  obtain ⟨v, u, c, hv, hc, hhigher, htasks, -, hrts⟩ := (Inv.reachable hs).switch_class hsw hstep
  rw [htasks] at hrt
  rw [htasks, hrts] at hel
  -- the real-time class has a task to run, so no class below it is asked
  have hrank : c.rank ≤ SchedClass.rank .rt := by
    by_contra hlt
    have hnone := hhigher .rt (Nat.lt_of_not_le hlt)
    have hnot := (hv.pick_none (c := .rt) (by simp)).mp hnone q hq hrt
    rw [eligible_rt hrt, hel] at hnot
    cases hnot
  rcases hv.pick_some hc with ⟨rfl, -⟩ | ⟨-, -, hcls, -⟩
  · exact absurd hrank (by decide)
  · rw [htasks, hrts]
    cases c with
    | stop => exact Or.inl hcls
    | rt =>
      obtain ⟨-, helig, -⟩ := hv.rt.pick_some hc
      obtain ⟨-, hprio, hfirst⟩ := hv.rt.descendRt_first (pickNextTaskRt_descend hc)
      refine Or.inr ⟨hcls, helig, ?_, fun se hse => hfirst se hse List.nil_suffix⟩
      rw [hprio]
      exact hv.rt.highest_le ⟨hq, hrt⟩ hel [] List.nil_suffix
    | wrr => exact absurd hrank (by decide)
    | fair => exact absurd hrank (by decide)
    | idle => exact absurd hrank (by decide)

/-- Three `SCHED_FIFO` tasks: the most urgent one in a group, two in the root group. -/
def urgentOps : List Op :=
  [.fork true, .fork true, .fork true, .schedMoveTask 1 [3], .setscheduler 1 (request 1#32 60),
    .setscheduler 2 (request 1#32 50), .setscheduler 3 (request 1#32 40), .wakeUpNewTask 3,
    .wakeUpNewTask 2, .wakeUpNewTask 1]

theorem rt_runs_highest_group : ∃ s t, Reachable (step fifoKernel) (boot fifoKernel) s ∧
    step fifoKernel s (.schedule ⟨false, false, none⟩) = some t ∧ t.curr = 1 ∧
    2 ∈ t.queued ∧ (t.tasks 1).prio ≤ (t.tasks 2).prio ∧ FirstInList t.tasks t.rt (.group [3]) := by
  have hrun : (run (step fifoKernel) (boot fifoKernel) urgentOps).any (fun s =>
      (step fifoKernel s (.schedule ⟨false, false, none⟩)).any fun t =>
        t.curr = 1 ∧ 2 ∈ t.queued ∧ (t.tasks 2).schedClass = .rt ∧
        rtEligible t.tasks t.rt 2 = true ∧ (t.tasks 1).schedClass ≠ .stop ∧
        (t.tasks 1).schedTaskGroup = [3]) = true := by decide +kernel
  obtain ⟨s, hs, hnext⟩ := (Option.any_eq_true _ _).mp hrun
  obtain ⟨t, ht, hcond⟩ := (Option.any_eq_true _ _).mp hnext
  obtain ⟨hcurr, hq, hrt, hel, hstop, hgroup⟩ := of_decide_eq_true hcond
  have hreach := run_reachable hs
  rcases rt_runs_highest hreach rfl ht hq hrt hel with h | ⟨-, -, hprio, hfirst⟩
  · rw [hcurr] at h
    exact absurd h hstop
  · rw [hcurr] at hprio hfirst
    refine ⟨s, t, hreach, ht, hcurr, hq, hprio, hfirst _ ?_⟩
    rw [forEachSchedRtEntity, hgroup]
    simp [groupStack]

end LinuxKernel.Sched

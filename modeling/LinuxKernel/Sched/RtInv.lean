import LinuxKernel.Sched.Rt
import Mathlib.Data.List.Infix

/-!
# Android scheduler — the real-time run queues

The invariant of the tree of `rt_rq`s and its preservation by the queue
operations of `rt.c`.

An entity of a group is linked into the parent's array exactly while the group
has something to run and is not throttled (`attached`). While the operations
take a stack of groups apart and put it together again this fails for the
groups in hand, so the invariant `RtInv` carries a set `X` of groups that are
excepted. A run queue may only be written while its own entity is unlinked
(`Loose`), since the priority of that entity is read off the run queue.

## Results

* `RtInv.enqueueRtEntity_task` / `RtInv.dequeueRtEntity_task` — queueing and
  unqueueing a task.
* `RtInv.restack` — taking a stack of groups apart and building it up again
  restores `attached` for all of them.
* `RtInv.updateCurrRt`, `RtInv.doSchedRtPeriodTimer` — throttling.
* `RtInv.pick_none` / `RtInv.pick_some` — the class picks a task iff one is
  queued below no throttled run queue, and picks such a task.
-/

namespace LinuxKernel.Sched

open LinuxKernel.Lib PrioArray

/-! ## One run queue -/

@[simp] theorem incRtTasks_active (r : RtRq) (prio : Nat) (b : Bool) :
    (incRtTasks r prio b).active = r.active := by
  unfold incRtTasks incRtGroup incRtPrio; split <;> split <;> rfl

@[simp] theorem incRtTasks_rtNrRunning (r : RtRq) (prio : Nat) (b : Bool) :
    (incRtTasks r prio b).rtNrRunning = r.rtNrRunning + 1 := by
  unfold incRtTasks incRtGroup incRtPrio; split <;> split <;> rfl

@[simp] theorem incRtTasks_highestPrio (r : RtRq) (prio : Nat) (b : Bool) :
    (incRtTasks r prio b).highestPrio = min prio r.highestPrio := by
  unfold incRtTasks incRtGroup incRtPrio
  split <;> split <;> simp_all <;> omega

@[simp] theorem incRtTasks_rtThrottled (r : RtRq) (prio : Nat) (b : Bool) :
    (incRtTasks r prio b).rtThrottled = r.rtThrottled := by
  unfold incRtTasks incRtGroup incRtPrio; split <;> split <;> rfl

@[simp] theorem decRtTasks_active (r : RtRq) (prio : Nat) (b : Bool) :
    (decRtTasks r prio b).active = r.active := by
  unfold decRtTasks decRtGroup decRtPrio; split <;> split <;> (try split) <;> rfl

@[simp] theorem decRtTasks_rtNrRunning (r : RtRq) (prio : Nat) (b : Bool) :
    (decRtTasks r prio b).rtNrRunning = usub 32 r.rtNrRunning 1 := by
  unfold decRtTasks decRtGroup decRtPrio; split <;> split <;> (try split) <;> rfl

@[simp] theorem decRtTasks_highestPrio (r : RtRq) (prio : Nat) (b : Bool) :
    (decRtTasks r prio b).highestPrio =
      if usub 32 r.rtNrRunning 1 ≠ 0 then
        if prio = r.highestPrio then findFirstBit maxRtPrio r.active else r.highestPrio
      else maxRtPrio := by
  unfold decRtTasks decRtGroup decRtPrio
  split <;> split <;> (try split) <;> simp_all

@[simp] theorem decRtTasks_rtThrottled (r : RtRq) (prio : Nat) (b : Bool) :
    (decRtTasks r prio b).rtThrottled = r.rtThrottled := by
  unfold decRtTasks decRtGroup decRtPrio; split <;> split <;> (try split) <;> rfl

/-- The run queue `r` of group `g`: its array is well formed and holds, besides
tasks, only child groups; the two derived fields are what they should be; a
non-empty run queue is at most `D` groups deep. -/
structure RtRqInv (D : Nat) (lvl : RtSe → Nat) (g : TaskGroup) (r : RtRq) : Prop where
  wf        : r.active.WF maxRtPrio lvl
  group_mem : ∀ {h}, Mem (.group h) r.active → ∃ n, h = n :: g
  nr        : r.rtNrRunning = r.active.size maxRtPrio
  highest   : r.highestPrio = findFirstBit maxRtPrio r.active
  depth     : r.rtNrRunning ≠ 0 → g.length ≤ D

namespace RtRqInv

variable {D : Nat} {lvl lvl' : RtSe → Nat} {g : TaskGroup} {r : RtRq} {se : RtSe}

/-- Only the levels of queued entities matter. -/
theorem congr (h : RtRqInv D lvl g r) (hl : ∀ se, Mem se r.active → lvl' se = lvl se) :
    RtRqInv D lvl' g r where
  wf := h.wf.congr hl
  group_mem := h.group_mem
  nr := h.nr
  highest := h.highest
  depth := h.depth

/-- Only the array, the count and the best priority matter. -/
theorem of_eq {r' : RtRq} (h : RtRqInv D lvl g r) (ha : r'.active = r.active)
    (hnr : r'.rtNrRunning = r.rtNrRunning) (hhi : r'.highestPrio = r.highestPrio) :
    RtRqInv D lvl g r' where
  wf := ha ▸ h.wf
  group_mem := ha ▸ h.group_mem
  nr := by rw [hnr, ha, h.nr]
  highest := by rw [hhi, ha, h.highest]
  depth := hnr ▸ h.depth

/-- The count says whether anything is queued. -/
theorem nr_ne_zero (h : RtRqInv D lvl g r) : r.rtNrRunning ≠ 0 ↔ ∃ se, Mem se r.active := by
  rw [h.nr]
  exact h.wf.size_pos_iff

/-- With something queued the highest priority is a real-time one. -/
theorem highest_lt (h : RtRqInv D lvl g r) (hnr : r.rtNrRunning ≠ 0) :
    r.highestPrio < maxRtPrio := by
  obtain ⟨se, hse⟩ := h.nr_ne_zero.mp hnr
  rw [h.highest]
  exact lt_of_le_of_lt (h.wf.findFirstBit_le_lvl hse) (h.wf.lvl_lt_of_mem hse)

/-- `__enqueue_rt_entity`, seen from the run queue. -/
theorem enqueue (h : RtRqInv D lvl g r) (hse : ¬ Mem se r.active) (hlt : lvl se < maxRtPrio)
    (hg : ∀ k, se = .group k → ∃ n, k = n :: g) (hD : g.length ≤ D) (head b : Bool) :
    RtRqInv D lvl g
      (incRtTasks { r with active := r.active.add (lvl se) se head } (lvl se) b) where
  wf := by
    rw [incRtTasks_active]
    exact h.wf.add hse rfl hlt
  group_mem {k} hk := by
    rw [incRtTasks_active, mem_add] at hk
    rcases hk with hk | hk
    · exact hg k hk.symm
    · exact h.group_mem hk
  nr := by rw [incRtTasks_rtNrRunning, incRtTasks_active, size_add hlt, ← h.nr]
  highest := by rw [incRtTasks_highestPrio, incRtTasks_active, findFirstBit_add hlt, ← h.highest]
  depth _ := hD

/-- `__dequeue_rt_entity`, seen from the run queue: the next best priority is found again. -/
theorem dequeue (h : RtRqInv D lvl g r) (hse : Mem se r.active) (b : Bool) :
    RtRqInv D lvl g
      (decRtTasks { r with active := r.active.del (lvl se) se } (lvl se) b) := by
  have hwf := h.wf.del (x := se) rfl
  have hsize := h.wf.size_del rfl hse
  have hnr : usub 32 r.rtNrRunning 1 = (r.active.del (lvl se) se).size maxRtPrio := by
    rw [usub_of_le (by rw [h.nr]; omega), h.nr]
    omega
  refine ⟨?_, ?_, ?_, ?_, ?_⟩
  · rwa [decRtTasks_active]
  · intro k hk
    rw [decRtTasks_active, h.wf.mem_del] at hk
    exact h.group_mem hk.2
  · rwa [decRtTasks_rtNrRunning, decRtTasks_active]
  · rw [decRtTasks_highestPrio, decRtTasks_active, hnr]
    split
    · split
      · rfl
      · -- not the highest one: the first set bit stays where it was
        next hne =>
        rw [h.highest] at hne ⊢
        exact (findFirstBit_del hne).symm
    · next h0 =>
      rw [not_not] at h0
      refine (hwf.findFirstBit_of_empty fun x hx => ?_).symm
      exact hwf.size_pos_iff.mpr ⟨x, hx⟩ h0
  · intro h0
    exact h.depth (h.nr_ne_zero.mpr ⟨se, hse⟩)

/-- An entity goes to the end of its list. -/
theorem move (h : RtRqInv D lvl g r) (hse : Mem se r.active) (head : Bool) :
    RtRqInv D lvl g { r with active := r.active.move (lvl se) se head } where
  wf := h.wf.move rfl hse
  group_mem {k} hk := h.group_mem ((h.wf.mem_move rfl hse).mp hk)
  nr := by
    show r.rtNrRunning = _
    rw [h.wf.size_move rfl hse, h.nr]
  highest := h.highest
  depth := h.depth

end RtRqInv

/-- The empty run queue. -/
theorem RtRqInv.initRtRq (D : Nat) (lvl : RtSe → Nat) (g : TaskGroup) :
    RtRqInv D lvl g initRtRq where
  wf := WF.empty
  group_mem {k} hk := by
    obtain ⟨i, hi⟩ := hk
    cases hi
  nr := by simp [Sched.initRtRq, PrioArray.size, PrioArray.empty]
  highest := by
    have hwf : (PrioArray.empty : PrioArray RtSe).WF maxRtPrio lvl := WF.empty
    refine (hwf.findFirstBit_of_empty fun x hx => ?_).symm
    obtain ⟨i, hi⟩ := hx
    cases hi
  depth h := absurd rfl h

/-! ## The tree of run queues -/

/-- The invariant of all real-time run queues. `T` are the tasks that should be
queued, `X` the groups whose entity need not be where it belongs. -/
structure RtInv (D : Nat) (T : Pid → Prop) (X : TaskGroup → Prop)
    (tasks : Pid → Task) (rt : RtRqs) : Prop where
  rq       : ∀ g, RtRqInv D (rtSePrio tasks rt) g (rt g)
  task_mem : ∀ {g p}, Mem (.task p) (rt g).active ↔ T p ∧ (tasks p).schedTaskGroup = g
  attached : ∀ {n g}, ¬ X (n :: g) →
    (Mem (.group (n :: g)) (rt g).active ↔ skipGroup rt (.group (n :: g)) = false)

/-- The entity of `g` is out of its parent's array and excepted, so that the run
queue of `g` may be written. -/
def Loose (rt : RtRqs) (X : TaskGroup → Prop) (g : TaskGroup) : Prop :=
  ∀ n h, g = n :: h → X g ∧ ¬ Mem (.group g) (rt h).active

/-- The root group has no entity. -/
theorem Loose.nil (rt : RtRqs) (X : TaskGroup → Prop) : Loose rt X [] := by
  intro n h hg
  cases hg

namespace RtInv

variable {D : Nat} {T T' : Pid → Prop} {X X' : TaskGroup → Prop} {tasks tasks' : Pid → Task}
  {rt : RtRqs} {g : TaskGroup} {r : RtRq} {p : Pid} {se : RtSe}

/-- **Write rule.** Writing one run queue keeps the invariant if its entity is
loose and the new run queue is what `T'` and `X'` ask for. -/
theorem update (h : RtInv D T X tasks rt) (hloose : Loose rt X g)
    (hr : RtRqInv D (rtSePrio tasks rt) g r)
    (htask : ∀ p, Mem (.task p) r.active ↔ T' p ∧ (tasks p).schedTaskGroup = g)
    (hT : ∀ p, (tasks p).schedTaskGroup ≠ g → (T' p ↔ T p))
    (hgroup : ∀ n, ¬ X' (n :: g) →
      (Mem (.group (n :: g)) r.active ↔ skipGroup rt (.group (n :: g)) = false))
    (hX : ∀ n g', g' ≠ g → ¬ X' (n :: g') → ¬ X (n :: g')) :
    RtInv D T' X' tasks (Function.update rt g r) := by
  -- the new contents of g show in the priority of g's entity only, which no
  -- array holds
  have hlvl : ∀ g' se, Mem se (Function.update rt g r g').active → se ≠ .group g := by
    rintro g' se hse rfl
    by_cases hg : g' = g
    · subst hg
      rw [Function.update_self] at hse
      obtain ⟨n, hn⟩ := hr.group_mem hse
      have := congrArg List.length hn
      simp at this
    · rw [Function.update_of_ne hg] at hse
      obtain ⟨n, hn⟩ := (h.rq g').group_mem hse
      exact (hloose n g' hn).2 hse
  have hprio : ∀ se, se ≠ .group g →
      rtSePrio tasks (Function.update rt g r) se = rtSePrio tasks rt se := by
    intro se hse
    cases se with
    | task p => rfl
    | group k =>
      have hk : k ≠ g := fun hk => hse (by rw [hk])
      simp [rtSePrio, hk]
  refine ⟨fun g' => ?_, fun {g' p} => ?_, fun {n g'} hn => ?_⟩
  · by_cases hg : g' = g
    · subst hg
      have hmem := hlvl g'
      rw [Function.update_self] at hmem ⊢
      exact hr.congr fun se hse => hprio se (hmem se hse)
    · have hmem := hlvl g'
      rw [Function.update_of_ne hg] at hmem ⊢
      exact (h.rq g').congr fun se hse => hprio se (hmem se hse)
  · by_cases hg : g' = g
    · subst hg
      rw [Function.update_self]
      exact htask p
    · rw [Function.update_of_ne hg, h.task_mem]
      refine and_congr_left fun hp => ?_
      exact (hT p (by rw [hp]; exact hg)).symm
  · by_cases hg : g' = g
    · subst hg
      have hne : n :: g' ≠ g' := by simp
      rw [Function.update_self, hgroup n hn]
      simp [skipGroup, hne]
    · have hXn := hX n g' hg hn
      have hne : n :: g' ≠ g := by
        rintro rfl
        exact hXn (hloose n g' rfl).1
      rw [Function.update_of_ne hg, h.attached hXn]
      simp [skipGroup, hne]

/-- Only the priorities and groups of queued tasks matter. -/
theorem congr_tasks (h : RtInv D T X tasks rt) (hT : ∀ p, T' p ↔ T p)
    (ht : ∀ p, T p → (tasks' p).prio = (tasks p).prio ∧
      (tasks' p).schedTaskGroup = (tasks p).schedTaskGroup) :
    RtInv D T' X tasks' rt where
  rq g := (h.rq g).congr fun se hse => by
    cases se with
    | task p => exact (ht p (h.task_mem.mp hse).1).1
    | group k => rfl
  task_mem {g p} := by
    rw [h.task_mem, hT]
    refine and_congr_right fun hp => ?_
    rw [(ht p hp).2]
  attached := h.attached

/-- More groups may be excepted. -/
theorem mono (h : RtInv D T X tasks rt) (hX : ∀ n g, X (n :: g) → X' (n :: g)) :
    RtInv D T X' tasks rt where
  rq := h.rq
  task_mem := h.task_mem
  attached hn := h.attached fun hx => hn (hX _ _ hx)

/-- The entity of an empty group is in no array: it has no real-time priority. -/
theorem nr_ne_zero_of_mem {k : TaskGroup} (h : RtInv D T X tasks rt)
    (hk : Mem (.group k) (rt g).active) : (rt k).rtNrRunning ≠ 0 := by
  intro h0
  have hlt := (h.rq g).wf.lvl_lt_of_mem hk
  have hempty : ∀ se, ¬ Mem se (rt k).active := by
    intro se hse
    exact (h.rq k).nr_ne_zero.mpr ⟨se, hse⟩ h0
  have hmax := (h.rq k).wf.findFirstBit_of_empty hempty
  rw [← (h.rq k).highest] at hmax
  simp only [rtSePrio, hmax] at hlt
  omega

/-- **Overwrite rule.** A run queue may be written at any time if its members,
their number and the highest priority stay. If it gets throttled or
unthrottled, its entity becomes excepted. -/
theorem overwrite (h : RtInv D T X tasks rt) (hr : RtRqInv D (rtSePrio tasks rt) g r)
    (hmem : ∀ x, Mem x r.active ↔ Mem x (rt g).active)
    (hnr : r.rtNrRunning = (rt g).rtNrRunning) (hhi : r.highestPrio = (rt g).highestPrio)
    (hX : ∀ k, X k → X' k) (hg : rtRqThrottled r = rtRqThrottled (rt g) ∨ X' g) :
    RtInv D T X' tasks (Function.update rt g r) := by
  have hprio : ∀ se, rtSePrio tasks (Function.update rt g r) se = rtSePrio tasks rt se := by
    intro se
    cases se with
    | task p => rfl
    | group k => by_cases hk : k = g <;> simp [rtSePrio, hk, hhi]
  have hact : ∀ g' x, Mem x (Function.update rt g r g').active ↔ Mem x (rt g').active := by
    intro g' x
    by_cases hk : g' = g
    · subst hk
      rw [Function.update_self]
      exact hmem x
    · rw [Function.update_of_ne hk]
  refine ⟨fun g' => ?_, fun {g' p} => ?_, fun {n g'} hn => ?_⟩
  · by_cases hk : g' = g
    · subst hk
      rw [Function.update_self]
      exact hr.congr fun se _ => hprio se
    · rw [Function.update_of_ne hk]
      exact (h.rq g').congr fun se _ => hprio se
  · rw [hact, h.task_mem]
  · have hskip : skipGroup (Function.update rt g r) (.group (n :: g')) =
        skipGroup rt (.group (n :: g')) := by
      by_cases hk : n :: g' = g
      · subst hk
        rcases hg with hg | hg
        · simp [skipGroup, hg, hnr]
        · exact absurd hg hn
      · simp [skipGroup, hk]
    rw [hact, hskip]
    exact h.attached fun hx => hn (hX _ hx)

/-- `on_rt_rq` tells whether the entity is queued. -/
theorem onRtRq_iff (h : RtInv D T X tasks rt) (se : RtSe) :
    onRtRq tasks rt se = true ↔ Mem se (rt (rtRqOfSe tasks se)).active := by
  simp only [onRtRq, List.any_eq_true, List.mem_range, List.contains_iff_mem]
  constructor
  · rintro ⟨i, -, hi⟩
    exact ⟨i, hi⟩
  · rintro ⟨i, hi⟩
    exact ⟨i, (h.rq _).wf.lvl_lt hi, hi⟩

/-! ## Single entities -/

/-- A task is enqueued while the groups above it are out. -/
theorem enqueueRaw_task (h : RtInv D T X tasks rt) (hp : ¬ T p)
    (hprio : (tasks p).prio < maxRtPrio) (hD : (tasks p).schedTaskGroup.length ≤ D)
    (hloose : Loose rt X (tasks p).schedTaskGroup) (head : Bool) :
    RtInv D (fun q => T q ∨ q = p) X tasks (enqueueRtEntityRaw tasks head rt (.task p)) := by
  have hmem : ¬ Mem (.task p) (rt (tasks p).schedTaskGroup).active :=
    fun hm => hp (h.task_mem.mp hm).1
  have hskip : skipGroup rt (.task p) = false := rfl
  rw [enqueueRtEntityRaw, if_neg (by simp [hskip])]
  refine h.update hloose ((h.rq _).enqueue hmem hprio (fun k hk => by cases hk) hD head _)
    ?_ ?_ ?_ fun _ _ _ hn => hn
  · intro q
    simp only [incRtTasks_active, mem_add, rtRqOfSe, h.task_mem, RtSe.task.injEq]
    constructor
    · rintro (rfl | ⟨hq, hg⟩)
      · exact ⟨Or.inr rfl, rfl⟩
      · exact ⟨Or.inl hq, hg⟩
    · rintro ⟨hq | rfl, hg⟩
      · exact Or.inr ⟨hq, hg⟩
      · exact Or.inl rfl
  · intro q hq
    have hne : q ≠ p := fun hqp => hq (by rw [hqp]; rfl)
    simp [hne]
  · intro n hn
    simp only [incRtTasks_active, mem_add, reduceCtorEq, false_or]
    exact h.attached hn

/-- A task is dequeued while the groups above it are out. -/
theorem dequeueRaw_task (h : RtInv D T X tasks rt) (hp : T p)
    (hloose : Loose rt X (tasks p).schedTaskGroup) :
    RtInv D (fun q => T q ∧ q ≠ p) X tasks (dequeueRtEntityRaw tasks rt (.task p)) := by
  have hmem : Mem (.task p) (rt (tasks p).schedTaskGroup).active := h.task_mem.mpr ⟨hp, rfl⟩
  rw [dequeueRtEntityRaw]
  refine h.update hloose ((h.rq _).dequeue hmem _) ?_ ?_ ?_ fun _ _ _ hn => hn
  · intro q
    simp only [decRtTasks_active, rtRqOfSe, (h.rq _).wf.mem_del, h.task_mem, ne_eq,
      RtSe.task.injEq]
    tauto
  · intro q hq
    have hne : q ≠ p := fun hqp => hq (by rw [hqp]; rfl)
    simp [hne]
  · intro n hn
    simp only [decRtTasks_active, rtRqOfSe, (h.rq _).wf.mem_del, ne_eq, reduceCtorEq,
      not_false_eq_true, true_and]
    exact h.attached hn

/-- A group is taken out: it is excepted now. -/
theorem dequeueRaw_group {n : Nat} (h : RtInv D T X tasks rt)
    (hmem : Mem (.group (n :: g)) (rt g).active) (hloose : Loose rt X g) :
    RtInv D T (fun k => X k ∨ k = n :: g) tasks
      (dequeueRtEntityRaw tasks rt (.group (n :: g))) := by
  rw [dequeueRtEntityRaw]
  refine h.update hloose ((h.rq _).dequeue hmem _) ?_ (fun _ _ => Iff.rfl) ?_ ?_
  · intro q
    simp only [decRtTasks_active, rtRqOfSe, List.tail_cons, (h.rq _).wf.mem_del, h.task_mem,
      ne_eq, reduceCtorEq, not_false_eq_true, true_and]
  · intro m (hm : ¬ (X (m :: g) ∨ m :: g = n :: g))
    rw [not_or] at hm
    have hne : RtSe.group (m :: g) ≠ .group (n :: g) := fun he => hm.2 (RtSe.group.inj he)
    simp only [decRtTasks_active, rtRqOfSe, List.tail_cons, (h.rq _).wf.mem_del]
    rw [← h.attached hm.1]
    exact and_iff_right hne
  · intro m g' _ hm
    exact fun hx => hm (Or.inl hx)

/-- A group is put back. -/
theorem enqueueRaw_group {n : Nat} (h : RtInv D T X tasks rt)
    (hmem : ¬ Mem (.group (n :: g)) (rt g).active) (hloose : Loose rt X g) (head : Bool) :
    RtInv D T (fun k => X k ∧ k ≠ n :: g) tasks
      (enqueueRtEntityRaw tasks head rt (.group (n :: g))) := by
  rw [enqueueRtEntityRaw]
  by_cases hskip : skipGroup rt (.group (n :: g)) = true
  · -- throttled or empty: the entity stays out, where it belongs
    rw [if_pos hskip]
    refine ⟨h.rq, h.task_mem, fun {m g'} hm => ?_⟩
    by_cases he : m :: g' = n :: g
    · obtain ⟨rfl, rfl⟩ := List.cons.inj he
      simp [hmem, hskip]
    · exact h.attached fun hx => hm ⟨hx, he⟩
  · rw [if_neg hskip]
    have hnr : (rt (n :: g)).rtNrRunning ≠ 0 := by
      simp only [skipGroup, Bool.or_eq_true, not_or, beq_iff_eq] at hskip
      exact hskip.2
    have hlt := (h.rq (n :: g)).highest_lt hnr
    have hD : g.length ≤ D := by
      have := (h.rq (n :: g)).depth hnr
      rw [List.length_cons] at this
      omega
    refine h.update hloose ((h.rq _).enqueue hmem hlt (fun k hk => ⟨n, RtSe.group.inj hk.symm⟩)
      hD head _) ?_ (fun _ _ => Iff.rfl) ?_ ?_
    · intro q
      simp only [incRtTasks_active, rtRqOfSe, List.tail_cons, mem_add, h.task_mem, reduceCtorEq,
        false_or]
    · intro m (hm : ¬ (X (m :: g) ∧ m :: g ≠ n :: g))
      simp only [incRtTasks_active, rtRqOfSe, List.tail_cons, mem_add, RtSe.group.injEq]
      by_cases he : m :: g = n :: g
      · rw [he]
        simpa using hskip
      · rw [← h.attached fun hx => hm ⟨hx, he⟩]
        exact or_iff_right he
    · intro m g' hg' hm hx
      refine hm ⟨hx, fun he => hg' (List.cons.inj he).2⟩

/-! ## Stacks of groups -/

/-- Only one run queue is written to. -/
theorem enqueueRtEntityRaw_of_ne {k : TaskGroup} (head : Bool) (hk : k ≠ rtRqOfSe tasks se) :
    enqueueRtEntityRaw tasks head rt se k = rt k := by
  unfold enqueueRtEntityRaw
  split
  · rfl
  · exact Function.update_of_ne hk _ _

/-- Only one run queue is written to. -/
theorem dequeueRtEntityRaw_of_ne {k : TaskGroup} (hk : k ≠ rtRqOfSe tasks se) :
    dequeueRtEntityRaw tasks rt se k = rt k :=
  Function.update_of_ne hk _ _

/-- No group of the stack above g is in its parent's array. -/
def Detached (rt : RtRqs) (g : TaskGroup) : Prop :=
  ∀ n k, n :: k <:+ g → ¬ Mem (.group (n :: k)) (rt k).active

theorem ne_of_cons_suffix {n : Nat} {k g : TaskGroup} (h : n :: k <:+ g) : k ≠ g := by
  rintro rfl
  have := h.length_le
  simp at this

/-- Writing the run queue of `g` itself leaves the groups above it detached. -/
theorem Detached.of_eq {rt' : RtRqs} (h : Detached rt g) (heq : ∀ k, k ≠ g → rt' k = rt k) :
    Detached rt' g := by
  intro n k hk
  rw [heq k (ne_of_cons_suffix hk)]
  exact h n k hk

theorem Detached.loose (h : Detached rt g) (hX : ∀ k, k <:+ g → X k) : Loose rt X g := by
  rintro n k rfl
  exact ⟨hX _ List.suffix_rfl, h n k List.suffix_rfl⟩

/-- The way down: afterwards all groups of the stack are out of the arrays. -/
theorem stack_down (h : RtInv D T X tasks rt) (g : TaskGroup) :
    RtInv D T (fun k => X k ∨ k <:+ g) tasks
        ((groupStack g).foldr
          (fun e rt => if onRtRq tasks rt e then dequeueRtEntityRaw tasks rt e else rt) rt) ∧
      Detached ((groupStack g).foldr
        (fun e rt => if onRtRq tasks rt e then dequeueRtEntityRaw tasks rt e else rt) rt) g := by
  induction g with
  | nil =>
    refine ⟨h.mono fun n g hx => Or.inl hx, fun n k hk => ?_⟩
    exact absurd (List.suffix_nil.mp hk) (by simp)
  | cons n g ih =>
    obtain ⟨hinv, hdet⟩ := ih
    rw [groupStack, List.foldr_cons]
    -- the ancestors are off already; the group's own entity goes now
    have hloose := hdet.loose (X := fun k => X k ∨ k <:+ g) fun k hk => Or.inr hk
    split
    · next hon =>
      rw [hinv.onRtRq_iff] at hon
      have hnew := hinv.dequeueRaw_group hon hloose
      refine ⟨hnew.mono fun m k hx => ?_, fun m k hk => ?_⟩
      · rcases hx with (hx | hx) | hx
        · exact Or.inl hx
        · exact Or.inr (List.suffix_cons_iff.mpr (Or.inr hx))
        · exact Or.inr (List.suffix_cons_iff.mpr (Or.inl hx))
      · rcases List.suffix_cons_iff.mp hk with he | hk
        · -- the entity just removed
          obtain ⟨rfl, rfl⟩ := List.cons.inj he
          rw [dequeueRtEntityRaw]
          simp only [rtRqOfSe, List.tail_cons, Function.update_self, decRtTasks_active,
            (hinv.rq _).wf.mem_del]
          exact fun hm => hm.1 rfl
        · rw [dequeueRtEntityRaw_of_ne (by exact ne_of_cons_suffix hk)]
          exact hdet m k hk
    · next hoff =>
      rw [hinv.onRtRq_iff] at hoff
      refine ⟨hinv.mono fun m k hx => ?_, fun m k hk => ?_⟩
      · rcases hx with hx | hx
        · exact Or.inl hx
        · exact Or.inr (List.suffix_cons_iff.mpr (Or.inr hx))
      · rcases List.suffix_cons_iff.mp hk with he | hk
        · obtain ⟨rfl, rfl⟩ := List.cons.inj he
          exact hoff
        · exact hdet m k hk

/-- The way up: every group of a detached stack gets where it belongs. -/
theorem stack_up (h : RtInv D T X tasks rt) (hdet : Detached rt g)
    (hX : ∀ k, k <:+ g → X k) (head : Bool) :
    RtInv D T (fun k => X k ∧ ¬ k <:+ g) tasks
      ((groupStack g).foldl (enqueueRtEntityRaw tasks head) rt) := by
  induction g generalizing X rt with
  | nil =>
    refine h.mono fun n k hx => ⟨hx, fun hk => ?_⟩
    exact absurd (List.suffix_nil.mp hk) (by simp)
  | cons n g ih =>
    rw [groupStack, List.foldl_cons]
    have hsuf : ∀ {k}, k <:+ g → k <:+ n :: g :=
      fun hk => List.suffix_cons_iff.mpr (Or.inr hk)
    have hdet' : Detached rt g := fun m k hk => hdet m k (hsuf hk)
    have hloose := hdet'.loose fun k hk => hX k (hsuf hk)
    have hnew := h.enqueueRaw_group (hdet n g List.suffix_rfl) hloose head
    have hrest := ih hnew (hdet'.of_eq fun k hk => enqueueRtEntityRaw_of_ne head (by exact hk))
      fun k hk => ⟨hX k (hsuf hk), fun he => ne_of_cons_suffix (he ▸ hk) rfl⟩
    refine hrest.mono fun m k hx => ⟨hx.1.1, fun hk => ?_⟩
    rcases List.suffix_cons_iff.mp hk with he | hk
    · exact hx.1.2 he
    · exact hx.2 hk

end RtInv

/-- On group entities, the two ways of putting them back are the same. -/
theorem foldl_reenqueueGroup (tasks : Pid → Task) (g : TaskGroup) (rt : RtRqs) :
    (groupStack g).foldl (reenqueueGroup tasks) rt =
      (groupStack g).foldl (enqueueRtEntityRaw tasks false) rt := by
  induction g generalizing rt with
  | nil => rfl
  | cons n g ih =>
    have hone : reenqueueGroup tasks rt (.group (n :: g)) =
        enqueueRtEntityRaw tasks false rt (.group (n :: g)) := by
      by_cases h0 : (rt (n :: g)).rtNrRunning = 0
      · simp [reenqueueGroup, enqueueRtEntityRaw, skipGroup, h0]
      · simp [reenqueueGroup, h0]
    rw [groupStack, List.foldl_cons, List.foldl_cons, hone, ih]

/-! ## Tasks and groups -/

/-- No group is excepted. -/
def noGroup : TaskGroup → Prop := fun _ => False

namespace RtInv

variable {D : Nat} {T : Pid → Prop} {X : TaskGroup → Prop} {tasks : Pid → Task} {rt : RtRqs}
  {g : TaskGroup} {p : Pid}

/-- **Queueing a task.** -/
theorem enqueueRtEntity_task (h : RtInv D T noGroup tasks rt) (hp : ¬ T p)
    (hprio : (tasks p).prio < maxRtPrio) (hD : (tasks p).schedTaskGroup.length ≤ D)
    (head : Bool) :
    RtInv D (fun q => T q ∨ q = p) noGroup tasks
      (enqueueRtEntity tasks rt (.task p) head) := by
  obtain ⟨hdown, hdet⟩ := h.stack_down (tasks p).schedTaskGroup
  rw [enqueueRtEntity, dequeueRtStack, forEachSchedRtEntity, List.foldr_cons, List.foldl_cons]
  have hoff : ¬ onRtRq tasks _ (.task p) = true := fun hon =>
    hp (hdown.task_mem.mp ((hdown.onRtRq_iff _).mp hon)).1
  rw [if_neg hoff]
  have hloose := hdet.loose (X := fun k => noGroup k ∨ k <:+ (tasks p).schedTaskGroup)
    fun k hk => Or.inr hk
  have htask := hdown.enqueueRaw_task hp hprio hD hloose head
  have hup := htask.stack_up (hdet.of_eq fun k hk => enqueueRtEntityRaw_of_ne head (by exact hk))
    (fun k hk => Or.inr hk) head
  refine hup.mono fun n k hx => ?_
  rcases hx with ⟨hx | hx, hn⟩
  · exact hx
  · exact absurd hx hn

/-- **Unqueueing a task.** -/
theorem dequeueRtEntity_task (h : RtInv D T noGroup tasks rt) (hp : T p) :
    RtInv D (fun q => T q ∧ q ≠ p) noGroup tasks (dequeueRtEntity tasks rt (.task p)) := by
  obtain ⟨hdown, hdet⟩ := h.stack_down (tasks p).schedTaskGroup
  rw [dequeueRtEntity, dequeueRtStack, forEachSchedRtEntity, List.foldr_cons, List.foldl_cons]
  have hon : onRtRq tasks _ (.task p) = true :=
    (hdown.onRtRq_iff _).mpr (hdown.task_mem.mpr ⟨hp, rfl⟩)
  rw [if_pos hon, reenqueueGroup, foldl_reenqueueGroup]
  have hloose := hdet.loose (X := fun k => noGroup k ∨ k <:+ (tasks p).schedTaskGroup)
    fun k hk => Or.inr hk
  have htask := hdown.dequeueRaw_task hp hloose
  have hup := htask.stack_up (hdet.of_eq fun k hk => dequeueRtEntityRaw_of_ne (by exact hk))
    (fun k hk => Or.inr hk) false
  refine hup.mono fun n k hx => ?_
  rcases hx with ⟨hx | hx, hn⟩
  · exact hx
  · exact absurd hx hn

/-- **Restacking.** Taking the stack of `g` apart and putting it together brings
every group of it, excepted or not, where it belongs. -/
theorem restack (h : RtInv D T X tasks rt) (hX : ∀ k, X k → k = g) (head : Bool) :
    RtInv D T noGroup tasks ((groupStack g).foldl (enqueueRtEntityRaw tasks head)
      (dequeueRtStack tasks rt (.group g))) := by
  obtain ⟨hdown, hdet⟩ := h.stack_down g
  have hup := hdown.stack_up hdet (fun k hk => Or.inr hk) head
  refine hup.mono fun n k hx => ?_
  rcases hx with ⟨hx | hx, hn⟩
  · exact hn (hX _ hx ▸ List.suffix_rfl)
  · exact hn hx

/-- `enqueue_rt_entity` of a group, the one that may be excepted. -/
theorem enqueueRtEntity_group (h : RtInv D T X tasks rt) (hX : ∀ k, X k → k = g)
    (head : Bool) : RtInv D T noGroup tasks (enqueueRtEntity tasks rt (.group g) head) :=
  h.restack hX head

/-- `dequeue_rt_entity` of a group. -/
theorem dequeueRtEntity_group (h : RtInv D T X tasks rt) (hX : ∀ k, X k → k = g) :
    RtInv D T noGroup tasks (dequeueRtEntity tasks rt (.group g)) := by
  rw [dequeueRtEntity, forEachSchedRtEntity, foldl_reenqueueGroup]
  exact h.restack hX false

theorem requeueRtEntity (h : RtInv D T noGroup tasks rt) (head : Bool) (se : RtSe) :
    RtInv D T noGroup tasks (requeueRtEntity tasks head rt se) := by
  unfold Sched.requeueRtEntity
  split
  · next hon =>
    rw [h.onRtRq_iff] at hon
    exact h.overwrite ((h.rq _).move hon head) (fun x => (h.rq _).wf.mem_move rfl hon)
      rfl rfl (fun _ hx => hx) (Or.inl rfl)
  · exact h

/-- A task goes to the end of its list, and its groups to the end of theirs. -/
theorem requeueTaskRt (h : RtInv D T noGroup tasks rt) (p : Pid) (head : Bool) :
    RtInv D T noGroup tasks (requeueTaskRt tasks rt p head) := by
  unfold Sched.requeueTaskRt
  induction forEachSchedRtEntity tasks (.task p) generalizing rt with
  | nil => exact h
  | cons se l ih => exact ih (h.requeueRtEntity head se)

end RtInv

/-! ## Throttling -/

section Throttling

variable {σ : Type} {k : Kernel σ} {s : State σ} {D : Nat} {T : Pid → Prop} {g : TaskGroup}

/-- A throttled group leaves its parent's array. -/
theorem RtInv.schedRtRqDequeue (h : RtInv D T (· = g) s.tasks s.rt)
    (hthr : rtRqThrottled (s.rt g) = true) :
    RtInv D T noGroup s.tasks (schedRtRqDequeue s g).rt := by
  unfold Sched.schedRtRqDequeue
  split
  · exact h.dequeueRtEntity_group fun _ hk => hk
  · next hoff =>
    refine ⟨h.rq, h.task_mem, fun {n g'} _ => ?_⟩
    by_cases he : n :: g' = g
    · subst he
      have hnot : ¬ onRtRq s.tasks s.rt (.group (n :: g')) = true := by simpa using hoff
      rw [h.onRtRq_iff] at hnot
      have hskip : skipGroup s.rt (.group (n :: g')) = true := by simp [skipGroup, hthr]
      rw [hskip]
      exact iff_of_false hnot (by simp)
    · exact h.attached he

/-- An unthrottled group comes back into its parent's array if it has anything
to run. -/
theorem RtInv.schedRtRqEnqueue (h : RtInv D T (· = g) s.tasks s.rt)
    (hthr : rtRqThrottled (s.rt g) = false) :
    RtInv D T noGroup s.tasks (schedRtRqEnqueue s g).rt := by
  -- where nothing is done, the entity of g already is where it belongs
  have hstay : (g ≠ [] → (onRtRq s.tasks s.rt (.group g) = true ↔ (s.rt g).rtNrRunning ≠ 0)) →
      RtInv D T noGroup s.tasks s.rt := by
    intro hg
    refine ⟨h.rq, h.task_mem, fun {n g'} _ => ?_⟩
    by_cases he : n :: g' = g
    · subst he
      have hmem := hg (by simp)
      rw [h.onRtRq_iff] at hmem
      refine hmem.trans ?_
      simp [skipGroup, hthr]
    · exact h.attached he
  unfold Sched.schedRtRqEnqueue
  split
  · next hnr =>
    by_cases hoff : g ≠ [] ∧ ¬ onRtRq s.tasks s.rt (.group g) = true
    · have hin := h.enqueueRtEntity_group (fun _ hk => hk) false
      simp only [if_pos hoff]
      split <;> exact hin
    · have hok : RtInv D T noGroup s.tasks s.rt := hstay fun hg => by
        simp only [hg, ne_eq, not_false_eq_true, true_and, not_not] at hoff
        exact iff_of_true hoff hnr
      simp only [if_neg hoff]
      split <;> exact hok
  · next hnr =>
    refine hstay fun hg => iff_of_false (fun hon => ?_) hnr
    obtain ⟨n, g', rfl⟩ := List.exists_cons_of_ne_nil hg
    exact hnr (h.nr_ne_zero_of_mem ((h.onRtRq_iff _).mp hon))

@[simp] theorem schedRtRqDequeue_toBase (s : State σ) (g : TaskGroup) :
    (schedRtRqDequeue s g).toBase = s.toBase := by
  unfold schedRtRqDequeue; split <;> rfl

@[simp] theorem schedRtRqEnqueue_toBase (s : State σ) (g : TaskGroup) :
    (schedRtRqEnqueue s g).toBase = s.toBase := by
  unfold schedRtRqEnqueue
  split
  · dsimp only
    split <;> split <;> rfl
  · rfl

@[simp] theorem schedRtRuntimeExceeded_toBase (k : Kernel σ) (s : State σ) (g : TaskGroup) :
    (schedRtRuntimeExceeded k s g).1.toBase = s.toBase := by
  unfold schedRtRuntimeExceeded
  split
  · rfl
  · split
    · rfl
    · split
      · rfl
      · split
        · have hset : ∀ u : State σ, u.toBase = s.toBase →
              (if rtRqThrottled (u.rt g) = true then (schedRtRqDequeue u g, true)
                else (u, false)).1.toBase = s.toBase := by
            intro u hu
            split <;> simp [hu]
          exact hset _ rfl
        · rfl

@[simp] theorem chargeRtRq_toBase (k : Kernel σ) (d : Nat) (s : State σ) (g : TaskGroup) :
    (chargeRtRq k d s g).toBase = s.toBase := by
  unfold chargeRtRq
  split
  · dsimp only
    split <;> simp
  · rfl

/-- Changing only the accumulated time of a run queue. -/
theorem RtInv.setRtTime (h : RtInv D T noGroup s.tasks s.rt) (g : TaskGroup) (t : Nat) :
    RtInv D T noGroup s.tasks (Function.update s.rt g { s.rt g with rtTime := t }) :=
  h.overwrite ((h.rq g).of_eq rfl rfl rfl) (fun _ => Iff.rfl) rfl rfl (fun _ hx => hx)
    (Or.inl rfl)

/-- Changing only the flag `rt_throttled`: the entity becomes excepted. -/
theorem RtInv.setRtThrottled (h : RtInv D T noGroup s.tasks s.rt) (g : TaskGroup) (b : Bool) :
    RtInv D T (· = g) s.tasks (Function.update s.rt g { s.rt g with rtThrottled := b }) :=
  h.overwrite ((h.rq g).of_eq rfl rfl rfl) (fun _ => Iff.rfl) rfl rfl
    (fun _ hx => False.elim hx) (Or.inr rfl)

/-- A group that is throttled is taken out. -/
theorem RtInv.schedRtRuntimeExceeded (h : RtInv D T noGroup s.tasks s.rt) (g : TaskGroup) :
    RtInv D T noGroup s.tasks (schedRtRuntimeExceeded k s g).1.rt := by
  unfold Sched.schedRtRuntimeExceeded
  split
  · exact h
  · split
    · exact h
    · split
      · exact h
      · split
        · by_cases h0 : k.rtRuntime g = 0
          · -- nothing assigned: only the time is taken back
            have hset := h.setRtTime g 0
            have hthr : rtRqThrottled (s.rt g) = false := by
              simp_all [rtRqThrottled]
            simpa [State.setRtRq, State.setRt, h0, rtRqThrottled, *] using hset
          · have hset := h.setRtThrottled g true
            simp only [ne_eq, h0, not_false_eq_true, if_true]
            split
            · next hthr => exact hset.schedRtRqDequeue hthr
            · next hthr =>
              -- throttled but boosted: the group goes on
              refine h.overwrite ((h.rq g).of_eq rfl rfl rfl) (fun _ => Iff.rfl) rfl rfl
                (fun _ hx => hx) (Or.inl ?_)
              simp only [State.setRtRq, State.setRt, Function.update_self] at hthr
              rw [Bool.not_eq_true] at hthr
              simp_all [rtRqThrottled]
        · exact h

/-- One round of the loop that charges the run time. -/
theorem RtInv.chargeRtRq (h : RtInv D T noGroup s.tasks s.rt) (d : Nat) (g : TaskGroup) :
    RtInv D T noGroup s.tasks (chargeRtRq k d s g).rt := by
  unfold Sched.chargeRtRq
  split
  · have hset := h.setRtTime g ((s.rt g).rtTime + d)
    have hex : RtInv D T noGroup s.tasks
        (Sched.schedRtRuntimeExceeded k
          (s.setRtRq g fun r => { r with rtTime := r.rtTime + d }) g).1.rt :=
      RtInv.schedRtRuntimeExceeded
        (s := s.setRtRq g fun r => { r with rtTime := r.rtTime + d }) hset g
    dsimp only
    split <;> exact hex
  · exact h

/-- The loop of `update_curr_rt`. -/
theorem foldl_chargeRtRq_toBase (k : Kernel σ) (d : Nat) (tasks : Pid → Task) (l : List RtSe)
    (s : State σ) :
    (l.foldl (fun t se => chargeRtRq k d t (rtRqOfSe tasks se)) s).toBase = s.toBase := by
  induction l generalizing s with
  | nil => rfl
  | cons se l ih => rw [List.foldl_cons, ih, chargeRtRq_toBase]

@[simp] theorem updateCurrRt_toBase (k : Kernel σ) (s : State σ) :
    (updateCurrRt k s).toBase = s.toBase := by
  unfold updateCurrRt
  split
  · rfl
  · dsimp only
    split
    · rfl
    · rw [foldl_chargeRtRq_toBase, State.chargeCurr_toBase]

/-- All groups above the running task are charged. -/
theorem RtInv.updateCurrRt (h : RtInv D T noGroup s.tasks s.rt) :
    RtInv D T noGroup s.tasks (updateCurrRt k s).rt := by
  -- all run queues on the way up from the current task, one after the other
  have hloop : ∀ (l : List RtSe) (tasks : Pid → Task) (d : Nat) (u : State σ),
      RtInv D T noGroup u.tasks u.rt →
      RtInv D T noGroup u.tasks
        (l.foldl (fun t se => Sched.chargeRtRq k d t (rtRqOfSe tasks se)) u).rt := by
    intro l tasks d
    induction l with
    | nil => exact fun u hu => hu
    | cons se l ih =>
      intro u hu
      have hbase := chargeRtRq_toBase k d u (rtRqOfSe tasks se)
      have hone := hu.chargeRtRq (k := k) d (rtRqOfSe tasks se)
      rw [List.foldl_cons]
      have := ih (Sched.chargeRtRq k d u (rtRqOfSe tasks se)) (by rw [hbase]; exact hone)
      rwa [hbase] at this
  unfold Sched.updateCurrRt
  split
  · exact h
  · dsimp only
    split
    · exact h
    · exact hloop _ _ _ s.chargeCurr h

@[simp] theorem doSchedRtPeriodTimer_toBase (k : Kernel σ) (s : State σ) (g : TaskGroup)
    (overrun : Nat) : (doSchedRtPeriodTimer k s g overrun).toBase = s.toBase := by
  unfold doSchedRtPeriodTimer
  split
  · dsimp only
    split
    · rw [schedRtRqEnqueue_toBase]
      split <;> rfl
    · rfl
  · split
    · rw [schedRtRqEnqueue_toBase]
    · rfl

/-- The period timer puts a group back that may run again. -/
theorem RtInv.doSchedRtPeriodTimer (h : RtInv D T noGroup s.tasks s.rt) (g : TaskGroup)
    (overrun : Nat) :
    RtInv D T noGroup s.tasks (doSchedRtPeriodTimer k s g overrun).rt := by
  unfold Sched.doSchedRtPeriodTimer
  split
  · have htime := h.setRtTime g ((s.rt g).rtTime - min (s.rt g).rtTime (overrun * k.rtRuntime g))
    dsimp only
    split
    · -- unthrottled: the group is excepted until schedRtRqEnqueue has run
      have hun := RtInv.setRtThrottled
        (s := s.setRtRq g fun r =>
          { r with rtTime := r.rtTime - min r.rtTime (overrun * k.rtRuntime g) }) htime g false
      split
      · refine RtInv.schedRtRqEnqueue (s := { (State.setRtRq (State.setRtRq s g _) g _) with
          skipClockUpdate := -1 }) hun ?_
        simp [State.setRtRq, State.setRt, rtRqThrottled]
      · refine RtInv.schedRtRqEnqueue (s := State.setRtRq (State.setRtRq s g _) g _) hun ?_
        simp [State.setRtRq, State.setRt, rtRqThrottled]
    · exact htime
  · split
    · next hnr =>
      refine (h.mono fun n k hx => False.elim hx : RtInv D T (· = g) s.tasks s.rt).schedRtRqEnqueue
        ?_
      simpa using hnr.2
    · exact h

end Throttling

/-! ## Picking -/

/-- No run queue from the task's group up to the root is throttled. -/
def rtEligible (tasks : Pid → Task) (rt : RtRqs) (p : Pid) : Bool :=
  (tasks p).schedTaskGroup.tails.all fun g => !rtRqThrottled (rt g)

theorem rtEligible_iff {tasks : Pid → Task} {rt : RtRqs} {p : Pid} :
    rtEligible tasks rt p = true ↔
      ∀ g, g <:+ (tasks p).schedTaskGroup → rtRqThrottled (rt g) = false := by
  simp [rtEligible, List.mem_tails]

section Picking

variable {σ : Type} {k : Kernel σ} {s : State σ} {D : Nat} {T : Pid → Prop}
  {tasks : Pid → Task} {rt : RtRqs} {p : Pid}

/-- Below an unthrottled chain every run queue with something to run is reached
from its parent, so the root has something to run. -/
theorem RtInv.nr_ne_zero_of_eligible (h : RtInv D T noGroup tasks rt) (hp : T p)
    (hel : rtEligible tasks rt p = true) :
    ∀ g, g <:+ (tasks p).schedTaskGroup → (rt g).rtNrRunning ≠ 0 := by
  rw [rtEligible_iff] at hel
  have hself : (rt (tasks p).schedTaskGroup).rtNrRunning ≠ 0 :=
    (h.rq _).nr_ne_zero.mpr ⟨.task p, h.task_mem.mpr ⟨hp, rfl⟩⟩
  generalize (tasks p).schedTaskGroup = g₀ at hel hself
  induction g₀ with
  | nil =>
    intro g hg
    rwa [List.suffix_nil.mp hg]
  | cons n g₀ ih =>
    intro g hg
    rcases List.suffix_cons_iff.mp hg with rfl | hg
    · exact hself
    · have hmem : Mem (.group (n :: g₀)) (rt g₀).active := by
        rw [h.attached (fun hx => hx)]
        simp [skipGroup, hel _ List.suffix_rfl, hself]
      refine ih (fun g' hg' => hel g' (List.suffix_cons_iff.mpr (Or.inr hg'))) ?_ g hg
      exact (h.rq _).nr_ne_zero.mpr ⟨_, hmem⟩

/-- The way down from a run queue with something to run ends at a task within
the depth of the tree. -/
theorem RtInv.descendRt (h : RtInv D T noGroup tasks rt) (n : Nat) (g : TaskGroup)
    (hnr : (rt g).rtNrRunning ≠ 0) (hthr : ∀ k, k <:+ g → rtRqThrottled (rt k) = false)
    (hn : D + 1 ≤ n + g.length) :
    ∃ p, descendRt rt n g = some p ∧ T p ∧ rtEligible tasks rt p = true := by
  induction n generalizing g with
  | zero =>
    have := (h.rq g).depth hnr
    omega
  | succ n ih =>
    obtain ⟨x, hx⟩ := (h.rq g).nr_ne_zero.mp hnr
    obtain ⟨se, rest, hse⟩ := (h.rq g).wf.head_findFirstBit hx
    have hmem : Mem se (rt g).active := ⟨_, hse ▸ List.mem_cons_self ..⟩
    have hpick : pickNextRtEntity (rt g) = some se := by
      rw [pickNextRtEntity, hse, List.head?_cons]
    rw [Sched.descendRt, hpick]
    cases se with
    | task p =>
      obtain ⟨hp, hg⟩ := h.task_mem.mp hmem
      exact ⟨p, rfl, hp, rtEligible_iff.mpr (hg ▸ hthr)⟩
    | group k =>
      obtain ⟨m, rfl⟩ := (h.rq g).group_mem hmem
      rw [h.attached (fun hx => hx)] at hmem
      simp only [skipGroup, Bool.or_eq_false_iff, beq_eq_false_iff_ne] at hmem
      refine ih (m :: g) hmem.2 (fun k hk => ?_) (by rw [List.length_cons]; omega)
      rcases List.suffix_cons_iff.mp hk with rfl | hk
      · exact hmem.1
      · exact hthr k hk

/-- **What the class picks** is a queued task that no throttled run queue holds
back. -/
theorem RtInv.pick_some {t : State σ} (h : RtInv k.maxDepth T noGroup s.tasks s.rt)
    (hpick : pickNextTaskRt k s = some (p, t)) :
    T p ∧ rtEligible s.tasks s.rt p = true ∧ t = s.setExecStart p s.clockTask := by
  unfold pickNextTaskRt at hpick
  split at hpick
  · cases hpick
  · next hnr =>
    split at hpick
    · cases hpick
    · next hthr =>
      have hroot : ∀ k, k <:+ [] → rtRqThrottled (s.rt k) = false := by
        intro k hk
        rw [List.suffix_nil.mp hk]
        simpa using hthr
      obtain ⟨q, hq, hT, hel⟩ := h.descendRt (k.maxDepth + 1) [] hnr hroot (by simp)
      rw [hq] at hpick
      obtain ⟨rfl, rfl⟩ := Prod.mk.inj (Option.some.inj hpick)
      exact ⟨hT, hel, rfl⟩

/-- **When it picks nothing**, a throttled run queue holds back every queued
task; in particular the `BUG_ON`s of the descent are not reached. -/
theorem RtInv.pick_none (h : RtInv k.maxDepth T noGroup s.tasks s.rt) :
    pickNextTaskRt k s = none ↔ ∀ p, T p → rtEligible s.tasks s.rt p = false := by
  constructor
  · intro hpick p hp
    by_contra hel
    rw [Bool.not_eq_false] at hel
    have hnr := h.nr_ne_zero_of_eligible hp hel [] List.nil_suffix
    have hthr := rtEligible_iff.mp hel [] List.nil_suffix
    have hroot : ∀ k, k <:+ [] → rtRqThrottled (s.rt k) = false := by
      intro k hk
      rwa [List.suffix_nil.mp hk]
    obtain ⟨q, hq, -⟩ := h.descendRt (k.maxDepth + 1) [] hnr hroot (by simp)
    simp [pickNextTaskRt, hnr, hthr, hq] at hpick
  · intro hall
    cases hpick : pickNextTaskRt k s with
    | none => rfl
    | some r =>
      obtain ⟨p, t⟩ := r
      obtain ⟨hp, hel, -⟩ := h.pick_some hpick
      rw [hall p hp] at hel
      cases hel

end Picking

end LinuxKernel.Sched

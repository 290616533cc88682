import LinuxKernel.Sched.Frames
import Mathlib.Algebra.BigOperators.Group.List.Basic
import Mathlib.Algebra.GroupWithZero.Nat
import Mathlib.Data.Finset.Card

/-!
# Android scheduler — the queues hold what `on_rq` says

* `WrrInv` — the WRR run queue: no duplicates, exactly the queued tasks of the
  class, both counters right, every weight that of the task's group.
* `QInv`   — all run queues at once, and the counter `nr_running`.
* `QInv.micro`, `QInv.switch` — every small step and every switch keeps it.

`QInv` is stated for a state and the set `R` of tasks that are on a queue, so it
also speaks about the middle of an operation.
-/

namespace LinuxKernel.Sched

open LinuxKernel.Lib

variable {σ : Type}

/-! ## The WRR run queue -/

/-- A counter wrapped. -/
def WrrEvent.wrapped : WrrEvent → Bool
  | .dequeue _ underflow => underflow
  | _ => false

/-- The run queue `w` holds the tasks of `R` that belong to the class. -/
structure WrrInv (c : Config) (tasks : Pid → Task) (w : WrrRq) (R : Finset Pid) : Prop where
  nodup  : w.queue.Nodup
  mem    : ∀ {p}, p ∈ w.queue ↔ p ∈ R ∧ (tasks p).schedClass = .wrr
  nr     : w.wrrNrRunning = w.queue.length
  weight : ∀ {p}, p ∈ w.queue → (tasks p).wrr.weight = groupWeight c (tasks p).schedTaskGroup
  total  : w.totalWeight = (w.queue.map fun p => (tasks p).wrr.weight).sum
  log    : ∀ e ∈ w.log, e.wrapped = false

/-- A task that is enqueued has the weight of its group. -/
theorem classify_weight (c : Config) (g : TaskGroup) (w : SchedWrrEntity) :
    (classify c g w).weight = groupWeight c g := by
  unfold classify groupWeight
  cases c.background g
  · by_cases hw : w.weight = 10 <;> simp [hw]
  · by_cases hw : w.weight = 1 <;> simp [hw]

/-- Only p joins or leaves: for the classes p is not in, nothing changes. -/
theorem mem_class_congr {tasks : Pid → Task} {R R' : Finset Pid} {p : Pid} {c : SchedClass}
    (hR : ∀ q, q ≠ p → (q ∈ R' ↔ q ∈ R)) (hp : (tasks p).schedClass ≠ c) (q : Pid) :
    q ∈ R' ∧ (tasks q).schedClass = c ↔ q ∈ R ∧ (tasks q).schedClass = c := by
  refine and_congr_left fun hq => hR q ?_
  rintro rfl
  exact hp hq

namespace WrrInv

variable {c : Config} {tasks tasks' : Pid → Task} {w : WrrRq} {R R' : Finset Pid} {p : Pid}
  {b : Base}

/-- The empty queue. -/
theorem init (c : Config) (tasks : Pid → Task) : WrrInv c tasks initWrrRq ∅ where
  nodup := List.nodup_nil
  mem := by simp [initWrrRq]
  nr := rfl
  weight hp := by cases hp
  total := rfl
  log e he := by cases he

/-- Only the classes and groups of queued tasks and the weights of linked entities matter. -/
theorem congr (h : WrrInv c tasks w R)
    (hc : ∀ p ∈ R, (tasks' p).schedClass = (tasks p).schedClass)
    (hg : ∀ p ∈ R, (tasks' p).schedTaskGroup = (tasks p).schedTaskGroup)
    (hw : ∀ p ∈ w.queue, (tasks' p).wrr.weight = (tasks p).wrr.weight) :
    WrrInv c tasks' w R where
  nodup := h.nodup
  mem {p} := h.mem.trans (and_congr_right fun hp => by rw [hc p hp])
  nr := h.nr
  weight {p} hp := by rw [hw p hp, h.weight hp, hg p (h.mem.mp hp).1]
  total := by rw [h.total, List.map_congr_left hw]
  log := h.log

/-- A task of another class comes or goes. -/
theorem other (h : WrrInv c tasks w R) (hR : ∀ q, q ≠ p → (q ∈ R' ↔ q ∈ R))
    (hp : (tasks p).schedClass ≠ .wrr) : WrrInv c tasks w R' where
  nodup := h.nodup
  mem {q} := h.mem.trans (mem_class_congr hR hp q).symm
  nr := h.nr
  weight := h.weight
  total := h.total
  log := h.log

/-- A task of the class is enqueued. -/
theorem enqueue (h : WrrInv c b.tasks b.wrr R) (hp : p ∉ R)
    (hc : (b.tasks p).schedClass = .wrr) (head : Bool) :
    WrrInv c (enqueueWrrEntity c b p head).tasks (enqueueWrrEntity c b p head).wrr
      (insert p R) := by
  have hnot : p ∉ b.wrr.queue := fun hm => hp (h.mem.mp hm).1
  -- the tasks after the weight was set, one by one
  have htask : ∀ q, (enqueueWrrEntity c b p head).tasks q = if q = p then
      { b.tasks p with wrr := classify c (b.tasks p).schedTaskGroup (b.tasks p).wrr }
      else b.tasks q :=
    fun q => Base.setTask_tasks b p q fun t => { t with wrr := classify c t.schedTaskGroup t.wrr }
  have hself := (htask p).trans (if_pos rfl)
  have hold : ∀ q, q ∈ b.wrr.queue → (enqueueWrrEntity c b p head).tasks q = b.tasks q :=
    fun q hq => (htask q).trans (if_neg fun (hqp : q = p) => hnot (hqp ▸ hq))
  -- at either end, p is added to the others
  have hperm : (enqueueWrrEntity c b p head).wrr.queue.Perm (p :: b.wrr.queue) := by
    cases head with
    | true => exact List.Perm.refl _
    | false => exact List.perm_append_singleton p _
  refine ⟨?_, fun {q} => ?_, ?_, fun {q} hq => ?_, ?_, fun e he => ?_⟩
  · exact hperm.symm.nodup (List.nodup_cons.mpr ⟨hnot, h.nodup⟩)
  · have hcls : ((enqueueWrrEntity c b p head).tasks q).schedClass = (b.tasks q).schedClass := by
      rw [htask]
      split
      · next hq => rw [hq]
      · rfl
    rw [hperm.mem_iff, List.mem_cons, h.mem, Finset.mem_insert, hcls]
    by_cases hqp : q = p
    · simp [hqp, hc]
    · simp [hqp]
  · exact (congrArg (· + 1) h.nr).trans hperm.length_eq.symm
  · rcases List.mem_cons.mp (hperm.mem_iff.mp hq) with rfl | hq
    · rw [hself]
      exact classify_weight c _ _
    · rw [hold q hq]
      exact h.weight hq
  · rw [(hperm.map _).sum_eq, List.map_cons, List.sum_cons,
      List.map_congr_left fun q hq => by rw [hold q hq], ← h.total, Nat.add_comm]
    rfl
  · rcases List.mem_cons.mp he with rfl | he
    · rfl
    · exact h.log e he

/-- A task of the queue leaves. -/
theorem dequeue (h : WrrInv c b.tasks b.wrr R) (hp : p ∈ b.wrr.queue) :
    WrrInv c b.tasks (dequeueWrrEntity b p).wrr (R.erase p) := by
  have hqueue : (dequeueWrrEntity b p).wrr.queue = b.wrr.queue.erase p := rfl
  have hsum := List.sum_map_erase (fun q => (b.tasks q).wrr.weight) hp
  rw [← h.total] at hsum
  have hlen := List.length_erase_of_mem hp
  have hpos := List.length_pos_of_mem hp
  refine ⟨?_, fun {q} => ?_, ?_, fun {q} hq => ?_, ?_, fun e he => ?_⟩
  · exact h.nodup.erase p
  · rw [hqueue, h.nodup.mem_erase_iff, h.mem, Finset.mem_erase, and_assoc]
  · show usub 32 b.wrr.wrrNrRunning 1 = _
    rw [hqueue, hlen, h.nr, usub_of_le hpos]
  · exact h.weight (List.mem_of_mem_erase hq)
  · show usub 32 b.wrr.totalWeight (b.tasks p).wrr.weight = _
    rw [hqueue, usub_of_le (by omega)]
    omega
  · rcases List.mem_cons.mp he with rfl | he
    · have h1 : ¬ b.wrr.totalWeight < (b.tasks p).wrr.weight := by omega
      have h2 : ¬ b.wrr.wrrNrRunning < 1 := by rw [h.nr]; omega
      simp [WrrEvent.wrapped, h1, h2]
    · exact h.log e he

/-- A task goes to the end: the counters and the total weight stay. -/
theorem requeue (h : WrrInv c b.tasks b.wrr R) (hp : p ∈ b.wrr.queue) :
    WrrInv c b.tasks (requeueTaskWrr b p false).wrr R := by
  have hperm : (requeueTaskWrr b p false).wrr.queue.Perm b.wrr.queue := moveTail_perm hp
  refine ⟨hperm.symm.nodup h.nodup, hperm.mem_iff.trans h.mem, ?_,
    fun hq => h.weight (hperm.mem_iff.mp hq), ?_, fun e he => ?_⟩
  · exact h.nr.trans hperm.length_eq.symm
  · exact h.total.trans (hperm.map _).sum_eq.symm
  · rcases List.mem_cons.mp he with rfl | he
    · rfl
    · exact h.log e he

end WrrInv

/-! ## All run queues -/

/-- The number of tasks in R that are not of the fair class. -/
def notFair (tasks : Pid → Task) (R : Finset Pid) : Nat :=
  (R.filter fun p => (tasks p).schedClass ≠ .fair).card

section NotFair

variable {tasks tasks' : Pid → Task} {R : Finset Pid} {p : Pid}

theorem notFair_congr (h : ∀ p ∈ R, (tasks' p).schedClass = (tasks p).schedClass) :
    notFair tasks' R = notFair tasks R := by
  unfold notFair
  rw [Finset.filter_congr fun p hp => by rw [h p hp]]

theorem notFair_insert (hp : p ∉ R) : notFair tasks (insert p R) =
    notFair tasks R + if (tasks p).schedClass ≠ .fair then 1 else 0 := by
  unfold notFair
  rw [Finset.filter_insert]
  split
  · rw [Finset.card_insert_of_notMem fun hm => hp (Finset.mem_filter.mp hm).1]
  · rfl

theorem notFair_erase (hp : p ∈ R) : notFair tasks R =
    notFair tasks (R.erase p) + if (tasks p).schedClass ≠ .fair then 1 else 0 := by
  conv_lhs => rw [← Finset.insert_erase hp]
  exact notFair_insert (Finset.notMem_erase p R)

end NotFair

/-- Every class has the tasks of `R` that belong to it on its queue, and
`nr_running` counts them together with the fair ones. -/
structure QInv (k : Kernel σ) (s : State σ) (R : Finset Pid) : Prop where
  wrr   : WrrInv k.toConfig s.tasks s.toBase.wrr R
  rt    : RtInv k.maxDepth (fun p => p ∈ R ∧ (s.tasks p).schedClass = .rt) noGroup s.tasks s.rt
  ext   : ∀ {c p}, c = .stop ∨ c = .fair →
    (k.ext.queued s.ext c p = true ↔ p ∈ R ∧ (s.tasks p).schedClass = c)
  idle  : ∀ {p}, p ∈ R → (s.tasks p).schedClass ≠ .idle
  count : (s.nrRunning : Int) = s.hNrRunning + notFair s.tasks R

/-- The hooks of the classes that are not in the tree. -/
theorem hookOf_ext {k : Kernel σ} {c : SchedClass} (hrt : c ≠ .rt) (hwrr : c ≠ .wrr) (h : Hook)
    (s : State σ) (p : Pid) (a : Nat) :
    hookOf k c h s p a = s.applyExt c (k.ext.hook h c s p a) := by
  cases c with
  | rt => exact absurd rfl hrt
  | wrr => exact absurd rfl hwrr
  | stop => rfl
  | fair => rfl
  | idle => rfl

/-- The real-time hooks that do not queue keep the run queues in order. -/
theorem RtInv.rtHook {k : Kernel σ} {s : State σ} {D : Nat} {T : Pid → Prop}
    (hs : RtInv D T noGroup s.tasks s.rt) (h : Hook) (he : h ≠ .enqueueTask)
    (hd : h ≠ .dequeueTask) (p : Pid) (a : Nat) :
    RtInv D T noGroup s.tasks (rtHook k h s p a).rt := by
  have hresched : ∀ (c : Prop) [Decidable c] (q : Pid),
      RtInv D T noGroup s.tasks (if c then s.reschedTask q else s).rt := by
    intro c _ q
    split <;> exact hs
  cases h with
  | enqueueTask => exact absurd rfl he
  | dequeueTask => exact absurd rfl hd
  | yieldTask => exact hs.requeueTaskRt s.curr false
  | checkPreemptCurr => exact hresched _ _
  | putPrevTask => exact hs.updateCurrRt
  | setCurrTask => exact hs
  | taskTick =>
    have hu := hs.updateCurrRt (k := k)
    have hb := updateCurrRt_toBase k s
    show RtInv D T noGroup s.tasks (taskTickRt k s p).rt
    unfold taskTickRt
    dsimp only
    generalize Sched.updateCurrRt k s = u at hu hb
    split
    · exact hu
    · split
      · exact hu
      · split
        · show RtInv D T noGroup s.tasks (Sched.requeueTaskRt u.tasks u.rt p false)
          rw [hb]
          exact hu.requeueTaskRt p false
        · exact hu
  | taskFork => exact hs
  | switchedFrom => exact hs
  | switchedTo => exact hresched _ _
  | prioChanged =>
    show RtInv D T noGroup s.tasks (prioChangedRt s p a).rt
    unfold prioChangedRt
    split
    · exact hs
    · split
      · exact hresched _ _
      · exact hresched _ _
  | taskMoveGroup => exact hs

/-- The hooks that leave the WRR queue and entities alone. -/
def Hook.plain : Hook → Bool
  | .checkPreemptCurr | .putPrevTask | .setCurrTask | .switchedFrom | .prioChanged
  | .taskMoveGroup => true
  | _ => false

/-- `update_curr_wrr` writes to accounting fields only. -/
theorem updateCurrWrr_eq (s : State σ) : ∃ se, updateCurrWrr s = { s with se := se } := by
  unfold updateCurrWrr
  split
  · exact ⟨s.se, rfl⟩
  · exact ⟨_, rfl⟩

/-- All plain hooks of the WRR class write to accounting fields only. -/
theorem wrrHook_plain (c : Config) {h : Hook} (hh : h.plain = true) (s : State σ) (p : Pid)
    (a : Nat) : ∃ se, wrrHook c h s p a = { s with se := se } := by
  cases h with
  | checkPreemptCurr => exact ⟨s.se, rfl⟩
  | putPrevTask =>
    obtain ⟨se, hse⟩ := updateCurrWrr_eq s
    show ∃ x, (updateCurrWrr s).setExecStart p 0 = { s with se := x }
    rw [hse]
    exact ⟨_, rfl⟩
  | setCurrTask => exact ⟨_, rfl⟩
  | switchedFrom => exact ⟨s.se, rfl⟩
  | prioChanged => exact ⟨s.se, rfl⟩
  | taskMoveGroup => exact ⟨s.se, rfl⟩
  | _ => cases hh

namespace QInv

variable {k : Kernel σ} {s t : State σ} {R R' : Finset Pid} {p : Pid}

/-- What the invariant does not look at may change. -/
theorem congr (h : QInv k s R)
    (htask : ∀ q ∈ R, (t.tasks q).schedClass = (s.tasks q).schedClass ∧
      (t.tasks q).prio = (s.tasks q).prio ∧
      (t.tasks q).schedTaskGroup = (s.tasks q).schedTaskGroup)
    (hweight : ∀ q ∈ s.toBase.wrr.queue, (t.tasks q).wrr.weight = (s.tasks q).wrr.weight)
    (hwrr : t.toBase.wrr = s.toBase.wrr) (hrt : t.rt = s.rt)
    (hext : k.ext.queued t.ext = k.ext.queued s.ext)
    (hnr : (t.nrRunning : Int) - t.hNrRunning = s.nrRunning - s.hNrRunning) : QInv k t R where
  wrr := by
    rw [hwrr]
    exact h.wrr.congr (fun q hq => (htask q hq).1) (fun q hq => (htask q hq).2.2) hweight
  rt := by
    rw [hrt]
    exact h.rt.congr_tasks (fun q => and_congr_right fun hq => by rw [(htask q hq).1])
      fun q hq => (htask q hq.1).2
  ext {c q} hc := by
    rw [hext, h.ext hc]
    exact and_congr_right fun hq => by rw [(htask q hq).1]
  idle {q} hq := by
    rw [(htask q hq).1]
    exact h.idle hq
  count := by
    have hcount := h.count
    rw [notFair_congr fun q hq => (htask q hq).1]
    omega

/-- A step within the frame of the real-time class. -/
theorem of_frame (h : QInv k s R) (hf : RtFrame s t)
    (hrt : RtInv k.maxDepth (fun p => p ∈ R ∧ (s.tasks p).schedClass = .rt) noGroup s.tasks
      t.rt) : QInv k t R where
  wrr := by rw [hf.toBase]; exact h.wrr
  rt := by rw [hf.toBase]; exact hrt
  ext hc := by rw [hf.toBase, hf.ext]; exact h.ext hc
  idle hp := by rw [hf.toBase]; exact h.idle hp
  count := by rw [hf.toBase, hf.nr, hf.hNr]; exact h.count

/-- A hook of a missing class that does not queue. -/
theorem hook_ext (h : QInv k s R) {c : SchedClass} (hrt : c ≠ .rt) (hwrr : c ≠ .wrr) (hk : Hook)
    (he : hk ≠ .enqueueTask) (hd : hk ≠ .dequeueTask) (p : Pid) (a : Nat) :
    QInv k (hookOf k c hk s p a) R := by
  rw [hookOf_ext hrt hwrr]
  refine h.congr (fun _ _ => ⟨rfl, rfl, rfl⟩) (fun _ _ => rfl) rfl rfl
    (k.ext.queued_hook hk c s p a he hd) ?_
  show ((k.ext.hook hk c s p a).nrRunning : Int) - (k.ext.hook hk c s p a).hNrRunning = _
  cases c with
  | rt => exact absurd rfl hrt
  | wrr => exact absurd rfl hwrr
  | stop =>
    obtain ⟨h1, h2⟩ := k.ext.nr_stop hk s p a he hd
    rw [h1, h2]
  | fair =>
    have := k.ext.nr_fair hk s p a fun h => absurd h hd
    omega
  | idle =>
    obtain ⟨h1, h2⟩ := k.ext.nr_idle hk s p a
    rw [h1, h2]

/-- A real-time hook that does not queue; `set_curr_task` comes below. -/
theorem hook_rt (h : QInv k s R) (hk : Hook) (he : hk ≠ .enqueueTask) (hd : hk ≠ .dequeueTask)
    (hs : hk ≠ .setCurrTask) (p : Pid) (a : Nat) : QInv k (rtHook k hk s p a) R :=
  h.of_frame (rtHook_quiet k hk s p a he hd fun hc => absurd hc hs).toRtFrame
    (h.rt.rtHook hk he hd p a)

/-- A hook that touches no queue, of any class. -/
theorem hook (h : QInv k s R) {hk : Hook} (hh : hk.plain = true) (c : SchedClass) (p : Pid)
    (a : Nat) : QInv k (hookOf k c hk s p a) R := by
  have he : hk ≠ .enqueueTask := by rintro rfl; cases hh
  have hd : hk ≠ .dequeueTask := by rintro rfl; cases hh
  by_cases hwrr : c = .wrr
  · subst hwrr
    obtain ⟨se, hse⟩ := wrrHook_plain k.toConfig hh s p a
    show QInv k (wrrHook k.toConfig hk s p a) R
    rw [hse]
    exact h.congr (fun _ _ => ⟨rfl, rfl, rfl⟩) (fun _ _ => rfl) rfl rfl rfl rfl
  · by_cases hrt : c = .rt
    · subst hrt
      by_cases hs : hk = .setCurrTask
      · subst hs
        exact h.congr (fun _ _ => ⟨rfl, rfl, rfl⟩) (fun _ _ => rfl) rfl rfl rfl rfl
      · exact h.hook_rt hk he hd hs p a
    · exact h.hook_ext hrt hwrr hk he hd p a

/-! ### Joining a queue -/

/-- The queues of the classes p does not belong to. -/
theorem rt_other (h : QInv k s R) (hR : ∀ q, q ≠ p → (q ∈ R' ↔ q ∈ R))
    (hp : (s.tasks p).schedClass ≠ .rt) :
    RtInv k.maxDepth (fun q => q ∈ R' ∧ (s.tasks q).schedClass = .rt) noGroup s.tasks s.rt :=
  h.rt.congr_tasks (mem_class_congr hR hp) fun _ _ => ⟨rfl, rfl⟩

theorem ext_other (h : QInv k s R) (hR : ∀ q, q ≠ p → (q ∈ R' ↔ q ∈ R)) {c : SchedClass}
    {q : Pid} (hc : c = .stop ∨ c = .fair) (hp : (s.tasks p).schedClass ≠ c) :
    k.ext.queued s.ext c q = true ↔ q ∈ R' ∧ (s.tasks q).schedClass = c :=
  (h.ext hc).trans (mem_class_congr hR hp q).symm

theorem idle_insert (h : QInv k s R) (hp : (s.tasks p).schedClass ≠ .idle) {q : Pid}
    (hq : q ∈ insert p R) : (s.tasks q).schedClass ≠ .idle := by
  rcases Finset.mem_insert.mp hq with rfl | hq
  · exact hp
  · exact h.idle hq

/-- A task of the WRR class is enqueued. -/
theorem enqueue_wrr (h : QInv k s R) (hp : p ∉ R) (hc : (s.tasks p).schedClass = .wrr)
    (flags : Nat) : QInv k (enqueueTaskWrr k.toConfig s p flags) (insert p R) := by
  unfold enqueueTaskWrr
  generalize (flags &&& enqueueHead != 0) = head
  have hR : ∀ q, q ≠ p → (q ∈ insert p R ↔ q ∈ R) := fun q hq => by simp [hq]
  -- only the entity of p is written
  have hsame : ∀ q, ((enqueueWrrEntity k.toConfig s.toBase p head).tasks q).schedClass =
      (s.tasks q).schedClass ∧
      ((enqueueWrrEntity k.toConfig s.toBase p head).tasks q).prio = (s.tasks q).prio ∧
      ((enqueueWrrEntity k.toConfig s.toBase p head).tasks q).schedTaskGroup =
        (s.tasks q).schedTaskGroup := by
    intro q
    by_cases hqp : q = p
    · subst hqp
      simp [enqueueWrrEntity, Base.setWrr]
    · simp [enqueueWrrEntity, Base.setWrr, Base.setTask_of_ne _ _ hqp]
  refine ⟨h.wrr.enqueue hp hc head, ?_, fun {c q} hcls => ?_, fun {q} hq => ?_, ?_⟩
  · refine (h.rt_other hR (by rw [hc]; simp)).congr_tasks (fun q => ?_) fun q _ => (hsame q).2
    exact and_congr_right fun _ => by rw [← (hsame q).1]; rfl
  · refine (h.ext_other hR hcls ?_).trans (and_congr_right fun _ => by rw [← (hsame q).1]; rfl)
    rw [hc]
    rcases hcls with rfl | rfl <;> simp
  · show ((enqueueWrrEntity k.toConfig s.toBase p head).tasks q).schedClass ≠ _
    rw [(hsame q).1]
    exact h.idle_insert (by rw [hc]; simp) hq
  · show ((s.nrRunning + 1 : Nat) : Int) = s.hNrRunning +
      notFair (enqueueWrrEntity k.toConfig s.toBase p head).tasks (insert p R)
    have hcount := h.count
    rw [notFair_congr fun q _ => (hsame q).1, notFair_insert hp, hc, if_pos (by simp)]
    omega

/-- A task of the real-time class is enqueued. -/
theorem enqueue_rt (h : QInv k s R) (hp : p ∉ R) (hc : (s.tasks p).schedClass = .rt)
    (hprio : (s.tasks p).prio < maxRtPrio)
    (hD : (s.tasks p).schedTaskGroup.length ≤ k.maxDepth) (flags : Nat) :
    QInv k (enqueueTaskRt s p flags) (insert p R) := by
  have hR : ∀ q, q ≠ p → (q ∈ insert p R ↔ q ∈ R) := fun q hq => by simp [hq]
  refine ⟨h.wrr.other hR (by rw [hc]; simp), ?_, fun {c q} hcls => h.ext_other hR hcls ?_,
    h.idle_insert (by rw [hc]; simp), ?_⟩
  · refine (h.rt.enqueueRtEntity_task (fun hT => hp hT.1) hprio hD _).congr_tasks (fun q => ?_)
      fun _ _ => ⟨rfl, rfl⟩
    show q ∈ insert p R ∧ (s.tasks q).schedClass = .rt ↔ _
    by_cases hqp : q = p
    · subst hqp
      simp [hc]
    · simp [hqp]
  · rw [hc]
    rcases hcls with rfl | rfl <;> simp
  · show ((s.nrRunning + 1 : Nat) : Int) = s.hNrRunning + notFair s.tasks (insert p R)
    have hcount := h.count
    rw [notFair_insert hp, hc, if_pos (by simp)]
    omega

/-- A task of a class that is not in the tree is enqueued. -/
theorem enqueue_ext (h : QInv k s R) (hp : p ∉ R)
    (hc : (s.tasks p).schedClass = .stop ∨ (s.tasks p).schedClass = .fair) (flags : Nat) :
    QInv k (s.applyExt (s.tasks p).schedClass
      (k.ext.hook .enqueueTask (s.tasks p).schedClass s p flags)) (insert p R) := by
  have hR : ∀ q, q ≠ p → (q ∈ insert p R ↔ q ∈ R) := fun q hq => by simp [hq]
  have hnot : k.ext.queued s.ext (s.tasks p).schedClass p = false := by
    rw [← Bool.not_eq_true, h.ext hc]
    exact fun hT => hp hT.1
  refine ⟨h.wrr.other hR ?_, h.rt_other hR ?_, fun {c q} hcls => ?_, h.idle_insert ?_, ?_⟩
  · rcases hc with hc | hc <;> rw [hc] <;> simp
  · rcases hc with hc | hc <;> rw [hc] <;> simp
  · show k.ext.queued (k.ext.hook .enqueueTask _ s p flags).ext c q = true ↔
      q ∈ insert p R ∧ (s.tasks q).schedClass = c
    rw [k.ext.queued_enqueue _ s p flags hnot, Bool.or_eq_true, h.ext hcls]
    by_cases hqp : q = p
    · subst hqp
      simp only [hp, false_and, false_or, beq_self_eq_true, Bool.and_true, beq_iff_eq,
        Finset.mem_insert_self, true_and]
      exact eq_comm
    · simp [hqp]
  · rcases hc with hc | hc <;> rw [hc] <;> simp
  · show ((k.ext.hook .enqueueTask (s.tasks p).schedClass s p flags).nrRunning : Int) =
      (k.ext.hook .enqueueTask (s.tasks p).schedClass s p flags).hNrRunning +
        notFair s.tasks (insert p R)
    have hcount := h.count
    rw [notFair_insert hp]
    rcases hc with hc | hc
    · obtain ⟨h1, h2⟩ := k.ext.nr_enqueue_stop s p flags
      rw [hc, if_pos (by simp)]
      omega
    · have hnr := k.ext.nr_fair .enqueueTask s p flags (by simp)
      rw [hc, if_neg (not_not.mpr rfl)]
      omega

/-- **`enqueue_task` keeps the invariant**, with the task among the queued ones. -/
theorem enqueue (h : QInv k s R) (hp : p ∉ R) (hq : Queueable k (s.tasks p)) (flags : Nat) :
    QInv k (taskHook k .enqueueTask s p flags) (insert p R) := by
  unfold taskHook
  by_cases hwrr : (s.tasks p).schedClass = .wrr
  · rw [hwrr]
    exact h.enqueue_wrr hp hwrr flags
  · by_cases hrt : (s.tasks p).schedClass = .rt
    · rw [hrt]
      exact h.enqueue_rt hp hrt (hq.rt_prio hrt) hq.depth flags
    · rw [hookOf_ext hrt hwrr]
      refine h.enqueue_ext hp ?_ flags
      have hidle := hq.not_idle
      revert hwrr hrt hidle
      cases (s.tasks p).schedClass <;> simp

/-! ### Leaving a queue -/

theorem idle_erase (h : QInv k s R) {q : Pid} (hq : q ∈ R.erase p) :
    (s.tasks q).schedClass ≠ .idle := h.idle (Finset.mem_of_mem_erase hq)

/-- A queued task of another class than the fair one is counted. -/
theorem nr_pos (h : QInv k s R) (hp : p ∈ R) (hc : (s.tasks p).schedClass ≠ .fair) :
    1 ≤ s.nrRunning ∧ ((s.nrRunning - 1 : Nat) : Int) =
      s.hNrRunning + notFair s.tasks (R.erase p) := by
  have hcount := h.count
  rw [notFair_erase hp, if_pos hc] at hcount
  omega

/-- A task of the WRR class is dequeued. -/
theorem dequeue_wrr (h : QInv k s R) (hp : p ∈ R) (hc : (s.tasks p).schedClass = .wrr) :
    QInv k (dequeueTaskWrr s p) (R.erase p) := by
  have hR : ∀ q, q ≠ p → (q ∈ R.erase p ↔ q ∈ R) := fun q hq => by simp [hq]
  obtain ⟨se, hse⟩ := updateCurrWrr_eq s
  unfold dequeueTaskWrr
  rw [hse]
  refine ⟨h.wrr.dequeue (h.wrr.mem.mpr ⟨hp, hc⟩), h.rt_other hR (by rw [hc]; simp),
    fun {c q} hcls => h.ext_other hR hcls ?_, h.idle_erase, ?_⟩
  · rw [hc]
    rcases hcls with rfl | rfl <;> simp
  · obtain ⟨hpos, hnr⟩ := h.nr_pos hp (by rw [hc]; simp)
    show ((usub 32 s.nrRunning 1 : Nat) : Int) = s.hNrRunning + notFair s.tasks (R.erase p)
    rw [usub_of_le hpos, hnr]

/-- A task of the real-time class is dequeued. -/
theorem dequeue_rt (h : QInv k s R) (hp : p ∈ R) (hc : (s.tasks p).schedClass = .rt) :
    QInv k (dequeueTaskRt k s p) (R.erase p) := by
  have hR : ∀ q, q ≠ p → (q ∈ R.erase p ↔ q ∈ R) := fun q hq => by simp [hq]
  have hf := (updateCurrRt_quiet k s).toRtFrame
  have hu := h.of_frame hf h.rt.updateCurrRt
  have hcu : ((updateCurrRt k s).tasks p).schedClass = .rt := by rw [hf.toBase]; exact hc
  unfold dequeueTaskRt
  generalize updateCurrRt k s = u at hu hcu
  dsimp only
  refine ⟨hu.wrr.other hR (by rw [hcu]; simp), ?_, fun {c q} hcls => hu.ext_other hR hcls ?_,
    hu.idle_erase, ?_⟩
  · refine (hu.rt.dequeueRtEntity_task ⟨hp, hcu⟩).congr_tasks (fun q => ?_) fun _ _ => ⟨rfl, rfl⟩
    show q ∈ R.erase p ∧ (u.tasks q).schedClass = .rt ↔ _
    rw [Finset.mem_erase]
    tauto
  · rw [hcu]
    rcases hcls with rfl | rfl <;> simp
  · obtain ⟨hpos, hnr⟩ := hu.nr_pos hp (by rw [hcu]; simp)
    show ((usub 32 u.nrRunning 1 : Nat) : Int) = u.hNrRunning + notFair u.tasks (R.erase p)
    rw [usub_of_le hpos, hnr]

/-- A task of a class that is not in the tree is dequeued. -/
theorem dequeue_ext (h : QInv k s R) (hp : p ∈ R)
    (hc : (s.tasks p).schedClass = .stop ∨ (s.tasks p).schedClass = .fair) (flags : Nat) :
    QInv k (s.applyExt (s.tasks p).schedClass
      (k.ext.hook .dequeueTask (s.tasks p).schedClass s p flags)) (R.erase p) := by
  have hR : ∀ q, q ≠ p → (q ∈ R.erase p ↔ q ∈ R) := fun q hq => by simp [hq]
  have hon : k.ext.queued s.ext (s.tasks p).schedClass p = true := (h.ext hc).mpr ⟨hp, rfl⟩
  refine ⟨h.wrr.other hR ?_, h.rt_other hR ?_, fun {c q} hcls => ?_, h.idle_erase, ?_⟩
  · rcases hc with hc | hc <;> rw [hc] <;> simp
  · rcases hc with hc | hc <;> rw [hc] <;> simp
  · show k.ext.queued (k.ext.hook .dequeueTask _ s p flags).ext c q = true ↔
      q ∈ R.erase p ∧ (s.tasks q).schedClass = c
    rw [k.ext.queued_dequeue _ s p flags hon, Bool.and_eq_true, h.ext hcls]
    by_cases hqp : q = p
    · subst hqp
      simp only [beq_self_eq_true, Bool.and_true, Bool.not_eq_true', beq_eq_false_iff_ne,
        Finset.mem_erase, ne_eq, not_true_eq_false, false_and, iff_false]
      exact fun hb => hb.2 hb.1.2.symm
    · simp [hqp]
  · show ((k.ext.hook .dequeueTask (s.tasks p).schedClass s p flags).nrRunning : Int) =
      (k.ext.hook .dequeueTask (s.tasks p).schedClass s p flags).hNrRunning +
        notFair s.tasks (R.erase p)
    rcases hc with hc | hc
    · obtain ⟨hpos, hnr⟩ := h.nr_pos hp (by rw [hc]; simp)
      obtain ⟨h1, h2⟩ := k.ext.nr_dequeue_stop s p flags
      rw [hc]
      omega
    · have hcount := h.count
      rw [notFair_erase hp, if_neg (not_not.mpr hc)] at hcount
      have hnr := k.ext.nr_fair .dequeueTask s p flags fun _ => hc ▸ hon
      rw [hc]
      omega

/-- **`dequeue_task` keeps the invariant**, without the task among the queued ones. -/
theorem dequeue (h : QInv k s R) (hp : p ∈ R) (flags : Nat) :
    QInv k (taskHook k .dequeueTask s p flags) (R.erase p) := by
  unfold taskHook
  by_cases hwrr : (s.tasks p).schedClass = .wrr
  · rw [hwrr]
    exact h.dequeue_wrr hp hwrr
  · by_cases hrt : (s.tasks p).schedClass = .rt
    · rw [hrt]
      exact h.dequeue_rt hp hrt
    · rw [hookOf_ext hrt hwrr]
      refine h.dequeue_ext hp ?_ flags
      have hidle := h.idle hp
      revert hwrr hrt hidle
      cases (s.tasks p).schedClass <;> simp

/-! ### The other hooks that touch the WRR queue or entities -/

/-- A write to the slice of a task. -/
theorem setSlice (h : QInv k s R) (p : Pid) (f : Task → Nat) :
    QInv k (s.setWrr p fun t => { t.wrr with timeSlice := f t }) R := by
  have hsame : ∀ q, ((s.toBase.setWrr p fun t => { t.wrr with timeSlice := f t }).tasks q =
      s.tasks q) ∨ (s.toBase.setWrr p fun t => { t.wrr with timeSlice := f t }).tasks q =
        { s.tasks q with wrr := { (s.tasks q).wrr with timeSlice := f (s.tasks q) } } := by
    intro q
    by_cases hqp : q = p
    · subst hqp
      exact Or.inr (Base.setTask_self s.toBase q _)
    · exact Or.inl (Base.setTask_of_ne s.toBase _ hqp)
  refine h.congr (fun q _ => ?_) (fun q _ => ?_) rfl rfl rfl rfl
  · rw [State.setWrr_toBase]
    rcases hsame q with hq | hq <;> rw [hq] <;> exact ⟨rfl, rfl, rfl⟩
  · rw [State.setWrr_toBase]
    rcases hsame q with hq | hq <;> rw [hq]

/-- A WRR task goes to the end of its queue. -/
theorem requeue (h : QInv k s R) (hp : p ∈ s.toBase.wrr.queue) :
    QInv k (s.onBase fun b => requeueTaskWrr b p false) R :=
  ⟨h.wrr.requeue hp, h.rt, h.ext, h.idle, h.count⟩

/-- `yield_task`: the running task is queued. -/
theorem yield (h : QInv k s R) (hp : s.curr ∈ R) :
    QInv k (taskHook k .yieldTask s s.curr 0) R := by
  unfold taskHook
  by_cases hwrr : (s.tasks s.curr).schedClass = .wrr
  · rw [hwrr]
    exact h.requeue (h.wrr.mem.mpr ⟨hp, hwrr⟩)
  · by_cases hrt : (s.tasks s.curr).schedClass = .rt
    · rw [hrt]
      exact h.hook_rt .yieldTask (by simp) (by simp) (by simp) s.curr 0
    · exact h.hook_ext hrt hwrr .yieldTask (by simp) (by simp) _ _

/-- A tick of the WRR class may send the task to the end. -/
theorem tick_wrr (h : QInv k s R) (hp : p ∈ R) (hc : (s.tasks p).schedClass = .wrr) :
    QInv k (taskTickWrr k.toConfig s p) R := by
  obtain ⟨se, hse⟩ := updateCurrWrr_eq s
  have hu : QInv k (updateCurrWrr s) R := by
    rw [hse]
    exact h.congr (fun _ _ => ⟨rfl, rfl, rfl⟩) (fun _ _ => rfl) rfl rfl rfl rfl
  unfold taskTickWrr
  rw [hse] at hu ⊢
  dsimp only
  split
  · exact hu.setSlice p _
  · have hrefill := hu.setSlice p fun t => refill k.toConfig t.wrr.weight
    split
    · exact (hrefill.requeue (h.wrr.mem.mpr ⟨hp, hc⟩)).congr (fun _ _ => ⟨rfl, rfl, rfl⟩)
        (fun _ _ => rfl) rfl rfl rfl rfl
    · exact hrefill

/-- `task_tick` of any class. -/
theorem tick (h : QInv k s R) (hp : (s.tasks s.curr).schedClass = .wrr → s.curr ∈ R) :
    QInv k (taskHook k .taskTick s s.curr 0) R := by
  unfold taskHook
  by_cases hwrr : (s.tasks s.curr).schedClass = .wrr
  · rw [hwrr]
    exact h.tick_wrr (hp hwrr) hwrr
  · by_cases hrt : (s.tasks s.curr).schedClass = .rt
    · rw [hrt]
      exact h.hook_rt .taskTick (by simp) (by simp) (by simp) s.curr 0
    · exact h.hook_ext hrt hwrr .taskTick (by simp) (by simp) _ _

/-- `switched_to_wrr` writes the weight the entity already has. -/
theorem switchedTo (h : QInv k s R) (hp : (s.tasks p).onRq = true → p ∈ R) :
    QInv k (taskHook k .switchedTo s p 0) R := by
  unfold taskHook
  by_cases hwrr : (s.tasks p).schedClass = .wrr
  · rw [hwrr]
    show QInv k (switchedToWrr k.toConfig s p) R
    unfold switchedToWrr
    split
    · next hon =>
      have hmem : p ∈ s.toBase.wrr.queue := h.wrr.mem.mpr ⟨hp hon.1, hwrr⟩
      have hsame : ((s.reschedTask s.curr).setWrr p fun t =>
          { t.wrr with weight := groupWeight k.toConfig t.schedTaskGroup }).tasks = s.tasks := by
        funext q
        rw [State.setWrr_toBase, State.reschedTask_toBase]
        by_cases hqp : q = p
        · subst hqp
          rw [Base.setWrr, Base.setTask_self, ← h.wrr.weight hmem]
        · exact Base.setTask_of_ne s.toBase _ hqp
      refine h.congr (fun q _ => ?_) (fun q _ => ?_) rfl rfl rfl rfl
      · rw [hsame]
        exact ⟨rfl, rfl, rfl⟩
      · rw [hsame]
    · exact h
  · by_cases hrt : (s.tasks p).schedClass = .rt
    · rw [hrt]
      exact h.hook_rt .switchedTo (by simp) (by simp) (by simp) p 0
    · exact h.hook_ext hrt hwrr .switchedTo (by simp) (by simp) _ _

/-- A new task is in no queue; its class is not WRR. -/
theorem fork (h : QInv k s R) (mm : Bool) (hR : ∀ p ∈ R, p < s.nrTasks)
    (hc : (forkedTask (s.tasks s.curr) mm).schedClass ≠ .wrr) : QInv k (schedFork k s mm) R := by
  unfold schedFork taskHook
  dsimp only
  rw [Function.update_self]
  -- the new task is on no queue
  have hne : ∀ q ∈ R, q ≠ s.nrTasks := fun q hq => Nat.ne_of_lt (hR q hq)
  generalize hu : ({ s with
      tasks := Function.update s.tasks s.nrTasks (forkedTask (s.tasks s.curr) mm)
      nrTasks := s.nrTasks + 1
      se := Function.update s.se s.nrTasks ⟨0, 0, 0, 0⟩
      rtTimeSlice := Function.update s.rtTimeSlice s.nrTasks (s.rtTimeSlice s.curr)
      needResched := Function.update s.needResched s.nrTasks false } : State σ) = u
  have hold : ∀ q ∈ R, u.tasks q = s.tasks q := by
    intro q hq
    rw [← hu]
    exact Function.update_of_ne (hne q hq) _ _
  have hbase : QInv k u R := by
    refine h.congr (fun q hq => ?_) (fun q hq => ?_) ?_ ?_ ?_ ?_
    · rw [hold q hq]
      exact ⟨rfl, rfl, rfl⟩
    · rw [hold q (h.wrr.mem.mp hq).1]
    all_goals rw [← hu]
  by_cases hrt : (forkedTask (s.tasks s.curr) mm).schedClass = .rt
  · rw [hrt]
    exact hbase
  · exact hbase.hook_ext hrt hc .taskFork (by simp) (by simp) _ _

/-- To pick a task takes none from its queue. -/
theorem pick (h : QInv k s R) {c : SchedClass} {next : Pid} {u : State σ}
    (hpick : pickOf k c s = some (next, u)) : QInv k u R := by
  rcases pickOf_cases hpick with ⟨-, rfl⟩ | ⟨-, rfl⟩ | ⟨-, -, e, he, rfl⟩
  · exact h.congr (fun _ _ => ⟨rfl, rfl, rfl⟩) (fun _ _ => rfl) rfl rfl rfl rfl
  · exact h
  · refine h.congr (fun _ _ => ⟨rfl, rfl, rfl⟩) (fun _ _ => rfl) rfl rfl
      (k.ext.queued_pick c s next e he) ?_
    have hnr := k.ext.nr_pick c s next e he
    show (e.nrRunning : Int) - e.hNrRunning = _
    omega

/-- Steps that write nothing the invariant looks at. -/
theorem rest {t : State σ} (h : QInv k s R) (ht : t.tasks = s.tasks)
    (hw : t.toBase.wrr = s.toBase.wrr) (hrt : t.rt = s.rt) (he : t.ext = s.ext)
    (hn : t.nrRunning = s.nrRunning) (hh : t.hNrRunning = s.hNrRunning) : QInv k t R :=
  h.congr (fun q _ => by rw [ht]; exact ⟨rfl, rfl, rfl⟩) (fun q _ => by rw [ht]) hw hrt
    (by rw [he]) (by rw [hn, hh])

theorem updateRqClock (h : QInv k s R) : QInv k (updateRqClock k s) R := by
  unfold Sched.updateRqClock
  split
  · exact h
  · exact h.rest rfl rfl rfl rfl rfl rfl

/-- The choice of the next task, with the hooks that put the old one and set the new one. -/
theorem switch {t : State σ} (h : QInv k s R) (hs : Switches k s t) : QInv k t R := by
  obtain ⟨c, next, u, hpick, rfl⟩ := hs
  exact ((h.hook rfl _ s.curr 0).pick hpick).rest rfl rfl rfl rfl rfl rfl

/-- **The queues stay in order.** Every small step keeps the invariant. -/
theorem micro {A : Scope} {c d : Cfg σ} (hm : Micro k A c d) (h : QInv k c.state c.on) :
    QInv k d.state d.on := by
  -- a change to a task that is on no queue, or to its other fields
  have hedit : ∀ {s : State σ} {R : Finset Pid} {p : Pid} {f : Task → Task}, QInv k s R →
      (f (s.tasks p)).wrr = (s.tasks p).wrr →
      (p ∈ R → (f (s.tasks p)).schedClass = (s.tasks p).schedClass ∧
        (f (s.tasks p)).prio = (s.tasks p).prio ∧
        (f (s.tasks p)).schedTaskGroup = (s.tasks p).schedTaskGroup) →
      QInv k (s.setTask p f) R := by
    intro s R p f hs hw hon
    refine hs.congr (fun q hq => ?_) (fun q hq => ?_) rfl rfl rfl rfl
    · rw [State.setTask_toBase, Base.setTask_tasks]
      split
      · next hqp =>
        subst hqp
        exact hon hq
      · exact ⟨rfl, rfl, rfl⟩
    · rw [State.setTask_toBase, Base.setTask_tasks]
      split
      · next hqp => rw [hw, hqp]
      · rfl
  cases hm with
  | clock s R => exact h.updateRqClock
  | flags s R resched skip hresched => exact h.rest rfl rfl rfl rfl rfl rfl
  | edit s R p f hwrr hon => exact hedit h hwrr hon
  | enqueue s R p flags hp hq hhead => exact h.enqueue hp hq flags
  | dequeue s R flags ha => exact h.dequeue ha flags
  | hook s R c hk p arg hh =>
    refine h.hook ?_ c p arg
    cases hk <;> first | rfl | cases hh
  | switchedTo s R p hp => exact h.switchedTo hp
  | cycle s R p f moved hcurr hp hwrr =>
    refine QInv.hook ?_ rfl _ p 0
    have hput : QInv k ((taskHook k .putPrevTask s p 0).setTask p f) R :=
      hedit (h.hook rfl _ p 0) (hwrr _) fun hmem => absurd hmem hp
    cases moved with
    | none => exact hput
    | some arg => exact hput.hook rfl _ p arg
  | yield s R ha hR => exact h.yield hR
  | tick s R ha hR => exact h.tick hR
  | fork s R mm hR hc => exact h.fork mm hR hc
  | periodTimer s R g n htimer =>
    exact h.of_frame (doSchedRtPeriodTimer_frame k s g n) (h.rt.doSchedRtPeriodTimer g n)
  | setStop s R stop => exact h.rest rfl rfl rfl rfl rfl rfl

end QInv

end LinuxKernel.Sched

import LinuxKernel.Lib.LinkedList
import LinuxKernel.Lib.Run
import LinuxKernel.Sched.Tasks

/-!
# Android scheduler — the run list of `wrr.c`

`WrrRq.queue` is the list that `rq->wrr.queue` is for. Here are the functions
of `wrr.c` that touch it with the pointers the kernel has: `run_list` of every
task and the head `rq->wrr.queue` are nodes of a circular doubly linked list.

* `Refines` — a state with pointers and a state with a list agree.
* `Refines.enqueueWrrEntity`, `Refines.dequeueWrrEntity`,
  `Refines.requeueTaskWrr`, `Refines.taskTickWrr`, `Refines.pickNextTaskWrr` —
  each function keeps them in agreement, used as the scheduler uses it.
* `Refines.run` — so do any of them one after another.
* `runList_is_queue` — after any such calls both traversals, the first entry
  and the neighbour test are those of the abstract queue.
-/

namespace LinuxKernel.Sched

open LinuxKernel.Lib

/-! ## Functions on pointers -/

/-- `&p->wrr.run_list`, and none for `&rq->wrr.queue`. -/
abbrev Node := Option Pid

/-- What the functions of `wrr.c` on the queue read and write: all `struct list_head`, the tasks,
and the two counters of `struct wrr_rq`. -/
structure RunList where
  links        : Links Node
  tasks        : Pid → Task
  wrrNrRunning : Nat
  totalWeight  : Nat

namespace RunList

/-- Write to the WRR entity of one task. -/
def setWrr (r : RunList) (p : Pid) (f : Task → SchedWrrEntity) : RunList :=
  { r with tasks := Function.update r.tasks p { r.tasks p with wrr := f (r.tasks p) } }

theorem setWrr_links (r : RunList) (p : Pid) (f : Task → SchedWrrEntity) :
    (r.setWrr p f).links = r.links := rfl

/-- `init_wrr_rq` -/
def initWrrRq (links : Links Node) (tasks : Pid → Task) : RunList :=
  { links := links.initListHead none, tasks := tasks, wrrNrRunning := 0, totalWeight := 0 }

/-- `enqueue_wrr_entity` -/
def enqueueWrrEntity (c : Config) (r : RunList) (p : Pid) (head : Bool) : RunList :=
  let r := r.setWrr p fun t => classify c t.schedTaskGroup t.wrr
  { r with
    links := if head then r.links.listAdd (some p) none else r.links.listAddTail (some p) none
    totalWeight := r.totalWeight + (r.tasks p).wrr.weight
    wrrNrRunning := r.wrrNrRunning + 1 }

/-- `dequeue_wrr_entity` -/
def dequeueWrrEntity (r : RunList) (p : Pid) : RunList :=
  { r with
    links := r.links.listDelInit (some p)
    totalWeight := usub 32 r.totalWeight (r.tasks p).wrr.weight
    wrrNrRunning := usub 32 r.wrrNrRunning 1 }

/-- `requeue_task_wrr` -/
def requeueTaskWrr (r : RunList) (p : Pid) (head : Bool) : RunList :=
  { r with
    links := if head then r.links.listMove (some p) none else r.links.listMoveTail (some p) none }

/-- `task_tick_wrr` after the accounting; the second component is whether it calls
`resched_task`. -/
def taskTickWrr (c : Config) (r : RunList) (p : Pid) : RunList × Bool :=
  let slice := usub 32 (r.tasks p).wrr.timeSlice 1
  if slice ≠ 0 then
    (r.setWrr p fun t => { t.wrr with timeSlice := slice }, false)
  else
    let r := r.setWrr p fun t => { t.wrr with timeSlice := refill c t.wrr.weight }
    if r.links.prev (some p) ≠ r.links.next (some p) then
      (r.requeueTaskWrr p false, true)
    else (r, false)

/-- `list_first_entry`; `container_of` the head node, if it is that, is none. -/
def pickNextTaskWrr (r : RunList) : Option Pid :=
  if r.wrrNrRunning = 0 then none else r.links.next none

end RunList

/-! ## Agreement -/

/-- The pointers form the list of the model, and everything else agrees. -/
structure Refines (r : RunList) (b : Base) : Prop where
  tasks        : r.tasks = b.tasks
  wrrNrRunning : r.wrrNrRunning = b.wrr.wrrNrRunning
  totalWeight  : r.totalWeight = b.wrr.totalWeight
  list         : Circular r.links none (b.wrr.queue.map some)

section Agreement

variable {σ : Type} {c : Config} {r : RunList} {b : Base} {s : State σ} {p : Pid}

/-- The empty list. -/
theorem refines_init (links : Links Node) (b : Base) :
    Refines (RunList.initWrrRq links b.tasks) { b with wrr := initWrrRq } where
  tasks := rfl
  wrrNrRunning := rfl
  totalWeight := rfl
  list := circular_initListHead links none

/-- Entities are written alike. -/
theorem Refines.setWrr (hr : Refines r b) (p : Pid) (f : Task → SchedWrrEntity) :
    Refines (r.setWrr p f) (b.setWrr p f) where
  tasks := by
    rw [RunList.setWrr, Base.setWrr, Base.setTask, hr.tasks]
  wrrNrRunning := hr.wrrNrRunning
  totalWeight := hr.totalWeight
  list := hr.list

/-- `list_add` and `list_add_tail` of a task that is not in the list. -/
theorem Refines.enqueueWrrEntity (hr : Refines r b) (hp : p ∉ b.wrr.queue) (head : Bool) :
    Refines (r.enqueueWrrEntity c p head) (enqueueWrrEntity c b p head) := by
  have hr := hr.setWrr p fun t => classify c t.schedTaskGroup t.wrr
  refine ⟨hr.tasks, ?_, ?_, ?_⟩
  · exact congrArg (· + 1) hr.wrrNrRunning
  · change _ + ((r.setWrr p _).tasks p).wrr.weight = _ + ((b.setWrr p _).tasks p).wrr.weight
    rw [hr.tasks, hr.totalWeight]
  · cases head with
    | true => exact hr.list.listAdd_element hp
    | false => exact hr.list.listAddTail_element hp

/-- `list_del_init` of a task in the list. -/
theorem Refines.dequeueWrrEntity (hr : Refines r b) (hp : p ∈ b.wrr.queue) :
    Refines (r.dequeueWrrEntity p) (dequeueWrrEntity b p) where
  tasks := hr.tasks
  wrrNrRunning := congrArg (usub 32 · 1) hr.wrrNrRunning
  totalWeight := by
    rw [RunList.dequeueWrrEntity, hr.tasks, hr.totalWeight]
    rfl
  list := hr.list.listDelInit_element hp

/-- `list_move` and `list_move_tail` of a task in the list. -/
theorem Refines.requeueTaskWrr (hr : Refines r b) (hp : p ∈ b.wrr.queue) (head : Bool) :
    Refines (r.requeueTaskWrr p head) (requeueTaskWrr b p head) where
  tasks := hr.tasks
  wrrNrRunning := hr.wrrNrRunning
  totalWeight := hr.totalWeight
  list := by
    cases head with
    | true => exact hr.list.listMove_element hp
    | false => exact hr.list.listMoveTail_element hp

/-- The first entry is the head of the queue. -/
theorem Refines.pickNextTaskWrr (hr : Refines r s.toBase) :
    r.pickNextTaskWrr = pickNextTaskWrr s := by
  rw [RunList.pickNextTaskWrr, Sched.pickNextTaskWrr, hr.wrrNrRunning, hr.list.next_head]

/-- The comparison of the two neighbours in `task_tick_wrr`. -/
theorem Refines.prev_ne_next_iff (hr : Refines r b) (hp : p ∈ b.wrr.queue) :
    r.links.prev (some p) ≠ r.links.next (some p) ↔
      ringPrev b.wrr.queue p ≠ ringNext b.wrr.queue p := by
  rw [(hr.list.neighbours hp).1, (hr.list.neighbours hp).2]

/-- `task_tick_wrr`, with the reschedule it asks for. -/
theorem Refines.taskTickWrr (hr : Refines r s.toBase) (hp : p ∈ s.wrr.queue) :
    Refines (r.taskTickWrr c p).1 (taskTickWrr c s p).toBase ∧
      (taskTickWrr c s p).needResched =
        if (r.taskTickWrr c p).2 then Function.update s.needResched p true else s.needResched := by
  have hflags : (updateCurrWrr s).needResched = s.needResched := by
    unfold updateCurrWrr
    split <;> rfl
  rw [← updateCurrWrr_toBase] at hr hp
  rw [← hflags]
  unfold RunList.taskTickWrr Sched.taskTickWrr
  -- the accounting is over
  generalize updateCurrWrr s = u at hr hp
  dsimp only
  rw [hr.tasks]
  by_cases hslice : usub 32 (u.tasks p).wrr.timeSlice 1 ≠ 0
  · rw [if_pos hslice, if_pos hslice, State.setWrr_toBase]
    exact ⟨hr.setWrr p fun t => { t.wrr with timeSlice := _ }, rfl⟩
  · rw [if_neg hslice, if_neg hslice, State.setWrr_toBase]
    have hr := hr.setWrr p fun t => { t.wrr with timeSlice := refill c t.wrr.weight }
    simp only [hr.prev_ne_next_iff hp]
    split
    · exact ⟨hr.requeueTaskWrr hp false, rfl⟩
    · exact ⟨hr, rfl⟩

end Agreement

/-! ## The abstract queue -/

/-- The three operations on the list. -/
inductive QueueOp
  | enqueue (p : Pid) (head : Bool)
  | dequeue (p : Pid)
  | requeue (p : Pid) (head : Bool)
  deriving DecidableEq, Repr

/-- What the calls are for. The scheduler only enqueues entities that are not queued, and dequeues
and requeues those that are. -/
def queueNext (q : List Pid) : QueueOp → Option (List Pid)
  | .enqueue p head => if p ∈ q then none else some (if head then p :: q else q ++ [p])
  | .dequeue p => if p ∈ q then some (q.erase p) else none
  | .requeue p head =>
    if p ∈ q then some (if head then p :: q.erase p else q.erase p ++ [p]) else none

/-- The calls on pointers, and those of the model with a list. -/
def RunList.apply (c : Config) (r : RunList) : QueueOp → RunList
  | .enqueue p head => r.enqueueWrrEntity c p head
  | .dequeue p => r.dequeueWrrEntity p
  | .requeue p head => r.requeueTaskWrr p head

/-- The operations of the model. -/
def QueueOp.onBase (c : Config) (b : Base) : QueueOp → Base
  | .enqueue p head => enqueueWrrEntity c b p head
  | .dequeue p => dequeueWrrEntity b p
  | .requeue p head => requeueTaskWrr b p head

section Runs

variable {c : Config} {r : RunList} {b : Base} {q q' : List Pid} {o : QueueOp} {ops : List QueueOp}

/-- **One call.** -/
theorem Refines.step (hr : Refines r b) (hnext : queueNext b.wrr.queue o = some q') :
    Refines (r.apply c o) (QueueOp.onBase c b o) ∧ (QueueOp.onBase c b o).wrr.queue = q' := by
  cases o with
  | enqueue p head =>
    rw [queueNext, Option.ite_none_left_eq_some] at hnext
    exact ⟨hr.enqueueWrrEntity hnext.1 head, Option.some.inj hnext.2⟩
  | dequeue p =>
    rw [queueNext, Option.ite_none_right_eq_some] at hnext
    exact ⟨hr.dequeueWrrEntity hnext.1, Option.some.inj hnext.2⟩
  | requeue p head =>
    rw [queueNext, Option.ite_none_right_eq_some] at hnext
    exact ⟨hr.requeueTaskWrr hnext.1 head, Option.some.inj hnext.2⟩

/-- **Any calls.** -/
theorem Refines.run (hr : Refines r b) (hrun : Lib.run queueNext b.wrr.queue ops = some q) :
    Refines (ops.foldl (RunList.apply c) r) (ops.foldl (QueueOp.onBase c) b) ∧
      (ops.foldl (QueueOp.onBase c) b).wrr.queue = q := by
  induction ops generalizing r b with
  | nil => exact ⟨hr, Option.some.inj hrun⟩
  | cons o ops ih =>
    obtain ⟨q', hnext, hrest⟩ := Option.bind_eq_some_iff.mp hrun
    obtain ⟨hr, hq⟩ := hr.step (c := c) hnext
    rw [← hq] at hrest
    exact ih hr hrest

/-- Both ways through the list show the queue. -/
def RunList.Shows (r : RunList) (q : List Pid) : Prop :=
  ∀ fuel, q.length < fuel → follow r.links.next none fuel none = q.map some ∧
    follow r.links.prev none fuel none = (q.map some).reverse

/-- What can be read from a list that is linked as it should be. -/
theorem shows_of_circular (hr : Circular r.links none (q.map some)) : r.Shows q := by
  intro fuel hfuel
  rw [← List.length_map some] at hfuel
  exact ⟨hr.follow_next hfuel, hr.follow_prev hfuel⟩

theorem two_le_length_iff {p : Pid} (hp : p ∈ q) : 2 ≤ q.length ↔ q ≠ [p] := by
  obtain ⟨l₁, l₂, rfl⟩ := List.append_of_mem hp
  rw [List.length_append, List.length_cons]
  constructor
  · intro hlen heq
    have := congrArg List.length heq
    simp at this
    omega
  · intro hne
    by_contra hlen
    have h₁ : l₁ = [] := List.length_eq_zero_iff.mp (by omega)
    have h₂ : l₂ = [] := List.length_eq_zero_iff.mp (by omega)
    exact hne (by rw [h₁, h₂, List.nil_append])

/-- Another entity is queued. -/
theorem exists_ne_iff {p : Pid} (hd : q.Nodup) (hp : p ∈ q) :
    (∃ p' ∈ q, p' ≠ p) ↔ q ≠ [p] := by
  constructor
  · rintro ⟨p', hmem, hne⟩ rfl
    exact hne (List.mem_singleton.mp hmem)
  · intro hne
    obtain ⟨l₁, l₂, rfl⟩ := List.append_of_mem hp
    rw [List.nodup_middle, List.nodup_cons] at hd
    obtain ⟨p', hmem⟩ : ∃ p', p' ∈ l₁ ++ l₂ := by
      refine List.exists_mem_of_ne_nil _ fun hnil => hne ?_
      rw [List.append_eq_nil_iff] at hnil
      rw [hnil.1, hnil.2, List.nil_append]
    refine ⟨p', by grind, ?_⟩
    rintro rfl
    exact hd.1 hmem

/-- What the tick of a queued task does to the list: it goes to the end if its slice is used up and
another task is queued. -/
theorem RunList.taskTickWrr_list {p : Pid} (c : Config)
    (hlist : Circular r.links none (q.map some)) (hp : p ∈ q) :
    ((r.taskTickWrr c p).2 = true ↔
        usub 32 (r.tasks p).wrr.timeSlice 1 = 0 ∧ ∃ p' ∈ q, p' ≠ p) ∧
      (r.taskTickWrr c p).1.Shows (if (r.taskTickWrr c p).2 then moveTail q p else q) := by
  have hother := (ringPrev_ne_ringNext_iff hlist.nodup_elements hp).trans
    (exists_ne_iff hlist.nodup_elements hp).symm
  rw [← (hlist.neighbours hp).1, ← (hlist.neighbours hp).2] at hother
  unfold RunList.taskTickWrr
  dsimp only
  by_cases hslice : usub 32 (r.tasks p).wrr.timeSlice 1 = 0
  · rw [if_neg (not_not.mpr hslice), setWrr_links]
    by_cases hne : r.links.prev (some p) ≠ r.links.next (some p)
    · rw [if_pos hne]
      exact ⟨iff_of_true rfl ⟨hslice, hother.mp hne⟩,
        shows_of_circular (hlist.listMoveTail_element hp)⟩
    · rw [if_neg hne]
      exact ⟨iff_of_false Bool.false_ne_true fun h => hne (hother.mpr h.2),
        shows_of_circular hlist⟩
  · rw [if_pos hslice]
    exact ⟨iff_of_false Bool.false_ne_true fun h => hslice h.1, shows_of_circular hlist⟩

/-- **The run list is the queue.** After any calls that the scheduler makes, whatever the pointers
were before `init_wrr_rq`, the list is `q` forwards and `q` reversed backwards, as in the model with
a list; its first entry is that of `q`, and the two pointers of a queued entity differ exactly when
there are two of them. A tick puts the task to the end and asks for a reschedule exactly when it
uses up the slice and another task is queued. -/
theorem runList_is_queue (c : Config) (links : Links Node) (b : Base) (ops : List QueueOp)
    (hrun : run queueNext [] ops = some q) :
    let r := ops.foldl (RunList.apply c) (RunList.initWrrRq links b.tasks)
    r.Shows q ∧ (ops.foldl (QueueOp.onBase c) { b with wrr := initWrrRq }).wrr.queue = q ∧
      r.links.next none = q.head? ∧
      ∀ p ∈ q, (r.links.prev (some p) ≠ r.links.next (some p) ↔ 2 ≤ q.length) ∧
        -- whatever has been written to the tasks by then
        ∀ tasks, let tick := { r with tasks := tasks }.taskTickWrr c p
          (tick.2 = true ↔ usub 32 (tasks p).wrr.timeSlice 1 = 0 ∧ ∃ p' ∈ q, p' ≠ p) ∧
            tick.1.Shows (if tick.2 then moveTail q p else q) := by
  intro r
  obtain ⟨hr, hq⟩ := (refines_init links b).run (c := c) hrun
  have hlist := hr.list
  rw [hq] at hlist
  refine ⟨shows_of_circular hlist, hq, hlist.next_head, fun p hp => ⟨?_, fun tasks => ?_⟩⟩
  · rw [(hlist.neighbours hp).1, (hlist.neighbours hp).2,
      ringPrev_ne_ringNext_iff hlist.nodup_elements hp, two_le_length_iff hp]
  · exact RunList.taskTickWrr_list c hlist hp

/-- Three tasks, one of them in front and then moved to the end; another one leaves. -/
def threeOps : List QueueOp :=
  [.enqueue 1 false, .enqueue 2 false, .enqueue 3 true, .requeue 3 false, .dequeue 2]

theorem runList_is_queue_three :
    let c : Config := { HZ := 100, groupPath := fun _ => ['/'] }
    let r := threeOps.foldl (RunList.apply c) (RunList.initWrrRq ⟨fun _ => some 7, fun _ => none⟩
      fun _ => initTask)
    run queueNext [] threeOps = some [1, 3] ∧ r.Shows [1, 3] ∧ r.links.next none = some 1 ∧
      r.links.prev (some 1) ≠ r.links.next (some 1) := by
  intro c r
  have hrun : run queueNext [] threeOps = some [1, 3] := by decide
  obtain ⟨hshows, -, hfirst, hall⟩ := runList_is_queue c ⟨fun _ => some 7, fun _ => none⟩
    { tasks := fun _ => initTask, nrTasks := 4, curr := 0, idle := 0, stop := none,
      wrr := initWrrRq }
    threeOps hrun
  exact ⟨hrun, hshows, hfirst, (hall 1 (by decide)).1.mpr (by decide)⟩

end Runs

end LinuxKernel.Sched

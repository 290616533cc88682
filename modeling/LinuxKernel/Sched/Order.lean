import LinuxKernel.Sched.WrrStep

/-!
# Android scheduler — no overtaking in the WRR queue

A queued task keeps its place until a task ahead of it leaves the queue or goes
to the end of it, and then moves up by one. The record of the list operations
says which tasks left their place in an operation.

* `Passage`            — the order of the queue over a stretch of a run.
* `Passage.position`   — the place of a task that stayed.
* `wrr_no_overtaking`  — one operation, and whole runs.
-/

namespace LinuxKernel.Sched

open LinuxKernel.Lib

variable {σ : Type}

/-- The task an event takes from its place. -/
def WrrEvent.leaves : WrrEvent → Option Pid
  | .enqueue _ _ => none
  | .dequeue p _ => some p
  | .requeue p _ => some p

def WrrEvent.atHead : WrrEvent → Bool
  | .enqueue _ head => head
  | .dequeue _ _ => false
  | .requeue _ head => head

/-- What happened to the queue between `w` and a later `w'`. -/
def newEvents (w w' : WrrRq) : List WrrEvent := w'.log.take (w'.log.length - w.log.length)

/-- The tasks that left their place in the meantime. -/
def departures (w w' : WrrRq) : List Pid := (newEvents w w').filterMap WrrEvent.leaves

/-- Did a task ahead of `q` leave its place? -/
def leftAhead (q : Pid) (w w' : WrrRq) : Bool :=
  (before w.queue q).any fun p => (departures w w').contains p

/-! ## Stretches of a run -/

/-- The events `es` lead from `w` to `w'`: nothing was put at the head, only `a`
left its place, and a task that stayed has exactly those tasks before it that
were there and stayed as well. -/
structure Passage (a : Pid) (w : WrrRq) (es : List WrrEvent) (w' : WrrRq) : Prop where
  log   : w'.log = es ++ w.log
  tail  : ∀ e ∈ es, e.atHead = false
  actor : ∀ p ∈ es.filterMap WrrEvent.leaves, p = a
  stays : ∀ q ∈ w.queue, q ∉ es.filterMap WrrEvent.leaves → q ∈ w'.queue
  order : ∀ q ∈ w.queue, q ∉ es.filterMap WrrEvent.leaves →
    before w'.queue q = (before w.queue q).filter (· ∉ es.filterMap WrrEvent.leaves)

namespace Passage

variable {a q : Pid} {w w' w'' : WrrRq} {es es' : List WrrEvent} {c : Config} {b b' : Base}

/-- The same queue and the same record. -/
theorem of_eq (hq : w'.queue = w.queue) (hl : w'.log = w.log) : Passage a w [] w' where
  log := hl
  tail e he := by cases he
  actor p hp := by cases hp
  stays q hmem _ := by rw [hq]; exact hmem
  order q _ _ := by rw [hq]; simp

theorem trans (h₁ : Passage a w es w') (h₂ : Passage a w' es' w'') :
    Passage a w (es' ++ es) w'' := by
  refine ⟨?_, fun e he => ?_, fun p hp => ?_, fun q hq hstay => ?_, fun q hq hstay => ?_⟩
  · rw [h₂.log, h₁.log, List.append_assoc]
  · rcases List.mem_append.mp he with he | he
    · exact h₂.tail e he
    · exact h₁.tail e he
  · rw [List.filterMap_append] at hp
    rcases List.mem_append.mp hp with hp | hp
    · exact h₂.actor p hp
    · exact h₁.actor p hp
  · rw [List.filterMap_append, List.mem_append, not_or] at hstay
    exact h₂.stays q (h₁.stays q hq hstay.2) hstay.1
  · rw [List.filterMap_append, List.mem_append, not_or] at hstay
    rw [h₂.order q (h₁.stays q hq hstay.2) hstay.1, h₁.order q hq hstay.2, List.filter_filter]
    refine List.filter_congr fun p _ => ?_
    simp [not_or]

/-- One departure, to the end of the queue or off it. -/
theorem single {e : WrrEvent} (hd : w.queue.Nodup) (he : e.leaves = some a)
    (hhead : e.atHead = false) (hlog : w'.log = e :: w.log)
    (hqueue : w'.queue = w.queue.erase a ∨ w'.queue = moveTail w.queue a) :
    Passage a w [e] w' := by
  have hleave : [e].filterMap WrrEvent.leaves = [a] := by simp [he]
  refine ⟨hlog, fun e' he' => ?_, fun p hp => ?_, fun q hq hstay => ?_, fun q hq hstay => ?_⟩
  · rw [List.mem_singleton.mp he']
    exact hhead
  · rw [hleave] at hp
    exact List.mem_singleton.mp hp
  · rw [hleave, List.mem_singleton] at hstay
    have hmem := (List.mem_erase_of_ne hstay).mpr hq
    rcases hqueue with h | h <;> rw [h]
    · exact hmem
    · exact List.mem_append_left _ hmem
  · rw [hleave, List.mem_singleton] at hstay
    rw [hleave]
    simp only [List.mem_singleton]
    rcases hqueue with h | h <;> rw [h]
    · exact before_erase hd hstay
    · exact before_moveTail hd hq hstay

theorem of_wrrStep (hd : b.wrr.queue.Nodup) (hs : WrrStep c a b b') :
    ∃ es, Passage a b.wrr es b'.wrr := by
  cases hs with
  | stay hqueue hent => exact ⟨[], of_eq (by rw [hqueue]) (by rw [hqueue])⟩
  | enqueue p hp hb =>
    -- p joins at the end, behind everyone
    subst hb
    refine ⟨[.enqueue p false], rfl, by simp [WrrEvent.atHead], by simp [WrrEvent.leaves],
      fun q hq _ => List.mem_append_left _ hq, fun q hq _ => ?_⟩
    show before (b.wrr.queue ++ [p]) q = _
    rw [before_append _ hq]
    simp [WrrEvent.leaves]
  | dequeue ha hb =>
    subst hb
    exact ⟨_, single hd rfl rfl rfl (Or.inl rfl)⟩
  | requeue ha hb =>
    subst hb
    exact ⟨_, single hd rfl rfl rfl (Or.inr rfl)⟩
  | tick ha n hn hpos hb =>
    subst hb
    exact ⟨[], of_eq rfl rfl⟩
  | refill ha hb =>
    subst hb
    exact ⟨[], of_eq rfl rfl⟩
  | turn ha hb =>
    subst hb
    exact ⟨_, single (w := b.wrr) hd rfl rfl rfl (Or.inr rfl)⟩

theorem newEvents_eq (h : Passage a w es w') : newEvents w w' = es := by
  rw [newEvents, h.log, List.length_append, Nat.add_sub_cancel, List.take_left']
  rfl

/-- **Place of a task that stayed**: one forward if the actor was ahead of it. -/
theorem position (h : Passage a w es w') (hd : w.queue.Nodup) (hq : q ∈ w.queue)
    (hstay : q ∉ departures w w') :
    w'.queue.idxOf q + (if leftAhead q w w' then 1 else 0) = w.queue.idxOf q := by
  have hdep : departures w w' = es.filterMap WrrEvent.leaves := by rw [departures, h.newEvents_eq]
  rw [hdep] at hstay
  rw [← length_before hq, ← length_before (h.stays q hq hstay), h.order q hq hstay, leftAhead, hdep]
  generalize hes : es.filterMap WrrEvent.leaves = out at hstay
  have hactor : ∀ p ∈ out, p = a := by rw [← hes]; exact h.actor
  have hnodup : (before w.queue q).Nodup := hd.sublist (List.takeWhile_sublist _)
  by_cases hleft : (before w.queue q).any (fun p => out.contains p) = true
  · -- the one that left is the actor
    obtain ⟨p, hp, hout⟩ := List.any_eq_true.mp hleft
    rw [List.contains_iff_mem] at hout
    obtain rfl := hactor p hout
    have hfilter : (before w.queue q).filter (· ∉ out) = (before w.queue q).erase p := by
      rw [hnodup.erase_eq_filter]
      refine List.filter_congr fun r _ => ?_
      by_cases hr : r = p
      · simp [hr, hout]
      · have : r ∉ out := fun hm => hr (hactor r hm)
        simp [hr, this]
    have hpos := List.length_pos_of_mem hp
    rw [if_pos hleft, hfilter, List.length_erase_of_mem hp]
    omega
  · have hall : ∀ p ∈ before w.queue q, p ∉ out := by
      intro p hp hout
      refine hleft (List.any_eq_true.mpr ⟨p, hp, ?_⟩)
      rw [List.contains_iff_mem]
      exact hout
    rw [if_neg hleft, List.filter_eq_self.mpr (by simpa using hall)]
    rfl

end Passage

/-- Every operation is a passage. -/
theorem step_passage {k : Kernel σ} {s t : State σ} {op : Op} (hI : Inv k s)
    (h : step k s op = some t) : ∃ a es, Passage a s.toBase.wrr es t.toBase.wrr := by
  have hpath : ∀ {A : Scope} {c d : Cfg σ}, Path k A c d → QInv k c.state c.on →
      QInv k d.state d.on ∧ ∃ es, Passage A.actor c.state.toBase.wrr es d.state.toBase.wrr := by
    intro A c d hp hQ
    induction hp with
    | refl => exact ⟨hQ, [], Passage.of_eq rfl rfl⟩
    | tail _ hm ih =>
      obtain ⟨hQ', es, hes⟩ := ih
      obtain ⟨es', hes'⟩ := Passage.of_wrrStep hQ'.wrr.nodup (hm.wrrStep hQ')
      exact ⟨QInv.micro hm hQ', _, hes.trans hes'⟩
  obtain ⟨a, w, hp, hend⟩ := step_path hI.tasks hI.curr h
  obtain ⟨-, es, hes⟩ := hpath hp hI.queues
  refine ⟨a, es, ?_⟩
  rcases hend with ⟨-, hs⟩ | ⟨-, rfl⟩
  · rw [hs.toBase]
    exact hes
  · exact hes

/-- The class picks `q` exactly when `q` is at the head. -/
theorem pickNextTaskWrr_iff {k : Kernel σ} {s : State σ} (hI : Inv k s) {q : Pid}
    (hq : q ∈ s.toBase.wrr.queue) :
    pickNextTaskWrr s = some q ↔ s.toBase.wrr.queue.idxOf q = 0 := by
  rw [pickNextTaskWrr, hI.queues.wrr.nr]
  cases hqueue : s.toBase.wrr.queue with
  | nil =>
    rw [hqueue] at hq
    cases hq
  | cons p l =>
    rw [if_neg (by simp), List.head?_cons, Option.some_inj]
    by_cases hp : p = q
    · subst hp
      simp
    · simp [hp, List.idxOf_cons_ne l hp]

/-- **No overtaking.** Let `q` be queued in a reachable state. An operation in
which `q` does not leave its place moves it forward by one if a task ahead of it
leaves its place, and not at all otherwise; whoever is ahead of `q` afterwards
was ahead of it before, and nothing is put at the head. Over a run in which `q`
does not leave its place, the place of `q` drops by the number of operations in
which a task ahead of it leaves; the class picks `q` as soon as that number is
the place `q` had at the start. -/
theorem wrr_no_overtaking (k : Kernel σ) (s : State σ) (hs : Reachable (step k) (boot k) s)
    (q : Pid) (hq : q ∈ s.toBase.wrr.queue) :
    (∀ op t, step k s op = some t → q ∉ departures s.toBase.wrr t.toBase.wrr →
      q ∈ t.toBase.wrr.queue ∧
      t.toBase.wrr.queue.idxOf q +
        (if leftAhead q s.toBase.wrr t.toBase.wrr then 1 else 0) = s.toBase.wrr.queue.idxOf q ∧
      (∀ p ∈ before t.toBase.wrr.queue q, p ∈ before s.toBase.wrr.queue q) ∧
      ∀ e ∈ newEvents s.toBase.wrr t.toBase.wrr, e.atHead = false) ∧
    ∀ tr t, Steps (step k) s tr t →
      (∀ r ∈ tr, q ∉ departures r.pre.toBase.wrr r.post.toBase.wrr) →
      q ∈ t.toBase.wrr.queue ∧
      t.toBase.wrr.queue.idxOf q +
        tr.countP (fun r => leftAhead q r.pre.toBase.wrr r.post.toBase.wrr) =
          s.toBase.wrr.queue.idxOf q ∧
      (pickNextTaskWrr t = some q ↔
        tr.countP (fun r => leftAhead q r.pre.toBase.wrr r.post.toBase.wrr) =
          s.toBase.wrr.queue.idxOf q) := by
  -- one operation, from any state with the invariant
  have hone : ∀ {s t : State σ} {op : Op}, Inv k s → q ∈ s.toBase.wrr.queue →
      step k s op = some t → q ∉ departures s.toBase.wrr t.toBase.wrr →
      q ∈ t.toBase.wrr.queue ∧
      t.toBase.wrr.queue.idxOf q +
        (if leftAhead q s.toBase.wrr t.toBase.wrr then 1 else 0) = s.toBase.wrr.queue.idxOf q ∧
      (∀ p ∈ before t.toBase.wrr.queue q, p ∈ before s.toBase.wrr.queue q) ∧
      ∀ e ∈ newEvents s.toBase.wrr t.toBase.wrr, e.atHead = false := by
    intro s t op hI hq hstep hstay
    obtain ⟨a, es, hpass⟩ := step_passage hI hstep
    have hes := hpass.newEvents_eq
    have hstay' : q ∉ es.filterMap WrrEvent.leaves := by rwa [departures, hes] at hstay
    refine ⟨hpass.stays q hq hstay', hpass.position hI.queues.wrr.nodup hq hstay, ?_, ?_⟩
    · intro p hp
      rw [hpass.order q hq hstay'] at hp
      exact List.mem_of_mem_filter hp
    · rw [hes]
      exact hpass.tail
  have hI := Inv.reachable hs
  refine ⟨fun op t hstep hstay => hone hI hq hstep hstay, fun tr t htr hstay => ?_⟩
  -- a run, by induction on its steps
  have hrun : Inv k t ∧ q ∈ t.toBase.wrr.queue ∧ t.toBase.wrr.queue.idxOf q +
      tr.countP (fun r => leftAhead q r.pre.toBase.wrr r.post.toBase.wrr) =
        s.toBase.wrr.queue.idxOf q := by
    clear hs
    induction htr with
    | nil s => exact ⟨hI, hq, rfl⟩
    | @cons s u t op tr hstep _ ih =>
      obtain ⟨hq', hpos, -, -⟩ := hone hI hq hstep (hstay _ (List.mem_cons_self ..))
      obtain ⟨hI', hmem, hcount⟩ :=
        ih hq' (hI.step hstep) fun r hr => hstay r (List.mem_cons_of_mem _ hr)
      refine ⟨hI', hmem, ?_⟩
      rw [List.countP_cons]
      dsimp only
      omega
  obtain ⟨hI', hmem, hcount⟩ := hrun
  refine ⟨hmem, hcount, ?_⟩
  rw [pickNextTaskWrr_iff hI' hmem]
  omega

/-- The tick that ends the turn of task 1 brings task 2 to the head. -/
theorem wrr_no_overtaking_turn : ∃ s t, Reachable (step fifoKernel) (boot fifoKernel) s ∧
    s.toBase.wrr.queue = [1, 2] ∧ step fifoKernel s .tick = some t ∧
    t.toBase.wrr.queue.idxOf 2 + 1 = s.toBase.wrr.queue.idxOf 2 := by
  have hrun : (run (step fifoKernel) (boot fifoKernel)
      (wrrOps ++ .schedule ⟨false, false, none⟩ :: List.replicate 9 .tick)).any (fun s =>
        s.toBase.wrr.queue = [1, 2] ∧ (step fifoKernel s .tick).any (fun t =>
          2 ∉ departures s.toBase.wrr t.toBase.wrr ∧
          leftAhead 2 s.toBase.wrr t.toBase.wrr = true)) = true := by decide +kernel
  obtain ⟨s, hs, hq⟩ := (Option.any_eq_true _ _).mp hrun
  obtain ⟨hqueue, htick⟩ := of_decide_eq_true hq
  obtain ⟨t, ht, hdep⟩ := (Option.any_eq_true _ _).mp htick
  obtain ⟨hstay, hleft⟩ := of_decide_eq_true hdep
  have hreach := run_reachable hs
  have hmem : 2 ∈ s.toBase.wrr.queue := by rw [hqueue]; decide
  obtain ⟨-, hpos, -⟩ := (wrr_no_overtaking fifoKernel s hreach 2 hmem).1 .tick t ht hstay
  rw [if_pos hleft] at hpos
  exact ⟨s, t, hreach, hqueue, ht, hpos⟩

end LinuxKernel.Sched

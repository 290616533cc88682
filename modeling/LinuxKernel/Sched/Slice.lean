import LinuxKernel.Sched.WrrStep

/-!
# Android scheduler — weights and time slices

`time_slice` is written when the weight changes and when it has run down to
zero, and copied by `fork`. The invariant is about the entities of *all* tasks,
queued or not: a task may leave the class and come back with old values.

* `SliceInv.wrrStep` — no event on the WRR queue breaks it.
* `wrr_slice_reachable` — for queued tasks, in every reachable state.
-/

namespace LinuxKernel.Sched

open LinuxKernel.Lib

variable {σ : Type}

/-- A weight of the class comes with a slice that is neither used up nor larger
than a full one. -/
def SliceOk (c : Config) (w : SchedWrrEntity) : Prop :=
  w.weight = 1 ∨ w.weight = 10 → 1 ≤ w.timeSlice ∧ w.timeSlice ≤ refill c w.weight

def SliceInv (c : Config) (tasks : Pid → Task) : Prop := ∀ p, SliceOk c (tasks p).wrr

theorem refill_pos {c : Config} (hHZ : 100 ≤ c.HZ) (weight : Nat) : 1 ≤ refill c weight := by
  unfold refill Config.wrrBgTimeslice Config.wrrFgTimeslice
  split <;> omega

theorem groupWeight_cases (c : Config) (g : TaskGroup) :
    groupWeight c g = 1 ∨ groupWeight c g = 10 := by
  unfold groupWeight
  split
  · exact Or.inl rfl
  · exact Or.inr rfl

/-- A full slice. -/
theorem SliceOk.refill {c : Config} (hHZ : 100 ≤ c.HZ) (w : SchedWrrEntity) :
    SliceOk c { w with timeSlice := refill c w.weight } :=
  fun _ => ⟨refill_pos hHZ _, le_rfl⟩

theorem SliceOk.classify {c : Config} (hHZ : 100 ≤ c.HZ) {w : SchedWrrEntity} (h : SliceOk c w)
    (g : TaskGroup) : SliceOk c (classify c g w) := by
  unfold Sched.classify
  split
  · exact SliceOk.refill hHZ { weight := 1, timeSlice := 0 }
  · split
    · exact SliceOk.refill hHZ { weight := 10, timeSlice := 0 }
    · exact h

namespace SliceInv

variable {c : Config} {a p : Pid} {b b' : Base} {R : Finset Pid}

/-- A write to one entity. -/
theorem setWrr {f : Task → SchedWrrEntity} (h : SliceInv c b.tasks)
    (hp : SliceOk c (f (b.tasks p))) : SliceInv c (b.setWrr p f).tasks := by
  intro q
  unfold Base.setWrr
  rw [Base.setTask_tasks]
  split
  · exact hp
  · exact h q

theorem full (hHZ : 100 ≤ c.HZ) (h : SliceInv c b.tasks) (p : Pid) :
    SliceInv c (b.setWrr p fun t => { t.wrr with timeSlice := refill c t.wrr.weight }).tasks :=
  h.setWrr (f := fun t => { t.wrr with timeSlice := refill c t.wrr.weight })
    (SliceOk.refill hHZ _)

/-- A queued task has something of its slice left. -/
theorem of_mem (h : SliceInv c b.tasks) (hW : WrrInv c b.tasks b.wrr R) (hp : p ∈ b.wrr.queue) :
    1 ≤ (b.tasks p).wrr.timeSlice ∧
      (b.tasks p).wrr.timeSlice ≤ refill c (b.tasks p).wrr.weight := by
  refine h p ?_
  rw [hW.weight hp]
  exact groupWeight_cases c _

theorem wrrStep (hHZ : 100 ≤ c.HZ) (h : SliceInv c b.tasks) (hW : WrrInv c b.tasks b.wrr R)
    (hs : WrrStep c a b b') : SliceInv c b'.tasks := by
  cases hs with
  | stay hqueue hent =>
    intro p
    obtain ⟨q, hq⟩ := hent p
    rw [hq]
    exact h q
  | enqueue p hp hb =>
    rw [hb]
    exact h.setWrr (p := p) (f := fun t => classify c t.schedTaskGroup t.wrr)
      ((h p).classify hHZ _)
  | dequeue ha hb =>
    rw [hb]
    exact h
  | requeue ha hb =>
    rw [hb]
    exact h
  | tick ha n hn hpos hb =>
    -- the decrement does not wrap: the old slice was not zero
    obtain ⟨hge, hle⟩ := h.of_mem hW ha
    rw [usub_of_le hge] at hn
    rw [hb]
    refine h.setWrr fun _ => ?_
    show 1 ≤ n ∧ n ≤ refill c (b.tasks a).wrr.weight
    omega
  | refill ha hb =>
    rw [hb]
    exact h.full hHZ a
  | turn ha hb =>
    rw [hb]
    exact h.full hHZ a

theorem boot (k : Kernel σ) : SliceInv k.toConfig (boot k).tasks := by
  intro p hw
  rcases hw with hw | hw <;> cases hw

theorem reachable {k : Kernel σ} {s : State σ} (hHZ : 100 ≤ k.HZ)
    (hs : Reachable (step k) (Sched.boot k) s) : SliceInv k.toConfig s.tasks :=
  Inv.small_steps (P := fun c => SliceInv k.toConfig c.state.tasks) (boot k)
    (fun _ _ _ hQ h hm => h.wrrStep hHZ hQ.wrr (hm.wrrStep hQ))
    (fun _ _ _ _ h hw => by rw [hw.toBase]; exact h) hs

end SliceInv

/-- **Weights and slices.** In every state reached from boot, a queued WRR task
has the weight of its group and a slice between 1 and a full one; so the
decrement in `task_tick_wrr`, made for the current task, does not wrap. -/
theorem wrr_slice_reachable (k : Kernel σ) (hHZ : 100 ≤ k.HZ) (s : State σ)
    (hs : Reachable (step k) (boot k) s) :
    (∀ p ∈ s.toBase.wrr.queue,
      ((k.groupPath (s.tasks p).schedTaskGroup)[1]? = some 'b' → (s.tasks p).wrr.weight = 1) ∧
      ((k.groupPath (s.tasks p).schedTaskGroup)[1]? ≠ some 'b' → (s.tasks p).wrr.weight = 10) ∧
      1 ≤ (s.tasks p).wrr.timeSlice ∧
      (s.tasks p).wrr.timeSlice ≤ refill k.toConfig (s.tasks p).wrr.weight) ∧
    ((s.tasks s.curr).schedClass = .wrr →
      usub 32 (s.tasks s.curr).wrr.timeSlice 1 + 1 = (s.tasks s.curr).wrr.timeSlice) := by
  have hI := Inv.reachable hs
  have hS := SliceInv.reachable hHZ hs
  refine ⟨fun p hp => ?_, fun hc => ?_⟩
  · have hweight := hI.queues.wrr.weight hp
    refine ⟨fun hb => ?_, fun hb => ?_, hS.of_mem hI.queues.wrr hp⟩
    · rw [hweight, groupWeight, Config.background, hb]
      rfl
    · rw [hweight, groupWeight, Config.background, if_neg]
      simpa using hb
  · -- the current task is queued: it is not the idle task
    have hne : s.curr ≠ s.idle := by
      intro hi
      rw [(hI.tasks.idle_class _ hI.curr.1).mpr hi] at hc
      cases hc
    have hmem := hI.queues.wrr.mem.mpr ⟨hI.curr.mem_queued hne, hc⟩
    have hge := (hS.of_mem hI.queues.wrr hmem).1
    rw [usub_of_le hge]
    omega

/-- A foreground and a background task; the first one runs for three ticks. -/
theorem wrr_slice_after_ticks : ∃ s, 100 ≤ fifoKernel.HZ ∧
    Reachable (step fifoKernel) (boot fifoKernel) s ∧ s.curr = 1 ∧
    (s.tasks 1).wrr = { weight := 10, timeSlice := 7 } ∧
    usub 32 (s.tasks s.curr).wrr.timeSlice 1 + 1 = (s.tasks s.curr).wrr.timeSlice := by
  have hrun : (run (step fifoKernel) (boot fifoKernel)
      (wrrOps ++ [.schedule ⟨false, false, none⟩, .tick, .tick, .tick])).any (fun s =>
        s.curr = 1 ∧ (s.tasks 1).wrr = { weight := 10, timeSlice := 7 } ∧
        (s.tasks s.curr).schedClass = .wrr) = true := by decide +kernel
  obtain ⟨s, hs, hq⟩ := (Option.any_eq_true _ _).mp hrun
  obtain ⟨hcurr, hwrr, hcls⟩ := of_decide_eq_true hq
  have hreach := run_reachable hs
  obtain ⟨-, hdec⟩ := wrr_slice_reachable fifoKernel (by decide) s hreach
  exact ⟨s, by decide, hreach, hcurr, hwrr, hdec hcls⟩

end LinuxKernel.Sched

import LinuxKernel.Sched.Invariant

/-!
# Android scheduler — the fast path of `pick_next_task`

`pick_next_task` skips the walk over the classes when `nr_running` equals
`cfs.h_nr_running`. The two counters are kept by different classes; here they
are followed through every sequence of queueing operations.
-/

namespace LinuxKernel.Sched

open LinuxKernel.Lib

variable {σ : Type}

/-! ## Configurations reached by queueing -/

/-- The configurations that sequences of `enqueue_task` and `dequeue_task` lead
to, with the small steps of all other operations and the switches in between. A task is enqueued
when it is on no queue and dequeued when it is on one; the flags are arbitrary. -/
inductive Queueing (k : Kernel σ) : State σ → Finset Pid → Prop
  | boot : Queueing k (boot k) ∅
  | enqueueTask {s : State σ} {R : Finset Pid} (h : Queueing k s R) (p : Pid) (flags : Nat)
      (hp : p ∉ R) (hq : Queueable k (s.tasks p)) :
      Queueing k (enqueueTask k s p flags) (insert p R)
  | dequeueTask {s : State σ} {R : Finset Pid} (h : Queueing k s R) (p : Pid) (flags : Nat)
      (hp : p ∈ R) : Queueing k (dequeueTask k s p flags) (R.erase p)
  | micro {s t : State σ} {R R' : Finset Pid} (h : Queueing k s R) (A : Scope)
      (hm : Micro k A ⟨s, R⟩ ⟨t, R'⟩) : Queueing k t R'
  | switch {s t : State σ} {R : Finset Pid} (h : Queueing k s R) (hs : Switches k s t) :
      Queueing k t R

theorem Queueing.inv {k : Kernel σ} {s : State σ} {R : Finset Pid} (h : Queueing k s R) :
    QInv k s R := by
  induction h with
  | boot => exact QInv.boot k
  | @enqueueTask s R _ p flags hp hq ih =>
    exact ih.updateRqClock.enqueue hp (by rw [updateRqClock_toBase]; exact hq) flags
  | @dequeueTask s R _ p flags hp ih =>
    exact ih.updateRqClock.dequeue hp flags
  | micro _ A hm ih => exact QInv.micro hm ih
  | switch _ hs ih => exact ih.switch hs

/-- Every state between two operations is one of them. -/
theorem Queueing.of_reachable {k : Kernel σ} {s : State σ}
    (hs : Reachable (step k) (Sched.boot k) s) : Queueing k s s.queued :=
  Inv.small_steps (P := fun c => Queueing k c.state c.on) .boot
    (fun A _ _ _ h hm => h.micro A hm) (fun _ _ _ _ h hw => h.switch hw) hs

/-- **The fast path is sound.** In every configuration reached, `pick_next_task`
finds a task and does what the walk over the classes does. The shortcut is taken exactly when
only fair tasks are queued. While the WRR queue holds a task, the task returned
is a queued one of a class not below WRR; a WRR task is returned only from the
head of its queue, and only if no stop task and no real-time task outside of
throttled run queues is queued. -/
theorem pickNextTask_agrees_with_walk {k : Kernel σ} {s : State σ} {R : Finset Pid}
    (h : Queueing k s R) :
    (∃ r, pickNextTask k s = some r) ∧
    pickNextTask k s = pickFrom k s forEachClass ∧
    (s.nrRunning = s.hNrRunning ↔ ∀ p ∈ R, (s.tasks p).schedClass = .fair) ∧
    ∀ p u, pickNextTask k s = some (p, u) →
      (s.toBase.wrr.queue ≠ [] → p ∈ R ∧ ((s.tasks p).schedClass = .stop ∨
        (s.tasks p).schedClass = .rt ∨ (s.tasks p).schedClass = .wrr)) ∧
      (p ≠ s.idle → (s.tasks p).schedClass = .wrr →
        s.toBase.wrr.queue.head? = some p ∧
        (∀ q ∈ R, (s.tasks q).schedClass ≠ .stop) ∧
        ∀ q ∈ R, (s.tasks q).schedClass = .rt → rtEligible s.tasks s.rt q = false) := by
  have hinv := h.inv
  refine ⟨?_, hinv.pickNextTask_eq, hinv.nr_eq_iff, fun p u hpick => ?_⟩
  · rw [hinv.pickNextTask_eq]
    exact pickFrom_isSome (mem_forEachClass .idle)
  rw [hinv.pickNextTask_eq] at hpick
  obtain ⟨c, hc, hhigher⟩ := pickFrom_forEachClass hpick
  refine ⟨fun hne => ?_, fun hidle hwrr => ?_⟩
  · -- a class below WRR is asked only if WRR picks nothing
    have hrank : c.rank ≤ SchedClass.wrr.rank := by
      by_contra hlt
      have hnone := (hinv.pick_none (c := .wrr) (by simp)).mp (hhigher .wrr (Nat.lt_of_not_le hlt))
      obtain ⟨q, hq⟩ := List.exists_mem_of_ne_nil _ hne
      obtain ⟨hqR, hqc⟩ := hinv.wrr.mem.mp hq
      have hel := hnone q hqR hqc
      rw [eligible_wrr hqc] at hel
      cases hel
    rcases hinv.pick_some hc with ⟨rfl, -⟩ | ⟨-, hp, hcls, -⟩
    · simp [SchedClass.rank] at hrank
    · refine ⟨hp, ?_⟩
      rw [hcls]
      revert hrank
      cases c <;> simp [SchedClass.rank]
  · -- a WRR task was picked, so the classes above had nothing to offer
    rcases hinv.pick_some hc with ⟨-, hp⟩ | ⟨-, -, hcls, -⟩
    · exact absurd hp hidle
    · obtain rfl : c = .wrr := hcls.symm.trans hwrr
      refine ⟨QInv.pick_wrr_head hc, fun q hq hqc => ?_, fun q hq hqc => ?_⟩
      · have hel := (hinv.pick_none (c := .stop) (by simp)).mp (hhigher .stop (by decide)) q hq hqc
        rw [eligible_ext hqc (Or.inl rfl)] at hel
        have hqueued := (hinv.ext (Or.inl rfl)).mpr ⟨hq, hqc⟩
        rw [k.ext.stop_eligible _ _ hqueued] at hel
        cases hel
      · rw [← eligible_rt (k := k) hqc]
        exact (hinv.pick_none (c := .rt) (by simp)).mp (hhigher .rt (by decide)) q hq hqc

theorem pickNextTask_two_tasks : ∃ s : State (SchedClass → List Pid), ∃ u,
    Queueing fifoKernel s s.queued ∧ s.toBase.wrr.queue = [1, 2] ∧
      pickNextTask fifoKernel s = some (1, u) ∧ s.toBase.wrr.queue.head? = some 1 := by
  have hrun : (run (step fifoKernel) (boot fifoKernel) wrrOps).any (fun s =>
      s.toBase.wrr.queue = [1, 2] ∧ (pickNextTask fifoKernel s).map Prod.fst = some 1 ∧
      (s.tasks 1).schedClass = .wrr ∧ s.idle = 0) = true := by decide +kernel
  obtain ⟨s, hs, hq⟩ := (Option.any_eq_true _ _).mp hrun
  obtain ⟨hqueue, hpick, hcls, hidle⟩ := of_decide_eq_true hq
  have hQ := Queueing.of_reachable (run_reachable hs)
  obtain ⟨⟨⟨p, u⟩, hr⟩, -, -, hall⟩ := pickNextTask_agrees_with_walk hQ
  obtain rfl : p = 1 := by simpa [hr] using hpick
  obtain ⟨-, hwrr⟩ := hall 1 u hr
  have hhead := (hwrr (by rw [hidle]; decide) hcls).1
  exact ⟨s, u, hQ, hqueue, hr, hhead⟩

end LinuxKernel.Sched

import LinuxKernel.Sched.System

/-!
# Android scheduler — a kernel with plain queues

The laws of `ExtClasses` can be met: `fifoClasses` gives every missing class a
first-in first-out queue of tasks. `fifoKernel` adds a clock and a
configuration, and is the kernel in which concrete runs are computed.
-/

namespace LinuxKernel.Sched

/-- The two run counters after a hook. -/
def fifoCount (h : Hook) (c : SchedClass) (nr hNr : Nat) : Nat × Nat :=
  match h, c with
  | .enqueueTask, .stop => (nr + 1, hNr)
  | .enqueueTask, .fair => (nr + 1, hNr + 1)
  | .dequeueTask, .stop => (nr - 1, hNr)
  | .dequeueTask, .fair => if 1 ≤ nr ∧ 1 ≤ hNr then (nr - 1, hNr - 1) else (nr, hNr)
  | _, _ => (nr, hNr)

/-- The private data are the queues, one for each class. -/
def fifoHook (h : Hook) (c : SchedClass) (s : State (SchedClass → List Pid)) (p : Pid) (_a : Nat) :
    ExtEffect (SchedClass → List Pid) where
  ext := match h with
    | .enqueueTask => Function.update s.ext c (s.ext c ++ [p])
    | .dequeueTask => Function.update s.ext c ((s.ext c).filter (· ≠ p))
    | _ => s.ext
  nrRunning := (fifoCount h c s.nrRunning s.hNrRunning).1
  hNrRunning := (fifoCount h c s.nrRunning s.hNrRunning).2
  skipClockUpdate := s.skipClockUpdate
  se := s.se
  resched := h == .switchedTo && c == .fair &&
    (s.curr == p || (s.tasks s.curr).schedClass == .idle)

def fifoPick (c : SchedClass) (s : State (SchedClass → List Pid)) :
    Option (Pid × ExtEffect (SchedClass → List Pid)) :=
  (if c = .idle then some s.idle else (s.ext c).head?).map fun p =>
    (p, { ext := s.ext, nrRunning := s.nrRunning, hNrRunning := s.hNrRunning
          skipClockUpdate := s.skipClockUpdate, se := s.se, resched := false })

theorem fifoPick_some {c : SchedClass} {s : State (SchedClass → List Pid)} {p : Pid}
    {e : ExtEffect (SchedClass → List Pid)} (h : fifoPick c s = some (p, e)) :
    (if c = .idle then some s.idle else (s.ext c).head?) = some p ∧ e.ext = s.ext ∧
      e.nrRunning = s.nrRunning ∧ e.hNrRunning = s.hNrRunning ∧ e.se = s.se := by
  obtain ⟨q, hq, heq⟩ := Option.map_eq_some_iff.mp h
  obtain ⟨rfl, rfl⟩ := Prod.mk.inj heq
  exact ⟨hq, rfl, rfl, rfl, rfl⟩

def fifoClasses : ExtClasses (SchedClass → List Pid) where
  init _ := []
  queued x c p := (x c).contains p
  eligible x c p := (x c).contains p
  hook := fifoHook
  pick := fifoPick
  queued_init _ _ := rfl
  queued_enqueue c s p _ _ c' q := by
    show (Function.update s.ext c (s.ext c ++ [p]) c').contains q = _
    by_cases hc : c' = c
    · subst hc
      rw [Function.update_self]
      simp [List.contains_eq_mem, Bool.decide_or, beq_eq_decide]
    · simp [hc]
  queued_dequeue c s p _ _ c' q := by
    show (Function.update s.ext c ((s.ext c).filter (· ≠ p)) c').contains q = _
    by_cases hc : c' = c
    · subst hc
      rw [Function.update_self]
      simp [List.contains_eq_mem, List.mem_filter, Bool.decide_and, beq_eq_decide]
    · simp [hc]
  queued_hook h c s p a he hd := by
    cases h with
    | enqueueTask => exact absurd rfl he
    | dequeueTask => exact absurd rfl hd
    | _ => rfl
  queued_pick c s p e h := by rw [(fifoPick_some h).2.1]
  eligible_queued _ _ _ h := h
  stop_eligible _ _ h := h
  pick_none c s hc := by
    show fifoPick c s = none ↔ _
    rw [fifoPick, if_neg hc, Option.map_eq_none_iff, List.head?_eq_none_iff]
    refine ⟨fun h p => by rw [h]; rfl, fun h => ?_⟩
    rw [List.eq_nil_iff_forall_not_mem]
    intro p hp
    have := h p
    rw [List.contains_eq_mem, decide_eq_false_iff_not] at this
    exact this hp
  pick_some c s p e hc h := by
    have hp := (fifoPick_some h).1
    rw [if_neg hc] at hp
    rw [List.contains_iff_mem]
    exact List.mem_of_head? hp
  pick_idle s := ⟨_, rfl⟩
  nr_fair h s p a hq := by
    show ((fifoCount h .fair s.nrRunning s.hNrRunning).1 : Int) - s.nrRunning =
      (fifoCount h .fair s.nrRunning s.hNrRunning).2 - s.hNrRunning
    cases h with
    | enqueueTask =>
      simp only [fifoCount]
      omega
    | dequeueTask =>
      simp only [fifoCount]
      split
      · dsimp only
        omega
      · omega
    | _ =>
      simp only [fifoCount]
      omega
  nr_enqueue_stop _ _ _ := ⟨rfl, rfl⟩
  nr_dequeue_stop _ _ _ := ⟨rfl, rfl⟩
  nr_stop h s p a he hd := by
    cases h with
    | enqueueTask => exact absurd rfl he
    | dequeueTask => exact absurd rfl hd
    | _ => exact ⟨rfl, rfl⟩
  nr_idle h s p a := by cases h <;> exact ⟨rfl, rfl⟩
  nr_pick c s p e h := by
    obtain ⟨-, -, h1, h2, -⟩ := fifoPick_some h
    rw [h1, h2]
    omega
  start_hook _ _ _ _ _ _ := Or.inl rfl
  start_pick c s p e q h := by
    rw [(fifoPick_some h).2.2.2.2]
    exact Or.inl rfl
  switchedTo_fair s p a _ hcurr := by
    show (Hook.switchedTo == .switchedTo && SchedClass.fair == .fair &&
      (s.curr == p || (s.tasks s.curr).schedClass == .idle)) = true
    rcases hcurr with h | h <;> simp [h]

/-- A kernel with `HZ = 100`: ten ticks for a foreground task, one for a
background task. The group `[1]` is the background group; `[2]` may use up to 5 of
every 100 ns for real-time tasks. The clock advances by 10 ns with every reading. -/
def fifoKernel : Kernel (SchedClass → List Pid) where
  HZ := 100
  groupPath g := if g = [1] then ['/', 'b', 'g'] else ['/']
  ext := fifoClasses
  schedClock n := min (10 * n) (2 ^ 62)
  schedClock_mono m n h := by
    dsimp only
    omega
  schedClock_lt n := lt_of_le_of_lt (Nat.min_le_right _ _) (by decide)
  rtRuntime g := if g = [2] then 5 else 2 ^ 64 - 1
  rtPeriod _ := 100
  rtBandwidthEnabled := true
  maxDepth := 1

/-- A request of a privileged user for a policy and a real-time priority. -/
def request (policy : BitVec 32) (prio : Int) : SetschedArgs :=
  { policy := policy, schedPriority := prio, user := true, capable := true, rlimRtprio := 0
    canNice := true, sameOwner := true, security := 0 }

end LinuxKernel.Sched

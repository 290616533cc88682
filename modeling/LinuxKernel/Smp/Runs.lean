import LinuxKernel.Lib.Run
import LinuxKernel.Lib.Waiting
import LinuxKernel.Smp.Steps

/-!
# Runs of several processors

What holds in every state that the processors reach, from a start where all tasks sleep, in whatever
order they take their steps.

* `Inv.step_samePlace`    — who moves a task has locked it.
* `task_rq_lock_pins`     — `task_rq_lock` holds on to the task.
* `task_at_one_run_queue` — a task is at one run queue and runs at one processor.
* `wakeup_made_once`      — no wakeup is made twice.
* `smp_no_deadlock`       — the processors do not wait for one another for ever.
-/

namespace LinuxKernel.Smp

open LinuxKernel.Lib

variable {Task Cpu : Type}

/-- Two records of a task that say the same of where it is. -/
def TaskRec.SamePlace (t t' : TaskRec Cpu) : Prop :=
  t'.cpu = t.cpu ∧ t'.onRq = t.onRq ∧ t'.queue = t.queue

theorem TaskRec.SamePlace.refl (t : TaskRec Cpu) : t.SamePlace t := ⟨rfl, rfl, rfl⟩

variable [LinearOrder Cpu] {s : Sys Task Cpu} {c d r : Cpu} {k k₀ : Pc Task Cpu} {p q : Task}
  {home : Task → Cpu} {mask : Task → Cpu → Bool} {bound : Task → Option Cpu} {preempt : Bool}
  {b : Back Task}

/-- At the start nobody holds a lock and nothing is enqueued. -/
theorem Inv.boot : Inv (boot home mask bound) := by
  refine ⟨⟨fun l c => ?_, fun c => trivial⟩, fun c p x hx => ?_, fun c p hp => ?_, fun p hp => ?_,
    fun p r hp => ?_, fun p hp => ?_, fun p hp => ?_, fun p r hp => ?_, fun c => List.nodup_nil⟩
  · exact iff_of_false (by simp [Smp.boot]) id
  · exact absurd hx List.not_mem_nil
  · cases hp
  · cases hp
  · cases hp
  · cases hp
  · cases hp
  · exact absurd hp (by simp [Smp.boot, left])

/-- A task that nobody who has locked its run queue has in hand is enqueued as `on_rq` says. -/
theorem Inv.queue_iff (h : Inv s) (hno : ∀ d x, s.owner (.rq (s.task p).cpu) = some d →
      (p, x) ∈ claims (s.pc d) → ¬ x.Out ∧ ∀ r, x ≠ .entering r) :
    (s.task p).queue r = true ↔ (s.task p).onRq = true ∧ (s.task p).cpu = r := by
  constructor
  · intro hq
    have hcpu := h.queueCpu p r hq
    subst hcpu
    refine ⟨(h.queueOn p hq).resolve_right ?_, rfl⟩
    rintro ⟨d, r, hx⟩
    have hr : (s.task p).cpu = r := (h.claim d p _ hx).2.2.2.1
    exact (hno d _ (hr ▸ h.held hx (List.mem_singleton.mpr rfl)) hx).2 r rfl
  · rintro ⟨hon, rfl⟩
    refine (h.onQueue p hon).resolve_right ?_
    rintro ⟨d, x, hx, hout⟩
    refine (hno d x ?_ hx).1 hout
    have hok := h.claim d p x hx
    cases x with
    | taken r | moving r => exact hok.1 ▸ h.held hx (by simp [Claim.locks])
    | leaving =>
      exact (congrArg (fun r => s.owner (.rq r)) hok.1).trans (h.held hx (by simp [Claim.locks]))
    | _ => exact hout.elim

/-- The task that `ttwu_do_activate` is about to enqueue is placed there, and does nothing. -/
theorem Inv.activate_off (h : Inv s) (hk : s.pc c = .activate p r b) :
    (s.task p).cpu = r ∧ (s.task p).onRq = false ∧ (s.task p).onCpu = false := by
  have hsound := h.sound c
  rw [hk] at hsound
  cases b with
  | task q =>
    obtain ⟨hon, honCpu, -, hcpu⟩ := h.claim c p (.placed r) (hk ▸ List.mem_singleton.mpr rfl)
    exact ⟨hcpu, hon, honCpu⟩
  | pending ps =>
    obtain rfl : r = c := hsound
    obtain ⟨hon, honCpu, -, hcpu⟩ := h.listed p r (.inr (hk ▸ List.mem_cons_self))
    exact ⟨hcpu, hon, honCpu⟩
  | worker q =>
    obtain ⟨hon, honCpu, -, hcpu⟩ := h.claim c p (.placed r) (hk ▸ List.mem_singleton.mpr rfl)
    exact ⟨hcpu, hon, honCpu⟩
  | _ => exact absurd hsound id

variable [DecidableEq Task]

/-- A write to another task, or one that leaves the place of this one as it is. -/
theorem samePlace_write {t : TaskRec Cpu} (ht : q = p → (s.task p).SamePlace t) :
    (s.task p).SamePlace (((s.setTask q t).goto d k).task p) := by
  by_cases hq : q = p
  · subst hq
    simpa using ht rfl
  · rw [goto_task, show (s.setTask q t).task p =
      s.task p from Function.update_of_ne (Ne.symm hq) _ _]
    exact .refl _

/-- Locks are no part of a task. -/
theorem doubleLockBalance_task {next : Bool → Pc Task Cpu} {a b : Cpu} :
    (doubleLockBalance preempt s c a b next).task = s.task := by
  unfold doubleLockBalance
  split_ifs <;> rfl

/-- **Who moves a task has locked it.** A step of a processor that holds neither the task's
`pi_lock` nor the lock of its run queue leaves the task where it is. -/
theorem Inv.step_samePlace (h : Inv s) {a : Act Task Cpu} {s' : Sys Task Cpu}
    (hstep : Smp.step preempt s (d, a) = some s') (hrq : s.owner (.rq (s.task p).cpu) ≠ some d)
    (hpi : s.owner (.pi p) ≠ some d) : (s.task p).SamePlace (s'.task p) := by
  -- a write to a task whose run queue is locked is to another task
  have hlocked : ∀ {q : Task} {t : TaskRec Cpu} {k : Pc Task Cpu} (r : Cpu), (s.task q).cpu = r →
      holds d (s.pc d) (.rq r) → (s.task p).SamePlace (((s.setTask q t).goto d k).task p) := by
    rintro q t k r rfl hl
    refine samePlace_write fun hq => ?_
    subst hq
    exact absurd ((h.owner _ d).mpr hl) hrq
  have hclaimed : ∀ {q : Task} {t : TaskRec Cpu} {k : Pc Task Cpu} (x : Claim Cpu) (r : Cpu),
      (s.task q).cpu = r → (q, x) ∈ claims (s.pc d) → .rq r ∈ x.locks d q →
      (s.task p).SamePlace (((s.setTask q t).goto d k).task p) := fun x r hr hx hl =>
    hlocked r hr (claims_held (h.sound d) hx hl)
  unfold Smp.step at hstep
  cases hk : s.pc d with
  | idle =>
    simp only [hk] at hstep
    cases a with
    | migrate q dest =>
      simp only [Smp.begin] at hstep
      split_ifs at hstep
      obtain rfl := Option.some.inj hstep
      exact .refl _
    | setState sleep =>
      obtain ⟨q, -, rfl⟩ := Option.map_eq_some_iff.mp hstep
      have := samePlace_write (s := s) (p := p) (q := q) (d := d) (k := .idle)
        (t := { s.task q with state := if sleep then .sleeping else .running }) fun hq =>
          hq ▸ ⟨rfl, rfl, rfl⟩
      exact this
    | taskRqLock q | wake q | pending | schedule | post =>
      obtain rfl := Option.some.inj hstep
      exact .refl _
    | _ => cases hstep
  | acquire l k =>
    simp only [hk] at hstep
    split_ifs at hstep
    obtain rfl := Option.some.inj hstep
    exact .refl _
  | rqCheck q r | wakeState q | wakeRqCheck q r =>
    simp only [hk, ← apply_ite some] at hstep
    obtain rfl := Option.some.inj hstep
    split_ifs <;> exact .refl _
  | held q r =>
    simp only [hk] at hstep
    cases a with
    | dequeue =>
      simp only [Smp.held] at hstep
      split_ifs at hstep
      obtain rfl := Option.some.inj hstep
      have hmem : (q, .pinned r) ∈ claims (s.pc d) := hk ▸ List.mem_singleton.mpr rfl
      exact hclaimed _ r (h.claim d q _ hmem) hmem (by simp [Claim.locks])
    | setAllowed mask =>
      simp only [Smp.held] at hstep
      split_ifs at hstep
      obtain rfl := Option.some.inj hstep
      exact .refl _
    | next | changed pull =>
      obtain rfl := Option.some.inj hstep
      exact .refl _
    | _ => cases hstep
  | taken q r =>
    simp only [hk] at hstep
    obtain rfl := Option.some.inj hstep
    have hmem : (q, .taken r) ∈ claims (s.pc d) := hk ▸ List.mem_singleton.mpr rfl
    exact hclaimed _ r (h.claim d q _ hmem).1 hmem (by simp [Claim.locks])
  | wakeRemote q r =>
    simp only [hk, ← apply_ite some] at hstep
    obtain rfl := Option.some.inj hstep
    split_ifs
    · exact samePlace_write fun hq => hq ▸ ⟨rfl, rfl, rfl⟩
    · exact .refl _
  | wakeSpin q =>
    simp only [hk] at hstep
    split_ifs at hstep
    obtain rfl := Option.some.inj hstep
    exact .refl _
  | wakeMark q | activateRun q r b | schedOn prev q =>
    simp only [hk] at hstep
    obtain rfl := Option.some.inj hstep
    exact samePlace_write fun hq => hq ▸ ⟨rfl, rfl, rfl⟩
  | wakeSelect q =>
    simp only [hk] at hstep
    cases a with
    | cpu r =>
      dsimp only at hstep
      split_ifs at hstep
      obtain rfl := Option.some.inj hstep
      refine samePlace_write fun hq => ?_
      subst hq
      exact (hpi (h.held (hk ▸ List.mem_singleton.mpr rfl) (x := .marked)
        (List.mem_singleton.mpr rfl))).elim
    | next =>
      obtain rfl := Option.some.inj hstep
      exact .refl _
    | _ => cases hstep
  | wakeQueue q =>
    simp only [hk] at hstep
    cases a with
    | remote | next =>
      obtain rfl := Option.some.inj hstep
      exact .refl _
    | _ => cases hstep
  | activate q r b =>
    simp only [hk] at hstep
    obtain rfl := Option.some.inj hstep
    exact hlocked r (h.activate_off hk).1 (by rw [hk]; exact .inl rfl)
  | activateOnRq q r b =>
    simp only [hk] at hstep
    obtain rfl := Option.some.inj hstep
    have hmem : (q, .entering r) ∈ claims (s.pc d) := hk ▸ List.mem_singleton.mpr rfl
    exact hclaimed _ r (h.claim d q _ hmem).2.2.2.1 hmem (by simp [Claim.locks])
  | schedState =>
    simp only [hk, Smp.schedState] at hstep
    cases hcurr : s.curr d with
    | none =>
      rw [hcurr] at hstep
      obtain rfl := Option.some.inj hstep
      exact .refl _
    | some q =>
      simp only [hcurr] at hstep
      split_ifs at hstep
      · obtain rfl := Option.some.inj hstep
        exact .refl _
      · cases a with
        | preempted =>
          obtain rfl := Option.some.inj hstep
          exact .refl _
        | signal =>
          obtain rfl := Option.some.inj hstep
          exact samePlace_write fun hq => hq ▸ ⟨rfl, rfl, rfl⟩
        | next =>
          obtain rfl := Option.some.inj hstep
          exact hlocked d (h.current d q hcurr).1 (by rw [hk]; rfl)
        | _ => cases hstep
  | schedOnRq q =>
    simp only [hk] at hstep
    obtain rfl := Option.some.inj hstep
    have hmem : (q, .leaving) ∈ claims (s.pc d) := hk ▸ List.mem_singleton.mpr rfl
    exact hclaimed _ d (h.claim d q _ hmem).1 hmem (by simp [Claim.locks])
  | schedWorker =>
    simp only [hk] at hstep
    cases a with
    | task q =>
      simp only [Smp.schedWorker] at hstep
      split_ifs at hstep <;> obtain rfl := Option.some.inj hstep <;> exact .refl _
    | next =>
      obtain rfl := Option.some.inj hstep
      exact .refl _
    | _ => cases hstep
  | workerLock q =>
    simp only [hk, workerLock] at hstep
    obtain rfl := Option.some.inj hstep
    split_ifs <;> exact .refl _
  | workerState q =>
    simp only [hk, workerState] at hstep
    obtain rfl := Option.some.inj hstep
    split_ifs
    · exact .refl _
    · exact samePlace_write fun hq => hq ▸ ⟨rfl, rfl, rfl⟩
    · exact .refl _
  | schedPick =>
    simp only [hk] at hstep
    cases a with
    | task q | next =>
      simp only [Smp.schedPick] at hstep
      split_ifs at hstep <;> obtain rfl := Option.some.inj hstep <;> exact .refl _
    | _ => cases hstep
  | schedOff prev =>
    simp only [hk] at hstep
    cases prev with
    | none =>
      obtain rfl := Option.some.inj hstep
      exact .refl _
    | some q =>
      obtain rfl := Option.some.inj hstep
      exact samePlace_write fun hq => hq ▸ ⟨rfl, rfl, rfl⟩
  | migrate q dest =>
    simp only [hk] at hstep
    split_ifs at hstep with hcheck
    · obtain rfl := Option.some.inj hstep
      exact hlocked d hcheck.1 (by rw [hk]; exact .inr (.inl rfl))
    · obtain rfl := Option.some.inj hstep
      exact .refl _
  | moveCpu q src dst k =>
    simp only [hk] at hstep
    obtain rfl := Option.some.inj hstep
    have hmem : (q, .moving src) ∈ claims (s.pc d) := hk ▸ List.mem_singleton.mpr rfl
    exact hclaimed _ src (h.claim d q _ hmem).1 hmem (by simp [Claim.locks])
  | moveEnqueue q dst k =>
    simp only [hk] at hstep
    obtain rfl := Option.some.inj hstep
    have hmem : (q, .moving dst) ∈ claims (s.pc d) := hk ▸ List.mem_singleton.mpr rfl
    exact hclaimed _ dst (h.claim d q _ hmem).1 hmem (by simp [Claim.locks])
  | push r b =>
    simp only [hk] at hstep
    cases a with
    | push q dst =>
      simp only [pushRtTask] at hstep
      split_ifs at hstep
      obtain rfl := Option.some.inj hstep
      exact .refl _
    | next =>
      obtain rfl := Option.some.inj hstep
      exact .refl _
    | _ => cases hstep
  | pull r b =>
    simp only [hk] at hstep
    cases a with
    | cpu src =>
      simp only [pullRtTask] at hstep
      split_ifs at hstep
      obtain rfl := Option.some.inj hstep
      exact .refl _
    | next =>
      obtain rfl := Option.some.inj hstep
      exact .refl _
    | _ => cases hstep
  | pushBalance q r dst b | pullBalance r src b =>
    simp only [hk] at hstep
    obtain rfl := Option.some.inj hstep
    rw [doubleLockBalance_task]
    exact .refl _
  | pushCheck dropped q r dst b =>
    simp only [hk] at hstep
    cases a with
    | task q' =>
      simp only [Smp.pushCheck] at hstep
      split_ifs at hstep with hq hcheck
      obtain rfl := Option.some.inj hstep
      have hcpu : (s.task q).cpu = r := by
        cases dropped with
        | true =>
          by_contra hne
          exact hcheck ⟨rfl, .inl hne⟩
        | false =>
          exact h.queueCpu q r (h.claim d q (.waiting r) (hk ▸ List.mem_singleton.mpr rfl)).1
      exact hlocked r hcpu (by rw [hk]; exact .inl rfl)
    | next =>
      obtain rfl := Option.some.inj hstep
      exact .refl _
    | _ => cases hstep
  | pullPick r src b =>
    simp only [hk] at hstep
    cases a with
    | task q =>
      simp only [Smp.pullPick] at hstep
      split_ifs at hstep with hcheck
      obtain rfl := Option.some.inj hstep
      exact hlocked src (h.queueCpu q src hcheck.1) (by rw [hk]; exact .inr (.inl rfl))
    | next =>
      obtain rfl := Option.some.inj hstep
      exact .refl _
    | _ => cases hstep
  | release l k | rqOf q | wakeOnRq q | wakeRqOf q =>
    simp only [hk] at hstep
    obtain rfl := Option.some.inj hstep
    exact .refl _

/-- **The invariants hold in every run.** -/
theorem invs_of_reachable (hs : Reachable (step preempt) (boot home mask bound) s) :
    Inv s ∧ Bound s :=
  hs.invariant (P := fun s => Inv s ∧ Bound s)
    (fun _ _ _ h hstep => ⟨h.1.step h.2 hstep, h.2.step hstep⟩) ⟨Inv.boot, Bound.boot⟩

theorem inv_of_reachable (hs : Reachable (step preempt) (boot home mask bound) s) : Inv s :=
  (invs_of_reachable hs).1

/-- One task, which sleeps, and two processors. -/
def sampleBoot : Sys (Fin 1) (Fin 2) := boot (fun _ => Fin.last 1) (fun _ _ => true) fun _ => none

/-- **`task_rq_lock` holds on to the task.** From `task_rq_lock` on until the lock is given back, by
`task_rq_unlock` or by the pushes and pulls of `check_class_changed`, and in `ttwu_remote` up to
`task_woken`, whatever the other processors do: both locks are held and the task is at the run queue
that is locked. Between `dequeue_task` and `enqueue_task` it is in no queue and marked as enqueued;
else it is enqueued there, and nowhere else, if it is marked so. No step of another processor moves
it, takes it from its queue or marks it. -/
theorem task_rq_lock_pins (hs : Reachable (step preempt) (boot home mask bound) s)
    (hk : s.pc c = .held p r ∨ s.pc c = .taken p r ∨ s.pc c = .wakeRemote p r) :
    s.owner (.pi p) = some c ∧ s.owner (.rq r) = some c ∧ (s.task p).cpu = r ∧
      (s.pc c = .taken p r → (s.task p).onRq = true ∧ ∀ r', (s.task p).queue r' = false) ∧
      (s.pc c ≠ .taken p r → ∀ r', (s.task p).queue r' = true ↔ (s.task p).onRq = true ∧ r' = r) ∧
      ∀ d a s', d ≠ c → step preempt s (d, a) = some s' → (s.task p).SamePlace (s'.task p) := by
  have h := inv_of_reachable hs
  -- what the processor relies on, and that it names both locks and the run queue
  obtain ⟨x, hmem, hx, hcpu⟩ : ∃ x, (p, x) ∈ claims (s.pc c) ∧ x.locks c p = [.pi p, .rq r] ∧
      (s.task p).cpu = r := by
    rcases hk with hk | hk | hk
    · have hmem : (p, .pinned r) ∈ claims (s.pc c) := by simp [hk, claims]
      exact ⟨_, hmem, rfl, h.claim c p _ hmem⟩
    · have hmem : (p, .taken r) ∈ claims (s.pc c) := by simp [hk, claims]
      exact ⟨_, hmem, rfl, (h.claim c p _ hmem).1⟩
    · have hmem : (p, .pinned r) ∈ claims (s.pc c) := by simp [hk, claims]
      exact ⟨_, hmem, rfl, h.claim c p _ hmem⟩
  have hpi : s.owner (.pi p) = some c := h.held hmem (by simp [hx])
  have hown : s.owner (.rq r) = some c := h.held hmem (by simp [hx])
  -- who would move the task needs one of the two locks
  refine ⟨hpi, hown, hcpu, fun htaken => ?_, fun hnot r' => ?_, fun d a s' hd hstep => ?_⟩
  · obtain ⟨-, hon, hq⟩ := h.claim c p (.taken r) (by simp [htaken, claims])
    refine ⟨hon, fun r' => ?_⟩
    by_contra hr'
    obtain rfl := (h.queueCpu p r' (by simpa using hr')).symm.trans hcpu
    exact hr' hq
  · rw [h.queue_iff fun d x hd hx => ?_, hcpu, eq_comm (a := r)]
    -- the processor itself does not have the task in its hands
    rw [hcpu, hown] at hd
    obtain rfl := Option.some.inj hd
    rcases hk with hk | hk | hk
    · simp only [hk, claims, List.mem_singleton, Prod.mk.injEq] at hx
      rw [hx.2]
      exact ⟨id, fun _ => by simp⟩
    · exact absurd hk hnot
    · simp only [hk, claims, List.mem_cons, Prod.mk.injEq, List.not_mem_nil, or_false] at hx
      rcases hx with ⟨-, rfl⟩ | ⟨-, rfl⟩
      · exact ⟨id, fun _ => by simp⟩
      · exact ⟨id, fun _ => by simp⟩
  · refine h.step_samePlace hstep ?_ ?_
    · rw [hcpu, hown]
      exact fun heq => hd (Option.some.inj heq).symm
    · rw [hpi]
      exact fun heq => hd (Option.some.inj heq).symm

/-- Processor 0 locks a task that sleeps while processor 1 waits for its `pi_lock`. -/
theorem task_rq_lock_pins_contended : ∃ s : Sys (Fin 1) (Fin 2),
    Reachable (step true) sampleBoot s ∧ s.pc 0 = .held 0 1 ∧
      s.pc 1 = .acquire (.pi 0) (.wakeState 0) ∧ s.owner (.rq 1) = some 0 ∧ (s.task 0).cpu = 1 := by
  have hs := run_reachable (show run (step true) sampleBoot
    [(0, .taskRqLock 0), (0, .next), (1, .wake 0), (0, .next), (0, .next), (0, .next)] =
      some _ from rfl)
  have h := task_rq_lock_pins (c := 0) (p := 0) (r := 1) hs (.inl rfl)
  exact ⟨_, hs, rfl, rfl, h.2.1, h.2.2.1⟩

/-- **Every wakeup is made once.** A task that `ttwu_queue_remote` adds is on no list, and in none
that a processor has taken, so that its one `wake_entry` is free. A task on a list is on that list
only, once, and waits for that processor. A task that `ttwu_activate` enqueues is in no queue and
does not run, whether it was woken here, left to this processor or woken by a worker that goes to
sleep. -/
theorem wakeup_made_once (hs : Reachable (step preempt) (boot home mask bound) s) :
    (∀ c p, s.pc c = .wakeQueue p → ¬ Listed s p) ∧
      (∀ p r, p ∈ s.wakeList r ∨ p ∈ left (s.pc r) →
        (s.task p).state = .waking ∧ (s.task p).cpu = r ∧
          (left (s.pc r) ++ s.wakeList r).Nodup ∧
          ∀ r', p ∈ s.wakeList r' ∨ p ∈ left (s.pc r') → r' = r) ∧
      ∀ c p r b, s.pc c = .activate p r b → (s.task p).cpu = r ∧ (s.task p).onRq = false ∧
        (s.task p).onCpu = false ∧ ∀ r', (s.task p).queue r' = false := by
  have h := inv_of_reachable hs
  refine ⟨fun c p hk => ?_, fun p r hr => ?_, fun c p r b hk => ?_⟩
  · exact (h.claim c p .marked (hk ▸ List.mem_singleton.mpr rfl)).2.2.1
  · obtain ⟨-, -, hst, hcpu⟩ := h.listed p r hr
    exact ⟨hst, hcpu, h.nodup r, fun r' hr' => (h.listed p r' hr').cpu.symm.trans hcpu⟩
  · obtain ⟨hcpu, hon, honCpu⟩ := h.activate_off hk
    refine ⟨hcpu, hon, honCpu, fun r' => ?_⟩
    by_contra hq
    have hq : (s.task p).queue r' = true := by simpa using hq
    obtain rfl := (h.queueCpu p r' hq).symm.trans hcpu
    have hown : s.owner (.rq r') = some c := (h.owner _ c).mpr (by rw [hk]; exact .inl rfl)
    have :=
      h.onRq_of_queue hown (fun r hr => by rw [hk] at hr; simpa using (mem_claims_activate hr).1) hq
    rw [hon] at this
    cases this

/-- A wakeup is left to processor 1, which takes it from its list. -/
theorem wakeup_made_once_remote : ∃ s : Sys (Fin 1) (Fin 2),
    Reachable (step false) sampleBoot s ∧
      s.pc 1 = .activate 0 1 (.pending []) ∧ (s.task 0).cpu = 1 ∧
      ∀ r, (s.task 0).queue r = false := by
  have hs := run_reachable (show run (step false) sampleBoot
    [(0, .wake 0), (0, .next), (0, .next), (0, .next), (0, .next), (0, .next),
      (0, .next), (0, .remote), (1, .pending), (1, .next)] = some _ from rfl)
  have h := (wakeup_made_once hs).2.2 1 0 1 (.pending []) rfl
  exact ⟨_, hs, rfl, h.1, h.2.2.2⟩

/-! ## Waiting -/

/-- The order of what processors wait for: a task's lock, a task to leave its processor, the lock of
a worker that is woken from `__schedule`, and a run queue's lock. -/
abbrev Rank (Cpu : Type) : Type := WithBot (WithBot (WithBot Cpu))

namespace Rank

/-- A task's `pi_lock`. -/
def pi : Rank Cpu := ⊥
/-- The busy wait of `try_to_wake_up` on `on_cpu`. -/
def spin : Rank Cpu := WithBot.some ⊥
/-- The `pi_lock` of a worker, in `try_to_wake_up_local`. -/
def worker : Rank Cpu := WithBot.some (WithBot.some ⊥)
/-- A run queue's lock. -/
def rq (r : Cpu) : Rank Cpu := WithBot.some (WithBot.some (WithBot.some r))

theorem pi_lt_spin : (pi : Rank Cpu) < spin := WithBot.bot_lt_coe _

theorem spin_lt_worker : (spin : Rank Cpu) < worker := WithBot.coe_lt_coe.mpr (WithBot.bot_lt_coe _)

theorem worker_lt_rq : worker < rq r :=
  WithBot.coe_lt_coe.mpr (WithBot.coe_lt_coe.mpr (WithBot.bot_lt_coe _))

theorem rq_lt_rq (h : c < r) : rq c < rq r :=
  WithBot.coe_lt_coe.mpr (WithBot.coe_lt_coe.mpr (WithBot.coe_lt_coe.mpr h))

theorem pi_lt_rq : pi < rq r := pi_lt_spin.trans (spin_lt_worker.trans worker_lt_rq)

end Rank

/-- What a processor waits for that is to take lock `l` and go on at `k`. -/
def Lock.rank (l : Lock Task Cpu) (k : Pc Task Cpu) : Rank Cpu :=
  match l, k with
  | .pi _, .acquire _ (.workerState _) => .worker
  | .pi _, _ => .pi
  | .rq r, _ => .rq r

omit [DecidableEq Task] in
/-- Run queues come after the locks of tasks. -/
theorem Lock.rank_pi_lt_rq : (Lock.pi p).rank k < Rank.rq r := by
  unfold Lock.rank
  split
  · exact Rank.worker_lt_rq
  · exact Rank.pi_lt_rq
  · contradiction

/-- What a processor waits for; `⊥` if it can go on. -/
def waits (s : Sys Task Cpu) (c : Cpu) : WithBot (Rank Cpu) :=
  match s.pc c with
  | .acquire l k => if s.owner l = none then ⊥ else WithBot.some (l.rank k)
  | .wakeSpin p => if (s.task p).onCpu then WithBot.some .spin else ⊥
  | _ => ⊥

/-- A processor that does not wait can go on. -/
theorem step_of_not_waiting (hidle : s.pc c ≠ .idle) (hgo : waits s c = ⊥) :
    ∃ a s', step preempt s (c, a) = some s' := by
  cases hk : s.pc c with
  | idle => exact absurd hk hidle
  | acquire l k =>
    refine ⟨.next, ?_⟩
    cases hfree : s.owner l with
    | none => exact ⟨_, by simp only [step, hk, hfree, if_true]; rfl⟩
    | some d => simp [waits, hk, hfree] at hgo
  | wakeSpin p =>
    have hoff : (s.task p).onCpu = false := by
      by_contra hon
      simp [waits, hk, hon] at hgo
    exact ⟨.next, _, by simp only [step, hk, hoff, Bool.false_eq_true, if_false]; rfl⟩
  | rqCheck p r | wakeState p | wakeRqCheck p r | wakeRemote p r | migrate p dest =>
    refine ⟨.next, ?_⟩
    simp only [step, hk]
    split_ifs <;> exact ⟨_, rfl⟩
  | schedState =>
    refine ⟨.next, ?_⟩
    simp only [step, hk, schedState]
    cases s.curr c with
    | none => exact ⟨_, rfl⟩
    | some p =>
      dsimp only
      split_ifs <;> exact ⟨_, rfl⟩
  | schedPick =>
    refine ⟨.next, ?_⟩
    simp only [step, hk, schedPick]
    split_ifs <;> exact ⟨_, rfl⟩
  | schedOff prev =>
    refine ⟨.next, ?_⟩
    simp only [step, hk]
    cases prev <;> exact ⟨_, rfl⟩
  | _ => exact ⟨.next, _, by simp only [step, hk]; rfl⟩

omit [DecidableEq Task] in
/-- A worker whose lock `__schedule` waits for runs nowhere: it is bound to that processor and is
not the one that is switched from. So nobody who holds the lock waits for it to leave its
processor. -/
theorem Inv.worker_off (h : Inv s) (hbound : Bound s) {l : Lock Task Cpu}
    (hk : s.pc c = .acquire (.pi p) (.acquire l (.workerState q))) : (s.task p).onCpu = false := by
  obtain rfl : p = q := by
    have hsound := h.sound c
    rw [hk] at hsound
    have hworker := hsound.2.2.2.2 trivial p rfl
    simp only [Pc.acquire.injEq, Pc.workerState.injEq] at hworker
    exact hworker.2.symm
  have hclaims : claims (s.pc c) = [(p, .notCurrent)] := by rw [hk]; rfl
  have hcpu : (s.task p).cpu = c :=
    hbound.cpu p c (hbound.worker c p (by rw [hk]; exact List.mem_singleton.mpr rfl))
  have hnot : s.curr c ≠ some p := h.claim c p .notCurrent (by simp [hclaims])
  by_contra hon
  rcases h.runs p (by simpa using hon) with hcurr | hx
  · exact hnot (hcpu ▸ hcurr)
  · rw [hcpu, hclaims] at hx
    simp at hx

omit [DecidableEq Task] in
/-- Who holds the lock that a processor waits for waits, if at all, for something later in the
order. -/
theorem Inv.waits_lock (h : Inv s) (hbound : Bound s) {l : Lock Task Cpu}
    (hk : s.pc c = .acquire l k)
    (hown : s.owner l = some d) :
    s.pc d ≠ .idle ∧ (waits s d = ⊥ ∨ WithBot.some (l.rank k) < waits s d) := by
  have hheld := (h.owner l d).mp hown
  refine ⟨fun hidle => ?_, ?_⟩
  · rw [hidle] at hheld
    exact hheld
  · have hsound := h.sound d
    unfold waits
    -- the holder waits for a lock, for a task to leave its processor, or not at all
    cases hd : s.pc d with
    -- locks are taken in order
    | acquire m k' =>
      rw [hd] at hheld hsound
      have hbefore : l.Before m := hsound.2.2.1 l hheld.1 hheld.2
      dsimp only
      split_ifs
      · exact .inl rfl
      · refine .inr (WithBot.coe_lt_coe.mpr ?_)
        cases m with
        | pi q => cases l <;> exact hbefore.elim
        | rq r' =>
          cases l with
          | pi p => exact Lock.rank_pi_lt_rq
          | rq r => exact Rank.rq_lt_rq hbefore
    -- the holder of a `pi_lock` that waits for the task itself: not for a worker
    | wakeSpin p =>
      rw [hd] at hheld
      obtain rfl : l = .pi p := hheld
      dsimp only
      split_ifs with hon
      · refine .inr (WithBot.coe_lt_coe.mpr ?_)
        unfold Lock.rank
        split
        · rw [h.worker_off hbound hk] at hon
          cases hon
        · exact Rank.pi_lt_spin
        · contradiction
      · exact .inl rfl
    | _ => exact .inl rfl

omit [DecidableEq Task] in
/-- A task that is waited for to leave its processor is being switched from there. -/
theorem Inv.waits_spin (h : Inv s) (hk : s.pc c = .wakeSpin p) (hon : (s.task p).onCpu = true) :
    s.pc (s.task p).cpu ≠ .idle ∧
    (waits s (s.task p).cpu = ⊥ ∨ waits s c < waits s (s.task p).cpu) := by
  obtain ⟨hoff, -⟩ := h.claim c p .blocked (hk ▸ List.mem_singleton.mpr rfl)
  have hsound := h.sound (s.task p).cpu
  -- the task is off its run queue and still `on_cpu`: its processor is in the middle of a switch
  have hgone : gone (s.pc (s.task p).cpu) ∨ (p, .outgoing) ∈ claims (s.pc (s.task p).cpu) := by
    refine (h.runs p hon).imp_left fun hcurr => ?_
    refine (h.current _ p hcurr).2.2.resolve_left fun hon' => ?_
    rw [hoff] at hon'
    cases hon'
  have hspin : waits s c = WithBot.some .spin := by
    simp [waits, hk, hon]
  rw [hspin]
  cases hd : s.pc (s.task p).cpu with
  | idle =>
    rw [hd] at hgone
    exact (hgone.elim id List.not_mem_nil).elim
  -- on the way there it waits for run queues, or for a worker
  | acquire m k' =>
    rw [hd] at hgone hsound
    obtain ⟨-, -, -, hclaims, hworker⟩ := hsound
    have hgone := hgone.resolve_right fun hx => (hclaims _ hx).2 trivial
    refine ⟨by simp, ?_⟩
    simp only [waits, hd]
    split_ifs
    · exact .inl rfl
    · refine .inr (WithBot.coe_lt_coe.mpr ?_)
      cases m with
      | pi q =>
        rw [hworker hgone q rfl]
        exact Rank.spin_lt_worker
      | rq r => exact Rank.spin_lt_worker.trans Rank.worker_lt_rq
  | wakeSpin q =>
    rw [hd] at hgone
    refine (hgone.elim id fun hx => ?_).elim
    simp [claims] at hx
  | _ => exact ⟨by simp, .inl (by simp [waits, hd])⟩

/-- **No deadlock.** While some processor is inside the scheduler, one of these can go on: the locks
are taken in one order; a wakeup that waits for a task to leave its processor waits for a processor
that needs run queues only, or the lock of a worker; and who holds that lock does not wait for the
worker. -/
theorem smp_no_deadlock [Finite Cpu] (hs : Reachable (step preempt) (boot home mask bound) s)
    (hbusy : ∃ c, s.pc c ≠ .idle) : ∃ c a s', s.pc c ≠ .idle ∧ step preempt s (c, a) = some s' := by
  obtain ⟨h, hbound⟩ := invs_of_reachable hs
  -- whoever waits, waits for somebody later in the order
  have hwait : ∀ c, s.pc c ≠ .idle → waits s c ≠ ⊥ →
      ∃ d, s.pc d ≠ .idle ∧ (waits s d = ⊥ ∨ waits s c < waits s d) := by
    intro c _ hc
    cases hk : s.pc c with
    | acquire l k =>
      cases hown : s.owner l with
      | none => simp [waits, hk, hown] at hc
      | some d =>
        have hrank : waits s c = WithBot.some (l.rank k) := by simp [waits, hk, hown]
        rw [hrank]
        exact ⟨d, h.waits_lock hbound hk hown⟩
    | wakeSpin p =>
      have hon : (s.task p).onCpu = true := by
        by_contra hon
        simp [waits, hk, hon] at hc
      exact ⟨_, h.waits_spin hk hon⟩
    | _ => simp [waits, hk] at hc
  obtain ⟨c, hc, hgo⟩ := exists_busy_not_waiting hwait hbusy
  obtain ⟨a, s', hstep⟩ := step_of_not_waiting hc hgo
  exact ⟨c, a, s', hc, hstep⟩

/-- Task 0 runs at processor 0 and goes to sleep while task 1, a worker that is bound there, is
woken from processor 1: processor 0 has given its run queue back and waits for the worker's lock,
with task 0 dequeued and still `on_cpu`. -/
theorem smp_no_deadlock_worker : ∃ s : Sys (Fin 2) (Fin 2),
    Reachable (step false)
        (boot (fun _ => Fin.last 1) (fun _ _ => true) fun p => if p = 0 then none else some 0) s ∧
      s.pc 0 = .acquire (.pi 1) (.acquire (.rq 0) (.workerState 1)) ∧ s.pc 1 = .wakeSpin 1 ∧
      s.owner (.pi 1) = some 1 ∧ (s.task 0).onRq = false ∧ (s.task 0).onCpu = true ∧
      ∃ c a s', s.pc c ≠ .idle ∧ step false s (c, a) = some s' := by
  have hs := run_reachable (show run (step false)
    (boot (fun _ => Fin.last 1) (fun _ _ => true) fun p : Fin 2 => if p = 0 then none else some 0)
    -- task 0 is woken, runs, and goes to sleep; the worker is woken before `wq_worker_sleeping`
    [(0, .wake 0), (0, .next), (0, .next), (0, .next), (0, .next), (0, .next), (0, .cpu 0),
      (0, .next), (0, .next), (0, .next), (0, .next), (0, .next), (0, .next), (0, .next),
      (0, .next), (0, .schedule), (0, .next), (0, .next), (0, .next), (0, .task 0), (0, .next),
      (0, .next), (0, .next), (0, .setState true), (0, .schedule), (0, .next), (0, .next),
      (0, .next), (1, .wake 1), (1, .next), (1, .next), (1, .next), (0, .task 1), (0, .next),
      (0, .next)] = some _ from rfl)
  have hwait : ∀ {s : Sys (Fin 2) (Fin 2)} {l k}, s.pc 0 = .acquire l k → s.pc 0 ≠ .idle := by
    intro s l k hk
    simp [hk]
  exact ⟨_, hs, rfl, rfl, rfl, rfl, rfl, smp_no_deadlock hs ⟨0, hwait rfl⟩⟩

end LinuxKernel.Smp

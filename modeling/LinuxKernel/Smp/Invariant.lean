import Mathlib.Data.List.Nodup
import LinuxKernel.Smp.Claims

/-!
# The invariant of the run queues

Every processor holds the locks of the place that it is at, and what it relies on is true. The rest
says where a task is: it is current and enqueued at its own processor only, and `on_rq` and `on_cpu`
say so except while a processor that has locked the run queue is about to write them.

* `Sound`       — the locks are taken in order, and protect what is relied on.
* `claims_held` — a processor holds the locks that its claims need.
* `Inv`         — the invariant.
* `Inv.update`  — what a step has to show for the tasks that it writes to; all else stays.
* `Inv.lock`, `Inv.release` — steps that take a lock or give it back.
-/

namespace LinuxKernel.Smp

variable {Task Cpu : Type}

section Order

variable [LinearOrder Cpu] {s : Sys Task Cpu} {c d r : Cpu} {k k₀ : Pc Task Cpu} {p q : Task}
  {b : Back Task}

/-- The order in which locks are taken: a task's first, then run queues by their addresses. -/
def Lock.Before : Lock Task Cpu → Lock Task Cpu → Prop
  | .pi _, .rq _ => True
  | .rq a, .rq b => a < b
  | _, .pi _ => False

/-- The locks that the code takes and gives back, and what it relies on meanwhile. -/
def Sound (c : Cpu) : Pc Task Cpu → Prop
  | .acquire m k =>
    Sound c k ∧ holds c k m ∧ (∀ l, holds c k l → l ≠ m → l.Before m) ∧
      (∀ x ∈ claims k, m ∉ x.2.locks c x.1 ∧ ¬ x.2.Hard) ∧
      -- the one lock of a task that `__schedule` waits for
      (gone k → ∀ p, m = .pi p → k = .acquire (.rq c) (.workerState p))
  | .release m k => Sound c k ∧ ¬ holds c k m ∧ ∀ x ∈ claims k, ¬ x.2.Hard
  | .activate p r b | .activateOnRq p r b | .activateRun p r b =>
    match b with
    | .task q => q = p
    | .pending _ => r = c
    | .worker q => q = p ∧ r = c
    | _ => False
  | .moveCpu _ src dst k => Sound c k ∧ claims k = [] ∧ holds c k (.rq src) ∧ holds c k (.rq dst)
  | .moveEnqueue _ dst k => Sound c k ∧ claims k = [] ∧ holds c k (.rq dst)
  | .push r b | .pull r b => b.Local c r
  | .pushBalance _ r q b | .pushCheck _ _ r q b | .pullBalance r q b | .pullPick r q b =>
    r ≠ q ∧ b.Local c r
  | _ => True

/-- **Claims are protected.** A processor holds the locks that its claims need. -/
theorem claims_held {c : Cpu} {k : Pc Task Cpu} (hk : Sound c k) {x : Task × Claim Cpu}
    (hx : x ∈ claims k) {l : Lock Task Cpu} (hl : l ∈ x.2.locks c x.1) : holds c k l := by
  induction k with
  | acquire m k ih =>
    obtain ⟨hsound, -, -, hne, -⟩ := hk
    exact ⟨ih hsound hx, fun heq => (hne x hx).1 (heq ▸ hl)⟩
  | release m k ih => exact .inl (ih hk.1 hx)
  | moveCpu p src dst k =>
    obtain rfl := List.mem_singleton.mp hx
    rw [List.mem_singleton.mp hl]
    exact hk.2.2.1
  | moveEnqueue p dst k =>
    obtain rfl := List.mem_singleton.mp hx
    rw [List.mem_singleton.mp hl]
    exact hk.2.2
  | activate p r b =>
    obtain ⟨rfl, q, rfl | rfl⟩ := mem_claims_activate hx
    · obtain rfl : q = p := hk
      rw [List.mem_singleton.mp hl]
      exact .inr rfl
    · obtain ⟨rfl, -⟩ : q = p ∧ r = c := hk
      rw [List.mem_singleton.mp hl]
      exact .inr rfl
  | pushCheck dropped p r q b =>
    cases dropped with
    | true => exact absurd hx List.not_mem_nil
    | false =>
      obtain rfl := List.mem_singleton.mp hx
      exact .inl (List.mem_singleton.mp hl)
  | activateOnRq p r b | activateRun p r b | pushBalance p r q b =>
    obtain rfl := List.mem_singleton.mp hx
    exact .inl (List.mem_singleton.mp hl)
  | held p r | taken p r =>
    obtain rfl := List.mem_singleton.mp hx
    simpa [Claim.locks, holds] using hl
  | wakeRemote p r =>
    simp only [claims, List.mem_cons, List.not_mem_nil, or_false] at hx
    rcases hx with rfl | rfl
    · simpa [Claim.locks, holds] using hl
    · exact .inl (List.mem_singleton.mp hl)
  | wakeRqCheck p r =>
    obtain rfl := List.mem_singleton.mp hx
    exact .inl (List.mem_singleton.mp hl)
  | wakeOnRq p | wakeRqOf p | wakeSpin p | wakeMark p | wakeSelect p | wakeQueue p | schedOnRq p =>
    obtain rfl := List.mem_singleton.mp hx
    exact List.mem_singleton.mp hl
  | schedOn prev next =>
    rcases List.mem_cons.mp hx with rfl | hx
    · exact List.mem_singleton.mp hl
    · obtain ⟨p, -, rfl⟩ := List.mem_map.mp hx
      exact List.mem_singleton.mp hl
  | schedOff prev =>
    obtain ⟨p, -, rfl⟩ := List.mem_map.mp hx
    exact List.mem_singleton.mp hl
  | migrate p dest | workerLock p | workerState p =>
    obtain rfl := List.mem_singleton.mp hx
    exact absurd hl List.not_mem_nil
  | _ => exact absurd hx List.not_mem_nil

theorem sound_resume (hb : b.Local c r) : Sound c (.resume r b : Pc Task Cpu) := by
  cases b with
  | post => exact ⟨trivial, id, fun x hx => absurd hx List.not_mem_nil⟩
  | task p =>
    refine ⟨⟨trivial, id, fun x hx => absurd hx List.not_mem_nil⟩, ?_,
      fun x hx => absurd hx List.not_mem_nil⟩
    simp [holds]
  | pending ps =>
    cases ps with
    | nil => exact ⟨trivial, id, fun x hx => absurd hx List.not_mem_nil⟩
    | cons p ps => exact hb
  | pre => trivial
  | worker p =>
    refine ⟨hb, ?_, fun x hx => absurd hx List.not_mem_nil⟩
    simp [holds, Back.holds]

/-- A lock is taken after the locks of tasks and the run queues below it. -/
theorem sound_acquire_rq (hk : Sound c k) (ha : holds c k (.rq a))
    (hother : ∀ r, holds c k (.rq r) → r ≠ a → r < a)
    (hclaims : ∀ x ∈ claims k, .rq a ∉ x.2.locks c x.1 ∧ ¬ x.2.Hard) :
    Sound c (.acquire (.rq a) k) := by
  refine ⟨hk, ha, fun l hl hne => ?_, hclaims, fun _ p hp => by cases hp⟩
  cases l with
  | pi p => trivial
  | rq r => exact hother r hl fun heq => hne (heq ▸ rfl)

/-- The locks of `task_rq_lock(p)`: the run queue's is taken under the task's. -/
theorem sound_acquire_under_pi (hk : Sound c k) (hholds : ∀ l, holds c k l ↔ l = .pi p ∨ l = .rq r)
    (hclaims : ∀ x ∈ claims k, .rq r ∉ x.2.locks c x.1 ∧ ¬ x.2.Hard) :
    Sound c (.acquire (.rq r) k) :=
  sound_acquire_rq hk ((hholds _).mpr (.inr rfl))
    (fun _ hr hne => absurd (Lock.rq.inj (((hholds _).mp hr).resolve_left (by simp))) hne) hclaims

/-- The second run queue is given back. -/
theorem sound_release_second {r' : Cpu} (hne : r ≠ r') (hk : Sound c k)
    (hholds : ∀ l, holds c k l ↔ l = .rq r ∨ b.holds l) (hnone : claims k = []) :
    Sound c (.release (.rq r') k) := by
  refine ⟨hk, fun hl => ?_, fun x hx => by simp [hnone] at hx⟩
  rcases (hholds _).mp hl with heq | hb
  · exact hne (Lock.rq.inj heq).symm
  · exact Back.not_holds_rq hb

/-! ## The invariant -/

/-- Who holds a lock is at a place where it is held. -/
structure Locked (s : Sys Task Cpu) : Prop where
  owner : ∀ l c, s.owner l = some c ↔ holds c (s.pc c) l
  sound : ∀ c, Sound c (s.pc c)

/-- The invariant of the run queues. -/
structure Inv (s : Sys Task Cpu) : Prop extends Locked s where
  claim : ∀ c p x, (p, x) ∈ claims (s.pc c) → x.Ok s c p
  current : ∀ c p, s.curr c = some p → (s.task p).cpu = c ∧
    ((s.task p).onCpu = true ∨ (p, .chosen) ∈ claims (s.pc c)) ∧
    ((s.task p).onRq = true ∨ gone (s.pc c))
  runs : ∀ p, (s.task p).onCpu = true →
    s.curr (s.task p).cpu = some p ∨ (p, .outgoing) ∈ claims (s.pc (s.task p).cpu)
  queueCpu : ∀ p r, (s.task p).queue r = true → (s.task p).cpu = r
  queueOn : ∀ p, (s.task p).queue (s.task p).cpu = true →
    (s.task p).onRq = true ∨ ∃ c r, (p, .entering r) ∈ claims (s.pc c)
  onQueue : ∀ p, (s.task p).onRq = true →
    (s.task p).queue (s.task p).cpu = true ∨ ∃ c x, (p, x) ∈ claims (s.pc c) ∧ x.Out
  listed : ∀ p r, p ∈ s.wakeList r ∨ p ∈ left (s.pc r) → Waking s p r
  nodup : ∀ c, (left (s.pc c) ++ s.wakeList c).Nodup

/-- A lock has one holder. -/
theorem Inv.held (h : Inv s) {x : Claim Cpu} (hx : (p, x) ∈ claims (s.pc d)) {l : Lock Task Cpu}
    (hl : l ∈ x.locks d p) : s.owner l = some d :=
  (h.owner l d).mpr (claims_held (h.sound d) hx hl)

/-- Two processors do not hold one lock. -/
theorem Inv.conflict (h : Inv s) {l : Lock Task Cpu} (hown : s.owner l = some c) (hd : d ≠ c)
    {x : Claim Cpu}
    (hx : (p, x) ∈ claims (s.pc d)) (hl : l ∈ x.locks d p) : False := by
  have := h.held hx hl
  rw [hown] at this
  exact hd (Option.some.inj this).symm

/-! ## What a lock tells of a task -/

/-- What the lock of a run queue that a processor holds says of the tasks there: no other processor
has one of them in its hands. -/
theorem Inv.onRq_of_queue (h : Inv s) {r : Cpu} (hown : s.owner (.rq r) = some c)
    (hno : ∀ r, (p, .entering r) ∉ claims (s.pc c)) (hq : (s.task p).queue r = true) :
    (s.task p).onRq = true := by
  have hcpu := h.queueCpu p r hq
  subst hcpu
  rcases h.queueOn p hq with hon | ⟨d, r, hx⟩
  · exact hon
  · have hr : (s.task p).cpu = r := (h.claim d p _ hx).2.2.2.1
    have hd : s.owner (.rq r) = some d := h.held hx (List.mem_singleton.mpr rfl)
    rw [← hr, hown] at hd
    obtain rfl := Option.some.inj hd
    exact absurd hx (hno r)

/-- A task at a run queue that a processor has locked runs only if it is the current one there. -/
theorem Inv.onCpu_of_ne (h : Inv s) (hown : s.owner (.rq (s.task p).cpu) = some c)
    (hno : (p, .outgoing) ∉ claims (s.pc c)) (hcurr : s.curr (s.task p).cpu ≠ some p) :
    (s.task p).onCpu = false := by
  by_contra hon
  rcases h.runs p (by simpa using hon) with hrun | hx
  · exact hcurr hrun
  · have hd : s.owner (.rq (s.task p).cpu) = some (s.task p).cpu :=
      h.held hx (List.mem_singleton.mpr rfl)
    rw [hown] at hd
    obtain rfl := Option.some.inj hd
    exact hno hx

/-- A task that a processor wakes is in no queue. -/
theorem Inv.not_queued (h : Inv s) (hpi : s.owner (.pi p) = some c) (hl : ¬ Listed s p)
    (hno : ∀ r, (p, .entering r) ∉ claims (s.pc c)) (hon : (s.task p).onRq = false) (r : Cpu) :
    (s.task p).queue r = false := by
  by_contra hq
  have hq : (s.task p).queue r = true := by simpa using hq
  have hcpu := h.queueCpu p r hq
  subst hcpu
  rcases h.queueOn p hq with hon' | ⟨d, r, hx⟩
  · rw [hon] at hon'
    cases hon'
  · obtain ⟨-, -, -, -, hown | hleft⟩ := h.claim d p _ hx
    · rw [hpi] at hown
      obtain rfl := Option.some.inj hown.1
      exact hno r hx
    · exact hl ⟨d, .inr hleft⟩

/-- A listed task is not on a run queue. -/
theorem Inv.not_listed (h : Inv s) (hon : (s.task p).onRq = true) : ¬ Listed s p := by
  rintro ⟨r, hr⟩
  have := (h.listed p r hr).onRq
  rw [hon] at this
  cases this

/-- A task that does not run is current only where it has just been chosen. -/
theorem Inv.not_current (h : Inv s) (hon : (s.task p).onCpu = false)
    (hno : ∀ d, (p, .chosen) ∉ claims (s.pc d)) (d : Cpu) : s.curr d ≠ some p := by
  intro hd
  rcases (h.current d p hd).2.1 with hon' | hx
  · rw [hon] at hon'
    cases hon'
  · exact hno d hx

/-- A task that runs is on its run queue, outside of `__schedule`. -/
theorem Inv.current_of_quiet (h : Inv s) (hcurr : s.curr c = some p) (hnone : claims (s.pc c) = [])
    (hgone : ¬ gone (s.pc c)) :
    (s.task p).cpu = c ∧ (s.task p).onCpu = true ∧ (s.task p).onRq = true := by
  obtain ⟨h1, h2, h3⟩ := h.current c p hcurr
  exact ⟨h1, h2.resolve_right (by simp [hnone]), h3.resolve_right hgone⟩

end Order

/-! ## Steps of one processor -/

section Goto

variable [LinearOrder Cpu] {s : Sys Task Cpu} {c d r : Cpu} {k k₀ : Pc Task Cpu} {p q : Task}

@[simp] theorem goto_pc_self : (s.goto c k).pc c = k := Function.update_self ..

theorem goto_pc_of_ne (hd : d ≠ c) : (s.goto c k).pc d = s.pc d := Function.update_of_ne hd _ _

@[simp] theorem goto_task : (s.goto c k).task = s.task := rfl

@[simp] theorem goto_curr : (s.goto c k).curr = s.curr := rfl

@[simp] theorem goto_wakeList : (s.goto c k).wakeList = s.wakeList := rfl

theorem goto_self (hk : s.pc c = k) : s.goto c k = s := by
  subst hk
  simp [Sys.goto]

@[simp] theorem setCurr_self {o : Option Task} : (s.setCurr c o).curr c = o :=
  Function.update_self ..

theorem setCurr_of_ne {o : Option Task} (hd : d ≠ c) : (s.setCurr c o).curr d = s.curr d :=
  Function.update_of_ne hd _ _

@[simp] theorem setWakeList_self {ps : List Task} : (s.setWakeList c ps).wakeList c = ps :=
  Function.update_self ..

theorem setWakeList_of_ne {ps : List Task} (hd : d ≠ c) :
    (s.setWakeList c ps).wakeList d = s.wakeList d :=
  Function.update_of_ne hd _ _

/-- The holders of the locks, after a step that takes none and gives none back. -/
theorem Locked.goto (h : Locked s) {s' : Sys Task Cpu} (howner : s'.owner = s.owner)
    (hpc : s'.pc = Function.update s.pc c k) (hholds : ∀ l, holds c k l ↔ holds c (s.pc c) l)
    (hsound : Sound c k) : Locked s' := by
  refine ⟨fun l d => ?_, fun d => ?_⟩
  · rw [howner, h.owner l d, hpc]
    by_cases hd : d = c
    · subst hd
      rw [Function.update_self, hholds]
    · rw [Function.update_of_ne hd]
  · rw [hpc]
    by_cases hd : d = c
    · subst hd
      rwa [Function.update_self]
    · rw [Function.update_of_ne hd]
      exact h.sound d

/-- What a step of processor `c` has to show for a task that it writes to. -/
structure Writes (s s' : Sys Task Cpu) (c : Cpu) (p : Task) : Prop where
  other : ∀ d x, d ≠ c → (p, x) ∈ claims (s.pc d) → x.Ok s d p → x.Ok s' d p
  current : ∀ d, s'.curr d = some p → (s'.task p).cpu = d ∧
    ((s'.task p).onCpu = true ∨ (p, .chosen) ∈ claims (s'.pc d)) ∧
    ((s'.task p).onRq = true ∨ gone (s'.pc d))
  runs : (s'.task p).onCpu = true →
    s'.curr (s'.task p).cpu = some p ∨ (p, .outgoing) ∈ claims (s'.pc (s'.task p).cpu)
  queueCpu : ∀ r, (s'.task p).queue r = true → (s'.task p).cpu = r
  queueOn : (s'.task p).queue (s'.task p).cpu = true →
    (s'.task p).onRq = true ∨ ∃ d r, (p, .entering r) ∈ claims (s'.pc d)
  onQueue : (s'.task p).onRq = true →
    (s'.task p).queue (s'.task p).cpu = true ∨ ∃ d x, (p, x) ∈ claims (s'.pc d) ∧ x.Out
  listed : ∀ r, p ∈ s'.wakeList r ∨ p ∈ left (s'.pc r) → Waking s' p r

/-- A place that follows another, with the same locks. -/
structure Reaches (c : Cpu) (k₀ k : Pc Task Cpu) : Prop where
  holds : ∀ l, holds c k l ↔ holds c k₀ l
  sound : Sound c k

/-- The same, with no wakeup more that is left, before another task is picked. -/
structure Follows (c : Cpu) (k₀ k : Pc Task Cpu) : Prop extends Reaches c k₀ k where
  left : (left k).Sublist (left k₀)
  gone : gone k₀ → gone k

/-- **A step of one processor.** It keeps the invariant if it does for the tasks `W` that it writes
to. -/
theorem Inv.update (h : Inv s) {s' : Sys Task Cpu} (W : Task → Prop) (hk : s.pc c = k₀)
    (hpc : s'.pc = Function.update s.pc c k) (howner : s'.owner = s.owner)
    (hcurr : ∀ q, ¬ W q → ∀ r, s'.curr r = some q ↔ s.curr r = some q)
    (htask : ∀ q, ¬ W q → s'.task q = s.task q)
    (hlist : ∀ q, ¬ W q → ∀ r, q ∈ s'.wakeList r ∨ q ∈ left (s'.pc r) →
      q ∈ s.wakeList r ∨ q ∈ left (s.pc r))
    (hnodup : ∀ d, (left (s'.pc d) ++ s'.wakeList d).Nodup)
    (hreaches : Reaches c k₀ k) (hgone : ∀ q, ¬ W q → s.curr c = some q → gone k₀ →
      gone k ∨ (s.task q).onRq = true)
    (hkeep : ∀ q x, ¬ W q → (q, x) ∈ claims k₀ → x.Hard → (q, x) ∈ claims k)
    (hself : ∀ q x, (q, x) ∈ claims k → x.Ok s' c q) (hW : ∀ p, W p → Writes s s' c p) :
    Inv s' := by
  subst hk
  have hpc_self : s'.pc c = k := by rw [hpc, Function.update_self]
  have hpc_other : ∀ d, d ≠ c → s'.pc d = s.pc d :=
    fun d hd => by rw [hpc, Function.update_of_ne hd]
  -- what a processor claims of another task that the invariant needs
  have hhard : ∀ d q x, ¬ W q → (q, x) ∈ claims (s.pc d) → x.Hard → (q, x) ∈ claims (s'.pc d) := by
    intro d q x hq hx hx'
    by_cases hd : d = c
    · subst hd
      rw [hpc_self]
      exact hkeep q x hq hx hx'
    · rwa [hpc_other d hd]
  have hgone' : ∀ d q, ¬ W q → s.curr d = some q → gone (s.pc d) →
      (s.task q).onRq = true ∨ gone (s'.pc d) := by
    intro d q hq hcur hd
    by_cases hdc : d = c
    · subst hdc
      rw [hpc_self]
      exact (hgone q hq hcur hd).symm
    · rw [hpc_other d hdc]
      exact .inr hd
  refine ⟨h.toLocked.goto howner hpc hreaches.holds hreaches.sound, ?_, ?_, ?_, ?_, ?_,
    ?_, ?_, hnodup⟩
  · -- claims: the processor's own are shown by `hself`, those of others do not read what is written
    intro d q x hx
    by_cases hd : d = c
    · subst hd
      rw [hpc_self] at hx
      exact hself q x hx
    · rw [hpc_other d hd] at hx
      have hok := h.claim d q x hx
      by_cases hq : W q
      · exact (hW q hq).other d x hd hx hok
      · exact hok.frame (htask q hq) (hcurr q hq) howner (Exists.imp (hlist q hq)) fun hl => by
          rwa [hpc_other d hd]
  · -- `rq->curr`
    intro d q hq
    by_cases hqW : W q
    · exact (hW q hqW).current d hq
    · rw [htask q hqW]
      have hq := (hcurr q hqW d).mp hq
      obtain ⟨hcpu, hon, hrq⟩ := h.current d q hq
      exact ⟨hcpu, hon.imp_right fun hx => hhard d q _ hqW hx trivial,
        hrq.elim .inl (hgone' d q hqW hq)⟩
  · -- `on_cpu`
    intro q hq
    by_cases hqW : W q
    · exact (hW q hqW).runs hq
    · rw [htask q hqW] at hq ⊢
      exact (h.runs q hq).imp (hcurr q hqW _).mpr fun hx => hhard _ q _ hqW hx trivial
  · -- the queues and `on_rq`
    intro q r hq
    by_cases hqW : W q
    · exact (hW q hqW).queueCpu r hq
    · rw [htask q hqW] at hq ⊢
      exact h.queueCpu q r hq
  · intro q hq
    by_cases hqW : W q
    · exact (hW q hqW).queueOn hq
    · rw [htask q hqW] at hq ⊢
      exact (h.queueOn q hq).imp_right
        (Exists.imp fun d => Exists.imp fun r hx => hhard d q _ hqW hx trivial)
  · intro q hq
    by_cases hqW : W q
    · exact (hW q hqW).onQueue hq
    · rw [htask q hqW] at hq ⊢
      exact (h.onQueue q hq).imp_right (Exists.imp fun d => Exists.imp fun x hx =>
        ⟨hhard d q x hqW hx.1 hx.2.hard, hx.2⟩)
  · intro q r hq
    by_cases hqW : W q
    · exact (hW q hqW).listed r hq
    · obtain ⟨h1, h2, h3, h4⟩ := h.listed q r (hlist q hqW r hq)
      exact ⟨by rwa [htask q hqW], by rwa [htask q hqW], by rwa [htask q hqW], by rwa [htask q hqW]⟩

/-- The claims that the rest of the invariant refers to, after a step from a place without any. -/
theorem claims_goto {s' : Sys Task Cpu} (hpc : s'.pc = Function.update s.pc c k) (hk : s.pc c = k₀)
    (hsoft : ∀ q x, (q, x) ∈ claims k₀ → ¬ x.Hard) {x : Claim Cpu} (hx : (p, x) ∈ claims (s.pc d))
    (hhard : x.Hard) : (p, x) ∈ claims (s'.pc d) := by
  by_cases hd : d = c
  · subst hd
    rw [hk] at hx
    exact absurd hhard (hsoft p x hx)
  · rwa [hpc, Function.update_of_ne hd]

/-- The wakeups that are left, after a step that leaves the lists as they are. -/
theorem left_goto {s' : Sys Task Cpu} (hpc : s'.pc = Function.update s.pc c k)
    (hleft : (left k).Sublist (left (s.pc c))) (r : Cpu) :
    (left (s'.pc r)).Sublist (left (s.pc r)) := by
  rw [hpc]
  by_cases hr : r = c
  · subst hr
    rwa [Function.update_self]
  · rw [Function.update_of_ne hr]

theorem Listed.of_goto {s' : Sys Task Cpu} (hlist : s'.wakeList = s.wakeList)
    (hpc : s'.pc = Function.update s.pc c k) (hleft : (left k).Sublist (left (s.pc c)))
    (hl : Listed s' q) : Listed s q := by
  obtain ⟨r, hr⟩ := hl
  exact ⟨r, hr.imp (hlist ▸ id) fun hr => (left_goto hpc hleft r).subset hr⟩

theorem not_listed_goto (hl : ¬ Listed s q) (hk : s.pc c = k₀)
    (hleft : (left k).Sublist (left k₀)) :
    ¬ Listed (s.goto c k) q := by
  rintro ⟨r, hr⟩
  exact hl ⟨r, hr.imp_right fun hr => (left_goto rfl (hk ▸ hleft) r).subset hr⟩

/-- A step that leaves the running tasks and the lists of wakeups as they are. -/
theorem Inv.update_tasks (h : Inv s) {s' : Sys Task Cpu} (W : Task → Prop) (hk : s.pc c = k₀)
    (hpc : s'.pc = Function.update s.pc c k) (howner : s'.owner = s.owner)
    (hcurr : s'.curr = s.curr)
    (hlist : s'.wakeList = s.wakeList) (htask : ∀ q, ¬ W q → s'.task q = s.task q)
    (hfollows : Follows c k₀ k)
    (hkeep : ∀ q x, ¬ W q → (q, x) ∈ claims k₀ → x.Hard → (q, x) ∈ claims k)
    (hself : ∀ q x, (q, x) ∈ claims k → x.Ok s' c q) (hW : ∀ p, W p → Writes s s' c p) :
    Inv s' := by
  have hleft := left_goto hpc (hk ▸ hfollows.left)
  refine h.update W hk hpc howner (fun _ _ _ => by rw [hcurr]) htask
    (fun q _ r hr => ?_) (fun d => ?_)
    hfollows.toReaches (fun _ _ _ hg => .inl (hfollows.gone hg)) hkeep hself hW
  · exact hr.imp (hlist ▸ id) fun hr => (hleft r).subset hr
  · rw [hlist]
    exact (h.nodup d).sublist ((hleft d).append_right _)

/-- **A step that writes to no task.** -/
theorem Inv.jump (h : Inv s) (hk : s.pc c = k₀) (hfollows : Follows c k₀ k)
    (hkeep : ∀ q x, (q, x) ∈ claims k₀ → x.Hard → (q, x) ∈ claims k)
    (hself : ∀ q x, (q, x) ∈ claims k → x.Ok (s.goto c k) c q) : Inv (s.goto c k) :=
  h.update_tasks (fun _ => False) hk rfl rfl rfl rfl (fun _ _ => rfl) hfollows
    (fun q x _ => hkeep q x) hself
    fun _ hp => hp.elim

/-- A step to a place where nothing is relied on. -/
theorem Inv.jump_free (h : Inv s) (hk : s.pc c = k₀) (hfollows : Follows c k₀ k)
    (hsoft : ∀ q x, (q, x) ∈ claims k₀ → ¬ x.Hard) (hnone : claims k = []) : Inv (s.goto c k) :=
  h.jump hk hfollows (fun q x hx hhard => absurd hhard (hsoft q x hx)) fun q x hx => by
    simp [hnone] at hx

/-- A step to a place where one thing is relied on. -/
theorem Inv.jump_claim (h : Inv s) (hk : s.pc c = k₀) (hfollows : Follows c k₀ k)
    (hsoft : ∀ q x, (q, x) ∈ claims k₀ → ¬ x.Hard) {x : Claim Cpu} (hx : claims k = [(p, x)])
    (hok : x.Ok (s.goto c k) c p) : Inv (s.goto c k) := by
  refine h.jump hk hfollows (fun q y hy hhard => absurd hhard (hsoft q y hy)) fun q y hy => ?_
  rw [hx, List.mem_singleton, Prod.mk.injEq] at hy
  obtain ⟨rfl, rfl⟩ := hy
  exact hok

/-- `cpus_allowed` is not part of the invariant. -/
theorem Inv.setAllowed (h : Inv s) (f : Task → Cpu → Bool) : Inv { s with allowed := f } :=
  ⟨⟨h.owner, h.sound⟩, fun c p x hx => (h.claim c p x hx).frame rfl (fun _ => Iff.rfl) rfl id id,
    h.current, h.runs, h.queueCpu, h.queueOn, h.onQueue,
    fun p r hr => ⟨(h.listed p r hr).onRq, (h.listed p r hr).onCpu, (h.listed p r hr).state,
      (h.listed p r hr).cpu⟩, h.nodup⟩

end Goto

section SetTask

variable [DecidableEq Task] {s : Sys Task Cpu} {p : Task} {t : TaskRec Cpu}

@[simp] theorem setTask_self : (s.setTask p t).task p = t := Function.update_self ..

@[simp] theorem setTask_curr : (s.setTask p t).curr = s.curr := rfl

@[simp] theorem setTask_pc : (s.setTask p t).pc = s.pc := rfl

end SetTask

variable [DecidableEq Task] [LinearOrder Cpu] {s : Sys Task Cpu} {c d r : Cpu}
  {k k₀ : Pc Task Cpu} {p q : Task}

/-- **A step that writes to one task.** -/
theorem Inv.write (h : Inv s) {t : TaskRec Cpu} (hk : s.pc c = k₀) (hfollows : Follows c k₀ k)
    (hkeep : ∀ q x, q ≠ p → (q, x) ∈ claims k₀ → x.Hard → (q, x) ∈ claims k)
    (hself : ∀ q x, (q, x) ∈ claims k → x.Ok ((s.setTask p t).goto c k) c q)
    (hp : Writes s ((s.setTask p t).goto c k) c p) : Inv ((s.setTask p t).goto c k) :=
  h.update_tasks (· = p) hk rfl rfl rfl rfl
    (fun _ hq => Function.update_of_ne hq _ _) hfollows hkeep hself
    fun _ hq => hq ▸ hp

/-- A step that takes a lock or gives one back: what is claimed stays the same. -/
theorem Inv.relock (h : Inv s) {l : Lock Task Cpu} {o : Option Cpu} (hk : s.pc c = k₀)
    (hclaims : claims k = claims k₀) (hleft : left k = left k₀) (hgone : gone k = gone k₀)
    (hlocked : Locked ((s.setOwner l o).goto c k))
    (howner : ∀ d q r, (q, .entering r) ∈ claims (s.pc d) → s.owner (.pi q) = some d →
      Function.update s.owner l o (.pi q) = some d) :
    Inv ((s.setOwner l o).goto c k) := by
  subst hk
  have hpc : ∀ {α : Type} (f : Pc Task Cpu → α), f k = f (s.pc c) →
      ∀ d, f (((s.setOwner l o).goto c k).pc d) = f (s.pc d) := by
    intro α f hf d
    by_cases hd : d = c
    · subst hd
      rw [show ((s.setOwner l o).goto d k).pc d = k from Function.update_self .., hf]
    · rw [show ((s.setOwner l o).goto c k).pc d = s.pc d from Function.update_of_ne hd _ _]
  have hlisted : ∀ q, Listed ((s.setOwner l o).goto c k) q ↔ Listed s q := fun q =>
    exists_congr fun r => by rw [hpc left hleft]; rfl
  -- only a task that is being enqueued is claimed together with an owner
  refine ⟨hlocked, ?_, ?_, ?_, h.queueCpu, ?_, ?_, ?_, ?_⟩
  · intro d q x hx
    rw [hpc claims hclaims] at hx
    have hok := h.claim d q x hx
    cases x with
    | entering r =>
      obtain ⟨hq, ho, hc, hr, hown⟩ := hok
      refine ⟨hq, ho, hc, hr, hown.imp (fun hpi => ⟨howner d q r hx hpi.1, ?_⟩) fun hl => ?_⟩
      · rw [hlisted]
        exact hpi.2
      · rwa [hpc left hleft]
    | unlisted | blocked | stopped | marked | placed r =>
      simp only [Claim.Ok, hlisted] at hok ⊢
      exact hok
    | _ => exact hok
  · intro d q hq
    rw [hpc claims hclaims, hpc gone hgone]
    exact h.current d q hq
  · intro q hq
    rw [hpc claims hclaims]
    exact h.runs q hq
  · intro q hq
    simp only [hpc claims hclaims]
    exact h.queueOn q hq
  · intro q hq
    simp only [hpc claims hclaims]
    exact h.onQueue q hq
  · intro q r hq
    rw [hpc left hleft] at hq
    obtain ⟨h1, h2, h3, h4⟩ := h.listed q r hq
    exact ⟨h1, h2, h3, h4⟩
  · intro d
    rw [hpc left hleft]
    exact h.nodup d

/-- The holders of the locks, after a step that takes one or gives it back: `o` holds it now. -/
theorem Locked.relock (h : Locked s) {l : Lock Task Cpu} {o : Option Cpu} (hk : s.pc c = k₀)
    (hsound : Sound c k) (hholds : ∀ m, m ≠ l → (holds c k m ↔ holds c k₀ m))
    (hself : o = some c ↔ holds c k l) (hother : ∀ d, d ≠ c → o ≠ some d ∧ s.owner l ≠ some d) :
    Locked ((s.setOwner l o).goto c k) := by
  have hnow : ((s.setOwner l o).goto c k).owner l = o := Function.update_self ..
  have hkept : ∀ m, m ≠ l → ((s.setOwner l o).goto c k).owner m = s.owner m := fun m hm =>
    Function.update_of_ne hm _ _
  refine ⟨fun m d => ?_, fun d => ?_⟩
  · by_cases hd : d = c
    · subst hd
      rw [goto_pc_self]
      by_cases hm : m = l
      · rw [hm, hnow, hself]
      · rw [hkept m hm, h.owner m d, hk, hholds m hm]
    · -- another processor has the locks that it had
      rw [goto_pc_of_ne hd, show (s.setOwner l o).pc = s.pc from rfl, ← h.owner m d]
      by_cases hm : m = l
      · rw [hm, hnow]
        exact iff_of_false (hother d hd).1 (hother d hd).2
      · rw [hkept m hm]
  · by_cases hd : d = c
    · subst hd
      rwa [goto_pc_self]
    · rw [goto_pc_of_ne hd]
      exact h.sound d

/-- A lock is taken. -/
theorem Inv.lock (h : Inv s) {l : Lock Task Cpu} (hk : s.pc c = k₀) (hfree : s.owner l = none)
    (hsound : Sound c k) (hheld : holds c k l) (hholds : ∀ m, m ≠ l → (holds c k m ↔ holds c k₀ m))
    (hclaims : claims k = claims k₀) (hleft : left k = left k₀) (hgone : gone k = gone k₀) :
    Inv ((s.setOwner l (some c)).goto c k) := by
  refine h.relock hk hclaims hleft hgone
    (h.toLocked.relock hk hsound hholds (iff_of_true rfl hheld) fun d hd => ?_) fun d q r _ hq => ?_
  · exact ⟨fun heq => hd (Option.some.inj heq).symm, by simp [hfree]⟩
  · -- nobody had this lock
    rwa [Function.update_of_ne]
    rintro rfl
    rw [hfree] at hq
    cases hq

/-- A lock that was waited for is free. -/
theorem Inv.acquire (h : Inv s) {l : Lock Task Cpu} (hk : s.pc c = .acquire l k)
    (hfree : s.owner l = none) :
    Inv ((s.setOwner l (some c)).goto c k) := by
  have hsound := h.sound c
  rw [hk] at hsound
  obtain ⟨hsk, hheld, -, -, -⟩ := hsound
  exact h.lock hk hfree hsk hheld (fun m hm => (and_iff_left hm).symm) rfl rfl rfl

/-- A lock is given back. -/
theorem Inv.release (h : Inv s) {l : Lock Task Cpu} (hk : s.pc c = .release l k) :
    Inv ((s.setOwner l none).goto c k) := by
  have hsound := h.sound c
  have hown := h.owner l c
  rw [hk] at hsound hown
  obtain ⟨hsk, hnot, hsoft⟩ := hsound
  have hmine : s.owner l = some c := hown.mpr (.inr rfl)
  refine h.relock hk rfl rfl rfl (h.toLocked.relock hk hsk (fun m hm => (or_iff_left hm).symm)
    (iff_of_false (by simp) hnot) fun d hd => ?_) fun d q r hx hq => ?_
  · rw [hmine]
    exact ⟨by simp, fun heq => hd (Option.some.inj heq).symm⟩
  · -- who is about to mark the task does not give its lock back
    rwa [Function.update_of_ne]
    rintro rfl
    obtain rfl : c = d := Option.some.inj (hmine.symm.trans hq)
    rw [hk] at hx
    exact hsoft _ hx trivial

end LinuxKernel.Smp

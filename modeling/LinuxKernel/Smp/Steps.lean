import Mathlib.Tactic.Tauto
import LinuxKernel.Smp.Bound
import LinuxKernel.Smp.Writes

/-!
# Every step keeps the invariant

* `sound_doubleRqLock` — two run queues are locked in the order of their addresses.
* `Inv.balance`        — `double_lock_balance`, in both builds.
* `Inv.workerStateStep` — `try_to_wake_up_local`, which the worker being bound makes safe.
* `Inv.step`           — every step keeps the invariant.
-/

namespace LinuxKernel.Smp

variable {Task Cpu : Type}

/-! ## Two run queues -/

section Double

variable [LinearOrder Cpu] {s : Sys Task Cpu} {a b c : Cpu} {k k₀ : Pc Task Cpu} {l : Lock Task Cpu}

/-- Before `double_rq_lock` neither run queue is held. -/
theorem holds_doubleRqLock :
    holds c (doubleRqLock a b k) l ↔ holds c k l ∧ l ≠ .rq a ∧ l ≠ .rq b := by
  unfold doubleRqLock
  split_ifs with h1 h2
  · subst h1
    simp [holds]
  · simp only [holds]
    tauto
  · simp only [holds]
    tauto

theorem claims_doubleRqLock : claims (doubleRqLock a b k) = claims k := by
  unfold doubleRqLock
  split_ifs <;> rfl

theorem left_doubleRqLock : left (doubleRqLock a b k) = left k := by
  unfold doubleRqLock
  split_ifs <;> rfl

theorem gone_doubleRqLock : gone (doubleRqLock a b k) = gone k := by
  unfold doubleRqLock
  split_ifs <;> rfl

/-- **Two run queues are locked in the order of their addresses**, whichever is given first. -/
theorem sound_doubleRqLock (hk : Sound c k) (ha : holds c k (.rq a)) (hb : holds c k (.rq b))
    (hother : ∀ r, holds c k (.rq r) → r = a ∨ r = b)
    (hclaims : ∀ x ∈ claims k, x.2.locks c x.1 = [])
    (hsoft : ∀ x ∈ claims k, ¬ x.2.Hard) : Sound c (doubleRqLock a b k) := by
  have hnot : ∀ (m : Lock Task Cpu), ∀ x ∈ claims k, m ∉ x.2.locks c x.1 ∧ ¬ x.2.Hard :=
    fun m x hx =>
    ⟨by simp [hclaims x hx], hsoft x hx⟩
  unfold doubleRqLock
  split_ifs with h1 h2
  · subst h1
    exact sound_acquire_rq hk ha (fun r hr hne => absurd ((hother r hr).elim id id) hne) (hnot _)
  · refine sound_acquire_rq (sound_acquire_rq hk hb (fun r hr hne => ?_) (hnot _))
      ⟨ha, by simpa using h1⟩ ?_
      (hnot _)
    · exact ((hother r hr).resolve_right hne) ▸ h2
    · rintro r ⟨hr, hne⟩ hra
      exact absurd ((hother r hr).resolve_left hra) fun heq => hne (heq ▸ rfl)
  · have h2 : b < a := lt_of_le_of_ne (not_lt.mp h2) (Ne.symm h1)
    refine sound_acquire_rq (sound_acquire_rq hk ha (fun r hr hne => ?_) (hnot _))
      ⟨hb, by simpa using Ne.symm h1⟩ ?_ (hnot _)
    · exact ((hother r hr).resolve_left hne) ▸ h2
    · rintro r ⟨hr, hne⟩ hrb
      exact absurd ((hother r hr).resolve_right hrb) fun heq => hne (heq ▸ rfl)

/-- Up to `double_rq_unlock` both run queues are held. -/
theorem holds_doubleRqUnlock :
    holds c (doubleRqUnlock a b k) l ↔ holds c k l ∨ l = .rq a ∨ l = .rq b := by
  unfold doubleRqUnlock
  split_ifs with h1
  · subst h1
    simp [holds]
  · simp only [holds]
    tauto

theorem claims_doubleRqUnlock : claims (doubleRqUnlock a b k) = claims k := by
  unfold doubleRqUnlock
  split_ifs <;> rfl

theorem left_doubleRqUnlock : left (doubleRqUnlock a b k) = left k := by
  unfold doubleRqUnlock
  split_ifs <;> rfl

/-- The run queues may be given back if nothing behind them relies on one. -/
theorem sound_doubleRqUnlock (hk : Sound c k) (ha : ¬ holds c k (.rq a)) (hb : ¬ holds c k (.rq b))
    (hsoft : ∀ x ∈ claims k, ¬ x.2.Hard) : Sound c (doubleRqUnlock a b k) := by
  unfold doubleRqUnlock
  split_ifs with h1
  · exact ⟨hk, ha, hsoft⟩
  · refine ⟨⟨hk, hb, hsoft⟩, ?_, hsoft⟩
    rintro (h | h)
    · exact ha h
    · exact h1 (Lock.rq.inj h)

/-- **`double_lock_balance`**, in both builds: the second run queue is locked, and what was relied
on stays if the first was not given back on the way. -/
theorem Inv.balance [DecidableEq Task] (h : Inv s) (preempt : Bool) {back : Back Task}
    {next : Bool → Pc Task Cpu} (hk : s.pc c = k₀) (hne : a ≠ b) (hsound : ∀ x, Sound c (next x))
    (hholds : ∀ l, holds c k₀ l ↔ l = .rq a ∨ back.holds l)
    (hnext : ∀ x l, holds c (next x) l ↔ l = .rq a ∨ l = .rq b ∨ back.holds l)
    (hclaims : claims (next false) = claims k₀) (hnone : claims (next true) = [])
    (hsoft : ∀ q x, (q, x) ∈ claims k₀ → ¬ x.Hard)
    (hlocks : ∀ x ∈ claims k₀, .rq b ∉ x.2.locks c x.1)
    (hok : ∀ q x s', (q, x) ∈ claims k₀ → x.Ok s c q → s'.task = s.task →
      s'.curr = s.curr → x.Ok s' c q)
    (hleft : ∀ x, left (next x) = left k₀) (hgone : ∀ x, gone (next x) = gone k₀) :
    Inv (doubleLockBalance preempt s c a b next) := by
  have hnext : ∀ x l, holds c (next x) l ↔ l = .rq b ∨ holds c k₀ l := fun x l => by
    rw [hnext, hholds, or_left_comm]
  have ha : holds c k₀ (.rq a) := (hholds _).mpr (.inl rfl)
  have hrq : ∀ r, holds c k₀ (.rq r) → r = a := fun r hr =>
    Lock.rq.inj (((hholds _).mp hr).resolve_right Back.not_holds_rq)
  have hb : ¬ holds c k₀ (.rq b) := fun hb => hne (hrq b hb).symm
  have hrq' : ∀ x r, holds c (next x) (.rq r) → r = a ∨ r = b := fun x r hr =>
    ((hnext x _).mp hr).symm.imp (hrq r) Lock.rq.inj
  -- the first lock is given back, and both are taken
  have hdrop : Sound c (doubleRqLock a b (next true)) → Inv (s.goto c (.release (.rq a)
      (doubleRqLock a b (next true)))) := by
    intro hs
    refine h.jump_free hk ⟨⟨fun l => ?_, hs, ?_, ?_⟩, ?_, ?_⟩ hsoft
      (claims_doubleRqLock.trans hnone)
    · simp only [holds, holds_doubleRqLock, hnext]
      by_cases hl : l = .rq a
      · subst hl
        simpa using ha
      · by_cases hl' : l = .rq b
        · subst hl'
          simpa [hl] using hb
        · simp [hl, hl']
    · simp [holds_doubleRqLock]
    · intro x hx
      simp [claims_doubleRqLock, hnone] at hx
    · rw [left, left_doubleRqLock, hleft]
    · rw [gone, gone_doubleRqLock, hgone]
      exact id
  have hdouble : Sound c (doubleRqLock a b (next true)) :=
    sound_doubleRqLock (hsound true) ((hnext true _).mpr (.inr ha)) ((hnext true _).mpr (.inl rfl))
      (hrq' true) (fun x hx => by simp [hnone] at hx) fun x hx => by simp [hnone] at hx
  unfold doubleLockBalance
  split_ifs with h1 h2 h3
  · exact hdrop hdouble
  · exact h.lock hk h2 (hsound false) ((hnext false _).mpr (.inl rfl))
      (fun m hm => (hnext false m).trans (or_iff_right hm)) hclaims (hleft false) (hgone false)
  · have heq : doubleRqLock a b (next true) = .acquire (.rq b) (.acquire (.rq a) (next true)) := by
      simp [doubleRqLock, hne, not_lt_of_gt h3]
    rw [heq] at hdrop hdouble
    exact hdrop hdouble
  · have hlt : a < b := lt_of_le_of_ne (not_lt.mp h3) hne
    have hheld : holds c (next false) (.rq b) := (hnext false _).mpr (.inl rfl)
    refine h.jump hk ⟨⟨fun l => ?_, sound_acquire_rq (hsound false) hheld ?_ ?_⟩, ?_, ?_⟩
      (fun q x hx hhard => absurd hhard (hsoft q x hx)) ?_
    · simp only [holds, hnext]
      by_cases hl : l = .rq b
      · subst hl
        simpa using hb
      · simp [hl]
    · intro r hr hrb
      exact ((hrq' false r hr).resolve_right hrb) ▸ hlt
    · rw [hclaims]
      exact fun x hx => ⟨hlocks x hx, hsoft x.1 x.2 hx⟩
    · rw [left, hleft]
    · rw [gone, hgone]
      exact id
    · intro q x hx
      rw [claims, hclaims] at hx
      exact hok q x _ hx (h.claim c q x (hk ▸ hx)) rfl rfl

end Double

/-! ## Steps that only read -/

section Reading

variable [LinearOrder Cpu] {s s' : Sys Task Cpu} {c r : Cpu} {k₀ : Pc Task Cpu} {p : Task}
  {b : Back Task}
  {a : Act Task Cpu}

/-- `task_rq_lock` reads the run queue to lock; the task may be moved before it is locked. -/
theorem Inv.rqOfStep (h : Inv s) (hk : s.pc c = .rqOf p) :
    Inv (s.goto c (.acquire (.rq r) (.rqCheck p r))) := by
  refine h.jump_free hk ⟨⟨fun l => ?_, sound_acquire_under_pi trivial (fun _ => Iff.rfl)
    fun x hx => absurd hx List.not_mem_nil⟩, List.Sublist.refl _, id⟩
    (fun _ _ hx => absurd hx List.not_mem_nil) rfl
  simp only [holds]
  refine ⟨fun hl => hl.1.resolve_right hl.2, ?_⟩
  rintro rfl
  simp

/-- `task_rq_lock` looks again once it has the lock; from then on the task is pinned. -/
theorem Inv.rqCheckStep (h : Inv s) (hk : s.pc c = .rqCheck p r) :
    Inv (if r = (s.task p).cpu then s.goto c (.held p r)
      else s.goto c (.release (.rq r) (.release (.pi p) (.acquire (.pi p) (.rqOf p))))) := by
  split_ifs with hr
  · exact h.jump_claim hk ⟨⟨fun _ => Iff.rfl, trivial⟩, List.Sublist.refl _, id⟩
      (fun _ _ hx => absurd hx List.not_mem_nil) rfl hr.symm
  · refine h.jump_free hk ⟨⟨fun l => ?_, ⟨⟨trivial, rfl, fun l hl hne => absurd hl hne, ?_,
      fun hg => hg.elim⟩, ?_, ?_⟩, ?_, ?_⟩, List.Sublist.refl _, id⟩
      (fun _ _ hx => absurd hx List.not_mem_nil) rfl
    · simp only [holds]
      tauto
    · exact fun x hx => absurd hx List.not_mem_nil
    · simp [holds]
    · exact fun x hx => absurd hx List.not_mem_nil
    · simp [holds]
    · exact fun x hx => absurd hx List.not_mem_nil

/-- `try_to_wake_up` goes on with a task that sleeps. -/
theorem Inv.wakeStateStep (h : Inv s) (hk : s.pc c = .wakeState p) :
    Inv (if (s.task p).state = .sleeping then s.goto c (.wakeOnRq p)
      else s.goto c (.release (.pi p) .idle)) := by
  have hsoft : ∀ q x, (q, x) ∈ claims (.wakeState p : Pc Task Cpu) → ¬ x.Hard := fun _ _ hx =>
    absurd hx List.not_mem_nil
  split_ifs with hst
  · -- a task that another processor is to enqueue does not sleep
    refine h.jump_claim hk ⟨⟨fun _ => Iff.rfl, trivial⟩, List.Sublist.refl _, id⟩ hsoft rfl
      (not_listed_goto ?_ hk (List.Sublist.refl _))
    rintro ⟨r, hr⟩
    exact absurd ((h.listed p r hr).state.symm.trans hst) (by simp)
  · refine h.jump_free hk ⟨⟨fun l => ?_, trivial, id, ?_⟩, List.Sublist.refl _, id⟩ hsoft rfl
    · simp [holds]
    · exact fun x hx => absurd hx List.not_mem_nil

/-- A task that is not on a run queue stays so while its lock is held. -/
theorem Inv.wakeOnRqStep (h : Inv s) (hk : s.pc c = .wakeOnRq p) :
    Inv (s.goto c (if (s.task p).onRq then .wakeRqOf p else .wakeSpin p)) := by
  have hl : ¬ Listed s p := h.claim c p .unlisted (hk ▸ List.mem_singleton.mpr rfl)
  have hsoft := soft_of_claims (k := .wakeOnRq p) (p := p) (x := (.unlisted : Claim Cpu)) rfl id
  split_ifs with hon
  · exact h.jump_claim hk ⟨⟨fun _ => Iff.rfl, trivial⟩, List.Sublist.refl _, id⟩ hsoft rfl
      (not_listed_goto hl hk (List.Sublist.refl _))
  · exact h.jump_claim hk ⟨⟨fun _ => Iff.rfl, trivial⟩, List.Sublist.refl _, id⟩ hsoft rfl
      ⟨by simpa using hon, not_listed_goto hl hk (List.Sublist.refl _)⟩

/-- `ttwu_remote` reads the run queue to lock. -/
theorem Inv.wakeRqOfStep (h : Inv s) (hk : s.pc c = .wakeRqOf p) :
    Inv (s.goto c (.acquire (.rq r) (.wakeRqCheck p r))) := by
  have hl : ¬ Listed s p := h.claim c p .unlisted (hk ▸ List.mem_singleton.mpr rfl)
  refine h.jump_claim hk ⟨⟨fun l => ?_,
    sound_acquire_under_pi trivial (fun _ => Iff.rfl) fun x hx => ?_⟩,
    List.Sublist.refl _, id⟩ (soft_of_claims (k := .wakeRqOf p) rfl id) rfl
    (not_listed_goto hl hk (List.Sublist.refl _))
  · simp only [holds]
    refine ⟨fun hl => hl.1.resolve_right hl.2, ?_⟩
    rintro rfl
    simp
  · rw [List.mem_singleton.mp hx]
    exact ⟨by simp [Claim.locks], id⟩

/-- `ttwu_remote` looks again once it has the lock. -/
theorem Inv.wakeRqCheckStep (h : Inv s) (hk : s.pc c = .wakeRqCheck p r) :
    Inv (if r = (s.task p).cpu then s.goto c (.wakeRemote p r)
      else s.goto c (.release (.rq r) (.wakeRqOf p))) := by
  have hl : ¬ Listed s p := h.claim c p .unlisted (hk ▸ List.mem_singleton.mpr rfl)
  have hsoft :=
    soft_of_claims (k := .wakeRqCheck p r) rfl (id : ¬ Claim.Hard (.unlisted : Claim Cpu))
  split_ifs with hr
  · refine h.jump hk ⟨⟨fun _ => Iff.rfl, trivial⟩, List.Sublist.refl _, id⟩
      (fun q y hy hhard => absurd hhard (hsoft q y hy)) fun q x hx => ?_
    simp only [claims, List.mem_cons, Prod.mk.injEq, List.not_mem_nil, or_false] at hx
    rcases hx with ⟨rfl, rfl⟩ | ⟨rfl, rfl⟩
    · exact hr.symm
    · exact not_listed_goto hl hk (List.Sublist.refl _)
  · refine h.jump_claim hk ⟨⟨fun l => ?_, trivial, ?_, ?_⟩, List.Sublist.refl _, id⟩ hsoft rfl
      (not_listed_goto hl hk (List.Sublist.refl _))
    · simp [holds]
    · simp [holds]
    · intro x hx
      rw [List.mem_singleton.mp hx]
      exact id

/-- The task has left its processor, and cannot come back without being woken. -/
theorem Inv.wakeSpinStep (h : Inv s) (hk : s.pc c = .wakeSpin p) (hoff : (s.task p).onCpu = false) :
    Inv (s.goto c (.wakeMark p)) := by
  obtain ⟨hon, hl⟩ := h.claim c p .blocked (hk ▸ List.mem_singleton.mpr rfl)
  exact h.jump_claim hk ⟨⟨fun _ => Iff.rfl, trivial⟩, List.Sublist.refl _, id⟩
    (soft_of_claims (k := .wakeSpin p) rfl id) rfl
      ⟨hon, hoff, not_listed_goto hl hk (List.Sublist.refl _)⟩

/-- The task is woken where it went to sleep. -/
theorem Inv.wakeSelectStay (h : Inv s) (hk : s.pc c = .wakeSelect p) :
    Inv (s.goto c (.wakeQueue p)) := by
  obtain ⟨hon, honCpu, hl, hst⟩ := h.claim c p .marked (hk ▸ List.mem_singleton.mpr rfl)
  exact h.jump_claim hk ⟨⟨fun _ => Iff.rfl, trivial⟩, List.Sublist.refl _, id⟩
    (soft_of_claims (k := .wakeSelect p) rfl id) rfl
    ⟨hon, honCpu, not_listed_goto hl hk (List.Sublist.refl _), hst⟩

/-- `ttwu_queue` locks the run queue that the task is placed at. -/
theorem Inv.wakeQueueLocal (h : Inv s) (hk : s.pc c = .wakeQueue p) (hr : (s.task p).cpu = r) :
    Inv (s.goto c (.acquire (.rq r) (.activate p r (.task p)))) := by
  obtain ⟨hon, honCpu, hl, -⟩ := h.claim c p .marked (hk ▸ List.mem_singleton.mpr rfl)
  refine h.jump_claim hk ⟨⟨fun l => ?_,
    sound_acquire_under_pi (p := p) rfl (fun l => ?_) fun x hx => ?_⟩,
    List.Sublist.refl _, id⟩ (soft_of_claims (k := .wakeQueue p) rfl id) rfl
    ⟨hon, honCpu, not_listed_goto hl hk (List.Sublist.refl _), hr⟩
  · simp only [holds, Back.holds]
    refine ⟨fun hl => hl.1.resolve_left hl.2, ?_⟩
    rintro rfl
    simp
  · simp [holds, Back.holds, or_comm]
  · rw [(mem_claims_activate hx).1]
    exact ⟨by simp [Claim.locks], id⟩

/-- The caller goes on. -/
theorem Inv.resume (h : Inv s) (hk : s.pc c = k₀) (hb : b.Local c r)
    (hholds : ∀ l, holds c k₀ l ↔ l = .rq r ∨ b.holds l) (hleft : left k₀ = b.left)
    (hgone : gone k₀ → gone (.resume r b : Pc Task Cpu)) (hnone : claims k₀ = []) :
    Inv (s.goto c (.resume r b)) := by
  refine h.jump_free hk ⟨⟨fun l => ?_, sound_resume hb⟩, ?_, hgone⟩ (fun q x hx => ?_) claims_resume
  · rw [holds_resume hb, hholds]
  · rw [left_resume, hleft]
  · simp [hnone] at hx

/-- `pull_rt_task` goes on to another run queue, or returns. -/
theorem Inv.pullStep (h : Inv s) (hk : s.pc c = .pull r b)
    (hstep : pullRtTask s c r b a = some s') : Inv s' := by
  have hlocal := h.sound c
  rw [hk] at hlocal
  have hsoft : ∀ q x, (q, x) ∈ claims (.pull r b : Pc Task Cpu) → ¬ x.Hard := fun _ _ hx =>
    absurd hx List.not_mem_nil
  cases a with
  | cpu src =>
    simp only [pullRtTask] at hstep
    split_ifs at hstep with hne
    obtain rfl := Option.some.inj hstep
    exact h.jump_free hk ⟨⟨fun _ => Iff.rfl, hne, hlocal⟩, List.Sublist.refl _, id⟩ hsoft rfl
  | next =>
    obtain rfl := Option.some.inj hstep
    exact h.resume hk hlocal (fun _ => Iff.rfl) rfl gone_resume rfl
  | _ => cases hstep

end Reading

variable [DecidableEq Task] [LinearOrder Cpu] {s s' : Sys Task Cpu} {c r : Cpu}
  {k : Pc Task Cpu} {p : Task}
  {b : Back Task} {a : Act Task Cpu} {o : Cpu × Act Task Cpu}

/-! ## Starting, and changing a task -/

/-- What a processor starts with relies on nothing yet. -/
theorem Inv.begin (h : Inv s) (hk : s.pc c = .idle) (hstep : begin s c a = some s') : Inv s' := by
  have hsoft : ∀ q x, (q, x) ∈ claims (.idle : Pc Task Cpu) → ¬ x.Hard := fun _ _ hx =>
    absurd hx List.not_mem_nil
  cases a with
  | taskRqLock p | wake p | schedule =>
    obtain rfl := Option.some.inj hstep
    refine h.jump_free hk ⟨⟨fun l => ?_, trivial, rfl, fun l hl hne => absurd hl hne, ?_,
      fun hg => hg.elim⟩, List.Sublist.refl _, id⟩ hsoft rfl
    · simp [holds]
    · exact fun x hx => absurd hx List.not_mem_nil
  | pending =>
    obtain rfl := Option.some.inj hstep
    exact h.takeAll hk
  | post =>
    obtain rfl := Option.some.inj hstep
    refine h.jump_free hk ⟨⟨fun l => ?_, trivial, .inl rfl,
      fun l hl hne => absurd (hl.resolve_right id) hne,
      ?_, fun hg => hg.elim⟩, List.Sublist.refl _, id⟩ hsoft rfl
    · simp [holds, Back.holds]
    · exact fun x hx => absurd hx List.not_mem_nil
  -- the stopper: all that it knows on the way to its three locks is that it runs itself
  | migrate p dest =>
    simp only [Smp.begin] at hstep
    split_ifs at hstep with hcurr
    obtain rfl := Option.some.inj hstep
    have hclaims : ∀ x ∈ claims (.migrate p dest : Pc Task Cpu), x.2.locks c x.1 = [] := by
      intro x hx
      rw [List.mem_singleton.mp hx]
      rfl
    have hsoft' : ∀ x ∈ claims (.migrate p dest : Pc Task Cpu), ¬ x.2.Hard := by
      intro x hx
      rw [List.mem_singleton.mp hx]
      exact id
    refine h.jump hk ⟨⟨fun l => ?_, ?_, ?_, ?_, ?_, ?_⟩, ?_, fun hg => hg.elim⟩
      (fun q x hx => absurd hx List.not_mem_nil) ?_
    · simp only [holds, holds_doubleRqLock]
      tauto
    · refine sound_doubleRqLock trivial (.inr (.inl rfl)) (.inr (.inr rfl))
        (fun r hr => ?_) hclaims hsoft'
      simpa [holds] using hr
    · rw [holds_doubleRqLock]
      simp [holds]
    · intro l hl hne
      rw [holds_doubleRqLock] at hl
      exact absurd (hl.1.resolve_right fun hr => hr.elim hl.2.1 hl.2.2) hne
    · intro x hx
      rw [claims_doubleRqLock] at hx
      exact ⟨by simp [hclaims x hx], hsoft' x hx⟩
    · rw [gone_doubleRqLock]
      exact fun hg => hg.elim
    · rw [left, left_doubleRqLock]
      exact List.Sublist.refl _
    · intro q x hx
      rw [claims, claims_doubleRqLock] at hx
      obtain ⟨rfl, rfl⟩ := Prod.mk.inj (List.mem_singleton.mp hx)
      exact hcurr
  -- the running task is on its run queue, so its state is its own
  | setState sleep =>
    obtain ⟨p, hp, rfl⟩ := Option.map_eq_some_iff.mp hstep
    obtain ⟨-, -, hon⟩ := h.current_of_quiet hp (by rw [hk]; rfl) (by rw [hk]; exact id)
    have := h.setState hk ⟨⟨fun _ => Iff.rfl, trivial⟩, List.Sublist.refl _, id⟩
      (.inl hon) hsoft (x := if sleep then .sleeping else .running) fun q y hy =>
        absurd hy List.not_mem_nil
    rwa [goto_self (show (s.setState p _).pc c = .idle from hk)] at this
  | _ => cases hstep

/-- Between `task_rq_lock` and `task_rq_unlock`. -/
theorem Inv.heldStep (h : Inv s) (hk : s.pc c = .held p r) (hstep : Smp.held s c p r a = some s') :
    Inv s' := by
  have hmem : (p, .pinned r) ∈ claims (s.pc c) := hk ▸ List.mem_singleton.mpr rfl
  have hcpu : (s.task p).cpu = r := h.claim c p _ hmem
  have hown : s.owner (.rq r) = some c := h.held hmem (by simp [Claim.locks])
  have hsoft : ∀ q x, (q, x) ∈ claims (.held p r : Pc Task Cpu) → ¬ x.Hard := by
    intro q x hx
    rw [(Prod.mk.inj (List.mem_singleton.mp hx)).2]
    exact id
  cases a with
  -- `task_rq_unlock`
  | next =>
    obtain rfl := Option.some.inj hstep
    refine h.jump_free hk ⟨⟨fun l => ?_, ⟨trivial, id, ?_⟩, ?_, ?_⟩, List.Sublist.refl _, id⟩ hsoft
      rfl
    · simp [holds]
    · exact fun x hx => absurd hx List.not_mem_nil
    · simp [holds]
    · exact fun x hx => absurd hx List.not_mem_nil
  | dequeue =>
    simp only [Smp.held] at hstep
    split_ifs at hstep with hon
    obtain rfl := Option.some.inj hstep
    exact h.dequeue hk ⟨⟨fun _ => Iff.rfl, trivial⟩, List.Sublist.refl _, id⟩ hown hcpu hon
      hsoft rfl trivial
      ⟨by simpa [Sys.setQueue] using hcpu, by simpa [Sys.setQueue] using hon,
        by simp [Sys.setQueue]⟩
  -- nothing that is relied on speaks of the mask
  | setAllowed mask =>
    simp only [Smp.held] at hstep
    split_ifs at hstep
    obtain rfl := Option.some.inj hstep
    exact h.setAllowed _
  -- the push or pull gives the run queue away: nothing is relied on from here
  | changed pull =>
    obtain rfl := Option.some.inj hstep
    cases pull with
    | true =>
      refine h.jump_free hk ⟨⟨fun l => ?_, trivial⟩, List.Sublist.refl _,
        fun hg => hg.elim⟩ hsoft rfl
      simp [holds, Back.holds, or_comm]
    | false =>
      refine h.jump_free hk ⟨⟨fun l => ?_, trivial⟩, List.Sublist.refl _,
        fun hg => hg.elim⟩ hsoft rfl
      simp [holds, Back.holds, or_comm]
  | _ => cases hstep

/-- `enqueue_task` of the task that was dequeued under the lock. -/
theorem Inv.takenStep (h : Inv s) (hk : s.pc c = .taken p r) :
    Inv ((s.setQueue p r true).goto c (.held p r)) := by
  have hmem : (p, .taken r) ∈ claims (s.pc c) := hk ▸ List.mem_singleton.mpr rfl
  obtain ⟨hcpu, hon, -⟩ := h.claim c p _ hmem
  refine h.enqueue hk ⟨⟨fun _ => Iff.rfl, trivial⟩, List.Sublist.refl _, id⟩
    (h.held hmem (by simp [Claim.locks])) hcpu hon rfl (by simp) (by simp) fun q x hx => ?_
  obtain ⟨rfl, rfl⟩ := Prod.mk.inj (List.mem_singleton.mp hx)
  simpa [Claim.Ok, Sys.setQueue] using hcpu

/-! ## Waking -/

/-- `ttwu_remote`: a task that is still on its run queue is made runnable there. -/
theorem Inv.wakeRemoteStep (h : Inv s) (hk : s.pc c = .wakeRemote p r) :
    Inv (if (s.task p).onRq then (s.setState p .running).goto c (.push r (.task p))
      else s.goto c (.release (.rq r) (.wakeSpin p))) := by
  have hl : ¬ Listed s p := h.claim c p .unlisted (by rw [hk]; simp [claims])
  have hsoft : ∀ q x, (q, x) ∈ claims (.wakeRemote p r : Pc Task Cpu) → ¬ x.Hard := by
    intro q x hx
    simp only [claims, List.mem_cons, Prod.mk.injEq, List.not_mem_nil, or_false] at hx
    rcases hx with ⟨-, rfl⟩ | ⟨-, rfl⟩ <;> exact id
  -- the task may have left its run queue before it was locked
  split_ifs with hon
  · have hfollows : Follows c (.wakeRemote p r) (.push r (.task p)) := by
      refine ⟨⟨fun l => ?_, trivial⟩, List.Sublist.refl _, id⟩
      simp [holds, Back.holds, or_comm]
    exact h.setState hk hfollows (.inl hon) hsoft fun q x hx => absurd hx List.not_mem_nil
  · refine h.jump_claim hk ⟨⟨fun l => ?_, trivial, ?_, ?_⟩, List.Sublist.refl _, id⟩ hsoft rfl
      ⟨by simpa using hon, not_listed_goto hl hk (List.Sublist.refl _)⟩
    · simp [holds]
    · simp [holds]
    · intro x hx
      rw [List.mem_singleton.mp hx]
      exact id

/-- `TASK_WAKING` keeps others from waking the task. -/
theorem Inv.wakeMarkStep (h : Inv s) (hk : s.pc c = .wakeMark p) :
    Inv ((s.setState p .waking).goto c (.wakeSelect p)) := by
  obtain ⟨hon, honCpu, hl⟩ := h.claim c p .stopped (hk ▸ List.mem_singleton.mpr rfl)
  have hfollows : Follows c (.wakeMark p) (.wakeSelect p) :=
    ⟨⟨fun _ => Iff.rfl, trivial⟩, List.Sublist.refl _, id⟩
  refine h.setState hk hfollows (.inr rfl) (soft_of_claims (k := .wakeMark p) rfl id)
    fun q x hx => ?_
  obtain ⟨rfl, rfl⟩ := Prod.mk.inj (List.mem_singleton.mp hx)
  refine ⟨by simpa [Sys.setState] using hon, by simpa [Sys.setState] using honCpu, fun hl' => hl ?_,
    by simp [Sys.setState]⟩
  obtain ⟨r, hr⟩ := hl'
  exact ⟨r, listed_of_write (by rw [hk]; exact List.Sublist.refl _) hr⟩

/-- `ttwu_activate` enqueues a task that is in no queue. -/
theorem Inv.activateStep (h : Inv s) (hk : s.pc c = .activate p r b) :
    Inv ((s.setQueue p r true).goto c (.activateOnRq p r b)) := by
  have hsound := h.sound c
  rw [hk] at hsound
  have hown : s.owner (.rq r) = some c := (h.owner _ c).mpr (by rw [hk]; exact .inl rfl)
  have hfollows : Follows c (.activate p r b) (.activateOnRq p r b) :=
    ⟨⟨fun _ => Iff.rfl, hsound⟩, List.Sublist.refl _, id⟩
  have hsoft : ∀ q x, (q, x) ∈ claims (.activate p r b : Pc Task Cpu) → ¬ x.Hard := by
    intro q x hx
    rw [(Prod.mk.inj (mem_claims_activate hx).1).2]
    exact id
  -- the claim that is used up: what the waker knows, or that the task was on the list
  cases b with
  | task q =>
    obtain rfl : q = p := hsound
    have hmem : (q, .placed r) ∈ claims (s.pc c) := hk ▸ List.mem_singleton.mpr rfl
    obtain ⟨hon, honCpu, hl, hcpu⟩ := h.claim c q _ hmem
    exact h.activate hk hfollows hown hcpu hon honCpu hsoft rfl
      (.inl ⟨h.held hmem (List.mem_singleton.mpr rfl), hl⟩)
  | pending ps =>
    obtain rfl : r = c := hsound
    obtain ⟨hon, honCpu, -, hcpu⟩ := h.listed p r (.inr (hk ▸ List.mem_cons_self))
    exact h.activate hk hfollows hown hcpu hon honCpu hsoft rfl (.inr List.mem_cons_self)
  | worker q =>
    obtain ⟨rfl, -⟩ : q = p ∧ r = c := hsound
    have hmem : (q, .placed r) ∈ claims (s.pc c) := hk ▸ List.mem_singleton.mpr rfl
    obtain ⟨hon, honCpu, hl, hcpu⟩ := h.claim c q _ hmem
    exact h.activate hk hfollows hown hcpu hon honCpu hsoft rfl
      (.inl ⟨h.held hmem (List.mem_singleton.mpr rfl), hl⟩)
  | _ => exact absurd hsound id

/-- `ttwu_do_wakeup` -/
theorem Inv.activateRunStep (h : Inv s) (hk : s.pc c = .activateRun p r b) :
    Inv ((s.setState p .running).goto c (.push r b)) := by
  have hsound := h.sound c
  rw [hk] at hsound
  obtain ⟨-, hon⟩ := h.claim c p (.entered r) (hk ▸ List.mem_singleton.mpr rfl)
  have hlocal : b.Local c r := by
    cases b with
    | task q => trivial
    | pending ps => exact hsound
    | worker q => exact hsound.2
    | _ => exact absurd hsound id
  have hfollows : Follows c (.activateRun p r b) (.push r b) :=
    ⟨⟨fun _ => Iff.rfl, hlocal⟩, List.Sublist.refl _, id⟩
  exact h.setState hk hfollows (.inl hon) (soft_of_claims (k := .activateRun p r b) rfl id)
    fun q x hx => absurd hx List.not_mem_nil

/-! ## `__schedule` -/

/-- `__schedule`: a task that goes to sleep is dequeued. -/
theorem Inv.schedStateStep (h : Inv s) (hk : s.pc c = .schedState)
    (hstep : schedState s c a = some s') :
    Inv s' := by
  have hsoft : ∀ q x, (q, x) ∈ claims (.schedState : Pc Task Cpu) → ¬ x.Hard := fun _ _ hx =>
    absurd hx List.not_mem_nil
  have hown : s.owner (.rq c) = some c := (h.owner _ c).mpr (by rw [hk]; rfl)
  have hfollows : Follows c .schedState (.pull c .pre : Pc Task Cpu) := by
    refine ⟨⟨fun l => ?_, rfl⟩, List.Sublist.refl _, fun _ => trivial⟩
    simp [holds, Back.holds]
  have hpull : Inv (s.goto c (.pull c .pre)) := h.jump_free hk hfollows hsoft rfl
  unfold schedState at hstep
  -- the idle task never sleeps
  cases hcurr : s.curr c with
  | none =>
    rw [hcurr] at hstep
    obtain rfl := Option.some.inj hstep
    exact hpull
  | some p =>
    obtain ⟨hcpu, honCpu, hon⟩ := h.current_of_quiet hcurr (by rw [hk]; rfl) (by rw [hk]; exact id)
    simp only [hcurr] at hstep
    split_ifs at hstep
    · obtain rfl := Option.some.inj hstep
      exact hpull
    · cases a with
      -- `PREEMPT_ACTIVE`: the task stays on its run queue
      | preempted =>
        obtain rfl := Option.some.inj hstep
        exact hpull
      -- `signal_pending_state`: it goes on
      | signal =>
        obtain rfl := Option.some.inj hstep
        exact h.setState hk hfollows (.inl hon) hsoft fun q x hx => absurd hx List.not_mem_nil
      | next =>
        obtain rfl := Option.some.inj hstep
        refine h.dequeue hk ⟨⟨fun _ => Iff.rfl, trivial⟩, List.Sublist.refl _, id⟩ hown
          hcpu hon hsoft rfl
          trivial ⟨?_, ?_, ?_, ?_, hcurr⟩
        · simpa [Sys.setQueue] using hcpu
        · simpa [Sys.setQueue] using hon
        · simp [Sys.setQueue]
        · simpa [Sys.setQueue] using honCpu
      | _ => cases hstep

/-- A worker is to be woken, which is not the task that runs; or there is none. -/
theorem Inv.schedWorkerStep (h : Inv s) (hk : s.pc c = .schedWorker)
    (hstep : schedWorker s c a = some s') : Inv s' := by
  have hsoft : ∀ q x, (q, x) ∈ claims (.schedWorker : Pc Task Cpu) → ¬ x.Hard := fun _ _ hx =>
    absurd hx List.not_mem_nil
  have hpull : Inv (s.goto c (.pull c .pre)) := by
    refine h.jump_free hk ⟨⟨fun l => ?_, rfl⟩, List.Sublist.refl _, id⟩ hsoft rfl
    simp [holds, Back.holds]
  cases a with
  | task p =>
    simp only [schedWorker] at hstep
    split_ifs at hstep with hbound hcheck
    · obtain rfl := Option.some.inj hstep
      exact hpull
    · obtain rfl := Option.some.inj hstep
      exact h.jump_claim hk ⟨⟨fun _ => Iff.rfl, trivial⟩, List.Sublist.refl _, id⟩ hsoft rfl
        fun hcurr => hcheck (.inr hcurr)
  | next =>
    obtain rfl := Option.some.inj hstep
    exact hpull
  | _ => cases hstep

/-- The worker's lock is taken, or waited for without any other lock. -/
theorem Inv.workerLockStep (h : Inv s) (hk : s.pc c = .workerLock p) : Inv (workerLock s c p) := by
  have hnot : s.curr c ≠ some p := h.claim c p .notCurrent (hk ▸ List.mem_singleton.mpr rfl)
  unfold workerLock
  -- `raw_spin_trylock`
  split_ifs with hfree
  · refine h.lock hk hfree trivial (.inl rfl) (fun m hm => ?_) rfl rfl rfl
    simp [holds, hm]
  · have hclaims : ∀ l, ∀ x ∈ claims (.workerState p : Pc Task Cpu),
        l ∉ x.2.locks c x.1 ∧ ¬ x.2.Hard := by
      intro l x hx
      rw [List.mem_singleton.mp hx]
      exact ⟨List.not_mem_nil, id⟩
    have hrq : Sound c (.acquire (.rq c) (.workerState p)) :=
      sound_acquire_under_pi trivial (fun _ => Iff.rfl) (hclaims _)
    refine h.jump_claim hk ⟨⟨fun l => ?_, ⟨hrq, ?_, fun l hl hne => ?_, hclaims _, ?_⟩, ?_, ?_⟩,
      List.Sublist.refl _, id⟩ (soft_of_claims (k := .workerLock p) rfl id) rfl hnot
    · simp only [holds]
      tauto
    · exact ⟨.inl rfl, by simp⟩
    · exact absurd (hl.1.resolve_right hl.2) hne
    · intro _ q hq
      rw [Lock.pi.inj hq]
    · simp [holds]
    · exact fun x hx => (hclaims (.rq c) x hx).2

/-- **`try_to_wake_up_local`.** The worker is still at this processor, and does not run: it is
enqueued if it is off its run queue. -/
theorem Inv.workerStateStep (h : Inv s) (hk : s.pc c = .workerState p) (hcpu : (s.task p).cpu = c) :
    Inv (workerState s c p) := by
  have hnot : s.curr c ≠ some p := h.claim c p .notCurrent (hk ▸ List.mem_singleton.mpr rfl)
  have hown : s.owner (.rq (s.task p).cpu) = some c :=
    (h.owner _ c).mpr (by rw [hk, hcpu]; exact .inr rfl)
  have hsoft :=
    soft_of_claims (k := .workerState p) (p := p) (x := (.notCurrent : Claim Cpu)) rfl id
  unfold workerState
  split_ifs with hst hon
  · refine h.jump_free hk ⟨⟨fun l => ?_, rfl, ?_, ?_⟩, List.Sublist.refl _, id⟩ hsoft rfl
    · simp [holds, Back.holds, or_comm]
    · simp [holds, Back.holds]
    · exact fun x hx => absurd hx List.not_mem_nil
  · have hfollows : Follows c (.workerState p) (.push c (.worker p)) := by
      refine ⟨⟨fun l => ?_, rfl⟩, List.Sublist.refl _, id⟩
      simp [holds, Back.holds, or_comm]
    exact h.setState hk hfollows (.inl hon) hsoft fun q x hx => absurd hx List.not_mem_nil
  · -- a task that another processor is to enqueue does not sleep
    have hl : ¬ Listed s p := by
      rintro ⟨r, hr⟩
      exact absurd ((h.listed p r hr).state.symm.trans (not_not.mp hst)) (by simp)
    have honCpu : (s.task p).onCpu = false :=
      h.onCpu_of_ne hown (by simp [hk, claims]) (by rwa [hcpu])
    refine h.jump_claim hk ⟨⟨fun l => ?_, rfl, rfl⟩, List.Sublist.refl _, id⟩ hsoft rfl
      ⟨by simpa using hon, honCpu, not_listed_goto hl hk (List.Sublist.refl _), hcpu⟩
    simp [holds, Back.holds, or_comm]

/-- `pick_next_task`: the next task is in the queue, the previous one is left `on_cpu`. -/
theorem Inv.schedPickStep (h : Inv s) (hk : s.pc c = .schedPick)
    (hstep : schedPick s c a = some s') :
    Inv s' := by
  have hown : s.owner (.rq c) = some c := (h.owner _ c).mpr (by rw [hk]; rfl)
  have hnone : claims (s.pc c) = [] := by rw [hk]; rfl
  -- the same task goes on
  have hsame : (∀ q, s.curr c = some q → (s.task q).onRq = true) →
      Inv (s.goto c (.release (.rq c) .idle)) := by
    intro hon
    have hleft : (left (.release (.rq c) .idle : Pc Task Cpu)).Sublist (left (s.pc c)) :=
      List.nil_sublist _
    refine h.update (fun _ => False) hk rfl rfl (fun _ _ _ => Iff.rfl) (fun _ _ => rfl) ?_ ?_
      ⟨fun l => ?_, trivial, id, ?_⟩ (fun q _ hq _ => .inr (hon q hq))
      (fun q x _ hx => absurd hx List.not_mem_nil) (fun q x hx => absurd hx List.not_mem_nil)
      fun _ hp => hp.elim
    · exact fun q _ r hr => hr.imp_right fun hr => (left_goto rfl hleft r).subset hr
    · exact fun d => (h.nodup d).sublist ((left_goto rfl hleft d).append_right _)
    · simp [holds]
    · exact fun x hx => absurd hx List.not_mem_nil
  -- another task, or the idle task, is switched to
  cases a with
  | task next =>
    simp only [Smp.schedPick] at hstep
    split_ifs at hstep with hq hcurr
    · obtain rfl := Option.some.inj hstep
      refine hsame fun q hq' => ?_
      obtain rfl := Option.some.inj (hcurr.symm.trans hq')
      exact h.onRq_of_queue hown (fun r => by simp [hnone]) (by simpa using hq)
    · obtain rfl := Option.some.inj hstep
      refine h.switch hk hcurr (fun q hq' => ?_) ⟨fun _ => Iff.rfl, trivial⟩ rfl fun q x => ?_
      · rw [← Option.some.inj hq']
        simpa using hq
      · cases s.curr c <;> simp [claims, eq_comm]
  | next =>
    simp only [Smp.schedPick] at hstep
    split_ifs at hstep with hcurr
    · obtain rfl := Option.some.inj hstep
      refine hsame fun q hq => ?_
      rw [hcurr] at hq
      cases hq
    · obtain rfl := Option.some.inj hstep
      refine h.switch hk hcurr (fun q hq => by cases hq)
        ⟨fun _ => Iff.rfl, trivial⟩ rfl fun q x => ?_
      cases s.curr c <;> simp [claims, eq_comm]
  | _ => cases hstep

/-! ## Moving tasks -/

/-- `__migrate_task`, with its locks. -/
theorem Inv.migrateStep (h : Inv s) {dest : Cpu} (hk : s.pc c = .migrate p dest) :
    Inv (if (s.task p).cpu = c ∧ s.allowed p dest ∧ (s.task p).onRq then
      (s.setQueue p c false).goto c
        (.moveCpu p c dest (doubleRqUnlock c dest (.release (.pi p) .idle)))
    else s.goto c (doubleRqUnlock c dest (.release (.pi p) .idle))) := by
  have hown : s.owner (.rq c) = some c := (h.owner _ c).mpr (by rw [hk]; exact .inr (.inl rfl))
  have hnot : s.curr c ≠ some p := h.claim c p .notCurrent (hk ▸ List.mem_singleton.mpr rfl)
  have hsoft : ∀ q x, (q, x) ∈ claims (.migrate p dest : Pc Task Cpu) → ¬ x.Hard := by
    intro q x hx
    rw [(Prod.mk.inj (List.mem_singleton.mp hx)).2]
    exact id
  have hholds : ∀ l, holds c (doubleRqUnlock c dest (.release (.pi p) .idle)) l ↔
      holds c (.migrate p dest) l := by
    intro l
    rw [holds_doubleRqUnlock]
    simp [holds]
  have hunlock : Sound c (doubleRqUnlock c dest (.release (.pi p) .idle)) :=
    sound_doubleRqUnlock ⟨trivial, id, fun x hx => absurd hx List.not_mem_nil⟩ (by simp [holds])
      (by simp [holds]) fun x hx => absurd hx List.not_mem_nil
  have hleft : left (doubleRqUnlock c dest (.release (.pi p) .idle)) = [] := left_doubleRqUnlock
  split_ifs with hcheck
  · obtain ⟨hcpu, -, hon⟩ := hcheck
    have honCpu : (s.task p).onCpu = false :=
      h.onCpu_of_ne (c := c) (by rwa [hcpu]) (by simp [hk, claims]) (by rwa [hcpu])
    refine h.take hk ⟨⟨hholds, hunlock, claims_doubleRqUnlock, ?_, ?_⟩, ?_,
      fun hg => hg.elim⟩ hown hcpu hon
      honCpu hsoft
    · rw [holds_doubleRqUnlock]
      exact .inr (.inl rfl)
    · rw [holds_doubleRqUnlock]
      exact .inr (.inr rfl)
    · rw [left, hleft]
      exact List.Sublist.refl _
  · refine h.jump_free hk ⟨⟨hholds, hunlock⟩, ?_, fun hg => hg.elim⟩ hsoft claims_doubleRqUnlock
    rw [hleft]
    exact List.Sublist.refl _

/-- A task that was moved is enqueued at its new run queue. -/
theorem Inv.moveEnqueueStep (h : Inv s) (hk : s.pc c = .moveEnqueue p r k) :
    Inv ((s.setQueue p r true).goto c k) := by
  have hsound := h.sound c
  rw [hk] at hsound
  obtain ⟨hsk, hnone, hheld⟩ := hsound
  have hmem : (p, .moving r) ∈ claims (s.pc c) := hk ▸ List.mem_singleton.mpr rfl
  obtain ⟨hcpu, hon, -, -⟩ := h.claim c p _ hmem
  refine h.enqueue hk ⟨⟨fun _ => Iff.rfl, hsk⟩, List.Sublist.refl _, id⟩
    (h.held hmem (List.mem_singleton.mpr rfl)) hcpu hon rfl (by simp) (by simp) fun q x hx => ?_
  simp [hnone] at hx

/-- `push_rt_task` chooses a task that does not run, or returns. -/
theorem Inv.pushStep (h : Inv s) (hk : s.pc c = .push r b)
    (hstep : pushRtTask s c r b a = some s') : Inv s' := by
  have hlocal := h.sound c
  rw [hk] at hlocal
  have hsoft : ∀ q x, (q, x) ∈ claims (.push r b : Pc Task Cpu) → ¬ x.Hard := fun _ _ hx =>
    absurd hx List.not_mem_nil
  cases a with
  | push p dst =>
    simp only [pushRtTask] at hstep
    split_ifs at hstep with hcheck
    obtain rfl := Option.some.inj hstep
    obtain ⟨hqueue, hcurr, hne, -⟩ := hcheck
    exact h.jump_claim hk ⟨⟨fun _ => Iff.rfl, hne, hlocal⟩, List.Sublist.refl _, id⟩ hsoft rfl
      ⟨hqueue, hcurr⟩
  | next =>
    obtain rfl := Option.some.inj hstep
    exact h.resume hk hlocal (fun _ => Iff.rfl) rfl gone_resume rfl
  | _ => cases hstep

/-- `find_lock_lowest_rq` takes the second lock, and may drop the first one. -/
theorem Inv.pushBalanceStep (h : Inv s) (preempt : Bool) {dst : Cpu}
    (hk : s.pc c = .pushBalance p r dst b) :
    Inv (doubleLockBalance preempt s c r dst fun d => .pushCheck d p r dst b) := by
  have hsound := h.sound c
  rw [hk] at hsound
  refine h.balance preempt hk hsound.1 (fun _ => hsound) (fun _ => Iff.rfl)
    (fun _ _ => Iff.rfl) rfl rfl
    (soft_of_claims (k := .pushBalance p r dst b) rfl id) (fun x hx => ?_)
    (fun q x s' hx hok ht hc => ?_)
    (fun _ => rfl) fun _ => rfl
  · rw [List.mem_singleton.mp hx]
    simpa [Claim.locks] using Ne.symm hsound.1
  · obtain ⟨rfl, rfl⟩ := Prod.mk.inj (List.mem_singleton.mp hx)
    simpa only [Claim.Ok, ht, hc] using hok

/-- `find_lock_lowest_rq` looks at the task again if the first lock was dropped. -/
theorem Inv.pushCheckStep (h : Inv s) {dropped : Bool} {dst : Cpu}
    (hk : s.pc c = .pushCheck dropped p r dst b)
    (hstep : pushCheck s c dropped p r dst b a = some s') : Inv s' := by
  have hsound := h.sound c
  rw [hk] at hsound
  obtain ⟨hne, hlocal⟩ := hsound
  have hown : s.owner (.rq r) = some c := (h.owner _ c).mpr (by rw [hk]; exact .inl rfl)
  have hsoft : ∀ q x, (q, x) ∈ claims (.pushCheck dropped p r dst b : Pc Task Cpu) → ¬ x.Hard := by
    intro q x hx
    cases dropped with
    | true => exact absurd hx List.not_mem_nil
    | false =>
      rw [(Prod.mk.inj (List.mem_singleton.mp hx)).2]
      exact id
  have hrelease : Sound c (.release (.rq dst) (.push r b)) :=
    sound_release_second hne hlocal (fun _ => Iff.rfl) rfl
  have hholds : ∀ l, holds c (.release (.rq dst) (.push r b)) l ↔
      holds c (.pushCheck dropped p r dst b) l := by
    intro l
    simp only [holds]
    tauto
  cases a with
  | task q =>
    simp only [Smp.pushCheck] at hstep
    split_ifs at hstep with hq hcheck
    obtain rfl := Option.some.inj hstep
    -- either the task was looked at again, or the run queue was held all the time
    have hfacts : (s.task p).cpu = r ∧ (s.task p).onRq = true ∧ (s.task p).onCpu = false := by
      cases dropped with
      | true =>
        simp only [true_and, not_or, not_not, Bool.not_eq_true, Bool.not_eq_eq_eq_not,
          Bool.not_true, Bool.not_eq_false] at hcheck
        exact ⟨hcheck.1, hcheck.2.2.2, hcheck.2.2.1⟩
      | false =>
        have hmem : (p, .waiting r) ∈ claims (s.pc c) := hk ▸ List.mem_singleton.mpr rfl
        obtain ⟨hqueue, hcurr⟩ := h.claim c p _ hmem
        have hcpu := h.queueCpu p r hqueue
        subst hcpu
        have hout : (p, .outgoing) ∉ claims (s.pc c) := by simp [hk, claims]
        exact ⟨rfl, h.onRq_of_queue hown (fun r => by simp [hk, claims]) hqueue,
          h.onCpu_of_ne hown hout hcurr⟩
    obtain ⟨hcpu, hon, honCpu⟩ := hfacts
    exact h.take hk ⟨⟨hholds, hrelease, rfl, .inl (.inl rfl), .inr rfl⟩, List.Sublist.refl _,
      id⟩ hown hcpu hon
      honCpu hsoft
  | next =>
    obtain rfl := Option.some.inj hstep
    exact h.jump_free hk ⟨⟨hholds, hrelease⟩, List.Sublist.refl _, id⟩ hsoft rfl
  | _ => cases hstep

/-- `pull_rt_task` takes the second lock, and may drop the first one. -/
theorem Inv.pullBalanceStep (h : Inv s) (preempt : Bool) {src : Cpu}
    (hk : s.pc c = .pullBalance r src b) :
    Inv (doubleLockBalance preempt s c r src fun _ => .pullPick r src b) := by
  have hsound := h.sound c
  rw [hk] at hsound
  exact h.balance preempt hk hsound.1 (fun _ => hsound) (fun _ => Iff.rfl)
    (fun _ _ => Iff.rfl) rfl rfl
    (fun _ _ hx => absurd hx List.not_mem_nil) (fun x hx => absurd hx List.not_mem_nil)
    (fun q x s' hx => absurd hx List.not_mem_nil) (fun _ => rfl) fun _ => rfl

/-- `pull_rt_task` takes a task that does not run. -/
theorem Inv.pullPickStep (h : Inv s) {src : Cpu} (hk : s.pc c = .pullPick r src b)
    (hstep : pullPick s c r src b a = some s') : Inv s' := by
  have hsound := h.sound c
  rw [hk] at hsound
  obtain ⟨hne, hlocal⟩ := hsound
  have hown : s.owner (.rq src) = some c := (h.owner _ c).mpr (by rw [hk]; exact .inr (.inl rfl))
  have hsoft : ∀ q x, (q, x) ∈ claims (.pullPick r src b : Pc Task Cpu) → ¬ x.Hard := fun _ _ hx =>
    absurd hx List.not_mem_nil
  have hrelease : Sound c (.release (.rq src) (.pull r b)) :=
    sound_release_second hne hlocal (fun _ => Iff.rfl) rfl
  have hholds : ∀ l, holds c (.release (.rq src) (.pull r b)) l ↔
      holds c (.pullPick r src b) l := by
    intro l
    simp only [holds]
    tauto
  cases a with
  | task p =>
    simp only [Smp.pullPick] at hstep
    split_ifs at hstep with hcheck
    obtain rfl := Option.some.inj hstep
    obtain ⟨hqueue, honCpu, -⟩ := hcheck
    refine h.take hk ⟨⟨hholds, hrelease, rfl, .inr rfl, .inl (.inl rfl)⟩,
      List.Sublist.refl _, id⟩ hown
      (h.queueCpu p src hqueue) (h.onRq_of_queue hown (fun r => by simp [hk, claims]) hqueue)
      (by simpa using honCpu) hsoft
  | next =>
    obtain rfl := Option.some.inj hstep
    exact h.jump_free hk ⟨⟨hholds, hrelease⟩, List.Sublist.refl _, id⟩ hsoft rfl
  | _ => cases hstep

/-! ## All together -/

/-- **Every step keeps the invariant.** -/
theorem Inv.step (h : Inv s) (hbound : Bound s) {preempt : Bool}
    (hstep : step preempt s o = some s') :
    Inv s' := by
  obtain ⟨c, a⟩ := o
  unfold Smp.step at hstep
  -- one case for each place in the code
  cases hk : s.pc c with
  | idle =>
    simp only [hk] at hstep
    exact h.begin hk hstep
  | acquire l k =>
    simp only [hk] at hstep
    split_ifs at hstep with hfree
    obtain rfl := Option.some.inj hstep
    exact h.acquire hk hfree
  | release l k =>
    simp only [hk] at hstep
    obtain rfl := Option.some.inj hstep
    exact h.release hk
  | rqOf p =>
    simp only [hk] at hstep
    obtain rfl := Option.some.inj hstep
    exact h.rqOfStep hk
  | rqCheck p r =>
    simp only [hk, ← apply_ite some] at hstep
    obtain rfl := Option.some.inj hstep
    exact h.rqCheckStep hk
  | held p r =>
    simp only [hk] at hstep
    exact h.heldStep hk hstep
  | taken p r =>
    simp only [hk] at hstep
    obtain rfl := Option.some.inj hstep
    exact h.takenStep hk
  | wakeState p =>
    simp only [hk, ← apply_ite some] at hstep
    obtain rfl := Option.some.inj hstep
    exact h.wakeStateStep hk
  | wakeOnRq p =>
    simp only [hk] at hstep
    obtain rfl := Option.some.inj hstep
    exact h.wakeOnRqStep hk
  | wakeRqOf p =>
    simp only [hk] at hstep
    obtain rfl := Option.some.inj hstep
    exact h.wakeRqOfStep hk
  | wakeRqCheck p r =>
    simp only [hk, ← apply_ite some] at hstep
    obtain rfl := Option.some.inj hstep
    exact h.wakeRqCheckStep hk
  | wakeRemote p r =>
    simp only [hk, ← apply_ite some] at hstep
    obtain rfl := Option.some.inj hstep
    exact h.wakeRemoteStep hk
  | wakeSpin p =>
    simp only [hk] at hstep
    split_ifs at hstep with hon
    obtain rfl := Option.some.inj hstep
    exact h.wakeSpinStep hk (by simpa using hon)
  | wakeMark p =>
    simp only [hk] at hstep
    obtain rfl := Option.some.inj hstep
    exact h.wakeMarkStep hk
  | wakeSelect p =>
    simp only [hk] at hstep
    cases a with
    | cpu r =>
      dsimp only at hstep
      split_ifs at hstep
      obtain rfl := Option.some.inj hstep
      exact h.wakeSelect hk
    | next =>
      obtain rfl := Option.some.inj hstep
      exact h.wakeSelectStay hk
    | _ => cases hstep
  | wakeQueue p =>
    simp only [hk] at hstep
    cases a with
    | remote =>
      obtain rfl := Option.some.inj hstep
      exact h.queueRemote hk rfl
    | next =>
      obtain rfl := Option.some.inj hstep
      exact h.wakeQueueLocal hk rfl
    | _ => cases hstep
  | activate p r b =>
    simp only [hk] at hstep
    obtain rfl := Option.some.inj hstep
    exact h.activateStep hk
  | activateOnRq p r b =>
    simp only [hk] at hstep
    obtain rfl := Option.some.inj hstep
    exact h.activateOnRq hk
  | activateRun p r b =>
    simp only [hk] at hstep
    obtain rfl := Option.some.inj hstep
    exact h.activateRunStep hk
  | schedState =>
    simp only [hk] at hstep
    exact h.schedStateStep hk hstep
  | schedOnRq p =>
    simp only [hk] at hstep
    obtain rfl := Option.some.inj hstep
    exact h.schedOnRq hk
  | schedWorker =>
    simp only [hk] at hstep
    exact h.schedWorkerStep hk hstep
  | workerLock p =>
    simp only [hk] at hstep
    obtain rfl := Option.some.inj hstep
    exact h.workerLockStep hk
  | workerState p =>
    simp only [hk] at hstep
    obtain rfl := Option.some.inj hstep
    have hworker : s.bound p = some c := hbound.worker c p (hk ▸ List.mem_singleton.mpr rfl)
    exact h.workerStateStep hk (hbound.cpu p c hworker)
  | schedPick =>
    simp only [hk] at hstep
    exact h.schedPickStep hk hstep
  | schedOn prev next =>
    simp only [hk] at hstep
    obtain rfl := Option.some.inj hstep
    exact h.schedOn hk
  | schedOff prev =>
    simp only [hk] at hstep
    cases prev with
    | none =>
      obtain rfl := Option.some.inj hstep
      refine h.jump_free hk ⟨⟨fun l => ?_, trivial, id, ?_⟩, List.Sublist.refl _, id⟩
        (fun _ _ hx => absurd hx List.not_mem_nil) rfl
      · simp [holds]
      · exact fun x hx => absurd hx List.not_mem_nil
    | some p =>
      obtain rfl := Option.some.inj hstep
      exact h.schedOff hk
  | migrate p dest =>
    simp only [hk, ← apply_ite some] at hstep
    obtain rfl := Option.some.inj hstep
    exact h.migrateStep hk
  | moveCpu p src dst k =>
    simp only [hk] at hstep
    obtain rfl := Option.some.inj hstep
    exact h.moveCpu hk
  | moveEnqueue p dst k =>
    simp only [hk] at hstep
    obtain rfl := Option.some.inj hstep
    exact h.moveEnqueueStep hk
  | push r b =>
    simp only [hk] at hstep
    exact h.pushStep hk hstep
  | pushBalance p r dst b =>
    simp only [hk] at hstep
    obtain rfl := Option.some.inj hstep
    exact h.pushBalanceStep preempt hk
  | pushCheck dropped p r dst b =>
    simp only [hk] at hstep
    exact h.pushCheckStep hk hstep
  | pull r b =>
    simp only [hk] at hstep
    exact h.pullStep hk hstep
  | pullBalance r src b =>
    simp only [hk] at hstep
    obtain rfl := Option.some.inj hstep
    exact h.pullBalanceStep preempt hk
  | pullPick r src b =>
    simp only [hk] at hstep
    exact h.pullPickStep hk hstep

end LinuxKernel.Smp

import LinuxKernel.Smp.Invariant

/-!
# Steps that write to a task

One lemma for each write of the code: under which locks it is made, and what the processor relies on
before and after it.

* `Inv.switch`   — `rq->curr`.
* `Inv.queueRemote`, `Inv.takeAll` — the lists of wakeups.
* `Inv.dequeue`, `Inv.enqueue`, `Inv.activate` — a task leaves a locked run queue or enters it.
* `Inv.setState` — `p->state`.
* `Inv.setCpu`   — `set_task_cpu`, of a task that is in no queue.
* `Inv.activateOnRq`, `Inv.schedOnRq` — `p->on_rq`.
* `Inv.schedOn`, `Inv.schedOff` — `p->on_cpu`.
-/

namespace LinuxKernel.Smp

variable {Task Cpu : Type} [LinearOrder Cpu] {s : Sys Task Cpu} {c d r : Cpu}
  {k k₀ : Pc Task Cpu} {p q : Task}

/-! ## What runs, and what is left -/

/-- `rq->curr = next`: the task that ran is switched from, the next one is switched to. -/
theorem Inv.switch (h : Inv s) (hk : s.pc c = .schedPick) {o : Option Task} (hne : s.curr c ≠ o)
    (hqueued : ∀ q, o = some q → (s.task q).queue c = true) (hreaches : Reaches c .schedPick k)
    (hleft : left k = [])
    (hclaims : ∀ q x, (q, x) ∈ claims k ↔ o = some q ∧ x = .chosen ∨ s.curr c = some q ∧
      x = .outgoing) :
    Inv ((s.setCurr c o).goto c k) := by
  have hown : s.owner (.rq c) = some c := (h.owner _ c).mpr (by rw [hk]; rfl)
  have hnone : claims (s.pc c) = [] := by rw [hk]; rfl
  have hsoft : ∀ q x, (q, x) ∈ claims (.schedPick : Pc Task Cpu) → ¬ x.Hard := fun _ _ hx =>
    absurd hx List.not_mem_nil
  -- the task that is chosen waits here and runs nowhere
  have hnext : ∀ q, o = some q → (s.task q).cpu = c ∧ (s.task q).onRq = true ∧
      (s.task q).onCpu = false := by
    intro q hq
    have hcpu := h.queueCpu q c (hqueued q hq)
    have hno : ∀ x, (q, x) ∉ claims (s.pc c) := fun x => hnone ▸ List.not_mem_nil
    have hown' : s.owner (.rq (s.task q).cpu) = some c := by rwa [hcpu]
    refine ⟨hcpu, h.onRq_of_queue hown (fun r => hno _) (hqueued q hq),
      h.onCpu_of_ne hown' (hno _) ?_⟩
    rw [hcpu, ← hq]
    exact hne
  -- the one that ran is still `on_cpu`, on its run queue or not
  have hprev : ∀ q, s.curr c = some q → (s.task q).cpu = c ∧ (s.task q).onCpu = true := by
    intro q hq
    obtain ⟨hcpu, hon, -⟩ := h.current c q hq
    exact ⟨hcpu, hon.resolve_right (by simp [hnone])⟩
  have hcpu : ∀ q, s.curr c = some q ∨ o = some q → (s.task q).cpu = c := fun q hq =>
    hq.elim (fun hq => (hprev q hq).1) fun hq => (hnext q hq).1
  have hleft' : (left k).Sublist (left (s.pc c)) := by
    rw [hleft]
    exact List.nil_sublist _
  -- both are written to; nobody else may rely on either, as the run queue is locked
  refine h.update (fun q => s.curr c = some q ∨ o = some q) hk rfl rfl ?_
    (fun _ _ => rfl) ?_ ?_ hreaches
    (fun q hq hcur => absurd (.inl hcur) hq)
    (fun q x _ hx hhard => absurd hhard (hsoft q x hx)) ?_ ?_
  · intro q hq r
    by_cases hr : r = c
    · subst hr
      refine iff_of_false (fun heq => hq (.inr ?_)) fun heq => hq (.inl heq)
      rwa [goto_curr, setCurr_self] at heq
    · rw [goto_curr, setCurr_of_ne hr]
  · intro q _ r hr
    exact hr.imp_right fun hr => (left_goto rfl hleft' r).subset hr
  · intro d
    exact (h.nodup d).sublist ((left_goto rfl hleft' d).append_right _)
  · -- what the processor relies on next
    intro q x hx
    have hself : ((s.setCurr c o).goto c k).curr c = o := by rw [goto_curr, setCurr_self]
    rcases (hclaims q x).mp hx with ⟨hq, rfl⟩ | ⟨hq, rfl⟩
    · obtain ⟨h1, h2, h3⟩ := hnext q hq
      exact ⟨h1, h2, h3, hself.trans hq⟩
    · obtain ⟨h1, h2⟩ := hprev q hq
      refine ⟨h1, h2, fun heq => hne ?_⟩
      rw [hq, ← heq, hself]
  · intro q hq
    refine ⟨?_, ?_, ?_, h.queueCpu q, ?_, ?_, ?_⟩
    · intro d x hd hx hok
      refine hok.congr (fun _ => rfl) (fun _ => rfl) (fun _ => rfl) (fun _ => rfl)
        (fun _ _ => rfl) ?_ rfl
        (fun _ => Exists.imp fun r => Or.imp_right fun hr => (left_goto rfl hleft' r).subset hr)
        fun hl => ?_
      · rintro r hr
        have hrc : r ≠ c := by
          rcases hr with rfl | hr
          · exact hd
          · rintro rfl
            exact h.conflict hown hd hx (Claim.asks_locked hr)
        rw [goto_curr, setCurr_of_ne hrc]
      · rwa [goto_pc_of_ne hd]
    · -- `rq->curr`
      intro d hd
      by_cases hdc : d = c
      · subst hdc
        have ho : o = some q := by rwa [goto_curr, setCurr_self] at hd
        obtain ⟨h1, h2, -⟩ := hnext q ho
        refine ⟨h1, .inr ?_, .inl h2⟩
        rw [goto_pc_self]
        exact (hclaims q _).mpr (.inl ⟨ho, rfl⟩)
      · have hd : s.curr d = some q := by rwa [goto_curr, setCurr_of_ne hdc] at hd
        exact absurd ((h.current d q hd).1.symm.trans (hcpu q hq)) hdc
    · -- `on_cpu` of the task that ran: it is outgoing
      intro hon
      refine .inr ?_
      have hcpu' : (((s.setCurr c o).goto c k).task q).cpu = c := hcpu q hq
      rw [hcpu', goto_pc_self]
      refine (hclaims q _).mpr (.inr ⟨hq.resolve_right fun ho => ?_, rfl⟩)
      exact absurd ((hnext q ho).2.2.symm.trans hon) (by simp)
    · intro hq'
      exact (h.queueOn q hq').imp_right (Exists.imp fun d => Exists.imp fun r hx =>
        claims_goto rfl hk hsoft hx trivial)
    · intro hon
      exact (h.onQueue q hon).imp_right (Exists.imp fun d => Exists.imp fun x hx =>
        ⟨claims_goto rfl hk hsoft hx.1 hx.2.hard, hx.2⟩)
    · intro r hr
      obtain ⟨h1, h2, h3, h4⟩ :=
        h.listed q r (hr.imp_right fun hr => (left_goto rfl hleft' r).subset hr)
      exact ⟨h1, h2, h3, h4⟩

/-- `ttwu_queue_remote`: the wakeup is left to the task's processor. -/
theorem Inv.queueRemote (h : Inv s) (hk : s.pc c = .wakeQueue p) (hr : (s.task p).cpu = r) :
    Inv ((s.setWakeList r (p :: s.wakeList r)).goto c (.release (.pi p) .idle)) := by
  have hmem : (p, .marked) ∈ claims (s.pc c) := hk ▸ List.mem_singleton.mpr rfl
  obtain ⟨hon, honCpu, hl, hst⟩ := h.claim c p .marked hmem
  have hown : s.owner (.pi p) = some c := h.held hmem (List.mem_singleton.mpr rfl)
  have hsoft : ∀ q x, (q, x) ∈ claims (.wakeQueue p : Pc Task Cpu) → ¬ x.Hard := by
    intro q x hx
    rw [(Prod.mk.inj (List.mem_singleton.mp hx)).2]
    exact id
  have hleft : ∀ d,
      left (((s.setWakeList r (p :: s.wakeList r)).goto c (.release (.pi p) .idle)).pc d) =
        left (s.pc d) := by
    intro d
    by_cases hd : d = c
    · subst hd
      rw [goto_pc_self, hk]
      rfl
    · rw [goto_pc_of_ne hd]
      rfl
  -- one list gets longer, by this task
  have hlist : ∀ q d, q ∈ (s.setWakeList r (p :: s.wakeList r)).wakeList d →
      q = p ∧ d = r ∨ q ∈ s.wakeList d := by
    intro q d hq
    by_cases hd : d = r
    · subst hd
      rw [setWakeList_self] at hq
      exact (List.mem_cons.mp hq).imp_left fun heq => ⟨heq, rfl⟩
    · rw [setWakeList_of_ne hd] at hq
      exact .inr hq
  refine h.update (· = p) hk rfl rfl (fun _ _ _ => Iff.rfl) (fun _ _ => rfl) ?_ ?_
    ⟨fun l => ?_, trivial, id, fun x hx => absurd hx List.not_mem_nil⟩ (fun _ _ _ hg => hg.elim)
    (fun q x _ hx hhard => absurd hhard (hsoft q x hx))
    (fun q x hx => absurd hx List.not_mem_nil) ?_
  · intro q hq d hd
    rw [hleft] at hd
    exact hd.imp_left fun hd => (hlist q d hd).resolve_left fun heq => hq heq.1
  · intro d
    rw [hleft]
    by_cases hd : d = r
    · subst hd
      -- it was on no list: its entry is free
      rw [goto_wakeList, setWakeList_self, List.nodup_middle, List.nodup_cons]
      exact ⟨fun hp => hl ⟨d, (List.mem_append.mp hp).symm⟩, h.nodup d⟩
    · rw [goto_wakeList, setWakeList_of_ne hd]
      exact h.nodup d
  · simp [holds]
  · rintro q rfl
    refine ⟨?_, ?_, ?_, h.queueCpu q, ?_, ?_, ?_⟩
    · intro d x hd hx hok
      refine hok.congr (fun _ => rfl) (fun _ => rfl) (fun _ => rfl) (fun _ => rfl) (fun _ _ => rfl)
        (fun _ _ => Iff.rfl) rfl (fun hpi => ?_) fun hl => by rwa [goto_pc_of_ne hd]
      -- the others do not rely on what is left of a task that this processor has locked
      exact (hpi.elim (h.conflict hown hd hx) fun hpi => hd
        (Option.some.inj (hown.symm.trans hpi)).symm).elim
    · intro d hd
      exact absurd hd (h.not_current honCpu
        (fun d hd => absurd ((h.claim d q _ hd).2.1.symm.trans hon) (by simp)) d)
    · intro hon'
      exact absurd (hon'.symm.trans honCpu) (by simp)
    · intro hq'
      exact (h.queueOn q hq').imp_right (Exists.imp fun d => Exists.imp fun r hx =>
        claims_goto rfl hk hsoft hx trivial)
    · intro hon'
      exact absurd (hon'.symm.trans hon) (by simp)
    · intro d hd
      rw [hleft] at hd
      refine ⟨hon, honCpu, hst, ?_⟩
      rcases hd with hd | hd
      · rcases hlist q d hd with heq | hd
        · exact hr.trans heq.2.symm
        · exact absurd ⟨d, .inl hd⟩ hl
      · exact absurd ⟨d, .inr hd⟩ hl

/-- `llist_del_all`: the processor takes the wakeups that were left to it. -/
theorem Inv.takeAll (h : Inv s) (hk : s.pc c = .idle) :
    Inv ((s.setWakeList c []).goto c (.acquire (.rq c) (.resume c (.pending (s.wakeList c))))) := by
  have hlocal : (Back.pending (s.wakeList c)).Local c c := rfl
  have hnone : claims (.acquire (.rq c) (.resume c (.pending (s.wakeList c)))) = [] := claims_resume
  -- no task is written to: the list moves from the run queue into the processor's hands
  refine h.update (fun _ => False) hk rfl rfl (fun _ _ _ => Iff.rfl) (fun _ _ => rfl) ?_ ?_
    ⟨fun l => ?_, sound_resume hlocal, ?_, ?_, ?_, fun _ p hp => by cases hp⟩
    (fun _ _ _ hg => hg.elim)
    (fun q x _ hx => absurd hx List.not_mem_nil) (fun q x hx => absurd hx (by simp [hnone]))
    fun _ hp => hp.elim
  · intro q _ d hd
    by_cases hdc : d = c
    · subst hdc
      rw [goto_pc_self] at hd
      rcases hd with hd | hd
      · rw [goto_wakeList, setWakeList_self] at hd
        exact absurd hd List.not_mem_nil
      · rw [left, left_resume] at hd
        exact .inl hd
    · rw [goto_pc_of_ne hdc] at hd
      rwa [goto_wakeList, setWakeList_of_ne hdc] at hd
  · intro d
    by_cases hdc : d = c
    · subst hdc
      rw [goto_pc_self, goto_wakeList, setWakeList_self, left, left_resume, List.append_nil]
      exact (h.nodup d).sublist (List.sublist_append_right _ _)
    · rw [goto_pc_of_ne hdc, goto_wakeList, setWakeList_of_ne hdc]
      exact h.nodup d
  · simp only [holds, holds_resume hlocal, Back.holds, or_false, iff_false]
    exact fun hl => hl.2 hl.1
  · exact (holds_resume hlocal).mpr (.inl rfl)
  · intro l hl hne
    exact absurd (((holds_resume hlocal).mp hl).resolve_right id) hne
  · intro x hx
    simp [claims_resume] at hx

/-! ## Queues and states -/

variable [DecidableEq Task] {t : TaskRec Cpu}

section Writing

variable (h : Inv s) (hk : s.pc c = k₀) (hfollows : Follows c k₀ k)
include h hk hfollows

/-- Where and whether a task runs, after a step that does not change it. -/
theorem Inv.write_quiet (hcpu : t.cpu = (s.task p).cpu) (honRq : t.onRq = (s.task p).onRq)
    (honCpu : t.onCpu = (s.task p).onCpu)
    (hkeep : ∀ q x, q ≠ p → (q, x) ∈ claims k₀ → x.Hard → (q, x) ∈ claims k)
    (hchosen : (p, .chosen) ∉ claims k₀) (houtgoing : (p, .outgoing) ∉ claims k₀)
    (hself : ∀ q x, (q, x) ∈ claims k → x.Ok ((s.setTask p t).goto c k) c q)
    (hother : ∀ d x, d ≠ c → (p, x) ∈ claims (s.pc d) → x.Ok s d p →
      x.Ok ((s.setTask p t).goto c k) d p)
    (hqueueCpu : ∀ r, t.queue r = true → t.cpu = r)
    (hqueueOn : t.queue t.cpu = true →
      t.onRq = true ∨ ∃ d r, (p, .entering r) ∈ claims ((s.goto c k).pc d))
    (honQueue : t.onRq = true →
      t.queue t.cpu = true ∨ ∃ d x, (p, x) ∈ claims ((s.goto c k).pc d) ∧ x.Out)
    (hstate : Listed s p → t.state = .waking) :
    Inv ((s.setTask p t).goto c k) := by
  have hgoto : ((s.setTask p t).goto c k).pc = (s.goto c k).pc := rfl
  -- whoever has this task as current, or leaves it, is another processor
  refine h.write hk hfollows hkeep hself ⟨hother, ?_, ?_, ?_, ?_, ?_, ?_⟩
  · intro d hd
    obtain ⟨h1, h2, h3⟩ := h.current d p hd
    simp only [goto_task, setTask_self, hcpu, honRq, honCpu]
    refine ⟨h1, h2.imp_right fun hx => ?_, h3.imp_right fun hg => ?_⟩
    · by_cases hdc : d = c
      · subst hdc
        rw [hk] at hx
        exact absurd hx hchosen
      · rwa [goto_pc_of_ne hdc, setTask_pc]
    · by_cases hdc : d = c
      · subst hdc
        rw [hk] at hg
        rw [goto_pc_self]
        exact hfollows.gone hg
      · rwa [goto_pc_of_ne hdc, setTask_pc]
  · simp only [goto_task, setTask_self, hcpu, honCpu]
    intro hon
    refine (h.runs p hon).imp_right fun hx => ?_
    by_cases hdc : (s.task p).cpu = c
    · rw [hdc, hk] at hx
      exact absurd hx houtgoing
    · rwa [goto_pc_of_ne hdc, setTask_pc]
  · simpa using hqueueCpu
  · simpa only [goto_task, setTask_self, hgoto] using hqueueOn
  · simpa only [goto_task, setTask_self, hgoto] using honQueue
  · intro r hr
    have hr : p ∈ s.wakeList r ∨ p ∈ left (s.pc r) := by
      refine hr.imp_right fun hr => ?_
      by_cases hrc : r = c
      · subst hrc
        rw [goto_pc_self] at hr
        rw [hk]
        exact hfollows.left.subset hr
      · rwa [goto_pc_of_ne hrc] at hr
    obtain ⟨h1, h2, -, h4⟩ := h.listed p r hr
    exact ⟨by simpa [honRq] using h1, by simpa [honCpu] using h2, by simpa using hstate ⟨r, hr⟩,
      by simpa [hcpu] using h4⟩

/-- Another processor's claims do not look into a run queue that is locked. -/
theorem Inv.other_setQueue (hown : s.owner (.rq r) = some c) {b : Bool} {x : Claim Cpu} (hd : d ≠ c)
    (hx : (p, x) ∈ claims (s.pc d)) (hok : x.Ok s d p) :
    x.Ok ((s.setQueue p r b).goto c k) d p := by
  refine hok.congr (by simp [Sys.setQueue]) (by simp [Sys.setQueue]) (by simp [Sys.setQueue])
    (by simp [Sys.setQueue]) (fun r' hr' => ?_) (fun _ _ => Iff.rfl) rfl
    (fun _ => Listed.of_goto rfl rfl (hk ▸ hfollows.left)) fun hl => ?_
  · have hr : r' ≠ r := by
      rintro rfl
      have := h.held hx (Claim.asks_locked hr')
      rw [hown] at this
      exact hd (Option.some.inj this).symm
    simp [Sys.setQueue, Function.update_of_ne hr]
  · rwa [goto_pc_of_ne hd]

/-- `dequeue_task`, at a locked run queue: the task is in the processor's hands. -/
theorem Inv.dequeue (hown : s.owner (.rq r) = some c) (hcpu : (s.task p).cpu = r)
    (hon : (s.task p).onRq = true) (hclaims : ∀ q x, (q, x) ∈ claims k₀ → ¬ x.Hard)
    {x : Claim Cpu} (hx : claims k = [(p, x)]) (hout : x.Out)
    (hok : x.Ok ((s.setQueue p r false).goto c k) c p) :
    Inv ((s.setQueue p r false).goto c k) := by
  refine h.write_quiet hk hfollows rfl rfl rfl (fun q y _ hy hhard => absurd hhard (hclaims q y hy))
    (fun hy => hclaims _ _ hy trivial) (fun hy => hclaims _ _ hy trivial) ?_
    (fun d y hd hy hyok => h.other_setQueue hk hfollows hown hd hy hyok) ?_ ?_ ?_ ?_
  · intro q y hy
    rw [hx, List.mem_singleton, Prod.mk.injEq] at hy
    obtain ⟨rfl, rfl⟩ := hy
    exact hok
  · intro r' hr'
    simp only [Function.update_apply] at hr'
    split at hr'
    · cases hr'
    · exact h.queueCpu p r' hr'
  · intro hq
    simp [hcpu] at hq
  · intro _
    refine .inr ⟨c, x, ?_, hout⟩
    rw [goto_pc_self, hx]
    exact List.mem_singleton.mpr rfl
  · intro hl
    exact absurd hl (h.not_listed hon)

/-- `enqueue_task`, of a task that was in the processor's hands. -/
theorem Inv.enqueue (hown : s.owner (.rq r) = some c) (hcpu : (s.task p).cpu = r)
    (hon : (s.task p).onRq = true) {x : Claim Cpu} (hx : claims k₀ = [(p, x)])
    (hchosen : x ≠ .chosen) (houtgoing : x ≠ .outgoing)
    (hself : ∀ q x, (q, x) ∈ claims k → x.Ok ((s.setQueue p r true).goto c k) c q) :
    Inv ((s.setQueue p r true).goto c k) := by
  have hmem : ∀ q y, (q, y) ∈ claims k₀ → q = p ∧ y = x := by
    intro q y hy
    rw [hx, List.mem_singleton, Prod.mk.injEq] at hy
    exact hy
  refine h.write_quiet hk hfollows rfl rfl rfl (fun q y hq hy _ => absurd (hmem q y hy).1 hq)
    (fun hy => hchosen (hmem _ _ hy).2.symm) (fun hy => houtgoing (hmem _ _ hy).2.symm) hself
    (fun d y hd hy hyok => h.other_setQueue hk hfollows hown hd hy hyok) ?_ ?_ ?_ ?_
  · intro r' hr'
    simp only [Function.update_apply] at hr'
    split at hr'
    next heq => exact hcpu.trans heq.symm
    next => exact h.queueCpu p r' hr'
  · exact fun _ => .inl hon
  · intro _
    exact .inl (by simp [hcpu])
  · intro hl
    exact absurd hl (h.not_listed hon)

/-- `activate_task`, of a task that is woken. -/
theorem Inv.activate (hown : s.owner (.rq r) = some c) (hcpu : (s.task p).cpu = r)
    (hon : (s.task p).onRq = false) (honCpu : (s.task p).onCpu = false)
    (hclaims : ∀ q x, (q, x) ∈ claims k₀ → ¬ x.Hard) (hx : claims k = [(p, .entering r)])
    (hwho : s.owner (.pi p) = some c ∧ ¬ Listed s p ∨ p ∈ left k) :
    Inv ((s.setQueue p r true).goto c k) := by
  have hlisted : Listed ((s.setQueue p r true).goto c k) p → Listed s p :=
    Listed.of_goto rfl rfl (hk ▸ hfollows.left)
  refine h.write_quiet hk hfollows rfl rfl rfl (fun q y _ hy hhard => absurd hhard (hclaims q y hy))
    (fun hy => hclaims _ _ hy trivial) (fun hy => hclaims _ _ hy trivial) ?_
    (fun d y hd hy hyok => h.other_setQueue hk hfollows hown hd hy hyok) ?_ ?_ ?_ ?_
  · intro q y hy
    rw [hx, List.mem_singleton, Prod.mk.injEq] at hy
    obtain ⟨rfl, rfl⟩ := hy
    refine ⟨by simp, by simpa using hon, by simpa using honCpu, by simpa using hcpu, ?_⟩
    refine hwho.imp (fun hpi => ⟨hpi.1, fun hl => hpi.2 (hlisted hl)⟩) fun hl => ?_
    rwa [goto_pc_self]
  · intro r' hr'
    simp only [Function.update_apply] at hr'
    split at hr'
    next heq => exact hcpu.trans heq.symm
    next => exact h.queueCpu p r' hr'
  · intro _
    refine .inr ⟨c, r, ?_⟩
    rw [goto_pc_self, hx]
    exact List.mem_singleton.mpr rfl
  · intro hon'
    exact absurd (hon'.symm.trans hon) (by simp)
  · rintro ⟨r', hr'⟩
    exact (h.listed p r' hr').state

/-- `p->state` is set, of a task on a run queue or by the processor that wakes it. -/
theorem Inv.setState {x : TaskState} (hon : (s.task p).onRq = true ∨ x = .waking)
    (hclaims : ∀ q x, (q, x) ∈ claims k₀ → ¬ x.Hard)
    (hself : ∀ q y, (q, y) ∈ claims k → y.Ok ((s.setState p x).goto c k) c q) :
    Inv ((s.setState p x).goto c k) := by
  have hlisted : Listed ((s.setState p x).goto c k) p → Listed s p :=
    Listed.of_goto rfl rfl (hk ▸ hfollows.left)
  refine h.write_quiet hk hfollows rfl rfl rfl (fun q y _ hy hhard => absurd hhard (hclaims q y hy))
    (fun hy => hclaims _ _ hy trivial) (fun hy => hclaims _ _ hy trivial) hself ?_
      (h.queueCpu p) ?_ ?_ ?_
  · intro d y hd hy hyok
    refine hyok.congr (by simp) (by simp) (by simp) (fun hm => ?_) (by simp)
      (fun _ _ => Iff.rfl) rfl
      (fun _ => hlisted) fun hl => by rwa [goto_pc_of_ne hd]
    subst hm
    rcases hon with hon | rfl
    · exact absurd (hyok.1.symm.trans hon) (by simp)
    · simpa using hyok.2.2.2.symm
  · intro hq
    exact (h.queueOn p hq).imp_right (Exists.imp fun d => Exists.imp fun r hy =>
      claims_goto rfl hk hclaims hy trivial)
  · intro hq
    exact (h.onQueue p hq).imp_right (Exists.imp fun d => Exists.imp fun y hy =>
      ⟨claims_goto rfl hk hclaims hy.1 hy.2.hard, hy.2⟩)
  · intro hl
    rcases hon with hon | rfl
    · exact absurd hl (h.not_listed hon)
    · rfl

end Writing

/-! ## Where a task is -/

section Moving

variable {dst : Cpu} {b : Back Task}

/-- A write leaves no wakeup more. -/
theorem listed_of_write (hleft : (left k).Sublist (left (s.pc c)))
    (hr : q ∈ ((s.setTask p t).goto c k).wakeList r ∨ q ∈ left (((s.setTask p t).goto c k).pc r)) :
    q ∈ s.wakeList r ∨ q ∈ left (s.pc r) :=
  hr.imp_right fun hr => (left_goto rfl hleft r).subset hr

/-- Another processor's claim about a task, after a write that it does not depend on. -/
theorem Claim.Ok.setTask {x : Claim Cpu} (hok : x.Ok s d p) (hd : d ≠ c)
    (hleft : (left k).Sublist (left (s.pc c))) (hcpu : x.ReadsCpu → t.cpu = (s.task p).cpu)
    (honRq : x.ReadsOnRq → t.onRq = (s.task p).onRq)
    (honCpu : x.ReadsOnCpu → t.onCpu = (s.task p).onCpu)
    (hstate : t.state = (s.task p).state) (hqueue : t.queue = (s.task p).queue) :
    x.Ok ((s.setTask p t).goto c k) d p := by
  refine hok.congr ?_ ?_ ?_ (fun _ => ?_) (fun _ _ => ?_) (fun _ _ => Iff.rfl) rfl
    (fun _ => Listed.of_goto rfl rfl hleft) fun hl => by rwa [goto_pc_of_ne hd]
  · simpa using hcpu
  · simpa using honRq
  · simpa using honCpu
  · simpa using hstate
  · simp [hqueue]

/-- `set_task_cpu`, of a task that is in no queue. -/
theorem Inv.setCpu (h : Inv s) (hk : s.pc c = k₀) (hfollows : Follows c k₀ k)
    (hcurr : ∀ d, s.curr d ≠ some p) (honCpu : (s.task p).onCpu = false)
    (hqueue : ∀ r, (s.task p).queue r = false) (hlisted : ¬ Listed s p)
    (hother : ∀ d x, d ≠ c → (p, x) ∈ claims (s.pc d) → x.Ok s d p → ¬ x.ReadsCpu)
    (hkeep : ∀ q x, q ≠ p → (q, x) ∉ claims k₀)
    (hout : (s.task p).onRq = true → ∃ x, (p, x) ∈ claims k ∧ x.Out)
    (hself : ∀ q x, (q, x) ∈ claims k → x.Ok ((s.setCpu p dst).goto c k) c q) :
    Inv ((s.setCpu p dst).goto c k) := by
  refine h.write hk hfollows (fun q x hq hx _ => absurd hx (hkeep q x hq)) hself
    ⟨?_, ?_, ?_, ?_, ?_, ?_, ?_⟩
  · intro d x hd hx hok
    exact hok.setTask hd (hk ▸ hfollows.left) (fun hr => absurd hr (hother d x hd hx hok))
      (fun _ => rfl)
      (fun _ => rfl) rfl rfl
  · intro d hd
    exact absurd hd (hcurr d)
  · intro hon
    simp [honCpu] at hon
  · intro r hr
    simp [hqueue] at hr
  · intro hr
    simp [hqueue] at hr
  · intro hon
    obtain ⟨x, hx, hxout⟩ := hout (by simpa using hon)
    exact .inr ⟨c, x, by rwa [goto_pc_self], hxout⟩
  · intro r hr
    exact absurd ⟨r, listed_of_write (hk ▸ hfollows.left) hr⟩ hlisted

/-- A dequeued task is given its new processor. -/
theorem Inv.moveCpu (h : Inv s) (hk : s.pc c = .moveCpu p r dst k) :
    Inv ((s.setCpu p dst).goto c (.moveEnqueue p dst k)) := by
  have hsound := h.sound c
  rw [hk] at hsound
  obtain ⟨hsk, hnone, hsrc, hdst⟩ := hsound
  obtain ⟨hcpu, hon, honCpu, hq⟩ := h.claim c p (.moving r) (hk ▸ List.mem_singleton.mpr rfl)
  have hown : s.owner (.rq r) = some c := (h.owner _ c).mpr (hk ▸ hsrc)
  have hqueue : ∀ r', (s.task p).queue r' = false := by
    intro r'
    by_contra hr'
    obtain rfl := (h.queueCpu p r' (by simpa using hr')).symm.trans hcpu
    exact hr' hq
  refine h.setCpu hk ⟨⟨fun _ => Iff.rfl, hsk, hnone, hdst⟩, List.Sublist.refl _, id⟩
    (h.not_current honCpu fun d hd => ?_) honCpu hqueue (h.not_listed hon) ?_ ?_
    (fun _ => ⟨.moving dst, List.mem_singleton.mpr rfl, trivial⟩) ?_
  · -- who has chosen the task to run would hold the run queue that is held here
    by_cases hdc : d = c
    · subst hdc
      simp [hk, claims] at hd
    · obtain rfl := (h.claim d p _ hd).1.symm.trans hcpu
      exact h.conflict hown hdc hd (List.mem_singleton.mpr rfl)
  · intro d x hd hx hok hreads
    -- a claim on where the task is needs this run queue, or a task in another state
    cases x with
    | pinned r' =>
      obtain rfl := Eq.trans (Eq.symm hok) hcpu
      exact h.conflict hown hd hx (by simp [Claim.locks])
    | taken r' | entered r' | moving r' =>
      obtain rfl := hok.1.symm.trans hcpu
      exact h.conflict hown hd hx (by simp [Claim.locks])
    | placed r' => exact absurd (hok.1.symm.trans hon) (by simp)
    | entering r' => exact absurd (hok.2.1.symm.trans hon) (by simp)
    | leaving => exact absurd (hok.2.2.2.1.symm.trans honCpu) (by simp)
    | outgoing => exact absurd (hok.2.1.symm.trans honCpu) (by simp)
    | chosen =>
      obtain rfl := hok.1.symm.trans hcpu
      exact h.conflict hown hd hx (by simp [Claim.locks])
    | _ => exact hreads
  · intro q x hq hx
    exact hq (Prod.mk.inj (List.mem_singleton.mp hx)).1
  · intro q x hx
    obtain ⟨rfl, rfl⟩ := Prod.mk.inj (List.mem_singleton.mp hx)
    exact ⟨by simp [Sys.setCpu], by simpa [Sys.setCpu] using hon,
      by simpa [Sys.setCpu] using honCpu, by simp [Sys.setCpu, hqueue]⟩

/-- A task that is woken is given its processor. -/
theorem Inv.wakeSelect (h : Inv s) (hk : s.pc c = .wakeSelect p) :
    Inv ((s.setCpu p dst).goto c (.wakeQueue p)) := by
  have hmem : (p, .marked) ∈ claims (s.pc c) := hk ▸ List.mem_singleton.mpr rfl
  obtain ⟨hon, honCpu, hl, hst⟩ := h.claim c p .marked hmem
  have hown : s.owner (.pi p) = some c := h.held hmem (List.mem_singleton.mpr rfl)
  have hqueue := h.not_queued hown hl (fun r hr => by simp [hk, claims] at hr) hon
  refine h.setCpu hk ⟨⟨fun _ => Iff.rfl, trivial⟩, List.Sublist.refl _, id⟩
    (h.not_current honCpu fun d hd => ?_) honCpu hqueue hl ?_ ?_ (fun hon' => ?_) ?_
  · exact absurd ((h.claim d p _ hd).2.1.symm.trans hon) (by simp)
  · intro d x hd hx hok hreads
    -- the task is off its run queue and its `pi_lock` is held: nobody else has it in hand
    cases x with
    | pinned r | taken r | placed r => exact h.conflict hown hd hx (by simp [Claim.locks])
    | entering r =>
      rcases hok.2.2.2.2 with ⟨hpi, -⟩ | hleft
      · exact hd (Option.some.inj (hown.symm.trans hpi)).symm
      · exact hl ⟨d, .inr hleft⟩
    | entered r => exact absurd (hok.2.symm.trans hon) (by simp)
    | leaving | chosen | moving r => exact absurd (hok.2.1.symm.trans hon) (by simp)
    | outgoing => exact absurd (hok.2.1.symm.trans honCpu) (by simp)
    | _ => exact hreads
  · intro q x hq hx
    exact hq (Prod.mk.inj (List.mem_singleton.mp hx)).1
  · rw [hon] at hon'
    cases hon'
  · intro q x hx
    obtain ⟨rfl, rfl⟩ := Prod.mk.inj (List.mem_singleton.mp hx)
    exact ⟨by simpa [Sys.setCpu] using hon, by simpa [Sys.setCpu] using honCpu,
      fun hl' =>
        hl (hl'.imp fun r hr => listed_of_write (by rw [hk]; exact List.Sublist.refl _) hr),
      by simpa [Sys.setCpu] using hst⟩

/-- `p->on_rq = 1`: the wakeup is done. -/
theorem Inv.activateOnRq (h : Inv s) (hk : s.pc c = .activateOnRq p r b) :
    Inv ((s.setOnRq p true).goto c (.activateRun p r b)) := by
  have hsound := h.sound c
  rw [hk] at hsound
  have hmem : (p, .entering r) ∈ claims (s.pc c) := hk ▸ List.mem_singleton.mpr rfl
  obtain ⟨hq, hon, honCpu, hcpu, hwho⟩ := h.claim c p _ hmem
  have hown : s.owner (.rq r) = some c := h.held hmem (List.mem_singleton.mpr rfl)
  have hfollows : Follows c (.activateOnRq p r b) (.activateRun p r b) := by
    refine ⟨⟨fun _ => Iff.rfl, hsound⟩, ?_, id⟩
    cases b with
    | pending ps => exact List.sublist_cons_self p ps
    | _ => exact List.nil_sublist _
  have hleft : (left (.activateRun p r b)).Sublist (left (s.pc c)) := hk ▸ hfollows.left
  -- a wakeup that was left to this processor was the only one
  have hunlisted : ¬ Listed ((s.setOnRq p true).goto c (.activateRun p r b)) p := by
    rcases hwho with ⟨-, hl⟩ | hl
    · exact fun hl' => hl (hl'.imp fun r' hr' => listed_of_write hleft hr')
    · rw [hk] at hl
      cases b with
      | pending ps =>
        have hnodup := h.nodup c
        rw [hk] at hnodup
        obtain ⟨hno, -⟩ := List.nodup_cons.mp hnodup
        rintro ⟨r', hr'⟩
        by_cases hrc : r' = c
        · subst hrc
          rw [goto_pc_self] at hr'
          exact hno (List.mem_append.mpr hr'.symm)
        · rw [goto_pc_of_ne hrc] at hr'
          exact hrc ((h.listed p r' hr').cpu.symm.trans (hcpu.trans hsound))
      | _ => exact absurd hl List.not_mem_nil
  refine h.write hk hfollows (fun q x hq hx _ => ?_) ?_ ⟨?_, ?_, ?_, ?_, ?_, ?_, ?_⟩
  · exact absurd (Prod.mk.inj (List.mem_singleton.mp hx)).1 hq
  · intro q x hx
    obtain ⟨rfl, rfl⟩ := Prod.mk.inj (List.mem_singleton.mp hx)
    exact ⟨by simpa using hcpu, by simp⟩
  · intro d x hd hx hok
    refine hok.setTask hd hleft (fun _ => rfl) (fun hr => ?_) (fun _ => rfl) rfl rfl
    exfalso
    -- who relies on the task being off its run queue holds its `pi_lock`
    have hpi : .pi p ∈ x.locks d p → ¬ Listed s p → False := by
      intro hl hnl
      rcases hwho with ⟨hpi, -⟩ | hleft
      · exact h.conflict hpi hd hx hl
      · exact hnl ⟨c, .inr hleft⟩
    cases x with
    | blocked => exact hpi (by simp [Claim.locks]) hok.2
    | stopped => exact hpi (by simp [Claim.locks]) hok.2.2
    | marked | placed r' => exact hpi (by simp [Claim.locks]) hok.2.2.1
    | entering r' =>
      obtain rfl := hok.2.2.2.1.symm.trans hcpu
      exact h.conflict hown hd hx (by simp [Claim.locks])
    | entered r' => exact absurd (hok.2.symm.trans hon) (by simp)
    | taken r' | leaving | chosen | moving r' => exact absurd (hok.2.1.symm.trans hon) (by simp)
    | _ => exact hr
  · intro d hd
    obtain ⟨h1, h2, -⟩ := h.current d p hd
    refine ⟨by simpa using h1, h2.imp (by simp) fun hx => ?_, .inl (by simp)⟩
    by_cases hdc : d = c
    · subst hdc
      simp [hk, claims] at hx
    · rwa [goto_pc_of_ne hdc]
  · intro hon'
    simp [honCpu] at hon'
  · simpa using h.queueCpu p
  · exact fun _ => .inl (by simp)
  · exact fun _ => .inl (by simpa [hcpu] using hq)
  · exact fun r' hr' => absurd ⟨r', hr'⟩ hunlisted

/-- `prev->on_rq = 0`, of the running task. -/
theorem Inv.schedOnRq (h : Inv s) (hk : s.pc c = .schedOnRq p) :
    Inv ((s.setOnRq p false).goto c .schedWorker) := by
  have hmem : (p, .leaving) ∈ claims (s.pc c) := hk ▸ List.mem_singleton.mpr rfl
  obtain ⟨hcpu, hon, hq, honCpu, hcurr⟩ := h.claim c p _ hmem
  have hown : s.owner (.rq c) = some c := h.held hmem (List.mem_singleton.mpr rfl)
  have hfollows : Follows c (.schedOnRq p) .schedWorker :=
    ⟨⟨fun _ => Iff.rfl, trivial⟩, List.Sublist.refl _, fun _ => trivial⟩
  have hleft : (left (.schedWorker : Pc Task Cpu)).Sublist (left (s.pc c)) := hk ▸ hfollows.left
  refine h.write hk hfollows (fun q x hq hx _ => ?_) ?_ ⟨?_, ?_, ?_, ?_, ?_, ?_, ?_⟩
  · exact absurd (Prod.mk.inj (List.mem_singleton.mp hx)).1 hq
  · intro q x hx
    exact absurd hx List.not_mem_nil
  · intro d x hd hx hok
    refine hok.setTask hd hleft (fun _ => rfl) (fun hr => ?_) (fun _ => rfl) rfl rfl
    exfalso
    -- the others do not have the running task of this processor in hand
    cases x with
    | taken r' | entered r' | moving r' =>
      obtain rfl := hok.1.symm.trans hcpu
      exact h.conflict hown hd hx (by simp [Claim.locks])
    | leaving | chosen => exact hd (hok.1.symm.trans hcpu)
    | blocked | stopped | marked | placed r' => exact absurd (hok.1.symm.trans hon) (by simp)
    | entering r' => exact absurd (hok.2.1.symm.trans hon) (by simp)
    | _ => exact hr
  · intro d hd
    obtain rfl := (h.current d p hd).1.symm.trans hcpu
    exact ⟨by simpa using hcpu, .inl (by simpa using honCpu), .inr (by rw [goto_pc_self]; trivial)⟩
  · -- it runs until the switch
    exact fun _ => .inl (by simpa [hcpu] using hcurr)
  · simpa using h.queueCpu p
  · intro hq'
    simp [hcpu, hq] at hq'
  · intro hon'
    simp at hon'
  · exact fun r' hr' => h.not_listed hon ⟨r', listed_of_write hleft hr'⟩ |>.elim

/-- `next->on_cpu = 1` -/
theorem Inv.schedOn (h : Inv s) {prev : Option Task} (hk : s.pc c = .schedOn prev p) :
    Inv ((s.setOnCpu p true).goto c (.schedOff prev)) := by
  have hmem : (p, .chosen) ∈ claims (s.pc c) := hk ▸ List.mem_cons_self
  obtain ⟨hcpu, hon, honCpu, hcurr⟩ := h.claim c p _ hmem
  have hown : s.owner (.rq c) = some c := h.held hmem (List.mem_singleton.mpr rfl)
  have hleft : (left (.schedOff prev : Pc Task Cpu)).Sublist (left (s.pc c)) := by
    rw [hk]
    exact List.Sublist.refl _
  refine h.write hk ⟨⟨fun _ => Iff.rfl, trivial⟩, List.Sublist.refl _, id⟩
    (fun q x hq hx _ => ?_) ?_
    ⟨?_, ?_, ?_, ?_, ?_, ?_, ?_⟩
  · rcases List.mem_cons.mp hx with hx | hx
    · exact absurd (Prod.mk.inj hx).1 hq
    · exact hx
  · intro q x hx
    have hok := h.claim c q x (hk ▸ List.mem_cons_of_mem _ hx)
    obtain ⟨q', -, heq⟩ := List.mem_map.mp hx
    obtain ⟨rfl, rfl⟩ := Prod.mk.inj heq
    have hne : q' ≠ p := by
      -- the two tasks of a switch are different
      rintro rfl
      exact hok.2.2 hcurr
    have htask : ((s.setOnCpu p true).goto c (.schedOff prev)).task q' = s.task q' :=
      Function.update_of_ne hne _ _
    exact ⟨(congrArg TaskRec.cpu htask).trans hok.1,
      (congrArg TaskRec.onCpu htask).trans hok.2.1, hok.2.2⟩
  · intro d x hd hx hok
    refine hok.setTask hd hleft (fun _ => rfl) (fun _ => rfl) (fun hr => ?_) rfl rfl
    exfalso
    -- a task that waits at this run queue is claimed by nobody else
    cases x with
    | moving r' =>
      obtain rfl := hok.1.symm.trans hcpu
      exact h.conflict hown hd hx (by simp [Claim.locks])
    | leaving | chosen | outgoing => exact hd (hok.1.symm.trans hcpu)
    | stopped | marked | placed r' => exact absurd (hok.1.symm.trans hon) (by simp)
    | entering r' => exact absurd (hok.2.1.symm.trans hon) (by simp)
    | _ => exact hr
  · intro d hd
    exact ⟨by simpa using (h.current d p hd).1, .inl (by simp), .inl (by simpa using hon)⟩
  · exact fun _ => .inl (by simpa [hcpu] using hcurr)
  · simpa using h.queueCpu p
  · exact fun _ => .inl (by simpa using hon)
  · intro _
    rcases h.onQueue p hon with hq | ⟨d, x, hx, hout⟩
    · exact .inl (by simpa using hq)
    · by_cases hd : d = c
      · subst hd
        rw [hk] at hx
        rcases List.mem_cons.mp hx with hx | hx
        · obtain ⟨-, rfl⟩ := Prod.mk.inj hx
          exact hout.elim
        · exact .inr ⟨d, x, by rwa [goto_pc_self], hout⟩
      · exact .inr ⟨d, x, by rwa [goto_pc_of_ne hd], hout⟩
  · exact fun r' hr' => h.not_listed hon ⟨r', listed_of_write hleft hr'⟩ |>.elim

/-- `prev->on_cpu = 0` -/
theorem Inv.schedOff (h : Inv s) (hk : s.pc c = .schedOff (some p)) :
    Inv ((s.setOnCpu p false).goto c (.release (.rq c) .idle)) := by
  have hmem : (p, .outgoing) ∈ claims (s.pc c) := hk ▸ List.mem_singleton.mpr rfl
  obtain ⟨hcpu, honCpu, hcurr⟩ := h.claim c p _ hmem
  have hfollows : Follows c (.schedOff (some p)) (.release (.rq c) .idle) := by
    refine ⟨⟨fun l => ?_, trivial, id, fun x hx => absurd hx List.not_mem_nil⟩,
      List.Sublist.refl _, id⟩
    simp [holds]
  have hleft : (left (.release (.rq c) .idle)).Sublist (left (s.pc c)) := hk ▸ hfollows.left
  -- what is claimed of the task by others is kept
  have hkept : ∀ d y, (p, y) ∈ claims (s.pc d) → y ≠ .outgoing →
      (p, y) ∈ claims (((s.setOnCpu p false).goto c (.release (.rq c) .idle)).pc d) := by
    intro d y hy hne
    by_cases hd : d = c
    · subst hd
      rw [hk] at hy
      exact absurd (Prod.mk.inj (List.mem_singleton.mp hy)).2 hne
    · rwa [goto_pc_of_ne hd]
  refine h.write hk hfollows (fun q x hq hx _ => ?_) ?_ ⟨?_, ?_, ?_, ?_, ?_, ?_, ?_⟩
  · exact absurd (Prod.mk.inj (List.mem_singleton.mp hx)).1 hq
  · intro q x hx
    exact absurd hx List.not_mem_nil
  · intro d x hd hx hok
    refine hok.setTask hd hleft (fun _ => rfl) (fun _ => rfl) (fun hr => ?_) rfl rfl
    exfalso
    -- only a processor that switches from the task relies on its being `on_cpu`
    cases x with
    | leaving | outgoing | chosen => exact hd (hok.1.symm.trans hcpu)
    | stopped | marked | placed r' => exact absurd (hok.2.1.symm.trans honCpu) (by simp)
    | entering r' | moving r' => exact absurd (hok.2.2.1.symm.trans honCpu) (by simp)
    | _ => exact hr
  · intro d hd
    obtain rfl := (h.current d p hd).1.symm.trans hcpu
    exact absurd hd hcurr
  · intro hon
    simp at hon
  · simpa using h.queueCpu p
  · intro hq
    exact (h.queueOn p (by simpa using hq)).imp (by simp)
      (Exists.imp fun d => Exists.imp fun r hy =>
      hkept d _ hy (by simp))
  · intro hon
    refine (h.onQueue p (by simpa using hon)).imp (by simp)
      (Exists.imp fun d => Exists.imp fun y hy =>
      ⟨hkept d y hy.1 ?_, hy.2⟩)
    rintro rfl
    exact hy.2.elim
  · intro r' hr'
    exact absurd ((h.listed p r' (listed_of_write hleft hr')).onCpu.symm.trans honCpu) (by simp)

/-- A task that is taken from a run queue, on its way to another one. -/
theorem Inv.take (h : Inv s) (hk : s.pc c = k₀) {src dst : Cpu} {k : Pc Task Cpu}
    (hfollows : Follows c k₀ (.moveCpu p src dst k)) (hown : s.owner (.rq src) = some c)
    (hcpu : (s.task p).cpu = src) (hon : (s.task p).onRq = true) (honCpu : (s.task p).onCpu = false)
    (hsoft : ∀ q x, (q, x) ∈ claims k₀ → ¬ x.Hard) :
    Inv ((s.setQueue p src false).goto c (.moveCpu p src dst k)) :=
  h.dequeue hk hfollows hown hcpu hon hsoft rfl trivial
    ⟨by simpa [Sys.setQueue] using hcpu, by simpa [Sys.setQueue] using hon,
      by simpa [Sys.setQueue] using honCpu, by simp [Sys.setQueue]⟩

end Moving

end LinuxKernel.Smp

import LinuxKernel.Sched.QueueInv

/-!
# Android scheduler — `pick_next_task`

What each class picks, what the walk over the classes picks, and that the
shortcut of `pick_next_task` picks the same.

* `QInv.pick_some` / `QInv.pick_none` — one class.
* `QInv.pickNextTask_eq`              — the shortcut agrees with the walk.
* `pickFrom_forEachClass`             — the walk asks the classes by rank.
-/

namespace LinuxKernel.Sched

variable {σ : Type}

/-- May the class of `p` pick it, once it is queued? Throttled run queues hold
real-time tasks back. -/
def eligible (k : Kernel σ) (s : State σ) (p : Pid) : Bool :=
  match (s.tasks p).schedClass with
  | .rt   => rtEligible s.tasks s.rt p
  | .wrr  => true
  | .idle => true
  | c     => k.ext.eligible s.ext c p

theorem eligible_rt {k : Kernel σ} {s : State σ} {p : Pid} (hc : (s.tasks p).schedClass = .rt) :
    eligible k s p = rtEligible s.tasks s.rt p := by
  unfold eligible
  rw [hc]

theorem eligible_wrr {k : Kernel σ} {s : State σ} {p : Pid} (hc : (s.tasks p).schedClass = .wrr) :
    eligible k s p = true := by
  unfold eligible
  rw [hc]

theorem eligible_ext {k : Kernel σ} {s : State σ} {p : Pid} {c : SchedClass}
    (hc : (s.tasks p).schedClass = c) (h : c = .stop ∨ c = .fair) :
    eligible k s p = k.ext.eligible s.ext c p := by
  unfold eligible
  rw [hc]
  rcases h with rfl | rfl <;> rfl

theorem pickOf_ext {k : Kernel σ} {c : SchedClass} (hrt : c ≠ .rt) (hwrr : c ≠ .wrr)
    (s : State σ) : pickOf k c s = (k.ext.pick c s).map fun r => (r.1, s.applyExt c r.2) := by
  cases c with
  | rt => exact absurd rfl hrt
  | wrr => exact absurd rfl hwrr
  | stop => rfl
  | fair => rfl
  | idle => rfl

/-! ## One class -/

namespace QInv

variable {k : Kernel σ} {s u : State σ} {R : Finset Pid} {p : Pid} {c : SchedClass}

/-- **What a class picks** is a queued task of its own that it may pick; the
idle class picks the idle task. -/
theorem pick_some (h : QInv k s R) (hpick : pickOf k c s = some (p, u)) :
    (c = .idle ∧ p = s.idle) ∨
      (c ≠ .idle ∧ p ∈ R ∧ (s.tasks p).schedClass = c ∧ eligible k s p = true) := by
  by_cases hrt : c = .rt
  · subst hrt
    obtain ⟨⟨hp, hc⟩, hel, -⟩ := h.rt.pick_some hpick
    exact Or.inr ⟨by simp, hp, hc, (eligible_rt hc).trans hel⟩
  · by_cases hwrr : c = .wrr
    · subst hwrr
      obtain ⟨q, hq, heq⟩ := Option.map_eq_some_iff.mp hpick
      obtain ⟨rfl, -⟩ := Prod.mk.inj heq
      unfold pickNextTaskWrr at hq
      split at hq
      · cases hq
      · obtain ⟨hp, hc⟩ := h.wrr.mem.mp (List.mem_of_head? hq)
        exact Or.inr ⟨by simp, hp, hc, eligible_wrr hc⟩
    · rw [pickOf_ext hrt hwrr] at hpick
      obtain ⟨⟨q, e⟩, hq, heq⟩ := Option.map_eq_some_iff.mp hpick
      obtain ⟨rfl, -⟩ := Prod.mk.inj heq
      by_cases hidle : c = .idle
      · subst hidle
        obtain ⟨e', he'⟩ := k.ext.pick_idle s
        rw [he'] at hq
        exact Or.inl ⟨rfl, (Prod.mk.inj (Option.some.inj hq)).1.symm⟩
      · have hcls : c = .stop ∨ c = .fair := by
          revert hrt hwrr hidle
          cases c <;> simp
        have hel := k.ext.pick_some c s q e hidle hq
        obtain ⟨hp, hc⟩ := (h.ext hcls).mp (k.ext.eligible_queued _ _ _ hel)
        exact Or.inr ⟨hidle, hp, hc, (eligible_ext hc hcls).trans hel⟩

/-- **When a class picks nothing**, it has no queued task it may pick. -/
theorem pick_none (h : QInv k s R) (hidle : c ≠ .idle) :
    pickOf k c s = none ↔ ∀ p ∈ R, (s.tasks p).schedClass = c → eligible k s p = false := by
  by_cases hrt : c = .rt
  · subst hrt
    refine h.rt.pick_none.trans ⟨fun hall p hp hc => ?_, fun hall p hp => ?_⟩
    · rw [eligible_rt hc]
      exact hall p ⟨hp, hc⟩
    · rw [← eligible_rt (k := k) hp.2]
      exact hall p hp.1 hp.2
  · by_cases hwrr : c = .wrr
    · subst hwrr
      -- the counter is the length of the queue
      have hempty : pickOf k .wrr s = none ↔ s.toBase.wrr.queue = [] := by
        show (pickNextTaskWrr s).map _ = none ↔ _
        rw [Option.map_eq_none_iff, pickNextTaskWrr, h.wrr.nr]
        cases s.toBase.wrr.queue <;> simp
      rw [hempty]
      refine ⟨fun hnil p hp hc => ?_, fun hall => ?_⟩
      · have hmem := h.wrr.mem.mpr ⟨hp, hc⟩
        rw [hnil] at hmem
        cases hmem
      · rw [List.eq_nil_iff_forall_not_mem]
        intro p hmem
        obtain ⟨hp, hc⟩ := h.wrr.mem.mp hmem
        have hel := hall p hp hc
        rw [eligible_wrr hc] at hel
        cases hel
    · have hcls : c = .stop ∨ c = .fair := by
        revert hrt hwrr hidle
        cases c <;> simp
      rw [pickOf_ext hrt hwrr, Option.map_eq_none_iff, k.ext.pick_none c s hidle]
      refine ⟨fun hall p _ hc => ?_, fun hall p => ?_⟩
      · rw [eligible_ext hc hcls]
        exact hall p
      · by_contra hel
        rw [Bool.not_eq_false] at hel
        obtain ⟨hp, hc⟩ := (h.ext hcls).mp (k.ext.eligible_queued _ _ _ hel)
        rw [← eligible_ext hc hcls, hall p hp hc] at hel
        cases hel

theorem pick_wrr_head (hpick : pickOf k .wrr s = some (p, u)) :
    s.toBase.wrr.queue.head? = some p := by
  obtain ⟨q, hq, heq⟩ := Option.map_eq_some_iff.mp hpick
  obtain ⟨rfl, -⟩ := Prod.mk.inj heq
  unfold pickNextTaskWrr at hq
  split at hq
  · cases hq
  · exact hq

/-! ## The walk and the shortcut -/

/-- **When the shortcut is taken**, only fair tasks are queued. -/
theorem nr_eq_iff (h : QInv k s R) :
    s.nrRunning = s.hNrRunning ↔ ∀ p ∈ R, (s.tasks p).schedClass = .fair := by
  have hcount := h.count
  have hzero : notFair s.tasks R = 0 ↔ ∀ p ∈ R, (s.tasks p).schedClass = .fair := by
    rw [notFair, Finset.card_eq_zero, Finset.filter_eq_empty_iff]
    exact forall₂_congr fun p _ => not_not
  rw [← hzero]
  omega

/-- **The shortcut agrees with the walk**, in the task and in every effect. -/
theorem pickNextTask_eq (h : QInv k s R) : pickNextTask k s = pickFrom k s forEachClass := by
  unfold pickNextTask
  split
  · next hnr =>
    have hall := h.nr_eq_iff.mp hnr
    have hnone : ∀ c, c ≠ .idle → c ≠ .fair → pickOf k c s = none := by
      intro c hidle hfair
      refine (h.pick_none hidle).mpr fun p hp hc => ?_
      exact absurd (hc.symm.trans (hall p hp)) hfair
    have hwalk : pickFrom k s forEachClass = pickFrom k s [.fair, .idle] := by
      rw [forEachClass, pickFrom, hnone .stop (by simp) (by simp)]
      dsimp only
      rw [pickFrom, hnone .rt (by simp) (by simp)]
      dsimp only
      rw [pickFrom, hnone .wrr (by simp) (by simp)]
    rw [hwalk, pickFrom]
    split <;> rfl
  · rfl

/-- With nothing but WRR tasks queued, the head of their queue is picked. -/
theorem pickNextTask_wrr (h : QInv k s R) (hall : ∀ q ∈ R, (s.tasks q).schedClass = .wrr)
    (hq : s.toBase.wrr.queue.head? = some p) : pickNextTask k s = some (p, s) := by
  have hnone : ∀ c, c ≠ .idle → c ≠ .wrr → pickOf k c s = none := by
    intro c hidle hwrr
    refine (h.pick_none hidle).mpr fun q hq hc => ?_
    exact absurd (hc.symm.trans (hall q hq)) hwrr
  have hpick : pickOf k .wrr s = some (p, s) := by
    have hnr : s.toBase.wrr.wrrNrRunning ≠ 0 := by
      rw [h.wrr.nr]
      intro hzero
      rw [List.length_eq_zero_iff.mp hzero] at hq
      cases hq
    show (pickNextTaskWrr s).map _ = _
    rw [pickNextTaskWrr, if_neg hnr, hq]
    rfl
  rw [h.pickNextTask_eq, forEachClass, pickFrom, hnone .stop (by simp) (by simp)]
  dsimp only
  rw [pickFrom, hnone .rt (by simp) (by simp)]
  dsimp only
  rw [pickFrom, hpick]

end QInv

/-- The walk always finds a task: the idle class has one. -/
theorem pickFrom_isSome {k : Kernel σ} {s : State σ} {cs : List SchedClass}
    (h : SchedClass.idle ∈ cs) : ∃ r, pickFrom k s cs = some r := by
  induction cs with
  | nil => cases h
  | cons c cs ih =>
    unfold pickFrom
    split
    · next r _ => exact ⟨r, rfl⟩
    · next hnone =>
      rcases List.mem_cons.mp h with rfl | h
      · obtain ⟨e, he⟩ := k.ext.pick_idle s
        rw [pickOf_ext (c := .idle) (by simp) (by simp), he] at hnone
        cases hnone
      · exact ih h

/-- What the walk returns is picked by a class, and no class before it in the
list picks anything. -/
theorem pickFrom_some {k : Kernel σ} {s : State σ} {cs : List SchedClass} {r : Pid × State σ}
    (h : pickFrom k s cs = some r) : ∃ pre c post, cs = pre ++ c :: post ∧
      pickOf k c s = some r ∧ ∀ c' ∈ pre, pickOf k c' s = none := by
  induction cs with
  | nil => cases h
  | cons c cs ih =>
    unfold pickFrom at h
    split at h
    · next r' hr' =>
      exact ⟨[], c, cs, rfl, hr'.trans h, fun c' hc' => by cases hc'⟩
    · next hnone =>
      obtain ⟨pre, c', post, rfl, hc', hpre⟩ := ih h
      refine ⟨c :: pre, c', post, rfl, hc', fun d hd => ?_⟩
      rcases List.mem_cons.mp hd with rfl | hd
      · exact hnone
      · exact hpre d hd

theorem mem_forEachClass (c : SchedClass) : c ∈ forEachClass := by
  cases c <;> decide

theorem forEachClass_sorted : forEachClass.Pairwise fun c d => c.rank < d.rank := by decide

/-- **The walk** returns what a class picks when no higher class picks anything. -/
theorem pickFrom_forEachClass {k : Kernel σ} {s : State σ} {r : Pid × State σ}
    (h : pickFrom k s forEachClass = some r) :
    ∃ c, pickOf k c s = some r ∧ ∀ c', c'.rank < c.rank → pickOf k c' s = none := by
  obtain ⟨pre, c, post, hsplit, hc, hpre⟩ := pickFrom_some h
  refine ⟨c, hc, fun c' hlt => ?_⟩
  -- c' is in the list, and neither c nor a class after it
  have hmem := mem_forEachClass c'
  have hsorted := forEachClass_sorted
  rw [hsplit] at hmem hsorted
  rcases List.mem_append.mp hmem with hmem | hmem
  · exact hpre c' hmem
  · rcases List.mem_cons.mp hmem with rfl | hmem
    · exact absurd hlt (Nat.lt_irrefl _)
    · have hgt := (List.pairwise_cons.mp (List.pairwise_append.mp hsorted).2.1).1 c' hmem
      exact absurd hlt (Nat.lt_asymm hgt)

end LinuxKernel.Sched

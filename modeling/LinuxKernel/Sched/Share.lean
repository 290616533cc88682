import LinuxKernel.Sched.Slice
import LinuxKernel.Lib.RoundRobin
import Mathlib.Algebra.BigOperators.Ring.List
import Mathlib.Algebra.Field.Rat

/-!
# Android scheduler — weighted shares

Only WRR tasks are runnable and all of them stay so. Every timer tick is followed by
a `schedule` exactly if `TIF_NEED_RESCHED` is set.

* `tickRound`           — a tick and what follows it.
* `Follows`             — the scheduler is in the state of an abstract round robin
  whose quotas are the full slices.
* `Follows.tickRound`   — one tick is one step of the round robin.
* `wrr_round_robin`     — a round gives every task one turn of its full slice, and all
  is as before.
-/

namespace LinuxKernel.Sched

open LinuxKernel.Lib

variable {σ : Type}

/-- A timer interrupt. -/
def tickRound (k : Kernel σ) (s : State σ) (e : SchedEnv) : Option (State σ) :=
  let s := schedulerTick k s
  if s.needResched s.curr then schedule k s e else some s

/-! ## One tick -/

section Tick

variable {k : Kernel σ} {c : Config} {s t : State σ} {p : Pid}

/-- Part of a slice is left. -/
theorem taskTickWrr_decrement (h : 1 < (s.tasks p).wrr.timeSlice) :
    (taskTickWrr c s p).toBase = s.toBase.setWrr p fun t =>
      { t.wrr with timeSlice := (s.tasks p).wrr.timeSlice - 1 } := by
  unfold taskTickWrr
  dsimp only
  rw [updateCurrWrr_toBase, usub_of_le (Nat.le_of_lt h), if_pos (by omega), State.setWrr_toBase,
    updateCurrWrr_toBase]

/-- A task that is alone gets a new slice and goes on. -/
theorem taskTickWrr_alone (h : (s.tasks p).wrr.timeSlice = 1)
    (hq : s.toBase.wrr.queue = [p]) : (taskTickWrr c s p).toBase = s.toBase.setWrr p fun t =>
      { t.wrr with timeSlice := refill c t.wrr.weight } := by
  have hring : ¬ ringPrev s.toBase.wrr.queue p ≠ ringNext s.toBase.wrr.queue p := by
    rw [hq, ringPrev_ne_ringNext_iff (List.nodup_singleton p) (List.mem_singleton_self p)]
    exact fun hne => hne rfl
  unfold taskTickWrr
  dsimp only
  rw [updateCurrWrr_toBase, h, usub_of_le le_rfl, if_neg (by decide), State.setWrr_toBase,
    updateCurrWrr_toBase, Base.setWrr, Base.setTask_wrr, if_neg hring, State.setWrr_toBase,
    updateCurrWrr_toBase, Base.setWrr]

/-- One of several goes to the end, and a reschedule is asked for. -/
theorem taskTickWrr_turn (h : (s.tasks p).wrr.timeSlice = 1) (hd : s.toBase.wrr.queue.Nodup)
    (hp : p ∈ s.toBase.wrr.queue) (hq : s.toBase.wrr.queue ≠ [p]) :
    (taskTickWrr c s p).toBase = requeueTaskWrr (s.toBase.setWrr p fun t =>
      { t.wrr with timeSlice := refill c t.wrr.weight }) p false ∧
    (taskTickWrr c s p).needResched p = true := by
  have hring := (ringPrev_ne_ringNext_iff hd hp).mpr hq
  unfold taskTickWrr
  dsimp only
  rw [updateCurrWrr_toBase, h, usub_of_le le_rfl, if_neg (by decide), State.setWrr_toBase,
    updateCurrWrr_toBase, Base.setWrr, Base.setTask_wrr, if_pos hring]
  refine ⟨?_, Function.update_self ..⟩
  rw [State.reschedTask_toBase, State.onBase_toBase, State.setWrr_toBase, updateCurrWrr_toBase,
    Base.setWrr]

theorem schedulerTick_wrr (hc : (s.tasks s.curr).schedClass = .wrr) :
    schedulerTick k s = taskTickWrr k.toConfig (updateRqClock k s) s.curr := by
  unfold schedulerTick taskHook
  dsimp only
  rw [updateRqClock_toBase, hc]
  rfl

theorem schedulerTick_outline (k : Kernel σ) (s : State σ) :
    (schedulerTick k s).toBase.outline = s.toBase.outline := by
  rw [schedulerTick, taskHook_outline, updateRqClock_toBase]

/-- `schedule` with nothing but WRR tasks around, from one that stays runnable. -/
theorem schedule_wrr {e : SchedEnv} (hI : Inv k s) (he : e.valid s)
    (hrun : (s.tasks s.curr).state = taskRunning)
    (honly : ∀ q ∈ s.queued, (s.tasks q).schedClass = .wrr)
    (hq : s.toBase.wrr.queue.head? = some p) :
    ∃ t, schedule k s e = some t ∧ t.toBase = { s.toBase with curr := p } := by
  have hprev : schedulePrev k s e = s := by
    unfold schedulePrev
    exact if_neg fun h => h.1 hrun
  have hput := hI.queues_putPrev he
  rw [hprev] at hput
  have hbase : (putPrevTask k s s.curr).toBase = s.toBase := by
    unfold putPrevTask taskHook
    rw [hookOf_plain k _ (h := .putPrevTask) rfl]
    split
    · exact updateRqClock_toBase k s
    · rfl
  have hpick : pickNextTask k (putPrevTask k s s.curr) = some (p, putPrevTask k s s.curr) := by
    refine hput.pickNextTask_wrr (fun q hq => ?_) ?_
    · rw [hbase]
      exact honly q hq
    · rw [hbase]
      exact hq
  unfold schedule
  dsimp only
  rw [hprev, hpick]
  refine ⟨_, rfl, ?_⟩
  show { (putPrevTask k s s.curr).toBase with curr := p } = _
  rw [hbase]

end Tick

/-! ## The abstract round robin -/

/-- The scheduler of `n` tasks with weights `w` is in the state `a` of a round robin:
only WRR tasks are queued, all of them stay runnable, and the head of the queue runs. -/
structure Follows (k : Kernel σ) (w : Pid → Nat) (n : Nat) (s : State σ) (a : RoundRobin Pid) :
    Prop where
  inv     : Inv k s
  nr      : s.nrTasks = n
  only    : ∀ p ∈ s.queued, (s.tasks p).schedClass = .wrr
  running : ∀ p ∈ a.queue, (s.tasks p).state = taskRunning
  queue   : s.toBase.wrr.queue = a.queue
  curr    : a.queue.head? = some s.curr
  entity  : ∀ p, (s.tasks p).wrr = ⟨w p, a.left p⟩
  pos     : ∀ p ∈ a.queue, 1 ≤ a.left p

section Simulation

variable {k : Kernel σ} {w : Pid → Nat} {n : Nat} {s : State σ} {a : RoundRobin Pid}

/-- The tick makes the step of the round robin, except that the running task keeps
the cpu; it asks for a reschedule if that is not the new head. -/
theorem Follows.tick (h : Follows k w n s a) {b : RoundRobin Pid}
    (hb : b = a.next fun p => refill k.toConfig (w p)) :
    (schedulerTick k s).toBase.wrr.queue = b.queue ∧
    (∀ q, ((schedulerTick k s).tasks q).wrr = ⟨w q, b.left q⟩) ∧
    (b.queue.head? = some s.curr ∨ (schedulerTick k s).needResched s.curr = true) := by
  obtain ⟨queue, left⟩ := a
  obtain ⟨ps, rfl⟩ : ∃ ps, queue = s.curr :: ps := List.head?_eq_some_iff.mp h.curr
  have hqueue : s.toBase.wrr.queue = s.curr :: ps := h.queue
  have hmem : s.curr ∈ s.toBase.wrr.queue := hqueue ▸ List.mem_cons_self ..
  have hwrr := h.inv.queues.wrr
  -- a write of the slice of the running task
  have hwrite : ∀ m, ∀ q, ((s.toBase.setWrr s.curr fun t => { t.wrr with timeSlice := m }).tasks
      q).wrr = ⟨w q, Function.update left s.curr m q⟩ := by
    intro m q
    unfold Base.setWrr
    rw [Base.setTask_tasks, Function.update_apply]
    split
    · next hq =>
      dsimp only
      rw [hq, h.entity]
    · exact h.entity q
  have hfull : (s.toBase.setWrr s.curr fun t =>
      { t.wrr with timeSlice := refill k.toConfig t.wrr.weight }) =
      s.toBase.setWrr s.curr fun t => { t.wrr with timeSlice := refill k.toConfig (w s.curr) } := by
    unfold Base.setWrr
    refine Base.setTask_congr ?_
    dsimp only
    rw [h.entity]
  have hpos := h.pos s.curr (List.mem_cons_self ..)
  have hslice : ((updateRqClock k s).tasks s.curr).wrr.timeSlice = left s.curr := by
    rw [updateRqClock_toBase, h.entity]
  rw [schedulerTick_wrr (hwrr.mem.mp hmem).2]
  by_cases hle : left s.curr ≤ 1
  · rw [RoundRobin.next_of_le hle] at hb
    have hone := hslice.trans (Nat.le_antisymm hle hpos)
    cases ps with
    | nil =>
      have hbase := taskTickWrr_alone (c := k.toConfig) hone (by rw [updateRqClock_toBase, hqueue])
      rw [updateRqClock_toBase, hfull] at hbase
      rw [hbase, hb]
      exact ⟨hqueue, hwrite _, Or.inl rfl⟩
    | cons q ps =>
      obtain ⟨hbase, hres⟩ := taskTickWrr_turn (c := k.toConfig) hone
        (by rw [updateRqClock_toBase]; exact hwrr.nodup)
        (by rw [updateRqClock_toBase]; exact hmem)
        (by rw [updateRqClock_toBase, hqueue]; simp)
      rw [updateRqClock_toBase, hfull] at hbase
      rw [hbase, hb]
      refine ⟨?_, hwrite _, Or.inr hres⟩
      show moveTail s.toBase.wrr.queue s.curr = _
      rw [hqueue, moveTail, List.erase_cons_head]
  · have hlt := Nat.lt_of_not_le hle
    rw [RoundRobin.next_of_lt hlt] at hb
    have hbase := taskTickWrr_decrement (c := k.toConfig) (hslice ▸ hlt)
    rw [updateRqClock_toBase, h.entity] at hbase
    rw [hbase, hb]
    exact ⟨hqueue, hwrite _, Or.inl rfl⟩

/-- **One tick is one step of the round robin.** -/
theorem Follows.tickRound (hslice : ∀ p, 1 ≤ refill k.toConfig (w p)) (h : Follows k w n s a)
    {e : SchedEnv} (he : ∀ v ∈ e.toWakeup, v < n) : ∃ t, Sched.tickRound k s e = some t ∧
      Follows k w n t (a.next fun p => refill k.toConfig (w p)) := by
  obtain ⟨hqueue, hent, hnext⟩ := h.tick rfl
  have hmem : ∀ p, p ∈ (a.next fun p => refill k.toConfig (w p)).queue ↔ p ∈ a.queue :=
    fun p => RoundRobin.mem_next
  have hpos := RoundRobin.next_pos hslice h.pos
  generalize (a.next fun p => refill k.toConfig (w p)) = b at *
  have htick : step k s .tick = some (schedulerTick k s) := if_pos trivial
  have hI : Inv k (schedulerTick k s) := h.inv.step htick
  have hout := schedulerTick_outline k s
  unfold Sched.tickRound
  dsimp only
  generalize schedulerTick k s = u at *
  have hnr : u.nrTasks = n := (Base.nrTasks_eq hout).trans h.nr
  have hcurr : u.curr = s.curr := Base.curr_eq hout
  have honly : ∀ p ∈ u.queued, (u.tasks p).schedClass = .wrr := by
    intro p hp
    rw [Base.queued_eq hout] at hp
    rw [Task.schedClass_eq (Base.params_eq hout p)]
    exact h.only p hp
  have hrunning : ∀ p ∈ b.queue, (u.tasks p).state = taskRunning := by
    intro p hp
    rw [Task.eq_of_params (Base.params_eq hout p)]
    exact h.running p ((hmem p).mp hp)
  -- whoever is at the head is the one that runs next
  have hdone : ∀ t : State σ, Inv k t → b.queue.head? = some t.curr →
      t.toBase = { u.toBase with curr := t.curr } → Follows k w n t b := by
    intro t ht hhead hbase
    have htasks : t.tasks = u.tasks := by rw [hbase]
    have hq : t.queued = u.queued := by
      rw [hbase]
      rfl
    refine ⟨ht, ?_, ?_, ?_, ?_, hhead, ?_, hpos⟩
    · exact (congrArg Base.nrTasks hbase).trans hnr
    · rw [htasks, hq]
      exact honly
    · rw [htasks]
      exact hrunning
    · exact (congrArg (fun x => (Base.wrr x).queue) hbase).trans hqueue
    · rw [htasks]
      exact hent
  by_cases hres : u.needResched u.curr = true
  · rw [if_pos hres]
    have hne : b.queue ≠ [] := by
      intro hnil
      have hcurrmem := (hmem s.curr).mpr (List.mem_of_head? h.curr)
      rw [hnil] at hcurrmem
      cases hcurrmem
    obtain ⟨p, ps, hps⟩ := List.exists_cons_of_ne_nil hne
    have hvalid : e.valid u := by
      intro v hv
      rw [hnr]
      exact he v hv
    have hrun : (u.tasks u.curr).state = taskRunning := by
      rw [hcurr]
      exact hrunning _ ((hmem _).mpr (List.mem_of_head? h.curr))
    obtain ⟨t, ht, hbase⟩ := schedule_wrr hI hvalid hrun honly
      (p := p) (by rw [hqueue, hps]; rfl)
    have htcurr : t.curr = p := congrArg Base.curr hbase
    have hstep : step k u (.schedule e) = some t := (if_pos hvalid).trans ht
    refine ⟨t, ht, hdone t (hI.step hstep) ?_ ?_⟩
    · rw [hps, htcurr]
      rfl
    · rw [htcurr]
      exact hbase
  · rw [if_neg hres]
    refine ⟨u, rfl, hdone u hI ?_ rfl⟩
    rw [hcurr] at hres ⊢
    exact hnext.resolve_right hres

end Simulation

/-! ## A round -/

/-- If 100 divides HZ, a weight stands for as many background slices. -/
theorem refill_eq_mul {c : Config} (hHZ : 100 ∣ c.HZ) {weight : Nat}
    (hw : weight = 1 ∨ weight = 10) : refill c weight = weight * c.wrrBgTimeslice := by
  obtain ⟨m, hm⟩ := hHZ
  unfold refill Config.wrrBgTimeslice Config.wrrFgTimeslice
  rcases hw with rfl | rfl
  · rw [if_pos rfl, Nat.one_mul]
  · rw [if_neg (by decide), hm]
    omega

/-- **Weighted round robin.** Let the queue be `ps` in a reachable state, its head
running, no other task queued, all of them staying runnable, with full slices. After
as many ticks as these slices have together, each followed by a `schedule` if one is
asked for, queue, running task, weights and slices are as before. The tasks have run
in the order of the queue, each in one turn of its slice. If 100 divides `HZ`, the
share of a task is its part of the total weight. -/
theorem wrr_round_robin (k : Kernel σ) (s : State σ) (hs : Reachable (step k) (boot k) s)
    (ps : List Pid) (hqueue : s.toBase.wrr.queue = ps) (hcurr : ps.head? = some s.curr)
    (honly : ∀ p ∈ s.queued, (s.tasks p).schedClass = .wrr)
    (hrun : ∀ p ∈ ps, (s.tasks p).state = taskRunning)
    (hfull : ∀ p ∈ ps, (s.tasks p).wrr.timeSlice = refill k.toConfig (s.tasks p).wrr.weight)
    (hbg : 1 ≤ k.wrrBgTimeslice) (es : List SchedEnv) (hes : ∀ e ∈ es, e.valid s)
    (hlen : es.length = (ps.map fun p => refill k.toConfig (s.tasks p).wrr.weight).sum) :
    ∃ t, run (tickRound k) s es = some t ∧
      t.toBase.wrr.queue = ps ∧ t.curr = s.curr ∧ (∀ p, (t.tasks p).wrr = (s.tasks p).wrr) ∧
      (trace (tickRound k) s es).map (·.pre.curr) =
        ps.flatMap (fun p => List.replicate (refill k.toConfig (s.tasks p).wrr.weight) p) ∧
      (∀ p ∈ ps, ((trace (tickRound k) s es).map (·.pre.curr)).count p =
        refill k.toConfig (s.tasks p).wrr.weight) ∧
      (100 ∣ k.HZ → ∀ p ∈ ps,
        (((trace (tickRound k) s es).map (·.pre.curr)).count p : ℚ) / es.length =
          (s.tasks p).wrr.weight / s.toBase.wrr.totalWeight) := by
  have hI := Inv.reachable hs
  have hpos : ∀ weight, 1 ≤ refill k.toConfig weight := by
    refine refill_pos ?_
    unfold Config.wrrBgTimeslice at hbg
    omega
  have hwrr := hI.queues.wrr
  -- the abstract round robin
  have hstart : Follows k (fun p => (s.tasks p).wrr.weight) s.nrTasks s
      ⟨ps ++ [], fun p => (s.tasks p).wrr.timeSlice⟩ := by
    rw [List.append_nil]
    refine ⟨hI, rfl, honly, hrun, hqueue, hcurr, fun _ => rfl, fun p hp => ?_⟩
    show 1 ≤ (s.tasks p).wrr.timeSlice
    rw [hfull p hp]
    exact hpos _
  obtain ⟨hback, hheads⟩ := RoundRobin.iterate_round ps [] hfull fun p _ => hpos _
  rw [← hlen] at hback hheads
  obtain ⟨t, ht, hend, hall⟩ := run_simulates
    (R := Follows k (fun p => (s.tasks p).wrr.weight) s.nrTasks)
    (fun e he _ _ h => Follows.tickRound (fun _ => hpos _) h (hes e he)) hstart
  rw [hback] at hend
  have hcurrs : (trace (tickRound k) s es).map (·.pre.curr) =
      turns (fun p => refill k.toConfig (s.tasks p).wrr.weight) ps := by
    refine List.map_injective_iff.mpr (Option.some_injective Pid) ?_
    rw [← hheads, List.map_map]
    refine List.forall₂_eq_eq_eq ▸ ?_
    rw [List.forall₂_map_left_iff, List.forall₂_map_right_iff]
    exact hall.imp fun r b hr => hr.curr.symm
  have hcount : ∀ p ∈ ps, ((trace (tickRound k) s es).map (·.pre.curr)).count p =
      refill k.toConfig (s.tasks p).wrr.weight := by
    intro p hp
    rw [hcurrs, count_turns _ (hqueue ▸ hwrr.nodup) hp]
  refine ⟨t, ht, hend.queue, ?_, hend.entity, hcurrs, hcount, ?_⟩
  · exact Option.some.inj (hend.curr.symm.trans hcurr)
  · intro hHZ p hp
    have hmul : ∀ q ∈ ps, refill k.toConfig (s.tasks q).wrr.weight =
        (s.tasks q).wrr.weight * k.wrrBgTimeslice := by
      intro q hq
      refine refill_eq_mul hHZ ?_
      rw [hwrr.weight (hqueue ▸ hq)]
      exact groupWeight_cases _ _
    have htotal : es.length = s.toBase.wrr.totalWeight * k.wrrBgTimeslice := by
      rw [hlen, List.map_congr_left hmul, List.sum_map_mul_right, hwrr.total, hqueue]
    have hne : (k.wrrBgTimeslice : ℚ) ≠ 0 := by
      rw [Nat.cast_ne_zero]
      omega
    rw [hcount p hp, hmul p hp, htotal, Nat.cast_mul, Nat.cast_mul, mul_div_mul_right _ _ hne]

/-- A foreground and a background task: ten ticks for the one, one for the other. -/
theorem wrr_round_robin_two_tasks : ∃ s t, Reachable (step fifoKernel) (boot fifoKernel) s ∧
    s.toBase.wrr.queue = [1, 2] ∧
    run (tickRound fifoKernel) s (List.replicate 11 ⟨true, false, none⟩) = some t ∧
    t.toBase.wrr.queue = [1, 2] ∧ t.curr = s.curr ∧
    (trace (tickRound fifoKernel) s (List.replicate 11 ⟨true, false, none⟩)).map (·.pre.curr) =
      List.replicate 10 1 ++ [2] := by
  -- two queued tasks, one with ten ticks and one with a single one
  have hrun : (run (step fifoKernel) (boot fifoKernel)
      (wrrOps ++ [.schedule ⟨false, false, none⟩])).any (fun s =>
        s.toBase.wrr.queue = [1, 2] ∧ s.curr = 1 ∧
        (∀ p ∈ s.queued, (s.tasks p).schedClass = .wrr) ∧
        (∀ p ∈ [1, 2], (s.tasks p).state = taskRunning) ∧
        (s.tasks 1).wrr = ⟨10, 10⟩ ∧ (s.tasks 2).wrr = ⟨1, 1⟩) = true := by decide +kernel
  obtain ⟨s, hs, hcond⟩ := (Option.any_eq_true _ _).mp hrun
  obtain ⟨hqueue, hcurr, honly, hstate, h1, h2⟩ := of_decide_eq_true hcond
  have hreach := run_reachable hs
  have hfg : refill fifoKernel.toConfig (s.tasks 1).wrr.weight = 10 := by
    rw [h1]
    rfl
  have hbg : refill fifoKernel.toConfig (s.tasks 2).wrr.weight = 1 := by
    rw [h2]
    rfl
  obtain ⟨t, ht, hq, hc, -, hturns, -⟩ := wrr_round_robin fifoKernel s hreach [1, 2] hqueue
    (by rw [hcurr]; rfl) honly hstate
    (by
      intro p hp
      rcases List.mem_pair.mp hp with rfl | rfl
      · rw [hfg, h1]
      · rw [hbg, h2])
    (by decide) (List.replicate 11 ⟨true, false, none⟩)
    (by
      intro e he w hw
      rw [List.eq_of_mem_replicate he] at hw
      cases hw)
    (by
      show 11 = refill fifoKernel.toConfig (s.tasks 1).wrr.weight +
        (refill fifoKernel.toConfig (s.tasks 2).wrr.weight + 0)
      rw [hfg, hbg])
  refine ⟨s, t, hreach, hqueue, ht, hq, hc, ?_⟩
  rw [hturns]
  show List.replicate (refill fifoKernel.toConfig (s.tasks 1).wrr.weight) 1 ++
    (List.replicate (refill fifoKernel.toConfig (s.tasks 2).wrr.weight) 2 ++ []) = _
  rw [hfg, hbg]
  rfl

end LinuxKernel.Sched

import LinuxKernel.Load.Average
import LinuxKernel.Lib.Run
import Mathlib.Algebra.BigOperators.Group.Finset.Basic
import Mathlib.Data.Fintype.BigOperators
import Mathlib.Tactic.Abel

/-!
# The load average: counting the active tasks of all processors

The number of active tasks is never read off all run queues at once. Each processor folds the change
of its own count into a global one, from its tick (`calc_load_account_active`) or, as it stops its
tick, into one of two counters for idle processors (`calc_load_enter_idle`). The timekeeping
processor takes those in and averages (`calc_global_load`). None of this is under a common lock. So
a call is cut here at every access to a variable that several processors use and one of them writes
meanwhile: `Pc` says where a processor is in its call, `TimerPc` where the timekeeping one is in
`calc_global_load`, and a step takes one of them to its next access. What only the timekeeping
processor writes it reads without a cut, and the averages, which nobody else uses, change in the
step that writes `calc_load_update`.

* `load_deltas_conserved` — whatever the order of the steps, no change is lost and none is counted
  twice.
* `load_deltas_arrive`    — no change is left behind in a counter for more than two updates.
-/

namespace LinuxKernel.Load

open LinuxKernel.Lib

/-! ## States -/

/-- `time_before`: the difference, taken as a `long`, is negative. -/
def timeBefore (a b : BitVec 32) : Bool := (a - b).toInt < 0

/-- `LOAD_FREQ`, which depends on the configured `HZ`. -/
def loadFreq (hz : BitVec 32) : BitVec 32 := 5 * hz + 1

/-- What a processor does next in its call. -/
inductive Pc
  | out
  -- calc_load_enter_idle with a delta: read calc_load_idx, jiffies, calc_load_update; then add
  | enterIdx (delta : BitVec 32)
  | enterTime (delta idx : BitVec 32)
  | enterUpdate (delta idx now : BitVec 32)
  | enterAdd (delta : BitVec 32) (idx : Bool)
  -- calc_load_exit_idle: copy calc_load_update, then see whether its window is open
  | exitSync
  | exitWindow
  -- calc_load_account_active: add a delta, then move on to the next period
  | accountAdd (delta : BitVec 32)
  | accountNext
  deriving DecidableEq, Repr

/-- What `calc_global_load` does next. -/
inductive TimerPc
  | out
  | foldRead
  | foldXchg (idx : Bool)
  | foldAdd (delta : BitVec 32)
  -- read calc_load_tasks, then decay and move calc_load_update on
  | average
  | decay (active : BitVec 32)
  -- the same in calc_global_nohz if periods are behind
  | nohz
  | catchUp (active n : BitVec 32)
  | flip
  deriving DecidableEq, Repr

/-- The fields of a run queue the load average uses. -/
structure Rq where
  nrRunning : BitVec 32
  nrUninterruptible : BitVec 32
  calcLoadActive : BitVec 32
  calcLoadUpdate : BitVec 32
  pc : Pc
  deriving DecidableEq, Repr

/-- The globals and the run queues. The counters `calc_load_idle[2]` are indexed by the last bit of
`calc_load_idx`. -/
structure Sys (Cpu : Type) where
  jiffies : BitVec 32
  calcLoadTasks : BitVec 32
  calcLoadUpdate : BitVec 32
  calcLoadIdle : Bool → BitVec 32
  calcLoadIdx : BitVec 32
  avenrun : Avenrun
  timer : TimerPc
  rq : Cpu → Rq

variable {Cpu : Type} [DecidableEq Cpu]

def Sys.setRq (s : Sys Cpu) (c : Cpu) (r : Rq) : Sys Cpu :=
  { s with rq := Function.update s.rq c r }

/-- After `sched_init`. -/
def boot (hz jiffies : BitVec 32) : Sys Cpu where
  jiffies := jiffies
  calcLoadTasks := 0
  calcLoadUpdate := jiffies + loadFreq hz
  calcLoadIdle := fun _ => 0
  calcLoadIdx := 0
  avenrun := ⟨0, 0, 0⟩
  timer := .out
  rq := fun _ => ⟨0, 0, 0, jiffies + loadFreq hz, .out⟩

/-! ## Steps -/

def calcLoadFoldActive (r : Rq) : BitVec 32 × Rq :=
  let nrActive := r.nrRunning + r.nrUninterruptible
  if nrActive ≠ r.calcLoadActive then
    (nrActive - r.calcLoadActive, { r with calcLoadActive := nrActive })
  else (0, r)

def calcLoadEnterIdle (r : Rq) : Rq :=
  let (delta, r) := calcLoadFoldActive r
  if delta ≠ 0 then { r with pc := .enterIdx delta } else r

def calcLoadExitIdle (jiffies : BitVec 32) (r : Rq) : Rq :=
  if timeBefore jiffies r.calcLoadUpdate then r else { r with pc := .exitSync }

def calcLoadAccountActive (jiffies : BitVec 32) (r : Rq) : Rq :=
  if timeBefore jiffies r.calcLoadUpdate then r
  else
    let (delta, r) := calcLoadFoldActive r
    if delta ≠ 0 then { r with pc := .accountAdd delta } else { r with pc := .accountNext }

/-- The next access of processor `c`. -/
def nextCpu (hz : BitVec 32) (s : Sys Cpu) (c : Cpu) : Option (Sys Cpu) :=
  let r := s.rq c
  match r.pc with
  | .out => none
  | .enterIdx delta => some (s.setRq c { r with pc := .enterTime delta s.calcLoadIdx })
  | .enterTime delta idx => some (s.setRq c { r with pc := .enterUpdate delta idx s.jiffies })
  | .enterUpdate delta idx now =>
    let idx := if !timeBefore now s.calcLoadUpdate then idx + 1 else idx
    some (s.setRq c { r with pc := .enterAdd delta (idx.getLsbD 0) })
  | .enterAdd delta idx =>
    some { s.setRq c { r with pc := .out } with
      calcLoadIdle := Function.update s.calcLoadIdle idx (s.calcLoadIdle idx + delta) }
  | .exitSync => some (s.setRq c { r with calcLoadUpdate := s.calcLoadUpdate, pc := .exitWindow })
  | .exitWindow =>
    let update :=
      if timeBefore s.jiffies (r.calcLoadUpdate + 10) then r.calcLoadUpdate + loadFreq hz
      else r.calcLoadUpdate
    some (s.setRq c { r with calcLoadUpdate := update, pc := .out })
  | .accountAdd delta =>
    some { s.setRq c { r with pc := .accountNext } with calcLoadTasks := s.calcLoadTasks + delta }
  | .accountNext =>
    some (s.setRq c { r with calcLoadUpdate := r.calcLoadUpdate + loadFreq hz, pc := .out })

def calcLoadReadIdx (s : Sys Cpu) : Bool := s.calcLoadIdx.getLsbD 0

/-- `n` of `calc_global_nohz`: the periods that are still behind. -/
def missedCycles (hz : BitVec 32) (s : Sys Cpu) : BitVec 32 :=
  let delta := s.jiffies - s.calcLoadUpdate - 10
  1 + delta.sdiv (loadFreq hz)

/-- The next access of `calc_global_load`. Only this call writes `calc_load_update`, `calc_load_idx`
and `avenrun`. -/
def nextTimer (hz : BitVec 32) (s : Sys Cpu) : Option (Sys Cpu) :=
  match s.timer with
  | .out => none
  -- calc_load_fold_idle
  | .foldRead =>
    let idx := calcLoadReadIdx s
    if s.calcLoadIdle idx ≠ 0 then some { s with timer := .foldXchg idx }
    else some { s with timer := .average }
  | .foldXchg idx =>
    let delta := s.calcLoadIdle idx
    some { s with
      calcLoadIdle := Function.update s.calcLoadIdle idx 0
      timer := if delta ≠ 0 then .foldAdd delta else .average }
  | .foldAdd delta => some { s with calcLoadTasks := s.calcLoadTasks + delta, timer := .average }
  | .average => some { s with timer := .decay (fixedActive s.calcLoadTasks) }
  | .decay active =>
    some { s with
      avenrun := s.avenrun.step active
      calcLoadUpdate := s.calcLoadUpdate + loadFreq hz
      timer := .nohz }
  -- calc_global_nohz
  | .nohz =>
    if !timeBefore s.jiffies (s.calcLoadUpdate + 10) then
      some { s with timer := .catchUp (fixedActive s.calcLoadTasks) (missedCycles hz s) }
    else some { s with timer := .flip }
  | .catchUp active n =>
    some { s with
      avenrun := s.avenrun.catchUp active n
      calcLoadUpdate := s.calcLoadUpdate + n * loadFreq hz
      timer := .flip }
  | .flip => some { s with calcLoadIdx := s.calcLoadIdx + 1, timer := .out }

/-- What can happen: the timekeeping processor advances `jiffies` and calls `calc_global_load`, one
call after the other; a processor's counts change; it enters or leaves the tickless state or ticks,
and goes on in such a call; it goes down or comes up. -/
inductive Op (Cpu : Type)
  | timer (ticks : BitVec 32)
  | timerNext
  | count (c : Cpu) (nrRunning nrUninterruptible : BitVec 32)
  | enterIdle (c : Cpu)
  | exitIdle (c : Cpu)
  | accountActive (c : Cpu)
  | next (c : Cpu)
  | cpuDying (c dest : Cpu)
  | cpuUpPrepare (c : Cpu)
  deriving DecidableEq, Repr

/-- `migrate_nr_uninterruptible`, then `calc_global_load_remove`. -/
def cpuDying (s : Sys Cpu) (c dest : Cpu) : Sys Cpu :=
  let src := s.rq c
  let s := s.setRq dest { s.rq dest with
    nrUninterruptible := (s.rq dest).nrUninterruptible + src.nrUninterruptible }
  { s.setRq c { src with nrUninterruptible := 0, calcLoadActive := 0 } with
    calcLoadTasks := s.calcLoadTasks - src.calcLoadActive }

/-- A step: the operation if it is possible in the state. A processor starts a call, goes down or
comes up only outside any other call. -/
def step (hz : BitVec 32) (s : Sys Cpu) : Op Cpu → Option (Sys Cpu)
  | .timer ticks =>
    if s.timer = .out then
      let jiffies := s.jiffies + ticks
      if timeBefore jiffies (s.calcLoadUpdate + 10) then some { s with jiffies := jiffies }
      else some { s with jiffies := jiffies, timer := .foldRead }
    else none
  | .timerNext => nextTimer hz s
  | .count c nrRunning nrUninterruptible =>
    some (s.setRq c { s.rq c with nrRunning := nrRunning, nrUninterruptible := nrUninterruptible })
  | .enterIdle c =>
    if (s.rq c).pc = .out then some (s.setRq c (calcLoadEnterIdle (s.rq c))) else none
  | .exitIdle c =>
    if (s.rq c).pc = .out then some (s.setRq c (calcLoadExitIdle s.jiffies (s.rq c))) else none
  | .accountActive c =>
    if (s.rq c).pc = .out then some (s.setRq c (calcLoadAccountActive s.jiffies (s.rq c))) else none
  | .next c => nextCpu hz s c
  | .cpuDying c dest =>
    if (s.rq c).pc = .out ∧ c ≠ dest then some (cpuDying s c dest) else none
  | .cpuUpPrepare c =>
    if (s.rq c).pc = .out then
      some (s.setRq c { s.rq c with calcLoadUpdate := s.calcLoadUpdate }) else none

/-! ## What a step leaves alone -/

/-- What only the timekeeping processor writes. -/
structure SameTimer (s t : Sys Cpu) : Prop where
  jiffies : t.jiffies = s.jiffies
  update  : t.calcLoadUpdate = s.calcLoadUpdate
  idx     : t.calcLoadIdx = s.calcLoadIdx
  avenrun : t.avenrun = s.avenrun
  timer   : t.timer = s.timer

/-- The step adds to one of the two counters for idle processors. -/
def addsIdle (s : Sys Cpu) : Op Cpu → Bool
  | .next c =>
    match (s.rq c).pc with
    | .enterAdd _ _ => true
    | _ => false
  | _ => false

theorem nextCpu_same {hz : BitVec 32} {s t : Sys Cpu} {c : Cpu} (h : nextCpu hz s c = some t) :
    SameTimer s t ∧ (addsIdle s (.next c) = false → t.calcLoadIdle = s.calcLoadIdle) := by
  cases hpc : (s.rq c).pc with
  | out => simp [nextCpu, hpc] at h
  | enterAdd delta idx =>
    obtain rfl : _ = t := by simpa [nextCpu, hpc] using h
    exact ⟨⟨rfl, rfl, rfl, rfl, rfl⟩, fun hno => by simp [addsIdle, hpc] at hno⟩
  | _ =>
    obtain rfl : _ = t := by simpa [nextCpu, hpc] using h
    exact ⟨⟨rfl, rfl, rfl, rfl, rfl⟩, fun _ => rfl⟩

/-- A step is one of the timekeeping processor, or leaves its variables alone; and the two counters
too, unless it adds to one of them. -/
theorem step_cases {hz : BitVec 32} {s t : Sys Cpu} {op : Op Cpu} (h : step hz s op = some t) :
    (∃ ticks, op = .timer ticks ∧ s.timer = .out ∧
      t = { s with
        jiffies := s.jiffies + ticks
        timer :=
          if timeBefore (s.jiffies + ticks) (s.calcLoadUpdate + 10) then .out else .foldRead }) ∨
    (op = .timerNext ∧ nextTimer hz s = some t) ∨
    ((∀ ticks, op ≠ .timer ticks) ∧ op ≠ .timerNext ∧ SameTimer s t ∧
      (addsIdle s op = false → t.calcLoadIdle = s.calcLoadIdle)) := by
  have hset : ∀ (c : Cpu) (r : Rq), SameTimer s (s.setRq c r) ∧
      (addsIdle s op = false → (s.setRq c r).calcLoadIdle = s.calcLoadIdle) :=
    fun c r => ⟨⟨rfl, rfl, rfl, rfl, rfl⟩, fun _ => rfl⟩
  cases op with
  | timer ticks =>
    obtain ⟨hout, h⟩ := Option.ite_none_right_eq_some.mp h
    refine .inl ⟨ticks, rfl, hout, ?_⟩
    split at h <;> rename_i hb <;> obtain rfl := Option.some.inj h
    · rw [if_pos hb, ← hout]
    · rw [if_neg hb]
  | timerNext => exact .inr (.inl ⟨rfl, h⟩)
  | count c nr nu =>
    obtain rfl := Option.some.inj h
    exact .inr (.inr ⟨by simp, by simp, hset c _⟩)
  | enterIdle c | exitIdle c | accountActive c | cpuUpPrepare c =>
    obtain ⟨-, ⟨⟩⟩ := Option.ite_none_right_eq_some.mp h
    exact .inr (.inr ⟨by simp, by simp, hset c _⟩)
  | next c => exact .inr (.inr ⟨by simp, by simp, nextCpu_same h⟩)
  | cpuDying c dest =>
    obtain ⟨-, ⟨⟩⟩ := Option.ite_none_right_eq_some.mp h
    exact .inr (.inr ⟨by simp, by simp, ⟨rfl, rfl, rfl, rfl, rfl⟩, fun _ => rfl⟩)

/-! ## No change is lost -/

/-- The change a processor, or the timekeeping one, has taken and not added yet. -/
def Pc.delta : Pc → BitVec 32
  | .enterIdx delta | .enterTime delta _ | .enterUpdate delta _ _ | .enterAdd delta _
  | .accountAdd delta => delta
  | _ => 0

def TimerPc.delta : TimerPc → BitVec 32
  | .foldAdd delta => delta
  | _ => 0

/-- What a processor has added so far. -/
def Rq.added (r : Rq) : BitVec 32 := r.calcLoadActive - r.pc.delta

section

variable [Fintype Cpu]

def Sys.added (s : Sys Cpu) : BitVec 32 := ∑ c, (s.rq c).added

/-- What the globals hold. -/
def Sys.held (s : Sys Cpu) : BitVec 32 :=
  s.calcLoadTasks + (s.calcLoadIdle false + s.calcLoadIdle true) + s.timer.delta

theorem setRq_added (s : Sys Cpu) (c : Cpu) (r : Rq) :
    (s.setRq c r).added = s.added - (s.rq c).added + r.added := by
  have hupd : ∀ d, ((Function.update s.rq c r) d).added
      = Function.update (fun d => (s.rq d).added) c r.added d := by
    intro d
    by_cases h : d = c
    · subst h
      simp
    · simp [h]
  unfold Sys.added Sys.setRq
  simp only [hupd]
  rw [Finset.sum_update_of_mem (Finset.mem_univ c), ← Finset.add_sum_erase _ _ (Finset.mem_univ c),
    Finset.sdiff_singleton_eq_erase]
  abel

theorem calcLoadFoldActive_active (r : Rq) :
    (calcLoadFoldActive r).2.calcLoadActive - (calcLoadFoldActive r).1 = r.calcLoadActive := by
  simp only [calcLoadFoldActive]
  split <;> simp

theorem calcLoadFoldActive_pc (r : Rq) : (calcLoadFoldActive r).2.pc = r.pc := by
  simp only [calcLoadFoldActive]
  split <;> rfl

/-- Taking a change adds nothing yet. -/
theorem calcLoadEnterIdle_added {r : Rq} (h : r.pc = .out) :
    (calcLoadEnterIdle r).added = r.added := by
  have hact := calcLoadFoldActive_active r
  have hpc := calcLoadFoldActive_pc r
  simp only [calcLoadEnterIdle]
  split
  · simpa [Rq.added, Pc.delta, h] using hact
  · rename_i hz
    rw [not_not.mp hz, sub_zero] at hact
    simp [Rq.added, hpc, hact]

theorem calcLoadAccountActive_added {r : Rq} (j : BitVec 32) (h : r.pc = .out) :
    (calcLoadAccountActive j r).added = r.added := by
  have hact := calcLoadFoldActive_active r
  unfold calcLoadAccountActive
  split
  · rfl
  · simp only
    split
    · simpa [Rq.added, Pc.delta, h] using hact
    · rename_i hz
      rw [not_not.mp hz, sub_zero] at hact
      simp [Rq.added, Pc.delta, h, hact]

theorem calcLoadExitIdle_added {r : Rq} (j : BitVec 32) (h : r.pc = .out) :
    (calcLoadExitIdle j r).added = r.added := by
  unfold calcLoadExitIdle
  split <;> simp [Rq.added, Pc.delta, h]

theorem nextCpu_held {hz : BitVec 32} {s t : Sys Cpu} {c : Cpu} (h : nextCpu hz s c = some t) :
    t.held - t.added = s.held - s.added := by
  cases hpc : (s.rq c).pc with
  | out => simp [nextCpu, hpc] at h
  | enterAdd delta idx =>
    obtain rfl : _ = t := by simpa [nextCpu, hpc] using h
    change Sys.held _ - (s.setRq c _).added = _
    rw [setRq_added]
    cases idx <;> simp [Sys.held, Sys.setRq, Rq.added, Pc.delta, hpc] <;> abel
  | accountAdd delta =>
    obtain rfl : _ = t := by simpa [nextCpu, hpc] using h
    change Sys.held _ - (s.setRq c _).added = _
    rw [setRq_added]
    simp [Sys.held, Sys.setRq, Rq.added, Pc.delta, hpc]
    abel
  | _ =>
    obtain rfl : _ = t := by simpa [nextCpu, hpc] using h
    rw [setRq_added]
    simp [Sys.held, Sys.setRq, Rq.added, Pc.delta, hpc]

omit [DecidableEq Cpu] in
theorem nextTimer_held {hz : BitVec 32} {s t : Sys Cpu} (h : nextTimer hz s = some t) :
    t.held - t.added = s.held - s.added := by
  cases ht : s.timer with
  | out => simp [nextTimer, ht] at h
  | foldXchg idx =>
    simp only [nextTimer, ht] at h
    obtain rfl := Option.some.inj h
    have hdelta : TimerPc.delta
        (if s.calcLoadIdle idx ≠ 0 then .foldAdd (s.calcLoadIdle idx) else .average)
        = s.calcLoadIdle idx := by
      split
      · rfl
      · rename_i h0
        rw [not_not.mp h0]
        rfl
    have hbefore : TimerPc.delta (.foldXchg idx) = 0 := rfl
    simp only [Sys.held, Sys.added, hdelta, ht, hbefore]
    cases idx <;> simp <;> abel
  | foldAdd delta =>
    obtain rfl : _ = t := by simpa [nextTimer, ht] using h
    simp [Sys.held, Sys.added, ht, TimerPc.delta]
    abel
  | foldRead =>
    simp only [nextTimer, ht] at h
    split at h <;> obtain rfl := Option.some.inj h <;> simp [Sys.held, Sys.added, ht, TimerPc.delta]
  | nohz =>
    simp only [nextTimer, ht] at h
    split at h <;> obtain rfl := Option.some.inj h <;> simp [Sys.held, Sys.added, ht, TimerPc.delta]
  | _ =>
    obtain rfl : _ = t := by simpa [nextTimer, ht] using h
    simp [Sys.held, Sys.added, ht, TimerPc.delta]

theorem cpuDying_held {s : Sys Cpu} {c dest : Cpu} (hc : (s.rq c).pc = .out) (hne : c ≠ dest) :
    (cpuDying s c dest).held - (cpuDying s c dest).added = s.held - s.added := by
  have hadded : (cpuDying s c dest).added = s.added - (s.rq c).calcLoadActive := by
    change ((s.setRq dest _).setRq c _).added = _
    rw [setRq_added, setRq_added]
    have hkeep : (s.setRq dest { s.rq dest with
        nrUninterruptible := (s.rq dest).nrUninterruptible + (s.rq c).nrUninterruptible }).rq c =
          s.rq c := by
      simp [Sys.setRq, hne]
    simp only [hkeep, Rq.added, hc, Pc.delta]
    abel
  rw [hadded]
  simp only [Sys.held, cpuDying, Sys.setRq]
  abel

/-- **One step** adds to the globals what it takes off a processor's hands. -/
theorem step_held {hz : BitVec 32} {s t : Sys Cpu} {op : Op Cpu} (h : step hz s op = some t) :
    t.held - t.added = s.held - s.added := by
  have hset : ∀ (c : Cpu) (r : Rq), r.added = (s.rq c).added →
      (s.setRq c r).held - (s.setRq c r).added = s.held - s.added := by
    intro c r hr
    rw [setRq_added, hr, sub_add_cancel]
    rfl
  cases op with
  | timer ticks =>
    simp only [step] at h
    split at h
    · rename_i ht
      split at h <;> obtain rfl := Option.some.inj h
      · rfl
      · simp [Sys.held, Sys.added, ht, TimerPc.delta]
    · simp at h
  | timerNext => exact nextTimer_held h
  | count c nr nu =>
    obtain rfl := Option.some.inj h
    exact hset c _ rfl
  | enterIdle c =>
    obtain ⟨hpc, ⟨⟩⟩ := Option.ite_none_right_eq_some.mp h
    exact hset c _ (calcLoadEnterIdle_added hpc)
  | exitIdle c =>
    obtain ⟨hpc, ⟨⟩⟩ := Option.ite_none_right_eq_some.mp h
    exact hset c _ (calcLoadExitIdle_added _ hpc)
  | accountActive c =>
    obtain ⟨hpc, ⟨⟩⟩ := Option.ite_none_right_eq_some.mp h
    exact hset c _ (calcLoadAccountActive_added _ hpc)
  | next c => exact nextCpu_held h
  | cpuDying c dest =>
    obtain ⟨⟨hpc, hne⟩, ⟨⟩⟩ := Option.ite_none_right_eq_some.mp h
    exact cpuDying_held hpc hne
  | cpuUpPrepare c =>
    obtain ⟨-, ⟨⟩⟩ := Option.ite_none_right_eq_some.mp h
    exact hset c _ rfl

theorem reachable_held {hz j : BitVec 32} {s : Sys Cpu} (hs : Reachable (step hz) (boot hz j) s) :
    s.held = s.added := by
  refine sub_eq_zero.mp (hs.invariant (P := fun s => s.held - s.added = 0) ?_ ?_)
  · intro s op t hs ht
    rw [step_held ht, hs]
  · simp [Sys.held, Sys.added, boot, Rq.added, Pc.delta, TimerPc.delta]

/-- **No change is lost, none is counted twice.** In every state that any interleaving leads to,
what the processors last took as their active counts is what `calc_load_tasks` and the two counters
hold, with the changes that are on their way between them. -/
theorem load_deltas_conserved (hz j : BitVec 32) (s : Sys Cpu)
    (hs : Reachable (step hz) (boot hz j) s) :
    s.calcLoadTasks + (s.calcLoadIdle false + s.calcLoadIdle true) + s.timer.delta
        + ∑ c, (s.rq c).pc.delta = ∑ c, (s.rq c).calcLoadActive := by
  have h := reachable_held hs
  simp only [Sys.held, Sys.added, Rq.added, Finset.sum_sub_distrib] at h
  rw [h, sub_add_cancel]

/-- Processor 1 goes idle as `calc_global_load` runs: it has chosen its counter and not added
yet. -/
def idleRaceOps : List (Op (Fin 2)) :=
  [.count 0 3 0, .count 1 2 0, .timer 501, .accountActive 0, .next 0, .next 0, .accountActive 1,
    .next 1, .next 1, .count 1 0 0, .timer 10, .enterIdle 1, .next 1, .timerNext, .timerNext,
    .next 1, .next 1, .timerNext]

theorem load_deltas_conserved_race : ∃ s : Sys (Fin 2),
    ((s.rq 1).pc = .enterAdd (-2) true ∧ s.calcLoadTasks = 5 ∧ s.timer = .nohz) ∧
    s.calcLoadTasks + (s.calcLoadIdle false + s.calcLoadIdle true) + s.timer.delta
        + ∑ c, (s.rq c).pc.delta = ∑ c, (s.rq c).calcLoadActive := by
  have hrun : (run (step 100) (boot 100 0) idleRaceOps).any (fun s =>
      decide ((s.rq 1).pc = .enterAdd (-2) true ∧ s.calcLoadTasks = 5 ∧ s.timer = .nohz)) =
        true := by
    decide +kernel
  obtain ⟨s, hs, hprop⟩ := (Option.any_eq_true _ _).mp hrun
  exact ⟨s, of_decide_eq_true hprop, load_deltas_conserved 100 0 s (run_reachable hs)⟩

/-! ## No change is left behind -/

theorem lastBit_succ (x : BitVec 32) : (x + 1).getLsbD 0 = !x.getLsbD 0 := by
  have hx : (x + 1).toNat = (x.toNat + 1) % 2 ^ 32 := BitVec.toNat_add x 1
  simp only [BitVec.getLsbD, Nat.testBit_zero, hx]
  rcases Nat.mod_two_eq_zero_or_one x.toNat with h | h <;> simp [h] <;> omega

/-- Whether a step ends a call of `calc_global_load` that has averaged. -/
def flips (r : StepRec (Sys Cpu) (Op Cpu)) : Nat :=
  if r.op = .timerNext ∧ r.pre.timer = .flip then 1 else 0

/-- While nothing is added to the counters: after the flips so far, those that were read are empty,
and so is the one the current call has read; after two there is nothing left to take. -/
structure Drained (b : Bool) (k : Nat) (s : Sys Cpu) : Prop where
  idx    : k = 0 → calcLoadReadIdx s = b
  idx'   : k = 1 → calcLoadReadIdx s = !b
  xchg   : ∀ i, s.timer = .foldXchg i → i = calcLoadReadIdx s
  read   : s.timer ≠ .out → s.timer ≠ .foldRead → (∀ i, s.timer ≠ .foldXchg i) →
    s.calcLoadIdle (calcLoadReadIdx s) = 0
  first  : 1 ≤ k → s.calcLoadIdle b = 0
  second : 2 ≤ k → s.calcLoadIdle (!b) = 0
  delta  : 2 ≤ k → s.timer.delta = 0

omit [Fintype Cpu] [DecidableEq Cpu] in
/-- After two flips both counters are empty, whichever is which. -/
theorem Drained.idle {s : Sys Cpu} {b : Bool} {k : Nat} (hd : Drained b k s)
    (hk : 2 ≤ k) (i : Bool) :
    s.calcLoadIdle i = 0 := by
  rcases Bool.eq_or_eq_not i b with rfl | rfl
  · exact hd.first (by omega)
  · exact hd.second hk

omit [Fintype Cpu] [DecidableEq Cpu] in
theorem Drained.nextTimer {hz : BitVec 32} {s t : Sys Cpu} {b : Bool} {k : Nat} (hd : Drained b k s)
    (h : nextTimer hz s = some t) : Drained b (k + if s.timer = .flip then 1 else 0) t := by
  have hidle := hd.idle
  obtain ⟨hidx, hidx', hxchg, hread, hfirst, hsecond, -⟩ := hd
  cases ht : s.timer with
  | out => simp [Load.nextTimer, ht] at h
  | foldRead =>
    simp only [Load.nextTimer, ht] at h
    split at h <;> rename_i h0 <;> obtain rfl := Option.some.inj h
    · exact ⟨hidx, hidx', fun i hi => (TimerPc.foldXchg.inj hi).symm,
        fun _ _ hx => absurd rfl (hx _), hfirst, hsecond, fun _ => rfl⟩
    · exact ⟨hidx, hidx', by simp, fun _ _ _ => not_not.mp h0, hfirst, hsecond, fun _ => rfl⟩
  -- the slot that is read is emptied
  | foldXchg i =>
    obtain rfl : _ = t := by simpa [Load.nextTimer, ht] using h
    obtain rfl := hxchg i ht
    refine ⟨hidx, hidx', ?_, fun _ _ _ => Function.update_self .., ?_, ?_, ?_⟩
    · -- the exchange is over
      intro i' hi'
      simp only at hi'
      split at hi' <;> cases hi'
    · intro hk
      by_cases hb : b = calcLoadReadIdx s
      · simp [hb]
      · simpa [Function.update_of_ne hb] using hfirst hk
    · intro hk
      by_cases hb : (!b) = calcLoadReadIdx s
      · simp [hb]
      · simpa [Function.update_of_ne hb] using hsecond hk
    · intro hk
      simp [hidle (by simpa using hk), TimerPc.delta]
  | flip =>
    obtain rfl : _ = t := by simpa [Load.nextTimer, ht] using h
    -- the flip leaves an empty slot behind: the first flip one slot, the second the other
    have h0 : s.calcLoadIdle (calcLoadReadIdx s) = 0 :=
      hread (by simp [ht]) (by simp [ht]) (by simp [ht])
    have hflip : (s.calcLoadIdx + 1).getLsbD 0 = !calcLoadReadIdx s := lastBit_succ s.calcLoadIdx
    refine ⟨by simp, ?_, by simp, by simp, ?_, ?_, fun _ => rfl⟩
    · intro hk
      simp only [if_pos] at hk
      change (s.calcLoadIdx + 1).getLsbD 0 = _
      rw [hflip, hidx (by omega)]
    · intro _
      rcases Nat.eq_zero_or_pos k with rfl | hk
      · rw [← hidx rfl]
        exact h0
      · exact hfirst hk
    · intro hk
      simp only [if_pos] at hk
      rcases Nat.eq_or_lt_of_le (show 1 ≤ k by omega) with hk1 | hk1
      · rw [← hidx' hk1.symm]
        exact h0
      · exact hsecond hk1
  | nohz =>
    have hr := hread (by simp [ht]) (by simp [ht]) (by simp [ht])
    simp only [Load.nextTimer, ht] at h
    split at h <;> obtain rfl := Option.some.inj h
    · exact ⟨hidx, hidx', by simp, fun _ _ _ => hr, hfirst, hsecond, fun _ => rfl⟩
    · exact ⟨hidx, hidx', by simp, fun _ _ _ => hr, hfirst, hsecond, fun _ => rfl⟩
  | _ =>
    have hr := hread (by simp [ht]) (by simp [ht]) (by simp [ht])
    obtain rfl : _ = t := by simpa [Load.nextTimer, ht] using h
    exact ⟨hidx, hidx', by simp, fun _ _ _ => hr, hfirst, hsecond, fun _ => rfl⟩

omit [Fintype Cpu] in
theorem Drained.step {hz : BitVec 32} {r : StepRec (Sys Cpu) (Op Cpu)} {b : Bool} {k : Nat}
    (hd : Drained b k r.pre) (h : step hz r.pre r.op = some r.post)
    (hno : addsIdle r.pre r.op = false) :
    Drained b (k + flips r) r.post := by
  obtain ⟨ticks, hop, hout, hpost⟩ | ⟨hop, hnext⟩ | ⟨-, hop, hsame, hidle⟩ := step_cases h
  · -- a timer interrupt begins
    have hk : flips r = 0 := by simp [flips, hop]
    obtain ⟨hidx, hidx', -, -, hfirst, hsecond, -⟩ := hd
    rw [hk, hpost]
    refine ⟨hidx, hidx', ?_, ?_, hfirst, hsecond, fun _ => ?_⟩
    · intro i hi
      simp only at hi
      split at hi <;> cases hi
    · intro h₁ h₂
      simp only at h₁ h₂
      split at h₁
      · exact absurd rfl h₁
      · rename_i hb
        exact absurd (if_neg hb) h₂
    · dsimp only
      split <;> rfl
  · -- it goes on
    have hk : flips r = if r.pre.timer = .flip then 1 else 0 := by simp [flips, hop]
    rw [hk]
    exact hd.nextTimer hnext
  · -- a processor's own step, which adds nothing to the slots
    have hk : flips r = 0 := by simp [flips, hop]
    obtain ⟨hidx, hidx', hxchg, hread, hfirst, hsecond, hdelta⟩ := hd
    have hri : calcLoadReadIdx r.post = calcLoadReadIdx r.pre := by
      rw [calcLoadReadIdx, hsame.idx, calcLoadReadIdx]
    rw [hk]
    refine ⟨?_, ?_, ?_, ?_, ?_, ?_, ?_⟩ <;>
      simp only [hri, hsame.timer, hidle hno, Nat.add_zero] <;>
      assumption

/-- **No change is left behind.** From any point at which `calc_global_load` is not running: once it
has averaged two more times, with no processor adding to the counters for idle ones meanwhile, both
counters are empty, nothing is on its way out of them, and `calc_load_tasks` holds all that the
processors have added. -/
theorem load_deltas_arrive (hz j : BitVec 32) (s u : Sys Cpu)
    (tr : List (StepRec (Sys Cpu) (Op Cpu)))
    (hs : Reachable (step hz) (boot hz j) s) (hout : s.timer = .out) (hrun : Steps (step hz) s tr u)
    (hno : ∀ r ∈ tr, addsIdle r.pre r.op = false) (hflips : 2 ≤ (tr.map flips).sum) :
    (∀ i, u.calcLoadIdle i = 0) ∧ u.timer.delta = 0 ∧
      u.calcLoadTasks = ∑ c, ((u.rq c).calcLoadActive - (u.rq c).pc.delta) := by
  have hd : Drained (calcLoadReadIdx s) (tr.map flips).sum u := by
    refine hrun.recorded (P := fun tr u => Drained (calcLoadReadIdx s) (tr.map flips).sum u) ?_ ?_
    · intro before r hr hstep hd
      simpa using hd.step hstep (hno r hr)
    · exact ⟨by simp, by simp, by simp [hout], by simp [hout], by simp, by simp, by simp⟩
  have hidle := hd.idle hflips
  have hdelta := hd.delta hflips
  have hu := reachable_held (hs.trans ⟨tr, hrun⟩)
  exact ⟨hidle, hdelta, by simpa [Sys.held, Sys.added, Rq.added, hidle, hdelta] using hu⟩

/-- Processor 1 stops its tick with two tasks less than it had counted, and the next two updates
run. -/
def idleOps : List (Op (Fin 2)) :=
  [.count 0 3 0, .count 1 2 0, .timer 501, .accountActive 0, .next 0, .next 0, .accountActive 1,
    .next 1, .next 1, .count 1 0 0, .enterIdle 1, .next 1, .next 1, .next 1, .next 1]

def twoUpdates : List (Op (Fin 2)) :=
  .timer 10 :: List.replicate 5 .timerNext ++ .timer 501 :: List.replicate 7 .timerNext

theorem load_deltas_arrive_two : ∃ u : Sys (Fin 2), u.calcLoadTasks = 3 ∧
    (∀ i, u.calcLoadIdle i = 0) ∧ u.timer.delta = 0 ∧
    u.calcLoadTasks = ∑ c, ((u.rq c).calcLoadActive - (u.rq c).pc.delta) := by
  have hrun : (run (step 100) (boot 100 0) idleOps).any (fun s =>
      decide (s.timer = .out ∧ s.calcLoadIdle true = -2) &&
      (run (step 100) s twoUpdates).any (fun u => decide (u.calcLoadTasks = 3)) &&
      (trace (step 100) s twoUpdates).all (fun r => !addsIdle r.pre r.op) &&
      decide (2 ≤ ((trace (step 100) s twoUpdates).map flips).sum)) = true := by
    decide +kernel
  obtain ⟨s, hs, hprop⟩ := (Option.any_eq_true _ _).mp hrun
  simp only [Bool.and_eq_true, List.all_eq_true, Bool.not_eq_true'] at hprop
  obtain ⟨⟨⟨hout, hend⟩, hno⟩, hflips⟩ := hprop
  obtain ⟨u, hu, htasks⟩ := (Option.any_eq_true _ _).mp hend
  exact ⟨u, of_decide_eq_true htasks, load_deltas_arrive 100 0 s u _ (run_reachable hs)
    (of_decide_eq_true hout).1 (run_steps hu) hno (of_decide_eq_true hflips)⟩

end

end LinuxKernel.Load

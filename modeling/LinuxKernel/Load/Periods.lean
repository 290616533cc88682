import LinuxKernel.Load.Global

/-!
# The load average: periods

`calc_global_load` is to average once in every `LOAD_FREQ` ticks. It is called when there is a tick,
and a machine that is idle has none for a while, so `calc_global_nohz` makes up for the periods that
were missed. Time is `jiffies`, which wraps around.

* `decays`, `step_avenrun` — the decays a step makes, and that they are all that changes the
  averages.
* `timeBefore_timeAt`  — `time_before` on times that are not half the range apart.
* `Paced`              — where time, the next update and the decays made so far are, at each point
  of a call.
* `load_cycles_exact`  — the averages have been decayed by every period that has passed, once,
  whatever the pattern of ticks.
* `avenrun_stays`      — the averages stay within the counts that were sampled.
-/

namespace LinuxKernel.Load

open LinuxKernel.Lib

variable {Cpu : Type} [DecidableEq Cpu]

/-! ## Decays -/

/-- A decay of the averages: over one period (`calc_load`), or over several at once
(`calc_load_n`). -/
inductive Decay
  | single (active : BitVec 32)
  | bulk (active n : BitVec 32)
  deriving DecidableEq, Repr

namespace Decay

/-- The number of periods it is for. -/
def periods : Decay → Nat
  | .single _ => 1
  | .bulk _ n => n.toNat

/-- The count it moves the averages towards. -/
def active : Decay → BitVec 32
  | .single active | .bulk active _ => active

/-- What it makes of the averages. -/
def apply (v : Avenrun) : Decay → Avenrun
  | .single active => v.step active
  | .bulk active n => v.catchUp active n

end Decay

/-- The decays a step makes: one at most. -/
def decays (r : StepRec (Sys Cpu) (Op Cpu)) : List Decay :=
  match r.op, r.pre.timer with
  | .timerNext, .decay active => [.single active]
  | .timerNext, .catchUp active n => [.bulk active n]
  | _, _ => []

/-- Whether a step reads `calc_load_tasks` to average it. -/
def samples (r : StepRec (Sys Cpu) (Op Cpu)) : Bool :=
  r.op = .timerNext && (r.pre.timer = .average || r.pre.timer = .nohz)

/-- The scaled count that has been read and not used yet. -/
def TimerPc.sample : TimerPc → Option (BitVec 32)
  | .decay active | .catchUp active _ => some active
  | _ => none

section

variable {hz : BitVec 32} {r : StepRec (Sys Cpu) (Op Cpu)}

/-- The averages change by the decays of the step, and by nothing else. -/
theorem step_avenrun (h : step hz r.pre r.op = some r.post) :
    r.post.avenrun = (decays r).foldl Decay.apply r.pre.avenrun := by
  obtain ⟨s, op, t⟩ := r
  simp only at h ⊢
  obtain ⟨ticks, rfl, -, rfl⟩ | ⟨rfl, hnext⟩ | ⟨-, hop, hsame, -⟩ := step_cases h
  · rfl
  · cases ht : s.timer with
    | out => simp [nextTimer, ht] at hnext
    | foldRead | nohz =>
      simp only [nextTimer, ht] at hnext
      split at hnext <;> obtain rfl := Option.some.inj hnext <;> simp [decays, ht]
    | _ =>
      obtain rfl : _ = t := by simpa [nextTimer, ht] using hnext
      simp [decays, ht, Decay.apply]
  · have hnone : decays ⟨s, op, t⟩ = [] := by
      cases op with
      | timerNext => exact absurd rfl hop
      | _ => rfl
    rw [hsame.avenrun, hnone]
    rfl

/-- A count in hand was read in this step, or was in hand before. -/
theorem step_sample (h : step hz r.pre r.op = some r.post) {active : BitVec 32}
    (ha : r.post.timer.sample = some active) :
    (samples r ∧ active = fixedActive r.pre.calcLoadTasks) ∨ r.pre.timer.sample = some active := by
  obtain ⟨s, op, t⟩ := r
  simp only at h ha ⊢
  obtain ⟨ticks, rfl, -, rfl⟩ | ⟨rfl, hnext⟩ | ⟨-, -, hsame, -⟩ := step_cases h
  · dsimp only at ha
    split at ha <;> cases ha
  · cases ht : s.timer with
    | out => simp [nextTimer, ht] at hnext
    | average =>
      obtain rfl : _ = t := by simpa [nextTimer, ht] using hnext
      exact .inl ⟨by simp [samples, ht], (Option.some.inj ha).symm⟩
    | nohz =>
      simp only [nextTimer, ht] at hnext
      split at hnext <;> obtain rfl := Option.some.inj hnext
      · exact .inl ⟨by simp [samples, ht], (Option.some.inj ha).symm⟩
      · cases ha
    | foldRead =>
      simp only [nextTimer, ht] at hnext
      split at hnext <;> obtain rfl := Option.some.inj hnext <;> cases ha
    | foldXchg idx =>
      obtain rfl : _ = t := by simpa [nextTimer, ht] using hnext
      dsimp only at ha
      split at ha <;> cases ha
    | _ =>
      obtain rfl : _ = t := by simpa [nextTimer, ht] using hnext
      cases ha
  · exact .inr (hsame.timer ▸ ha)

omit [DecidableEq Cpu] in
/-- A decay uses the count in hand. -/
theorem sample_of_mem_decays {d : Decay} (hd : d ∈ decays r) :
    r.pre.timer.sample = some d.active := by
  unfold decays at hd
  split at hd
  · next ht =>
    rw [ht, List.mem_singleton.mp hd]
    rfl
  · next ht =>
    rw [ht, List.mem_singleton.mp hd]
    rfl
  · cases hd

end

section

variable {hz : BitVec 32} {s u : Sys Cpu} {tr : List (StepRec (Sys Cpu) (Op Cpu))}

/-- Over a run the averages are what all its decays make of them, in order. -/
theorem avenrun_eq_decays (hrun : Steps (step hz) s tr u) :
    u.avenrun = (tr.flatMap decays).foldl Decay.apply s.avenrun := by
  refine hrun.recorded (P := fun tr u => u.avenrun =
    (tr.flatMap decays).foldl Decay.apply s.avenrun)
    ?_ rfl
  intro before r _ hstep hpre
  rw [step_avenrun hstep, hpre, List.flatMap_append, List.foldl_append, List.flatMap_singleton]

/-- Every decay of a run moves the averages towards a count that a step of the run has read. -/
theorem decays_sampled (hrun : Steps (step hz) s tr u) (hs : s.timer.sample = none) :
    ∀ d ∈ tr.flatMap decays, ∃ r ∈ tr, samples r ∧ d.active = fixedActive r.pre.calcLoadTasks := by
  have hall := hrun.recorded (P := fun tr u =>
    (∀ active, u.timer.sample = some active →
      ∃ r ∈ tr, samples r ∧ active = fixedActive r.pre.calcLoadTasks) ∧
    ∀ d ∈ tr.flatMap decays, ∃ r ∈ tr, samples r ∧ d.active = fixedActive r.pre.calcLoadTasks) ?_
    ⟨by simp [hs], by simp⟩
  · exact hall.2
  · intro before r _ hstep hpre
    have hmono : ∀ {active : BitVec 32},
        (∃ r ∈ before, samples r ∧ active = fixedActive r.pre.calcLoadTasks) →
        ∃ r' ∈ before ++ [r], samples r' ∧ active = fixedActive r'.pre.calcLoadTasks :=
      Exists.imp fun _ => And.imp_left (List.mem_append_left [r])
    refine ⟨fun active ha => ?_, fun d hd => ?_⟩
    · rcases step_sample hstep ha with ⟨hread, heq⟩ | hold
      · exact ⟨r, List.mem_append_right _ (List.mem_singleton_self r), hread, heq⟩
      · exact hmono (hpre.1 active hold)
    · rw [List.flatMap_append, List.flatMap_singleton, List.mem_append] at hd
      rcases hd with hd | hd
      · exact hmono (hpre.2 d hd)
      · exact hmono (hpre.1 _ (sample_of_mem_decays hd))

end

/-! ## Times -/

/-- `n` ticks after `j`. -/
def timeAt (j : BitVec 32) (n : Nat) : BitVec 32 := j + BitVec.ofNat 32 n

theorem timeAt_add (j : BitVec 32) (a b : Nat) :
    timeAt j a + BitVec.ofNat 32 b = timeAt j (a + b) := by
  rw [timeAt, timeAt, BitVec.ofNat_add, add_assoc]

theorem timeAt_sub_toInt (j : BitVec 32) {a b : Nat} (hlo : b ≤ a + 2 ^ 31) (hhi : a < b + 2 ^ 31) :
    (timeAt j a - timeAt j b).toInt = (a : Int) - b := by
  have h : timeAt j a - timeAt j b = BitVec.ofNat 32 a - BitVec.ofNat 32 b := by
    rw [timeAt, timeAt, add_sub_add_left_eq_sub]
  rw [h, BitVec.toInt_eq_toNat_cond, BitVec.toNat_sub, BitVec.toNat_ofNat, BitVec.toNat_ofNat]
  split <;> omega

theorem timeBefore_timeAt (j : BitVec 32) {a b : Nat} (hlo : b ≤ a + 2 ^ 31)
    (hhi : a < b + 2 ^ 31) :
    timeBefore (timeAt j a) (timeAt j b) = decide (a < b) := by
  rw [timeBefore, timeAt_sub_toInt j hlo hhi]
  exact decide_eq_decide.mpr (by omega)

/-- The signed division of the kernel on numbers that are not negative. -/
theorem ofNat_sdiv {a b : Nat} (ha : a < 2 ^ 31) (hb : b < 2 ^ 31) :
    (BitVec.ofNat 32 a).sdiv (BitVec.ofNat 32 b) = BitVec.ofNat 32 (a / b) := by
  have hmsb : ∀ {n : Nat}, n < 2 ^ 31 → (BitVec.ofNat 32 n).msb = false := by
    intro n hn
    rw [BitVec.msb_eq_decide, BitVec.toNat_ofNat]
    exact decide_eq_false (by omega)
  have hq : a / b ≤ a := Nat.div_le_self a b
  rw [BitVec.sdiv_eq, hmsb ha, hmsb hb]
  refine BitVec.eq_of_toNat_eq ?_
  change (BitVec.ofNat 32 a / BitVec.ofNat 32 b).toNat = _
  rw [BitVec.toNat_udiv, BitVec.toNat_ofNat, BitVec.toNat_ofNat, BitVec.toNat_ofNat,
    Nat.mod_eq_of_lt (show a < 2 ^ 32 by omega), Nat.mod_eq_of_lt (show b < 2 ^ 32 by omega),
    Nat.mod_eq_of_lt (show a / b < 2 ^ 32 by omega)]

/-! ## The pace -/

def ticksOf : Op Cpu → Nat
  | .timer ticks => ticks.toNat
  | _ => 0

/-- The periods that the decays of a step are for. -/
def cycles (r : StepRec (Sys Cpu) (Op Cpu)) : Nat := ((decays r).map Decay.periods).sum

/-- How far the decays, of `c` periods so far, are behind the time `T`, by the point of the call. -/
def Phase (f T c : Nat) : TimerPc → Prop
  | .out | .flip => f * c ≤ T - 10 ∧ T < f * (1 + c) + 10
  | .nohz => f * c + 10 ≤ T ∧ T < f * c + 10 + 2 ^ 31
  | .catchUp _ n => f * (c + n.toNat) ≤ T - 10 ∧ T < f * (1 + (c + n.toNat)) + 10
  | _ => f * (1 + c) + 10 ≤ T ∧ T < f * (1 + c) + 10 + 2 ^ 31

/-- Where the clock and the next update are `T` ticks after `j`, with decays of `c` periods made. -/
structure Paced (f : Nat) (j : BitVec 32) (T c : Nat) (s : Sys Cpu) : Prop where
  jiffies : s.jiffies = timeAt j T
  update  : s.calcLoadUpdate = timeAt j (f * (1 + c))
  phase   : Phase f T c s.timer

section

variable {hz j : BitVec 32} {f T c : Nat} {s t : Sys Cpu}

theorem loadFreq_eq (hf : f = 5 * hz.toNat + 1) : loadFreq hz = BitVec.ofNat 32 f := by
  rw [loadFreq, hf, BitVec.ofNat_add, BitVec.ofNat_mul, BitVec.ofNat_toNat, BitVec.setWidth_eq]
  rfl

omit [DecidableEq Cpu] in
/-- The window of the next update is compared with the time. -/
theorem Paced.window (hp : Paced f j T c s) (hlo : f * (1 + c) + 10 ≤ T + 2 ^ 31)
    (hhi : T < f * (1 + c) + 10 + 2 ^ 31) :
    timeBefore s.jiffies (s.calcLoadUpdate + 10) = decide (T < f * (1 + c) + 10) := by
  have hupd : s.calcLoadUpdate + 10 = timeAt j (f * (1 + c) + 10) := by
    rw [hp.update]
    exact timeAt_add j _ 10
  rw [hp.jiffies, hupd, timeBefore_timeAt j hlo hhi]

omit [DecidableEq Cpu] in
/-- The periods that are behind: one, and those that have passed since the window of the next. -/
theorem Paced.missed (hf : f = 5 * hz.toNat + 1) (hf' : f < 2 ^ 31) (hp : Paced f j T c s)
    (hle : f * (1 + c) + 10 ≤ T) (hlt : T < f * (1 + c) + 10 + 2 ^ 31) :
    missedCycles hz s = BitVec.ofNat 32 (1 + (T - (f * (1 + c) + 10)) / f) := by
  have hdelta : s.jiffies - s.calcLoadUpdate - 10 = BitVec.ofNat 32 (T - (f * (1 + c) + 10)) := by
    have h10 : s.jiffies - s.calcLoadUpdate - 10 = timeAt j T - timeAt j (f * (1 + c) + 10) := by
      rw [hp.jiffies, hp.update, ← timeAt_add j (f * (1 + c)) 10, sub_sub]
      rfl
    have hT : timeAt j T = timeAt j (f * (1 + c) + 10) +
        BitVec.ofNat 32 (T - (f * (1 + c) + 10)) := by
      rw [timeAt_add, Nat.add_sub_cancel' hle]
    rw [h10, hT, add_sub_cancel_left]
  rw [missedCycles, hdelta, loadFreq_eq hf, ofNat_sdiv (by omega) hf', BitVec.ofNat_add]
  rfl

omit [DecidableEq Cpu] in
/-- The time stays, and the next update moves on by `n` periods as `n` decays are made. -/
theorem Paced.move (hp : Paced f j T c s) {n : Nat} (hj : t.jiffies = s.jiffies)
    (hu : t.calcLoadUpdate = s.calcLoadUpdate + BitVec.ofNat 32 (f * n))
    (hphase : Phase f T (c + n) t.timer) : Paced f j T (c + n) t := by
  refine ⟨hj.trans hp.jiffies, ?_, hphase⟩
  rw [hu, hp.update, timeAt_add, ← Nat.mul_add, Nat.add_assoc]

omit [DecidableEq Cpu] in
/-- **One step of `calc_global_load`** keeps the pace. -/
theorem Paced.nextTimer (hf : f = 5 * hz.toNat + 1) (hf' : f + 10 ≤ 2 ^ 31) (hp : Paced f j T c s)
    (h : nextTimer hz s = some t) : Paced f j T (c + cycles ⟨s, .timerNext, t⟩) t := by
  have hmul : f * (1 + c) = f + f * c := by rw [Nat.mul_add, Nat.mul_one]
  have hphase := hp.phase
  -- a point of the call at which no decay is made
  have hquiet : cycles ⟨s, .timerNext, t⟩ = 0 → t.jiffies = s.jiffies →
      t.calcLoadUpdate = s.calcLoadUpdate → Phase f T c t.timer →
      Paced f j T (c + cycles ⟨s, .timerNext, t⟩) t :=
    fun hc hj hu hph => hc ▸ hp.move hj (by simp [hu]) hph
  cases ht : s.timer with
  | out => simp [Load.nextTimer, ht] at h
  | decay active =>
    have hc : cycles ⟨s, .timerNext, t⟩ = 1 := by simp [cycles, decays, ht, Decay.periods]
    rw [hc]
    simp only [ht, Phase] at hphase
    obtain rfl : _ = t := by simpa [Load.nextTimer, ht] using h
    refine hp.move rfl (by rw [Nat.mul_one, ← loadFreq_eq hf]) ?_
    simp only [Phase, Nat.mul_add, Nat.mul_one]
    omega
  | catchUp active n =>
    have hc : cycles ⟨s, .timerNext, t⟩ = n.toNat := by simp [cycles, decays, ht, Decay.periods]
    rw [hc]
    simp only [ht, Phase] at hphase
    obtain rfl : _ = t := by simpa [Load.nextTimer, ht] using h
    refine hp.move rfl ?_ hphase
    rw [BitVec.ofNat_mul, BitVec.ofNat_toNat, BitVec.setWidth_eq, ← loadFreq_eq hf,
      BitVec.mul_comm n]
  | nohz =>
    have hc : cycles ⟨s, .timerNext, t⟩ = 0 := by simp [cycles, decays, ht]
    simp only [ht, Phase] at hphase
    have hcmp := hp.window (by omega) (by omega)
    simp only [Load.nextTimer, ht] at h
    split at h <;> rename_i hb <;> obtain rfl := Option.some.inj h
    · -- behind: the missed periods will bring the next update past the time
      have hle : f * (1 + c) + 10 ≤ T := by
        rw [show timeBefore s.jiffies (s.calcLoadUpdate + 10) = false by simpa using hb] at hcmp
        have := of_decide_eq_false hcmp.symm
        omega
      refine hquiet hc rfl rfl ?_
      have hmissed := hp.missed hf (by omega) hle (by omega)
      have hq : f * ((T - (f * (1 + c) + 10)) / f) ≤ T - (f * (1 + c) + 10) := Nat.mul_div_le _ _
      have hq' := Nat.lt_mul_div_succ (T - (f * (1 + c) + 10)) (show 0 < f by omega)
      have hqs : (T - (f * (1 + c) + 10)) / f ≤ T - (f * (1 + c) + 10) := Nat.div_le_self _ _
      generalize (T - (f * (1 + c) + 10)) / f = q at hmissed hq hq' hqs
      have hnat : (missedCycles hz s).toNat = 1 + q := by
        rw [hmissed, BitVec.toNat_ofNat]
        exact Nat.mod_eq_of_lt (by omega)
      simp only [Nat.mul_add, Nat.mul_one] at hq'
      simp only [Phase, hnat, Nat.mul_add, Nat.mul_one]
      omega
    · have hlt : T < f * (1 + c) + 10 := by
        rw [show timeBefore s.jiffies (s.calcLoadUpdate + 10) = true by simpa using hb] at hcmp
        exact of_decide_eq_true hcmp.symm
      exact hquiet hc rfl rfl ⟨by omega, hlt⟩
  | foldRead =>
    have hc : cycles ⟨s, .timerNext, t⟩ = 0 := by simp [cycles, decays, ht]
    simp only [ht, Phase] at hphase
    simp only [Load.nextTimer, ht] at h
    split at h <;> obtain rfl := Option.some.inj h <;> exact hquiet hc rfl rfl hphase
  | foldXchg i =>
    have hc : cycles ⟨s, .timerNext, t⟩ = 0 := by simp [cycles, decays, ht]
    simp only [ht, Phase] at hphase
    simp only [Load.nextTimer, ht] at h
    obtain rfl := Option.some.inj h
    refine hquiet hc rfl rfl ?_
    simp only
    split <;> exact hphase
  | _ =>
    have hc : cycles ⟨s, .timerNext, t⟩ = 0 := by simp [cycles, decays, ht]
    simp only [ht, Phase] at hphase
    obtain rfl : _ = t := by simpa [Load.nextTimer, ht] using h
    exact hquiet hc rfl rfl hphase

/-- **One step** keeps the pace. -/
theorem Paced.step (hf : f = 5 * hz.toNat + 1) (hf' : f + 10 ≤ 2 ^ 31)
    {r : StepRec (Sys Cpu) (Op Cpu)} (hp : Paced f j T c r.pre)
    (h : step hz r.pre r.op = some r.post) (hticks : ticksOf r.op ≤ 2 ^ 31) :
    Paced f j (T + ticksOf r.op) (c + cycles r) r.post := by
  obtain ⟨s, op, t⟩ := r
  simp only at hp h hticks ⊢
  have hmul : f * (1 + c) = f + f * c := by rw [Nat.mul_add, Nat.mul_one]
  obtain ⟨ticks, rfl, hout, rfl⟩ | ⟨rfl, hnext⟩ | ⟨hop, hop', hsame, -⟩ := step_cases h
  · have hphase := hp.phase
    simp only [hout, Phase] at hphase
    simp only [ticksOf] at hticks
    have hj : s.jiffies + ticks = timeAt j (T + ticks.toNat) := by
      rw [hp.jiffies, ← timeAt_add, BitVec.ofNat_toNat, BitVec.setWidth_eq]
    have hupd : s.calcLoadUpdate + 10 = timeAt j (f * (1 + c) + 10) := by
      rw [hp.update]
      exact timeAt_add j _ 10
    have hcmp := timeBefore_timeAt j (a := T + ticks.toNat) (b := f * (1 + c) + 10) (by omega)
      (by omega)
    refine ⟨hj, by simpa [cycles, decays] using hp.update, ?_⟩
    simp only [hj, hupd, hcmp, cycles, decays, ticksOf, decide_eq_true_eq,
      List.map_nil, List.sum_nil, Nat.add_zero]
    split
    · exact ⟨by omega, by omega⟩
    · exact ⟨by omega, by omega⟩
  · exact hp.nextTimer hf hf' hnext
  · have hT : ticksOf op = 0 := by
      cases op with
      | timer ticks => exact absurd rfl (hop ticks)
      | _ => rfl
    have hc : cycles ⟨s, op, t⟩ = 0 := by
      cases op with
      | timerNext => exact absurd rfl hop'
      | _ => rfl
    rw [hT, hc]
    exact ⟨hsame.jiffies.trans hp.jiffies, hsame.update.trans hp.update, hsame.timer ▸ hp.phase⟩

end

/-- **A decay for every period.** Over any run from the start, at any point at which
`calc_global_load` is not running, the averages are what a sequence of decays makes of zeros; each
decay is towards a count that was read from `calc_load_tasks`, and together they are for exactly the
periods that have passed since the first window opened: none is missed over a sleep without ticks,
and none is counted twice. -/
theorem load_cycles_exact (hz j : BitVec 32) (hhz : 5 * hz.toNat + 11 ≤ 2 ^ 31) (s : Sys Cpu)
    (tr : List (StepRec (Sys Cpu) (Op Cpu))) (hrun : Steps (step hz) (boot hz j) tr s)
    (hticks : ∀ r ∈ tr, ticksOf r.op ≤ 2 ^ 31) (hout : s.timer = .out) :
    s.avenrun = (tr.flatMap decays).foldl Decay.apply ⟨0, 0, 0⟩ ∧
      (∀ d ∈ tr.flatMap decays, ∃ r ∈ tr, samples r ∧ d.active = fixedActive r.pre.calcLoadTasks) ∧
      ((tr.flatMap decays).map Decay.periods).sum
        = ((tr.map fun r => ticksOf r.op).sum - 10) / (5 * hz.toNat + 1) := by
  refine ⟨avenrun_eq_decays hrun, decays_sampled hrun rfl, ?_⟩
  have hp : Paced (5 * hz.toNat + 1) j (tr.map fun r => ticksOf r.op).sum
      ((tr.flatMap decays).map Decay.periods).sum s := by
    refine hrun.recorded (P := fun tr s => Paced (5 * hz.toNat + 1) j
      (tr.map fun r => ticksOf r.op).sum ((tr.flatMap decays).map Decay.periods).sum s) ?_ ?_
    · intro before r hr hstep hp
      simpa [cycles] using hp.step rfl (by omega) hstep (hticks r hr)
    · exact ⟨by simp [boot, timeAt], by simp [boot, timeAt, loadFreq_eq rfl], by simp [boot, Phase]⟩
  obtain ⟨hle, hlt⟩ : _ ∧ _ := by simpa only [hout, Phase] using hp.phase
  have hmul := Nat.mul_add (5 * hz.toNat + 1) 1 ((tr.flatMap decays).map Decay.periods).sum
  rw [eq_comm, Nat.div_eq_iff (by omega)]
  rw [Nat.mul_comm] at hle
  refine ⟨hle, ?_⟩
  rw [Nat.mul_comm ((tr.flatMap decays).map Decay.periods).sum]
  omega

/-- Five seconds and a half, then a minute without a tick, and a tick more. -/
def sleepOps : List (Op (Fin 1)) :=
  .timer 550 :: List.replicate 5 .timerNext ++
    .timer 6000 :: List.replicate 6 .timerNext ++ [.timer 1]

theorem load_cycles_exact_sleep :
    let tr := trace (step 100) (boot 100 0) sleepOps
    ∃ s : Sys (Fin 1), (run (step 100) (boot 100 0) sleepOps).isSome ∧ s.timer = .out ∧
      tr.flatMap decays = [.single 0, .single 0, .bulk 0 11] ∧
      s.avenrun = (tr.flatMap decays).foldl Decay.apply ⟨0, 0, 0⟩ ∧
      ((tr.flatMap decays).map Decay.periods).sum
        = ((tr.map fun r => ticksOf r.op).sum - 10) / (5 * (100 : BitVec 32).toNat + 1) := by
  have hrun : (run (step 100) (boot 100 0) sleepOps).any (fun s => decide (s.timer = .out)) =
      true := by
    decide +kernel
  obtain ⟨s, hs, hout⟩ := (Option.any_eq_true _ _).mp hrun
  have hticks : ∀ r ∈ trace (step 100) (boot 100 0) sleepOps, ticksOf r.op ≤ 2 ^ 31 := by
    have hall : (trace (step 100) (boot 100 0) sleepOps).all
        (fun r => decide (ticksOf r.op ≤ 2 ^ 31)) = true := by
      decide +kernel
    exact fun r hr => of_decide_eq_true (List.all_eq_true.mp hall r hr)
  obtain ⟨heq, -, hperiods⟩ := load_cycles_exact 100 0 (by decide) s _ (run_steps hs) hticks
    (of_decide_eq_true hout)
  exact ⟨s, by rw [hs]; rfl, of_decide_eq_true hout, by decide +kernel, heq, hperiods⟩

/-! ## The averages -/

/-- All three averages lie between `m` and `M`. -/
structure Avenrun.Within (m M : Nat) (v : Avenrun) : Prop where
  one     : m ≤ v.one.toNat ∧ v.one.toNat ≤ M
  five    : m ≤ v.five.toNat ∧ v.five.toNat ≤ M
  fifteen : m ≤ v.fifteen.toNat ∧ v.fifteen.toNat ≤ M

section

variable {m M : Nat} {v : Avenrun} {active : BitVec 32}

theorem calcLoad_within {load exp : BitVec 32} (hM : M ≤ maxLoad) (he : exp.toNat ≤ 2048)
    (hl : m ≤ load.toNat ∧ load.toNat ≤ M) (ha : m ≤ active.toNat ∧ active.toNat ≤ M) :
    m ≤ (calcLoad load exp active).toNat ∧ (calcLoad load exp active).toNat ≤ M :=
  ⟨le_calcLoad (hl.2.trans hM) (ha.2.trans hM) he hl.1 ha.1, calcLoad_le hM hl.2 ha.2 he⟩

theorem Avenrun.Within.step (hv : v.Within m M) (hM : M ≤ maxLoad)
    (ha : m ≤ active.toNat ∧ active.toNat ≤ M) : (v.step active).Within m M :=
  ⟨calcLoad_within hM (by decide) hv.one ha, calcLoad_within hM (by decide) hv.five ha,
    calcLoad_within hM (by decide) hv.fifteen ha⟩

theorem Avenrun.Within.catchUp (hv : v.Within m M) (hM : M ≤ maxLoad)
    (ha : m ≤ active.toNat ∧ active.toNat ≤ M) (n : BitVec 32) : (v.catchUp active n).Within m M :=
  ⟨calcLoad_within hM (fixedPowerInt_close (by decide) n).1 hv.one ha,
    calcLoad_within hM (fixedPowerInt_close (by decide) n).1 hv.five ha,
    calcLoad_within hM (fixedPowerInt_close (by decide) n).1 hv.fifteen ha⟩

/-- A decay towards a count within the bounds keeps the averages there. -/
theorem Avenrun.Within.apply (hv : v.Within m M) (hM : M ≤ maxLoad) {d : Decay}
    (ha : m ≤ d.active.toNat ∧ d.active.toNat ≤ M) : (d.apply v).Within m M := by
  cases d with
  | single active => exact hv.step hM ha
  | bulk active n => exact hv.catchUp hM ha n

end

/-- **One step** keeps the averages, and the count in hand, within bounds that the count read in it
is within. -/
theorem Within.of_step {hz : BitVec 32} {m M : Nat} (hM : M ≤ maxLoad)
    {r : StepRec (Sys Cpu) (Op Cpu)} (h : step hz r.pre r.op = some r.post)
    (hsample : samples r → m ≤ (fixedActive r.pre.calcLoadTasks).toNat ∧
      (fixedActive r.pre.calcLoadTasks).toNat ≤ M)
    (hv : r.pre.avenrun.Within m M)
    (hhand : ∀ active, r.pre.timer.sample = some active → m ≤ active.toNat ∧ active.toNat ≤ M) :
    r.post.avenrun.Within m M ∧
      ∀ active, r.post.timer.sample = some active → m ≤ active.toNat ∧ active.toNat ≤ M := by
  refine ⟨?_, fun active ha => ?_⟩
  · rw [step_avenrun h]
    refine List.foldlRecOn (decays r) Decay.apply hv fun v hv d hd => ?_
    exact hv.apply hM (hhand _ (sample_of_mem_decays hd))
  · rcases step_sample h ha with ⟨hread, rfl⟩ | hold
    · exact hsample hread
    · exact hhand active hold

/-- **The averages stay within what was sampled.** If the active counts that the updates of a run
read stay between two bounds of at most 1023 tasks, and so do the averages at its start and the
count an update may have in hand there, the averages do all along it, single updates and bulk
updates alike. -/
theorem avenrun_stays (hz : BitVec 32) (m M : Nat) (hM : M ≤ maxLoad) (s u : Sys Cpu)
    (tr : List (StepRec (Sys Cpu) (Op Cpu))) (hrun : Steps (step hz) s tr u)
    (hsample : ∀ r ∈ tr, samples r → m ≤ (fixedActive r.pre.calcLoadTasks).toNat ∧
      (fixedActive r.pre.calcLoadTasks).toNat ≤ M)
    (hs : s.avenrun.Within m M)
    (hhand : ∀ active, s.timer.sample = some active → m ≤ active.toNat ∧ active.toNat ≤ M) :
    u.avenrun.Within m M ∧ ∀ r ∈ tr, r.post.avenrun.Within m M := by
  obtain ⟨hu, hall⟩ := hrun.invariant (P := fun s => s.avenrun.Within m M ∧
      ∀ active, s.timer.sample = some active → m ≤ active.toNat ∧ active.toNat ≤ M)
    (fun r hr h hv => Within.of_step hM h (hsample r hr) hv.1 hv.2) ⟨hs, hhand⟩
  exact ⟨hu.1, fun r hr => (hall r hr).2.1⟩

/-- Two tasks for five seconds, then a minute without a tick. -/
def busyOps : List (Op (Fin 1)) :=
  [.count 0 2 0, .timer 501, .accountActive 0, .next 0, .next 0, .timer 49] ++
    List.replicate 5 .timerNext ++ .timer 6000 :: List.replicate 6 .timerNext

theorem avenrun_stays_busy : ∃ u : Sys (Fin 1),
    (2000 ≤ u.avenrun.one.toNat ∧ u.avenrun.Within 0 4096) ∧
    ∀ r ∈ trace (step 100) (boot 100 0) busyOps, r.post.avenrun.Within 0 4096 := by
  have hrun : (run (step 100) (boot 100 0) busyOps).any
      (fun u => decide (2000 ≤ u.avenrun.one.toNat)) = true := by
    decide +kernel
  have hsample : (trace (step 100) (boot 100 0) busyOps).all (fun r => !samples r ||
      decide (0 ≤ (fixedActive r.pre.calcLoadTasks).toNat ∧
        (fixedActive r.pre.calcLoadTasks).toNat ≤ 4096)) = true := by
    decide +kernel
  obtain ⟨u, hu, hone⟩ := (Option.any_eq_true _ _).mp hrun
  obtain ⟨hend, hall⟩ := avenrun_stays 100 0 4096 (by decide) (boot 100 0) u _ (run_steps hu)
    (fun r hr hs => by simpa [hs] using List.all_eq_true.mp hsample r hr)
    ⟨by decide, by decide, by decide⟩ (by simp [boot, TimerPc.sample])
  exact ⟨u, ⟨of_decide_eq_true hone, hend⟩, hall⟩

end LinuxKernel.Load

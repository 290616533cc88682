import LinuxKernel.Lib.Mean
import Mathlib.Data.BitVec
import Mathlib.Data.Fin.VecNotation

/-!
# The load of a processor

`update_cpu_load` keeps five averages of the weight of a run queue, each slower than the one before,
and decays them for the ticks a tickless processor has missed (`decay_load_missed`).

* `cpu_load_bounded`  — over any calls the averages stay at or below the largest weight seen, and
  the table of factors is never read outside its bounds.
* `cpu_load_settles`  — with a constant weight all of them reach it exactly: the division rounds
  towards the new weight from both sides, so that an average does not stop short of it.
-/

namespace LinuxKernel.Load

open LinuxKernel.Lib

/-! ## The functions -/

/-- `CPU_LOAD_IDX_MAX` averages. -/
abbrev LoadIdx : Type := Fin 5

/-- `DEGRADE_SHIFT` -/
def degradeShift : Nat := 7

def degradeZeroTicks : LoadIdx → Nat := ![0, 8, 32, 64, 128]

/-- Rows of `DEGRADE_SHIFT + 1` columns; what the initialisers leave out is zero. -/
def degradeFactor : LoadIdx → List Nat :=
  ![[0, 0, 0, 0, 0, 0, 0, 0],
    [64, 32, 8, 0, 0, 0, 0, 0],
    [96, 72, 40, 12, 1, 0, 0, 0],
    [112, 98, 75, 43, 15, 1, 0, 0],
    [120, 112, 98, 76, 45, 16, 2, 0]]

/-- The loop of `decay_load_missed`, with a round for each bit of `missed`. `none` stands for a
column outside the table. -/
def decayLoop (idx : LoadIdx) : Nat → BitVec 32 → Nat → Nat → Option (BitVec 32)
  | 0, load, _, _ => some load
  | rounds + 1, load, missed, col =>
    if missed = 0 then some load
    else if missed % 2 = 1 then
      match (degradeFactor idx)[col]? with
      | none => none
      | some factor =>
        decayLoop idx rounds ((load * BitVec.ofNat 32 factor) >>> degradeShift)
        (missed / 2) (col + 1)
    else decayLoop idx rounds load (missed / 2) (col + 1)

def decayLoadMissed (load missedUpdates : BitVec 32) (idx : LoadIdx) : Option (BitVec 32) :=
  if missedUpdates = 0 then some load
  else if missedUpdates.toNat ≥ degradeZeroTicks idx then some 0
  else if idx = 1 then some (load >>> missedUpdates)
  else decayLoop idx 32 load missedUpdates.toNat 0

/-- The fields of a run queue that `update_cpu_load` writes. -/
structure Loads where
  nrLoadUpdates : BitVec 32
  lastLoadUpdateTick : BitVec 32
  cpuLoad : LoadIdx → BitVec 32

/-- One round of the loop of `update_cpu_load`, on the decayed load; `scale` is `1 << i`. -/
def average (i : LoadIdx) (oldLoad newLoad : BitVec 32) : BitVec 32 :=
  let scale := 1#32 <<< i.val
  let newLoad := if newLoad > oldLoad then newLoad + (scale - 1) else newLoad
  (oldLoad * (scale - 1) + newLoad) >>> i.val

/-- `update_cpu_load`, called at `jiffies` on a run queue of weight `thisLoad`. -/
def updateCpuLoad (thisLoad jiffies : BitVec 32) (q : Loads) : Loads :=
  let q := { q with nrLoadUpdates := q.nrLoadUpdates + 1 }
  if jiffies = q.lastLoadUpdateTick then q
  else
    let pendingUpdates := jiffies - q.lastLoadUpdateTick
    { q with
      lastLoadUpdateTick := jiffies
      cpuLoad := fun i =>
        if i = 0 then thisLoad
        else average i ((decayLoadMissed (q.cpuLoad i) (pendingUpdates - 1) i).getD 0) thisLoad }

/-! ## Decay -/

/-- The largest weight that is decayed and averaged without an overflow. -/
def maxWeight : Nat := 2 ^ 25 - 1

theorem degradeFactor_le (idx : LoadIdx) : ∀ factor ∈ degradeFactor idx, factor ≤ 128 := by
  revert idx
  decide

theorem degradeFactor_length (idx : LoadIdx) : (degradeFactor idx).length = degradeShift + 1 := by
  revert idx
  decide

theorem degradeZeroTicks_le (idx : LoadIdx) : degradeZeroTicks idx ≤ 2 ^ degradeShift := by
  revert idx
  decide

/-- A factor out of 128 makes no load larger. -/
theorem degrade_le {load : BitVec 32} {factor : Nat} (hl : load.toNat ≤ maxWeight)
    (hf : factor ≤ 128) :
    ((load * BitVec.ofNat 32 factor) >>> degradeShift).toNat ≤ load.toNat := by
  have h : load.toNat * factor ≤ load.toNat * 128 := Nat.mul_le_mul_left _ hf
  have hmax : maxWeight * 128 < 2 ^ 32 := by decide
  rw [BitVec.toNat_ushiftRight, BitVec.toNat_mul, BitVec.toNat_ofNat, Nat.shiftRight_eq_div_pow,
    Nat.mod_eq_of_lt (show factor < 2 ^ 32 by omega), Nat.mod_eq_of_lt (by omega), degradeShift]
  omega

/-- The loop stays inside the table, since what is left of `missed` times the column's weight is
below the number of ticks that the table is made for, and only lowers the load. -/
theorem decayLoop_le (idx : LoadIdx) {rounds missed col : Nat} {load : BitVec 32}
    (hl : load.toNat ≤ maxWeight) (hm : missed * 2 ^ col < 2 ^ degradeShift) :
    ∃ l, decayLoop idx rounds load missed col = some l ∧ l.toNat ≤ load.toNat := by
  induction rounds generalizing load missed col with
  | zero => exact ⟨load, rfl, le_rfl⟩
  | succ rounds ih =>
    have hhalf : missed / 2 * 2 ^ (col + 1) < 2 ^ degradeShift := by
      rw [pow_succ, Nat.mul_comm (2 ^ col) 2, ← Nat.mul_assoc]
      exact lt_of_le_of_lt (Nat.mul_le_mul_right _ (Nat.div_mul_le_self missed 2)) hm
    unfold decayLoop
    split
    · exact ⟨load, rfl, le_rfl⟩
    · rename_i hne
      split
      · have hcol : col < (degradeFactor idx).length := by
          rw [degradeFactor_length]
          have hpow : 2 ^ col ≤ missed * 2 ^ col :=
            Nat.le_mul_of_pos_left _ (Nat.pos_of_ne_zero hne)
          have := (Nat.pow_lt_pow_iff_right (by decide : 1 < 2)).mp (lt_of_le_of_lt hpow hm)
          omega
        rw [List.getElem?_eq_getElem hcol]
        have hle := degrade_le hl (degradeFactor_le idx _ (List.getElem_mem hcol))
        obtain ⟨l, hl', hle'⟩ := ih (hle.trans hl) hhalf
        exact ⟨l, hl', hle'.trans hle⟩
      · exact ih hl hhalf

theorem decayLoadMissed_le (load missed : BitVec 32) (idx : LoadIdx) (hl : load.toNat ≤ maxWeight) :
    ∃ l, decayLoadMissed load missed idx = some l ∧ l.toNat ≤ load.toNat := by
  unfold decayLoadMissed
  split
  · exact ⟨load, rfl, le_rfl⟩
  · split
    · exact ⟨0, rfl, Nat.zero_le _⟩
    · rename_i hlt
      split
      · refine ⟨_, rfl, ?_⟩
        rw [BitVec.ushiftRight_eq', BitVec.toNat_ushiftRight]
        exact Nat.shiftRight_le _ _
      · have := degradeZeroTicks_le idx
        exact decayLoop_le idx hl (by simpa using by omega)

/-! ## The averages -/

/-- The rounding of an average: up if the load rises, down otherwise. -/
def roundFor (i : LoadIdx) (oldLoad newLoad : Nat) : Nat :=
  if oldLoad < newLoad then 2 ^ i.val - 1 else 0

theorem average_toNat {i : LoadIdx} {oldLoad newLoad : BitVec 32} (ho : oldLoad.toNat ≤ maxWeight)
    (hn : newLoad.toNat ≤ maxWeight) :
    (average i oldLoad newLoad).toNat
      = mean (2 ^ i.val) (2 ^ i.val - 1)
      (roundFor i oldLoad.toNat newLoad.toNat) oldLoad.toNat newLoad.toNat := by
  have hscale : (1#32 <<< i.val - 1).toNat = 2 ^ i.val - 1 ∧ 2 ^ i.val ≤ 16 ∧ 1 ≤ 2 ^ i.val := by
    revert i
    decide
  obtain ⟨hs, hs16, hs1⟩ := hscale
  have hmul : oldLoad.toNat * (2 ^ i.val - 1) ≤ maxWeight * 15 := Nat.mul_le_mul ho (by omega)
  have hmax : maxWeight * 15 + maxWeight + 15 < 2 ^ 32 := by decide
  have hw : 2 ^ i.val - (2 ^ i.val - 1) = 1 := by omega
  have hnew : (if newLoad > oldLoad then newLoad + (1#32 <<< i.val - 1) else newLoad).toNat
      = newLoad.toNat + roundFor i oldLoad.toNat newLoad.toNat := by
    have hiff : newLoad > oldLoad ↔ oldLoad.toNat < newLoad.toNat := Iff.rfl
    simp only [roundFor, hiff]
    split
    · rw [BitVec.toNat_add, hs]
      exact Nat.mod_eq_of_lt (by omega)
    · rfl
  have hround : roundFor i oldLoad.toNat newLoad.toNat ≤ 15 := by
    unfold roundFor
    split <;> omega
  simp only [average]
  rw [BitVec.toNat_ushiftRight, BitVec.toNat_add, BitVec.toNat_mul, hs, hnew,
    Nat.shiftRight_eq_div_pow,
    Nat.mod_eq_of_lt (a := oldLoad.toNat * (2 ^ i.val - 1)) (by omega),
    Nat.mod_eq_of_lt (by omega), mean, hw, Nat.mul_one, Nat.add_assoc]

theorem roundFor_lt (i : LoadIdx) (oldLoad newLoad : Nat) :
    roundFor i oldLoad newLoad < 2 ^ i.val := by
  have : 0 < 2 ^ i.val := Nat.two_pow_pos _
  unfold roundFor
  split <;> omega

theorem average_le {i : LoadIdx} {oldLoad newLoad : BitVec 32} {W : Nat} (hW : W ≤ maxWeight)
    (ho : oldLoad.toNat ≤ W) (hn : newLoad.toNat ≤ W) : (average i oldLoad newLoad).toNat ≤ W := by
  rw [average_toNat (ho.trans hW) (hn.trans hW)]
  exact mean_le (Nat.sub_le _ _) (roundFor_lt ..) ho hn

/-- A running average of this kind reaches the new weight. -/
theorem mean_round_settles (i : LoadIdx) (a : Nat) {l n : Nat} (habove : l ≤ a + n)
    (hbelow : a ≤ l + n) :
    (fun x => mean (2 ^ i.val) (2 ^ i.val - 1) (roundFor i x a) x a)^[n] l = a := by
  have hpos : 0 < 2 ^ i.val := Nat.two_pow_pos _
  have he : 2 ^ i.val - 1 < 2 ^ i.val := by omega
  have hw : 2 ^ i.val - (2 ^ i.val - 1) = 1 := by omega
  have hfix : mean (2 ^ i.val) (2 ^ i.val - 1) (roundFor i a a) a a = a :=
    Nat.le_antisymm (mean_le he.le (roundFor_lt ..) le_rfl le_rfl)
      (le_mean he.le (roundFor_lt ..) le_rfl le_rfl)
  obtain ⟨g, hg⟩ : ∃ g, g = fun x =>
      mean (2 ^ i.val) (2 ^ i.val - 1) (roundFor i x a) x a := ⟨_, rfl⟩
  have hga : g a = a := hg ▸ hfix
  rw [← hg]
  rcases Nat.le_total a l with hl | hl
  · refine iterate_settles_down hga
      (fun x hx => hg ▸ le_mean he.le (roundFor_lt ..) hx le_rfl) ?_ hl habove
    -- above the weight the division rounds down
    intro x hx
    have hr : roundFor i x a = 0 := if_neg (by omega)
    rw [hg]
    simp only [hr]
    refine Nat.lt_of_not_le fun h => ?_
    have := (self_le_mean_iff_band he hpos).mp h
    simp [bandAbove] at this
    omega
  · refine iterate_settles_up hga
      (fun x hx => hg ▸ mean_le he.le (roundFor_lt ..) hx le_rfl) ?_ hl hbelow
    -- below it the division rounds up
    intro x hx
    have hr : roundFor i x a = 2 ^ i.val - 1 := if_pos hx
    rw [hg]
    simp only [hr]
    refine Nat.lt_of_not_le fun h => ?_
    have := (mean_le_self_iff_band he he).mp h
    rw [bandBelow, hw, Nat.div_one] at this
    omega

/-! ## Whole runs -/

/-- A call of `update_cpu_load`: the weight of the run queue and the time. -/
structure Call where
  thisLoad : BitVec 32
  jiffies : BitVec 32

def calls (q : Loads) (cs : List Call) : Loads :=
  cs.foldl (fun q c => updateCpuLoad c.thisLoad c.jiffies q) q

theorem updateCpuLoad_le {thisLoad jiffies : BitVec 32} {q : Loads} {W : Nat} (hW : W ≤ maxWeight)
    (hload : thisLoad.toNat ≤ W) (hq : ∀ i, (q.cpuLoad i).toNat ≤ W) (i : LoadIdx) :
    ((updateCpuLoad thisLoad jiffies q).cpuLoad i).toNat ≤ W := by
  simp only [updateCpuLoad]
  split
  · exact hq i
  · simp only
    split
    · exact hload
    · obtain ⟨l, hl, hle⟩ := decayLoadMissed_le (q.cpuLoad i) (jiffies - q.lastLoadUpdateTick - 1) i
        ((hq i).trans hW)
      rw [hl]
      exact average_le hW (hle.trans (hq i)) hload

/-- **The averages stay at or below the weights seen**, over calls at any times, and the table is
not read outside its bounds on the way. -/
theorem cpu_load_bounded (W : Nat) (hW : W ≤ maxWeight) (q : Loads) (cs : List Call)
    (hcs : ∀ c ∈ cs, c.thisLoad.toNat ≤ W) (hq : ∀ i, (q.cpuLoad i).toNat ≤ W) :
    ∀ i, ((calls q cs).cpuLoad i).toNat ≤ W ∧
      ∀ missed, (decayLoadMissed ((calls q cs).cpuLoad i) missed i).isSome := by
  have hall : ∀ i, ((calls q cs).cpuLoad i).toNat ≤ W := by
    induction cs generalizing q with
    | nil => exact hq
    | cons c cs ih =>
      exact ih _ (fun c' hc' => hcs c' (List.mem_cons_of_mem _ hc'))
        (updateCpuLoad_le hW (hcs c (List.mem_cons_self ..)) hq)
  intro i
  refine ⟨hall i, fun missed => ?_⟩
  obtain ⟨l, hl, -⟩ := decayLoadMissed_le _ missed i ((hall i).trans hW)
  rw [hl]
  rfl

theorem cpu_load_bounded_idle :
    let q := calls ⟨0, 0, fun _ => 0⟩ [⟨1024, 1⟩, ⟨2048, 2⟩, ⟨0, 9⟩]
    (q.cpuLoad 4).toNat ≤ 2048 ∧ ∀ missed, (decayLoadMissed (q.cpuLoad 4) missed 4).isSome :=
  cpu_load_bounded 2048 (by decide) ⟨0, 0, fun _ => 0⟩ [⟨1024, 1⟩, ⟨2048, 2⟩, ⟨0, 9⟩]
    (by decide) (by decide) 4

/-- A call one tick after the last. -/
def tick (thisLoad : BitVec 32) (q : Loads) : Loads :=
  updateCpuLoad thisLoad (q.lastLoadUpdateTick + 1) q

theorem tick_cpuLoad (thisLoad : BitVec 32) (q : Loads) (i : LoadIdx) :
    (tick thisLoad q).cpuLoad i = if i = 0 then thisLoad else average i (q.cpuLoad i) thisLoad := by
  have hne : q.lastLoadUpdateTick + 1 ≠ q.lastLoadUpdateTick := by simp
  have hmissed : q.lastLoadUpdateTick + 1 - q.lastLoadUpdateTick - 1 = 0 := by
    rw [add_sub_cancel_left, sub_self]
  simp only [tick, updateCpuLoad, if_neg hne, hmissed]
  rfl

theorem tick_iterate_toNat {thisLoad : BitVec 32} (hload : thisLoad.toNat ≤ maxWeight) {i : LoadIdx}
    (hi : i ≠ 0) {q : Loads} (hq : (q.cpuLoad i).toNat ≤ maxWeight) (n : Nat) :
    (((tick thisLoad)^[n] q).cpuLoad i).toNat
      = (fun x => mean (2 ^ i.val) (2 ^ i.val - 1)
        (roundFor i x thisLoad.toNat) x thisLoad.toNat)^[n]
          (q.cpuLoad i).toNat := by
  induction n generalizing q with
  | zero => rfl
  | succ n ih =>
    have htick : (tick thisLoad q).cpuLoad i = average i (q.cpuLoad i) thisLoad := by
      rw [tick_cpuLoad, if_neg hi]
    have hle : ((tick thisLoad q).cpuLoad i).toNat ≤ maxWeight := by
      rw [htick]
      exact average_le le_rfl hq hload
    rw [Function.iterate_succ_apply, Function.iterate_succ_apply, ih hle, htick,
      average_toNat hq hload]

/-- **The averages reach a constant weight.** While the weight of the run queue stays the same, all
averages become exactly that weight, from above and from below, after as many ticks as the one
farthest away is away from it, and stay there. -/
theorem cpu_load_settles (thisLoad : BitVec 32) (hload : thisLoad.toNat ≤ maxWeight) (q : Loads)
    (hq : ∀ i, (q.cpuLoad i).toNat ≤ maxWeight) (n : Nat)
    (habove : ∀ i, (q.cpuLoad i).toNat ≤ thisLoad.toNat + n)
    (hbelow : ∀ i, thisLoad.toNat ≤ (q.cpuLoad i).toNat + n) :
    ∀ i, ((tick thisLoad)^[n] q).cpuLoad i = thisLoad := by
  intro i
  by_cases hi : i = 0
  · subst hi
    cases n with
    | zero => exact BitVec.eq_of_toNat_eq (Nat.le_antisymm (habove 0) (hbelow 0))
    | succ n => rw [Function.iterate_succ_apply', tick_cpuLoad, if_pos rfl]
  · apply BitVec.eq_of_toNat_eq
    rw [tick_iterate_toNat hload hi (hq i), mean_round_settles i _ (habove i) (hbelow i)]

/-- A queue whose averages are all at 9 gets the weight 10: one tick is enough for the slowest. -/
theorem cpu_load_settles_ten : ((tick 10)^[1] ⟨0, 0, fun _ => 9⟩).cpuLoad 4 = 10 :=
  cpu_load_settles 10 (by decide) ⟨0, 0, fun _ => 9⟩ (by decide) 1 (by decide) (by decide) 4

end LinuxKernel.Load

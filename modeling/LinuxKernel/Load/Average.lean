import LinuxKernel.Lib.Mean
import Mathlib.Algebra.Order.Field.Basic
import Mathlib.Algebra.Order.Ring.Abs
import Mathlib.Data.BitVec
import Mathlib.Data.Rat.Cast.Order
import Mathlib.Tactic.FieldSimp
import Mathlib.Tactic.NormNum

/-!
# The load average: fixed-point arithmetic

`calc_load`, `fixed_power_int` and `calc_load_n`: one step of the decaying average of the number of
active tasks, and `n` missed steps at once. The average has 11 fractional bits in an `unsigned long`
of 32 bits, so up to 1023 active tasks leave every step without an overflow.

* `calcLoad_toNat`     — one step is a rounded mean of the old average and the active count.
* `avenrun_settles`    — under single updates with a constant number of active tasks the three
  averages come to rest, in general not at that number.
* `fixedPowerInt_close` — the power, by repeated squaring with rounding, is as good as `n`
  roundings.
* `catch_up_close`     — the steps at once against the steps one by one.
-/

namespace LinuxKernel.Load

open LinuxKernel.Lib

/-! ## The functions -/

/-- `FSHIFT` -/
def fshift : Nat := 11
/-- `FIXED_1` -/
def fixed1 : BitVec 32 := 1#32 <<< fshift
/-- `EXP_1` -/
def exp1 : BitVec 32 := 1884#32
/-- `EXP_5` -/
def exp5 : BitVec 32 := 2014#32
/-- `EXP_15` -/
def exp15 : BitVec 32 := 2037#32

def calcLoad (load exp active : BitVec 32) : BitVec 32 :=
  let load := load * exp
  let load := load + active * (fixed1 - exp)
  let load := load + 1#32 <<< (fshift - 1)
  load >>> fshift

/-- The three statements `fixed_power_int` multiplies with, for `result` and for `x`. -/
def fixedMul (fracBits : Nat) (a b : BitVec 32) : BitVec 32 :=
  let a := a * b
  let a := a + 1#32 <<< (fracBits - 1)
  a >>> fracBits

/-- The loop of `fixed_power_int`. It shifts `n` right until nothing is left, so it makes at most
one round for each of the 32 bits. -/
def fixedPowerLoop (fracBits : Nat) : Nat → BitVec 32 → BitVec 32 → BitVec 32 → BitVec 32
  | 0, result, _, _ => result
  | rounds + 1, result, x, n =>
    let result := if n &&& 1#32 ≠ 0 then fixedMul fracBits result x else result
    let n := n >>> 1
    if n = 0 then result else fixedPowerLoop fracBits rounds result (fixedMul fracBits x x) n

def fixedPowerInt (x : BitVec 32) (fracBits : Nat) (n : BitVec 32) : BitVec 32 :=
  let result := 1#32 <<< fracBits
  if n ≠ 0 then fixedPowerLoop fracBits 32 result x n else result

def calcLoadN (load exp active n : BitVec 32) : BitVec 32 :=
  calcLoad load (fixedPowerInt exp fshift n) active

/-- `avenrun[3]`. -/
structure Avenrun where
  one : BitVec 32
  five : BitVec 32
  fifteen : BitVec 32
  deriving DecidableEq, Repr

/-- `active > 0 ? active * FIXED_1 : 0`, with `active` of type `long`. -/
def fixedActive (active : BitVec 32) : BitVec 32 :=
  if 0 < active.toInt then active * fixed1 else 0

/-- The three assignments of `calc_global_load`. -/
def Avenrun.step (v : Avenrun) (active : BitVec 32) : Avenrun where
  one := calcLoad v.one exp1 active
  five := calcLoad v.five exp5 active
  fifteen := calcLoad v.fifteen exp15 active

/-- Those of `calc_global_nohz`. -/
def Avenrun.catchUp (v : Avenrun) (active n : BitVec 32) : Avenrun where
  one := calcLoadN v.one exp1 active n
  five := calcLoadN v.five exp5 active n
  fifteen := calcLoadN v.fifteen exp15 active n

/-! ## Without overflow -/

/-- The largest average no step overflows on. -/
def maxLoad : Nat := 2 ^ 21 - 1

/-- **One step is a rounded mean** of the average and the active count. -/
theorem calcLoad_toNat {load exp active : BitVec 32} (hl : load.toNat ≤ maxLoad)
    (ha : active.toNat ≤ maxLoad) (he : exp.toNat ≤ 2048) :
    (calcLoad load exp active).toNat = mean 2048 exp.toNat 1024 load.toNat active.toNat := by
  have hsub : (fixed1 - exp).toNat = 2048 - exp.toNat := by
    rw [BitVec.toNat_sub_of_le (BitVec.le_def.mpr he)]
    rfl
  have h₁ : load.toNat * exp.toNat ≤ maxLoad * exp.toNat := Nat.mul_le_mul_right _ hl
  have h₂ : active.toNat * (2048 - exp.toNat) ≤ maxLoad * (2048 - exp.toNat) :=
    Nat.mul_le_mul_right _ ha
  have h₃ : maxLoad * exp.toNat + maxLoad * (2048 - exp.toNat) = maxLoad * 2048 := weigh_add he
  have hM : maxLoad * 2048 + 1024 < 2 ^ 32 := by decide
  have hhalf : (1#32 <<< (fshift - 1)).toNat = 1024 := rfl
  simp only [calcLoad, BitVec.toNat_ushiftRight, BitVec.toNat_add, BitVec.toNat_mul, hsub, hhalf,
    Nat.shiftRight_eq_div_pow, mean]
  rw [Nat.mod_eq_of_lt (a := load.toNat * exp.toNat) (by omega),
    Nat.mod_eq_of_lt (a := active.toNat * (2048 - exp.toNat)) (by omega),
    Nat.mod_eq_of_lt (a := load.toNat * exp.toNat + _) (by omega), Nat.mod_eq_of_lt (by omega)]
  rfl

theorem calcLoad_le {load exp active : BitVec 32} {M : Nat} (hM : M ≤ maxLoad)
    (hl : load.toNat ≤ M) (ha : active.toNat ≤ M) (he : exp.toNat ≤ 2048) :
    (calcLoad load exp active).toNat ≤ M := by
  rw [calcLoad_toNat (hl.trans hM) (ha.trans hM) he]
  exact mean_le he (by decide) hl ha

theorem le_calcLoad {load exp active : BitVec 32} {m : Nat} (hl : load.toNat ≤ maxLoad)
    (ha : active.toNat ≤ maxLoad) (he : exp.toNat ≤ 2048) (hml : m ≤ load.toNat)
    (hma : m ≤ active.toNat) : m ≤ (calcLoad load exp active).toNat := by
  rw [calcLoad_toNat hl ha he]
  exact le_mean he (by decide) hml hma

theorem fixedActive_toNat {active : BitVec 32} (h : active.toNat ≤ 1023) :
    (fixedActive active).toNat = active.toNat * 2048 := by
  have hint : active.toInt = active.toNat := BitVec.toInt_eq_toNat_of_lt (by omega)
  unfold fixedActive
  split
  · rw [BitVec.toNat_mul]
    exact Nat.mod_eq_of_lt (by rw [show fixed1.toNat = 2048 from rfl]; omega)
  · rw [hint] at *
    rw [show active.toNat = 0 by omega]
    rfl

/-! ## At rest -/

theorem calcLoad_iterate_toNat {load exp active : BitVec 32} (hl : load.toNat ≤ maxLoad)
    (ha : active.toNat ≤ maxLoad) (he : exp.toNat ≤ 2048) (n : Nat) :
    ((fun l => calcLoad l exp active)^[n] load).toNat
      = (fun l => mean 2048 exp.toNat 1024 l active.toNat)^[n] load.toNat := by
  induction n generalizing load with
  | zero => rfl
  | succ n ih =>
    rw [Function.iterate_succ_apply, Function.iterate_succ_apply,
      ih (calcLoad_le le_rfl hl ha he), calcLoad_toNat hl ha he]

theorem calcLoad_iterate_le {load exp active : BitVec 32} (hl : load.toNat ≤ maxLoad)
    (ha : active.toNat ≤ maxLoad) (he : exp.toNat ≤ 2048) (n : Nat) :
    ((fun l => calcLoad l exp active)^[n] load).toNat ≤ maxLoad := by
  induction n generalizing load with
  | zero => exact hl
  | succ n ih => exact ih (calcLoad_le le_rfl hl ha he)

theorem avenrun_step_iterate (v : Avenrun) (active : BitVec 32) (n : Nat) :
    (fun w : Avenrun => w.step active)^[n] v =
      ⟨(fun l => calcLoad l exp1 active)^[n] v.one, (fun l => calcLoad l exp5 active)^[n] v.five,
        (fun l => calcLoad l exp15 active)^[n] v.fifteen⟩ := by
  induction n generalizing v with
  | zero => rfl
  | succ n ih =>
    simp only [Function.iterate_succ_apply, ih]
    rfl

/-- The number nearest to `l` that is at most `d` away from `a`. -/
def clampTo (a d l : Nat) : Nat := max (a - d) (min l (a + d))

theorem calcLoad_settles {load exp active : BitVec 32} (hl : load.toNat ≤ maxLoad)
    (ha : active.toNat ≤ maxLoad) (he : exp.toNat < 2048) {d : Nat}
    (habove : bandAbove 2048 exp.toNat 1024 = d) (hbelow : bandBelow 2048 exp.toNat 1024 = d)
    {n : Nat} (hn : load.toNat ≤ active.toNat + n) (hn' : active.toNat ≤ load.toNat + n) :
    ((fun l => calcLoad l exp active)^[n] load).toNat = clampTo active.toNat d load.toNat := by
  rw [calcLoad_iterate_toNat hl ha he.le, mean_settles he (by decide) hn hn', habove,
    hbelow, clampTo]

/-- **Where single updates bring the load averages to rest.** While the number of active tasks stays
the same and every update is a single step, the averages stop moving, each at the nearest value to
its start that is within 6, 30 or 93 of the active count (in units of 1/2048). So the single updates
of an idle machine that has been busy leave an average of 0.05 over fifteen minutes, and not 0. A
bulk update rounds otherwise and may move it on. -/
theorem avenrun_settles (v : Avenrun) (tasks : BitVec 32) (htasks : tasks.toNat ≤ 1023)
    (h1 : v.one.toNat ≤ maxLoad) (h5 : v.five.toNat ≤ maxLoad) (h15 : v.fifteen.toNat ≤ maxLoad)
    (n : Nat) (hn : maxLoad ≤ n) :
    let w := (fun w : Avenrun => w.step (fixedActive tasks))^[n] v
    w.one.toNat = clampTo (tasks.toNat * 2048) 6 v.one.toNat ∧
      w.five.toNat = clampTo (tasks.toNat * 2048) 30 v.five.toNat ∧
      w.fifteen.toNat = clampTo (tasks.toNat * 2048) 93 v.fifteen.toNat := by
  have hact := fixedActive_toNat htasks
  have ha : (fixedActive tasks).toNat ≤ maxLoad := by
    rw [hact, maxLoad]
    omega
  simp only [avenrun_step_iterate, ← hact]
  exact ⟨calcLoad_settles h1 ha (by decide) (by decide) (by decide) (by omega) (by omega),
    calcLoad_settles h5 ha (by decide) (by decide) (by decide) (by omega) (by omega),
    calcLoad_settles h15 ha (by decide) (by decide) (by decide) (by omega) (by omega)⟩

theorem avenrun_settles_idle :
    clampTo ((0#32).toNat * 2048) 93 (2048#32).toNat = 93 ∧
      ((fun w : Avenrun => w.step (fixedActive 0#32))^[maxLoad]
          ⟨2048#32, 2048#32, 2048#32⟩).fifteen.toNat
        = clampTo ((0#32).toNat * 2048) 93 (2048#32).toNat := by
  refine ⟨by decide, ?_⟩
  have h := avenrun_settles ⟨2048#32, 2048#32, 2048#32⟩ 0#32 (by decide) (by decide) (by decide)
    (by decide) maxLoad le_rfl
  exact h.2.2

/-! ## Missed steps at once -/

/-- The number between 0 and 1 that a fixed-point number stands for. -/
def frac (a : BitVec 32) : ℚ := a.toNat / 2048

theorem frac_nonneg (a : BitVec 32) : 0 ≤ frac a := by
  unfold frac
  positivity

theorem frac_le_one {a : BitVec 32} (h : a.toNat ≤ 2048) : frac a ≤ 1 := by
  have : (a.toNat : ℚ) ≤ 2048 := by exact_mod_cast h
  rw [frac, div_le_one (by norm_num)]
  exact this

theorem round_close (m : Nat) : |(((m + 1024) / 2048 : Nat) : ℚ) - m / 2048| ≤ 1 / 2 := by
  have hle : ((2048 * ((m + 1024) / 2048) : Nat) : ℚ) ≤ (m + 1024 : Nat) := by
    exact_mod_cast Nat.mul_div_le _ _
  have hlt : ((m + 1024 : Nat) : ℚ) < (2048 * ((m + 1024) / 2048) + 2048 : Nat) := by
    exact_mod_cast (by omega : m + 1024 < 2048 * ((m + 1024) / 2048) + 2048)
  push_cast at hle hlt
  rw [abs_le]
  constructor <;> linarith

theorem fixedMul_toNat {a b : BitVec 32} (ha : a.toNat ≤ 2048) (hb : b.toNat ≤ 2048) :
    (fixedMul fshift a b).toNat = (a.toNat * b.toNat + 1024) / 2048 := by
  have h : a.toNat * b.toNat ≤ 2048 * 2048 := Nat.mul_le_mul ha hb
  have hhalf : (1#32 <<< (fshift - 1)).toNat = 1024 := rfl
  simp only [fixedMul, BitVec.toNat_ushiftRight, BitVec.toNat_add, BitVec.toNat_mul, hhalf,
    Nat.shiftRight_eq_div_pow]
  rw [Nat.mod_eq_of_lt (a := a.toNat * b.toNat) (by omega), Nat.mod_eq_of_lt (by omega)]
  rfl

theorem fixedMul_le {a b : BitVec 32} (ha : a.toNat ≤ 2048) (hb : b.toNat ≤ 2048) :
    (fixedMul fshift a b).toNat ≤ 2048 := by
  have h : a.toNat * b.toNat ≤ 2048 * 2048 := Nat.mul_le_mul ha hb
  rw [fixedMul_toNat ha hb]
  omega

/-- A product is off by what its factors are off by, and by the rounding. -/
theorem fixedMul_close {a b : BitVec 32} (ha : a.toNat ≤ 2048) (hb : b.toNat ≤ 2048) {p q α β : ℚ}
    (hq : 0 ≤ q) (hq' : q ≤ 1) (hp : |frac a - p| ≤ α) (hb' : |frac b - q| ≤ β) :
    |frac (fixedMul fshift a b) - p * q| ≤ α + β + 1 / 4096 := by
  have hround : |frac (fixedMul fshift a b) - frac a * frac b| ≤ 1 / 4096 := by
    have h := round_close (a.toNat * b.toNat)
    have heq : frac (fixedMul fshift a b) - frac a * frac b =
        ((((a.toNat * b.toNat + 1024) / 2048 : Nat) : ℚ) - (a.toNat * b.toNat : Nat) / 2048) /
          2048 := by
      rw [frac, fixedMul_toNat ha hb, frac, frac]
      push_cast
      ring
    rw [heq, abs_div, abs_of_pos (by norm_num : (0 : ℚ) < 2048), div_le_iff₀ (by norm_num)]
    linarith
  have hfst : |frac a * (frac b - q)| ≤ β := by
    rw [abs_mul, abs_of_nonneg (frac_nonneg a)]
    exact (mul_le_of_le_one_left (abs_nonneg _) (frac_le_one ha)).trans hb'
  have hsnd : |q * (frac a - p)| ≤ α := by
    rw [abs_mul, abs_of_nonneg hq]
    exact (mul_le_of_le_one_left (abs_nonneg _) hq').trans hp
  calc |frac (fixedMul fshift a b) - p * q|
      = |(frac (fixedMul fshift a b) - frac a * frac b) +
        (frac a * (frac b - q) + q * (frac a - p))| := by
        congr 1
        ring
    _ ≤ |frac (fixedMul fshift a b) - frac a * frac b| +
      (|frac a * (frac b - q)| + |q * (frac a - p)|) :=
        (abs_add_le _ _).trans (add_le_add_right (abs_add_le _ _) _)
    _ ≤ α + β + 1 / 4096 := by linarith

/-- The loop multiplies `result` with the `n`-th power of `x`. If they are off by `α` and `β`, what
it returns is off by `α`, by `β` for every factor and by a rounding for every factor. -/
theorem fixedPowerLoop_close {rounds : Nat} {result x n : BitVec 32} (hr : result.toNat ≤ 2048)
    (hx : x.toNat ≤ 2048) (hn : n.toNat < 2 ^ rounds) (hn0 : n ≠ 0) {p q α β : ℚ} (hq : 0 ≤ q)
    (hq' : q ≤ 1) (hp : |frac result - p| ≤ α) (hx' : |frac x - q| ≤ β) :
    (fixedPowerLoop fshift rounds result x n).toNat ≤ 2048 ∧
      |frac (fixedPowerLoop fshift rounds result x n) - p * q ^ n.toNat|
        ≤ α + n.toNat * β + n.toNat / 4096 := by
  induction rounds generalizing result x n p q α β with
  | zero =>
    have : n = 0 := BitVec.eq_of_toNat_eq (by simpa using hn)
    exact absurd this hn0
  | succ rounds ih =>
    have hbit : (n &&& 1#32 ≠ 0) ↔ n.toNat % 2 = 1 := by
      rw [Ne, ← BitVec.toNat_inj, BitVec.toNat_and, show (1#32).toNat = 1 from rfl,
        Nat.and_one_is_mod, show (0 : BitVec 32).toNat = 0 from rfl]
      omega
    have hhalf : (n >>> 1).toNat = n.toNat / 2 := by
      rw [BitVec.toNat_ushiftRight, Nat.shiftRight_one]
    -- what this round does to `result`: nothing, or one product
    obtain ⟨r, hrdef⟩ : ∃ r, r = if n &&& 1#32 ≠ 0 then
        fixedMul fshift result x else result := ⟨_, rfl⟩
    have hrle : r.toNat ≤ 2048 := by
      rw [hrdef]
      split
      · exact fixedMul_le hr hx
      · exact hr
    have hrclose : |frac r - p * q ^ (n.toNat % 2)|
        ≤ α + ((n.toNat % 2 : Nat) : ℚ) * β + ((n.toNat % 2 : Nat) : ℚ) / 4096 := by
      rw [hrdef]
      split
      · rename_i hb
        rw [hbit.mp hb, pow_one, Nat.cast_one, one_mul]
        exact fixedMul_close hr hx hq hq' hp hx'
      · rename_i hb
        have : n.toNat % 2 = 0 := by
          have := mt hbit.mpr hb
          omega
        rw [this]
        simpa using hp
    have hsplit : ((n.toNat : Nat) : ℚ) = 2 * ((n.toNat / 2 : Nat) : ℚ) +
        ((n.toNat % 2 : Nat) : ℚ) := by
      exact_mod_cast (Nat.div_add_mod n.toNat 2).symm
    simp only [fixedPowerLoop, ← hrdef]
    split
    · rename_i hz
      -- the last bit
      have hz' : n.toNat / 2 = 0 := by
        rw [← hhalf, hz]
        rfl
      have hone : n.toNat % 2 = n.toNat := by omega
      rw [hone] at hrclose
      exact ⟨hrle, hrclose⟩
    · rename_i hz
      -- the square of `x` is off by twice as much and a rounding, and is needed half as often
      have hsq := fixedMul_close hx hx hq hq' hx' hx'
      obtain ⟨hle, hclose⟩ := ih hrle (fixedMul_le hx hx) (by rw [hhalf, pow_succ] at *; omega) hz
        (mul_nonneg hq hq) (mul_le_one₀ hq' hq hq') hrclose hsq
      refine ⟨hle, ?_⟩
      have hpow : p * q ^ (n.toNat % 2) * (q * q) ^ (n >>> 1).toNat = p * q ^ n.toNat := by
        rw [hhalf, mul_assoc, ← pow_two, ← pow_mul, ← pow_add, Nat.mod_add_div]
      rw [hpow, hhalf] at hclose
      refine hclose.trans (le_of_eq ?_)
      rw [hsplit]
      ring

/-- **The power is as good as its factors are many**: it is off by at most half a unit for each. -/
theorem fixedPowerInt_close {x : BitVec 32} (hx : x.toNat ≤ 2048) (n : BitVec 32) :
    (fixedPowerInt x fshift n).toNat ≤ 2048 ∧
      |frac (fixedPowerInt x fshift n) - frac x ^ n.toNat| ≤ n.toNat / 4096 := by
  have hone : frac (1#32 <<< fshift) = 1 := by
    simp [frac, show (1#32 <<< fshift).toNat = 2048 from rfl]
  unfold fixedPowerInt
  split
  · rename_i hn
    have hresult : |frac (1#32 <<< fshift) - 1| ≤ 0 := by
      rw [hone]
      simp
    have hbase : |frac x - frac x| ≤ 0 := by simp
    have h :=
      fixedPowerLoop_close (by decide) hx n.isLt hn (frac_nonneg x) (frac_le_one hx) hresult hbase
    simpa using h
  · rename_i hn
    rw [not_not.mp hn]
    exact ⟨by decide, by rw [hone]; simp⟩

/-- The exact average after a step that weighs the old one with `q`. -/
def exactMean (q load active : ℚ) : ℚ := active + (load - active) * q

theorem calcLoad_close {load exp active : BitVec 32} (hl : load.toNat ≤ maxLoad)
    (ha : active.toNat ≤ maxLoad) (he : exp.toNat ≤ 2048) :
    |((calcLoad load exp active).toNat : ℚ) -
      exactMean (frac exp) load.toNat active.toNat| ≤ 1 / 2 := by
  rw [calcLoad_toNat hl ha he]
  have h := round_close (load.toNat * exp.toNat + active.toNat * (2048 - exp.toNat))
  have heq : exactMean (frac exp) load.toNat active.toNat
      = ((load.toNat * exp.toNat + active.toNat * (2048 - exp.toNat) : Nat) : ℚ) / 2048 := by
    rw [exactMean, frac]
    push_cast [Nat.cast_sub he]
    ring
  rwa [heq]

/-- Steps one by one: each adds at most half a unit of rounding. -/
theorem calcLoad_iterate_close {load exp active : BitVec 32} (hl : load.toNat ≤ maxLoad)
    (ha : active.toNat ≤ maxLoad) (he : exp.toNat ≤ 2048) (n : Nat) :
    |(((fun l => calcLoad l exp active)^[n] load).toNat : ℚ)
      - exactMean (frac exp ^ n) load.toNat active.toNat| ≤ n / 2 := by
  induction n with
  | zero => simp [exactMean]
  | succ n ih =>
    obtain ⟨l, hldef⟩ : ∃ l, l = (fun l => calcLoad l exp active)^[n] load := ⟨_, rfl⟩
    have hlle : l.toNat ≤ maxLoad := hldef ▸ calcLoad_iterate_le hl ha he n
    rw [Function.iterate_succ_apply', ← hldef]
    rw [← hldef] at ih
    have hstep := calcLoad_close hlle ha he
    -- the distance from the exact average is not made larger by the weight
    have hkeep : |exactMean (frac exp) l.toNat active.toNat
        - exactMean (frac exp ^ (n + 1)) load.toNat active.toNat| ≤ n / 2 := by
      have heq : exactMean (frac exp) l.toNat active.toNat
          - exactMean (frac exp ^ (n + 1)) load.toNat active.toNat
          = frac exp * (l.toNat - exactMean (frac exp ^ n) load.toNat active.toNat) := by
        simp only [exactMean]
        ring
      rw [heq, abs_mul, abs_of_nonneg (frac_nonneg exp)]
      exact (mul_le_of_le_one_left (abs_nonneg _) (frac_le_one he)).trans ih
    have htri := abs_sub_le (((calcLoad l exp active).toNat : Nat) : ℚ)
      (exactMean (frac exp) l.toNat active.toNat)
      (exactMean (frac exp ^ (n + 1)) load.toNat active.toNat)
    push_cast
    linarith

/-- Steps at once: the error of the power, as much as the average has to move, and one rounding. -/
theorem calcLoadN_close {load exp active : BitVec 32} (hl : load.toNat ≤ maxLoad)
    (ha : active.toNat ≤ maxLoad) (he : exp.toNat ≤ 2048) (n : BitVec 32) :
    |((calcLoadN load exp active n).toNat : ℚ) -
      exactMean (frac exp ^ n.toNat) load.toNat active.toNat|
      ≤ |(load.toNat : ℚ) - active.toNat| * (n.toNat / 4096) + 1 / 2 := by
  obtain ⟨hple, hpclose⟩ := fixedPowerInt_close he n
  have hround := calcLoad_close hl ha hple
  have hpow : |exactMean (frac (fixedPowerInt exp fshift n)) load.toNat active.toNat
      - exactMean (frac exp ^ n.toNat) load.toNat active.toNat|
      ≤ |(load.toNat : ℚ) - active.toNat| * (n.toNat / 4096) := by
    have heq : exactMean (frac (fixedPowerInt exp fshift n)) load.toNat active.toNat
        - exactMean (frac exp ^ n.toNat) load.toNat active.toNat
        = (load.toNat - active.toNat) *
          (frac (fixedPowerInt exp fshift n) - frac exp ^ n.toNat) := by
      simp only [exactMean]
      ring
    rw [heq, abs_mul]
    exact mul_le_mul_of_nonneg_left hpclose (abs_nonneg _)
  have htri := abs_sub_le (((calcLoadN load exp active n).toNat : Nat) : ℚ)
    (exactMean (frac (fixedPowerInt exp fshift n)) load.toNat active.toNat)
    (exactMean (frac exp ^ n.toNat) load.toNat active.toNat)
  simp only [calcLoadN] at htri ⊢
  linarith

/-- **Catching up in bulk.** Making `n` missed steps at once gives the average that making them one
by one would have given, up to `(n + 1) / 2` units for the roundings, and `n / 2` units more in
proportion to how many tasks the average and the active count are apart; half a task adds half of
that. -/
theorem catch_up_close (load exp active n : BitVec 32) (hl : load.toNat ≤ maxLoad)
    (ha : active.toNat ≤ maxLoad) (he : exp.toNat ≤ 2048) :
    |((calcLoadN load exp active n).toNat : ℚ) -
      ((fun l => calcLoad l exp active)^[n.toNat] load).toNat|
      ≤ |(load.toNat : ℚ) - active.toNat| / 2048 * (n.toNat / 2) + (n.toNat + 1) / 2 := by
  have hbulk := calcLoadN_close hl ha he n
  have hsteps := calcLoad_iterate_close hl ha he n.toNat
  rw [abs_sub_comm] at hsteps
  have htri := abs_sub_le (((calcLoadN load exp active n).toNat : Nat) : ℚ)
    (exactMean (frac exp ^ n.toNat) load.toNat active.toNat)
    (((fun l => calcLoad l exp active)^[n.toNat] load).toNat : ℚ)
  have heq : |(load.toNat : ℚ) - active.toNat| * (n.toNat / 4096)
      = |(load.toNat : ℚ) - active.toNat| / 2048 * (n.toNat / 2) := by ring
  linarith

/-- A minute on an idle machine, after a load of one: twelve steps at once. -/
theorem catch_up_close_minute :
    |((calcLoadN 2048#32 exp1 0#32 12#32).toNat : ℚ)
        - ((fun l => calcLoad l exp1 0#32)^[(12#32).toNat] 2048#32).toNat|
      ≤ |((2048#32).toNat : ℚ) - (0#32).toNat| / 2048 * ((12#32).toNat / 2) +
        ((12#32).toNat + 1) / 2 :=
  catch_up_close 2048#32 exp1 0#32 12#32 (by decide) (by decide) (by decide)

end LinuxKernel.Load

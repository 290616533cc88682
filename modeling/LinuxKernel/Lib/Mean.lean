import Mathlib.Algebra.Order.Ring.Nat
import Mathlib.Logic.Function.Iterate
import Mathlib.Tactic.Ring
import Mathlib.Tactic.Linarith

/-!
# Running averages in whole numbers

`mean f e r l a` weighs `l` with `e` and `a` with the rest of `f`, and divides by `f`; `r` is added
before the division, so that `0` rounds down, `f / 2` to the nearest number and `f - 1` up. A
running average replaces `l` by `mean f e r l a` again and again.

* `iterate_settles_down`, `iterate_settles_up` — a step that only moves towards a number gets there.
* `mean_le`, `le_mean`  — the average is between the two numbers.
* `mean_settles`        — where a running average stops when `a` stays the same: not at `a`, but at
  the nearest number to the start within a band around `a` that the rounding leaves.
-/

namespace LinuxKernel.Lib

/-! ## Steps towards a number -/

/-- A step that lowers every number above `T`, but not below `T`, reaches it from `l` within `l - T`
steps and stays there. -/
theorem iterate_settles_down {g : ℕ → ℕ} {T : ℕ} (hT : g T = T) (hge : ∀ x, T ≤ x → T ≤ g x)
    (hlt : ∀ x, T < x → g x < x) {l : ℕ} (hl : T ≤ l) {n : ℕ} (hn : l ≤ T + n) : g^[n] l = T := by
  induction n generalizing l with
  | zero => exact Nat.le_antisymm hn hl
  | succ n ih =>
    rw [Function.iterate_succ_apply]
    refine ih (hge l hl) ?_
    rcases Nat.eq_or_lt_of_le hl with rfl | hlt'
    · rw [hT]
      exact Nat.le_add_right T n
    · have := hlt l hlt'
      omega

/-- The same from below. -/
theorem iterate_settles_up {g : ℕ → ℕ} {T : ℕ} (hT : g T = T) (hle : ∀ x, x ≤ T → g x ≤ T)
    (hlt : ∀ x, x < T → x < g x) {l : ℕ} (hl : l ≤ T) {n : ℕ} (hn : T ≤ l + n) : g^[n] l = T := by
  induction n generalizing l with
  | zero => exact Nat.le_antisymm hl hn
  | succ n ih =>
    rw [Function.iterate_succ_apply]
    refine ih (hle l hl) ?_
    rcases Nat.eq_or_lt_of_le hl with rfl | hlt'
    · rw [hT]
      exact Nat.le_add_right l n
    · have := hlt l hlt'
      omega

/-! ## The average -/

def mean (f e r l a : ℕ) : ℕ := (l * e + a * (f - e) + r) / f

section

variable {f e r l a : ℕ}

/-- What is weighed: `l` with all of `f`, and the difference of the two with `f - e`. -/
theorem weigh_add (he : e ≤ f) : l * e + l * (f - e) = l * f := by
  rw [← Nat.mul_add, Nat.add_sub_cancel' he]

theorem mean_le {M : ℕ} (he : e ≤ f) (hr : r < f) (hl : l ≤ M) (ha : a ≤ M) :
    mean f e r l a ≤ M := by
  have h₁ : l * e ≤ M * e := Nat.mul_le_mul_right e hl
  have h₂ : a * (f - e) ≤ M * (f - e) := Nat.mul_le_mul_right _ ha
  have h₃ : M * e + M * (f - e) = M * f := weigh_add he
  have h₄ : (M + 1) * f = M * f + f := Nat.succ_mul M f
  rw [mean, ← Nat.lt_add_one_iff, Nat.div_lt_iff_lt_mul (by omega)]
  omega

theorem le_mean {m : ℕ} (he : e ≤ f) (hr : r < f) (hl : m ≤ l) (ha : m ≤ a) :
    m ≤ mean f e r l a := by
  have h₁ : m * e ≤ l * e := Nat.mul_le_mul_right e hl
  have h₂ : m * (f - e) ≤ a * (f - e) := Nat.mul_le_mul_right _ ha
  have h₃ : m * e + m * (f - e) = m * f := weigh_add he
  rw [mean, Nat.le_div_iff_mul_le (by omega)]
  omega

theorem mean_mono_left {l' : ℕ} (h : l ≤ l') : mean f e r l a ≤ mean f e r l' a :=
  Nat.div_le_div_right (by have := Nat.mul_le_mul_right e h; omega)

/-- The average does not rise iff the new number is not far enough above. -/
theorem mean_le_self_iff (he : e ≤ f) (hr : r < f) :
    mean f e r l a ≤ l ↔ a * (f - e) + r < l * (f - e) + f := by
  have h₁ : l * e + l * (f - e) = l * f := weigh_add he
  have h₂ : (l + 1) * f = l * f + f := Nat.succ_mul l f
  rw [mean, ← Nat.lt_add_one_iff, Nat.div_lt_iff_lt_mul (by omega)]
  omega

/-- The average does not fall iff the new number is not far enough below. -/
theorem self_le_mean_iff (he : e ≤ f) (hr : r < f) :
    l ≤ mean f e r l a ↔ l * (f - e) ≤ a * (f - e) + r := by
  have h₁ : l * e + l * (f - e) = l * f := weigh_add he
  rw [mean, Nat.le_div_iff_mul_le (by omega)]
  omega

/-! ## Where a running average stops -/

/-- How far above the new number the average stops, and how far below. -/
def bandAbove (f e r : ℕ) : ℕ := r / (f - e)
def bandBelow (f e r : ℕ) : ℕ := (f - r - 1) / (f - e)

theorem self_le_mean_iff_band (he : e < f) (hr : r < f) :
    l ≤ mean f e r l a ↔ l ≤ a + bandAbove f e r := by
  have hw : 0 < f - e := by omega
  rw [self_le_mean_iff he.le hr, bandAbove, Nat.add_comm a, ← Nat.add_mul_div_left r a hw,
    Nat.le_div_iff_mul_le hw, Nat.mul_comm (f - e) a, Nat.add_comm r]

theorem mean_le_self_iff_band (he : e < f) (hr : r < f) :
    mean f e r l a ≤ l ↔ a ≤ l + bandBelow f e r := by
  have hw : 0 < f - e := by omega
  rw [mean_le_self_iff he.le hr, bandBelow, Nat.add_comm l, ← Nat.add_mul_div_left _ l hw,
    Nat.le_div_iff_mul_le hw, Nat.mul_comm (f - e) l]
  omega

/-- **A running average stops in the band.** After at most as many steps as its distance from the
new number the average has come to rest: where it was, if that is in the band around the new number,
and else at the end of the band on its side. -/
theorem mean_settles (he : e < f) (hr : r < f) {n : ℕ} (habove : l ≤ a + n) (hbelow : a ≤ l + n) :
    (fun x => mean f e r x a)^[n] l = max (a - bandBelow f e r) (min l (a + bandAbove f e r)) := by
  have hle := fun x => self_le_mean_iff_band (l := x) (a := a) he hr
  have hge := fun x => mean_le_self_iff_band (l := x) (a := a) he hr
  have hfix : ∀ x, a ≤ x + bandBelow f e r → x ≤ a + bandAbove f e r → mean f e r x a = x :=
    fun x hb ht => Nat.le_antisymm ((hge x).mpr hb) ((hle x).mpr ht)
  rcases Nat.le_total l (a + bandAbove f e r) with hl | hl
  · rcases Nat.le_total a (l + bandBelow f e r) with hb | hb
    · rw [Function.iterate_fixed (hfix l hb hl)]
      omega
    · -- from below the band
      have hT : mean f e r (a - bandBelow f e r) a = a - bandBelow f e r :=
        hfix _ (by omega) (by omega)
      rw [iterate_settles_up hT (fun x hx => hT ▸ mean_mono_left hx) (fun x hx => ?_)
        (by omega) (by omega)]
      · omega
      · exact Nat.lt_of_not_le fun h => by have := (hge x).mp h; omega
  · -- from above the band
    have hT : mean f e r (a + bandAbove f e r) a = a + bandAbove f e r :=
      hfix _ (by omega) (by omega)
    rw [iterate_settles_down hT (fun x hx => (hT.symm.le.trans (mean_mono_left hx)))
      (fun x hx => ?_) hl
      (by omega)]
    · omega
    · exact Nat.lt_of_not_le fun h => by have := (hle x).mp h; omega

end

end LinuxKernel.Lib

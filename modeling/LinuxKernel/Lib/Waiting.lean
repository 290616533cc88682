import Mathlib.Data.Set.Finite.Lemmas
import Mathlib.Order.WithBot

/-!
# Waiting by rank

Processes wait for one another. `rank` says what a process waits for, and is `⊥` for one that does
not wait. If whoever is waited for waits, if at all, for something of a higher rank, then not all of
them wait.
-/

namespace LinuxKernel.Lib

/-- **No deadlock by ranks.** Take a busy process of the highest rank: the one that it waits for
cannot wait. -/
theorem exists_busy_not_waiting {P R : Type*} [Finite P] [LinearOrder R] {Busy : P → Prop}
    {rank : P → WithBot R}
    (hwait : ∀ p, Busy p → rank p ≠ ⊥ → ∃ q, Busy q ∧ (rank q = ⊥ ∨ rank p < rank q))
    (hbusy : ∃ p, Busy p) : ∃ p, Busy p ∧ rank p = ⊥ := by
  obtain ⟨p, hp, hmax⟩ := Set.exists_max_image {p | Busy p} rank (Set.toFinite _) hbusy
  by_cases hrank : rank p = ⊥
  · exact ⟨p, hp, hrank⟩
  · obtain ⟨q, hq, hnone | hlt⟩ := hwait p hp hrank
    · exact ⟨q, hq, hnone⟩
    · exact absurd (hmax q hq) (not_le.mpr hlt)

end LinuxKernel.Lib

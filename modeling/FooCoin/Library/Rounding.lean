import Mathlib.Tactic

/-!
# Rounding down

A rounding that sends every number of its domain to the greatest representable number that is not
above it.  It is monotone, fixes the representable numbers and keeps comparisons with them.
-/

namespace Rounding

variable {α : Type} [PartialOrder α] {representable domain : Set α} {round : α → α} {value other : α}

/-- On the domain, `round` gives the greatest representable number below. -/
def RoundsDown (representable domain : Set α) (round : α → α) : Prop :=
  ∀ value ∈ domain, IsGreatest {lower | lower ∈ representable ∧ lower ≤ value} (round value)

theorem RoundsDown.round_le (rounds : RoundsDown representable domain round)
    (mem : value ∈ domain) : round value ≤ value :=
  (rounds value mem).1.2

/-- A representable number is below the rounded value exactly if it is below the value. -/
theorem RoundsDown.le_round_iff (rounds : RoundsDown representable domain round)
    (mem : value ∈ domain) (other_mem : other ∈ representable) :
    other ≤ round value ↔ other ≤ value := by
  constructor
  · exact fun below => below.trans (rounds.round_le mem)
  · exact fun below => (rounds value mem).2 ⟨other_mem, below⟩

end Rounding

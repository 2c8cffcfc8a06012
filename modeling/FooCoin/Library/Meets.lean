import Mathlib.Tactic

/-!
# Outcomes of fallible computations

`Meets allowed post computation` says that the computation fails only in the allowed ways and that
its value satisfies the postcondition.  The rules follow the computation: one for a value, one for
a sequence and one for a case split.
-/

namespace Outcomes

variable {ε α β : Type}

/-- The computation fails only as allowed, and its value satisfies the postcondition. -/
def Meets (allowed : ε → Prop) (post : α → Prop) : Except ε α → Prop
  | .error failure => allowed failure
  | .ok value => post value

variable {allowed : ε → Prop} {post later : α → Prop}

theorem Meets.pure {value : α} (holds : post value) :
    Meets allowed post (pure value : Except ε α) := holds

theorem Meets.throw {failure : ε} (may_fail : allowed failure) :
    Meets allowed post (.error failure : Except ε α) := may_fail

theorem Meets.mono {computation : Except ε α} (meets : Meets allowed post computation)
    (weaker : ∀ value, post value → later value) : Meets allowed later computation := by
  cases computation with
  | error failure => exact meets
  | ok value => exact weaker value meets

/-- The second part may use what the first part establishes. -/
theorem Meets.bind {first : Except ε α} {next : α → Except ε β} {final : β → Prop}
    (first_meets : Meets allowed post first)
    (next_meets : ∀ value, first = .ok value → post value → Meets allowed final (next value)) :
    Meets allowed final (first >>= next) := by
  cases first with
  | error failure => exact first_meets
  | ok value => exact next_meets value rfl first_meets

theorem Meets.ite {condition : Prop} [Decidable condition] {first second : Except ε α}
    (positive : condition → Meets allowed post first)
    (negative : ¬condition → Meets allowed post second) :
    Meets allowed post (if condition then first else second) := by
  split
  · exact positive ‹_›
  · exact negative ‹_›

theorem Meets.of_ok {computation : Except ε α} {value : α}
    (meets : Meets allowed post computation) (returned : computation = .ok value) :
    post value := by
  rwa [returned] at meets

theorem Meets.ne_error {computation : Except ε α} {failure : ε}
    (meets : Meets allowed post computation) (refused : ¬allowed failure) :
    computation ≠ .error failure := by
  rintro rfl
  exact refused meets

end Outcomes

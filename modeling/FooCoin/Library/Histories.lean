import Mathlib.Tactic

/-!
# Lists that grow at the end

What a loop over a list keeps about the elements that it has taken, and where an element of a list
stands when one more has come.
-/

namespace Histories

variable {α σ : Type*}

/-- What each turn of a loop keeps about the elements taken so far, the loop keeps. -/
theorem foldl_keeps {keeps : List α → σ → Prop} {step : σ → α → σ}
    (turn : ∀ taken state value, keeps taken state → keeps (taken ++ [value]) (step state value))
    {taken : List α} {state : σ} (start : keeps taken state) (values : List α) :
    keeps (taken ++ values) (values.foldl step state) := by
  induction values generalizing taken state with
  | nil => simpa using start
  | cons value values induction =>
      rw [List.foldl_cons, List.append_cons]
      exact induction (turn taken state value start)

/-- An element of a longer list is the new one or stands in the list before. -/
theorem concat_eq_append_cons {log earlier later : List α} {last element : α} :
    log ++ [last] = earlier ++ element :: later ↔
      (earlier = log ∧ element = last ∧ later = []) ∨
        ∃ rest, log = earlier ++ element :: rest ∧ later = rest ++ [last] := by
  constructor
  · intro split
    rcases List.eq_nil_or_concat later with rfl | ⟨rest, final, rfl⟩
    · obtain ⟨rfl, same⟩ := List.append_inj' split rfl
      exact .inl ⟨rfl, (List.singleton_inj.mp same).symm, rfl⟩
    · rw [List.concat_eq_append, ← List.cons_append, ← List.append_assoc] at split
      obtain ⟨rfl, same⟩ := List.append_inj' split rfl
      exact .inr ⟨rest, rfl, by rw [List.concat_eq_append, List.singleton_inj.mp same]⟩
  · rintro (⟨rfl, rfl, rfl⟩ | ⟨rest, rfl, rfl⟩)
    · rfl
    · simp

end Histories

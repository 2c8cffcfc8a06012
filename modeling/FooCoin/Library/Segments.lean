import Mathlib.Tactic

/-!
# Texts in segments

A text that consists of segments, each of characters that pass a test, is cut where the test ends.
-/

namespace Segments

variable {α : Type} {test : α → Bool} {front core back before after : List α}

/-- The longest part in front that passes a test. -/
theorem exists_span (test : α → Bool) (text : List α) :
    ∃ front back, front.all test ∧ (∀ c ∈ back.head?, test c = false) ∧ text = front ++ back := by
  refine ⟨text.takeWhile test, text.dropWhile test, List.all_takeWhile, fun c head => ?_,
    List.takeWhile_append_dropWhile.symm⟩
  have stop := List.head?_dropWhile_not test text
  rw [Option.mem_def.mp head] at stop
  simpa using stop

theorem not_mem_of_all {c : α} (all : front.all test) (fails : test c = false) : c ∉ front := by
  intro mem
  simp [List.all_eq_true.mp all c mem] at fails

/-- The longest part in front ends where the test fails. -/
theorem dropWhile_append (all : front.all test) (stop : ∀ c ∈ back.head?, test c = false) :
    (front ++ back).dropWhile test = back := by
  rw [List.dropWhile_append_of_pos (List.all_eq_true.mp all)]
  cases back with
  | nil => rfl
  | cons c back => exact List.dropWhile_cons_of_neg (by simp [stop c rfl])

/-- What is cut off on both sides of a part whose ends do not pass. -/
theorem trim (all_before : before.all test) (all_after : after.all test)
    (first : ∀ c ∈ core.head?, test c = false) (last : ∀ c ∈ core.getLast?, test c = false) :
    (((before ++ core ++ after).dropWhile test).reverse.dropWhile test).reverse = core := by
  by_cases empty : core = []
  · subst empty
    have none_left : (before ++ [] ++ after).dropWhile test = [] := by
      have all : (before ++ after).all test := by rw [List.all_append, all_before, all_after]; rfl
      have cut : (before ++ after ++ []).dropWhile test = [] := dropWhile_append all (by simp)
      simpa using cut
    rw [none_left]
    rfl
  · have starts : ∀ c ∈ (core ++ after).head?, test c = false := by
      rwa [List.head?_append_of_ne_nil _ empty]
    rw [List.append_assoc, dropWhile_append all_before starts, List.reverse_append,
      dropWhile_append (by rwa [List.all_reverse]) (by rwa [List.head?_reverse]),
      List.reverse_reverse]

/-- A suffix of passing characters is cut off the segment of passing characters it ends in. -/
theorem exists_of_append_eq {text suffix : List α} (none_front : ∀ c ∈ front, test c = false)
    (all_suffix : suffix.all test) (same : front ++ back = text ++ suffix) :
    ∃ rest, back = rest ++ suffix ∧ text = front ++ rest := by
  obtain ⟨rest, text_eq, back_eq⟩ | ⟨rest, front_eq, suffix_eq⟩ := List.append_eq_append_iff.mp same
  · exact ⟨rest, back_eq, text_eq⟩
  · cases rest with
    | nil => exact ⟨[], by simpa using suffix_eq.symm, by simpa using front_eq.symm⟩
    | cons c rest =>
        have fails := none_front c (by simp [front_eq])
        simp [suffix_eq, fails] at all_suffix

/-- A text that ends in a character that does not pass has no passing segment behind. -/
theorem nil_of_append_eq {text suffix : List α} (all_after : after.all test)
    (none_suffix : ∀ c ∈ suffix, test c = false) (nonempty : suffix ≠ [])
    (same : front ++ after = text ++ suffix) : after = [] := by
  obtain ⟨rest, -, after_eq⟩ | ⟨rest, -, suffix_eq⟩ := List.append_eq_append_iff.mp same
  · obtain ⟨c, suffix, rfl⟩ := List.exists_cons_of_ne_nil nonempty
    have fails := none_suffix c List.mem_cons_self
    simp [after_eq, fails] at all_after
  · cases after with
    | nil => rfl
    | cons c after =>
        have fails := none_suffix c (by simp [suffix_eq])
        simp [fails] at all_after

/-- On one side of a passing character outside the core, every character passes. -/
theorem all_or_all {left right : List α} {c : α} (all_before : before.all test)
    (none_core : ∀ c ∈ core, test c = false) (all_after : after.all test) (passes : test c = true)
    (same : before ++ core ++ after = left ++ c :: right) : left.all test ∨ right.all test := by
  obtain ⟨rest, -, after_eq⟩ | ⟨rest, inner, right_eq⟩ := List.append_eq_append_iff.mp same
  · right
    simp_all
  · cases rest with
    | nil =>
        right
        rw [List.nil_append] at right_eq
        rw [← right_eq, List.all_cons, Bool.and_eq_true] at all_after
        exact all_after.2
    | cons d rest =>
        obtain ⟨rfl, right_eq⟩ := List.cons_eq_cons.mp right_eq
        obtain ⟨gap, -, core_eq⟩ | ⟨gap, before_eq, -⟩ := List.append_eq_append_iff.mp inner
        · have fails := none_core c (by simp [core_eq])
          simp [passes] at fails
        · left
          rw [before_eq, List.all_append, Bool.and_eq_true] at all_before
          exact all_before.1

end Segments

import Mathlib.Data.List.Perm.Basic
import Mathlib.Tactic

/-!
# Reaching a threshold

Some elements of a fixed list are marked, and what counts is whether at least `m` of them are.  A
merge that keeps only the first `m` marks of a union cannot be told from one that keeps them all.
-/

namespace Threshold

variable {κ : Type} (keys : List κ) (m : Nat)

/-- At least `m` elements are marked. -/
def Reached (marked : κ → Bool) : Prop := m ≤ keys.countP marked

/-- Together with any further marks, both markings reach the threshold or neither does. -/
def Alike (left right : κ → Bool) : Prop :=
  ∀ further : κ → Bool, Reached keys m (fun key => left key || further key) ↔
    Reached keys m fun key => right key || further key

variable {keys m} {left middle right marked kept : κ → Bool}

theorem Alike.refl : Alike keys m marked marked := fun _ => Iff.rfl

theorem Alike.trans (first : Alike keys m left middle) (second : Alike keys m middle right) :
    Alike keys m left right := fun further => (first further).trans (second further)

theorem Alike.reached_iff (alike : Alike keys m left right) :
    Reached keys m left ↔ Reached keys m right := by
  simpa using alike fun _ => false

/-- Further marks keep markings alike. -/
theorem Alike.or (alike : Alike keys m left right) (more : κ → Bool) :
    Alike keys m (fun key => left key || more key) fun key => right key || more key := by
  intro further
  simpa only [Bool.or_assoc] using alike fun key => more key || further key

theorem Reached.mono (reached : Reached keys m left)
    (sub : ∀ key ∈ keys, left key = true → right key = true) : Reached keys m right :=
  reached.trans (List.countP_mono_left sub)

/-- The elements that a truncation keeps. -/
def firstMarked (keys : List κ) (m : Nat) (marked : κ → Bool) : List κ :=
  (keys.filter marked).take m

theorem firstMarked_sublist : (firstMarked keys m marked).Sublist keys :=
  (List.take_sublist _ _).trans List.filter_sublist

theorem length_firstMarked_eq_iff :
    (firstMarked keys m marked).length = m ↔ Reached keys m marked := by
  rw [firstMarked, List.length_take, ← List.countP_eq_length_filter]
  exact min_eq_left_iff

/-- A marking between the first `m` marks and all of them is as good as all of them. -/
theorem alike_of_firstMarked (sub : ∀ key ∈ keys, kept key = true → marked key = true)
    (first : ∀ key ∈ firstMarked keys m marked, kept key = true) : Alike keys m kept marked := by
  intro further
  refine ⟨fun reached => reached.mono fun key listed => ?_, fun reached => ?_⟩
  · simp only [Bool.or_eq_true]
    exact Or.imp_left (sub key listed)
  · by_cases many : Reached keys m marked
    · have enough : m ≤ keys.countP kept := by
        rw [← length_firstMarked_eq_iff.mpr many,
          ← List.countP_eq_length.mpr first]
        exact firstMarked_sublist.countP_le
      refine (show Reached keys m kept from enough).mono fun key _ keeps => ?_
      rw [keeps, Bool.true_or]
    · have all : firstMarked keys m marked = keys.filter marked := by
        rw [firstMarked, List.take_of_length_le]
        rw [← List.countP_eq_length_filter]
        exact (Nat.lt_of_not_le many).le
      refine reached.mono fun key listed => ?_
      simp only [Bool.or_eq_true]
      exact Or.imp_left fun marks => first key (all ▸ List.mem_filter.mpr ⟨listed, marks⟩)

end Threshold

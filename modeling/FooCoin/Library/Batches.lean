import Mathlib.Tactic

/-!
# Batches

Elements are collected and go out together: as soon as a batch has a given size, and what is left
at the end in a last batch.
-/

variable {α : Type*}

/-- The batches that are out, and the elements that are collected. -/
structure Batches (α : Type*) where
  out : List (List α)
  pending : List α

namespace Batches

/-- No elements. -/
def empty : Batches α := ⟨[], []⟩

/-- Collect an element. -/
def add (size : Nat) (batches : Batches α) (element : α) : Batches α :=
  let pending := batches.pending ++ [element]
  if size ≤ pending.length then { out := batches.out ++ [pending], pending := [] }
  else { batches with pending }

/-- All elements, in their order. -/
def elements (batches : Batches α) : List α := batches.out.flatten ++ batches.pending

/-- The batches, with a last one for what is left. -/
def all (batches : Batches α) : List (List α) :=
  if batches.pending.isEmpty then batches.out else batches.out ++ [batches.pending]

variable {size : Nat} {batches : Batches α}

theorem elements_add (size : Nat) (batches : Batches α) (element : α) :
    (batches.add size element).elements = batches.elements ++ [element] := by
  rw [add]
  split_ifs <;> simp [elements]

theorem flatten_all (batches : Batches α) : batches.all.flatten = batches.elements := by
  rw [all, elements]
  split_ifs with none
  · rw [List.isEmpty_iff.mp none, List.append_nil]
  · rw [List.flatten_append, List.flatten_singleton]

/-- Every batch that is out has the size, and fewer elements are collected. -/
structure Filled (size : Nat) (batches : Batches α) : Prop where
  full : ∀ batch ∈ batches.out, batch.length = size
  few : batches.pending.length < size

theorem filled_empty (positive : 0 < size) : (empty : Batches α).Filled size where
  full _ member := absurd member List.not_mem_nil
  few := positive

theorem Filled.add (filled : batches.Filled size) (element : α) :
    (batches.add size element).Filled size := by
  have length : (batches.pending ++ [element]).length = batches.pending.length + 1 := by simp
  have few := filled.few
  rw [Batches.add]
  split_ifs with full
  · refine ⟨fun batch member => ?_, (Nat.zero_le _).trans_lt few⟩
    rcases List.mem_append.mp member with member | member
    · exact filled.full batch member
    · obtain rfl := List.mem_singleton.mp member
      omega
  · exact ⟨filled.full, not_le.mp full⟩

/-- No batch is empty, and none is too large. -/
theorem Filled.sized (filled : batches.Filled size) :
    ∀ batch ∈ batches.all, 0 < batch.length ∧ batch.length ≤ size := by
  have full : ∀ batch ∈ batches.out, 0 < batch.length ∧ batch.length ≤ size :=
    fun batch member =>
      have length := filled.full batch member
      ⟨length ▸ (Nat.zero_le _).trans_lt filled.few, length.le⟩
  rw [all]
  split_ifs with none
  · exact full
  · intro batch member
    rcases List.mem_append.mp member with member | member
    · exact full batch member
    · obtain rfl := List.mem_singleton.mp member
      exact ⟨List.length_pos_iff.mpr fun empty => none (List.isEmpty_iff.mpr empty),
        filled.few.le⟩

end Batches

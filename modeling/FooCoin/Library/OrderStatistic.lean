import Mathlib.Data.List.Sort
import Mathlib.Tactic

/-!
# The median of a window

The upper median of a list is at least a bound exactly when no more than half of the values are
smaller.  A window that gains a value above its median keeps the median or raises it, also where it
drops its oldest value.
-/

namespace OrderStatistic

variable {α : Type*} [LinearOrder α]

/-- The upper median of a list, `other` for the empty list. -/
def median (values : List α) (other : α) : α :=
  let sorted := values.insertionSort (· ≤ ·)
  sorted.getD (sorted.length / 2) other

/-- In a sorted list the values below a bound come first. -/
private theorem le_getElem_iff {sorted : List α} (ordered : sorted.Pairwise (· ≤ ·)) {k : Nat}
    (small : k < sorted.length) (bound : α) :
    bound ≤ sorted[k] ↔ sorted.countP (· < bound) ≤ k := by
  have parts : sorted.take k ++ sorted[k] :: sorted.drop (k + 1) = sorted := by
    rw [← List.drop_eq_getElem_cons small, List.take_append_drop]
  have split : sorted.countP (· < bound) =
      (sorted.take k).countP (· < bound) +
        (sorted[k] :: sorted.drop (k + 1)).countP (· < bound) := by
    rw [← List.countP_append, parts]
  have length : (sorted.take k).length = k := List.length_take_of_le small.le
  rw [← parts] at ordered
  obtain ⟨-, tail, cross⟩ := List.pairwise_append.mp ordered
  constructor
  · intro above
    have none_later : (sorted[k] :: sorted.drop (k + 1)).countP (· < bound) = 0 := by
      rw [List.countP_eq_zero]
      intro value later
      rcases List.mem_cons.mp later with rfl | later
      · simpa using above
      · simpa using above.trans (List.rel_of_pairwise_cons tail later)
    have front := List.countP_le_length (p := (· < bound)) (l := sorted.take k)
    omega
  · intro few
    by_contra below
    have front : (sorted.take k).countP (· < bound) = (sorted.take k).length := by
      rw [List.countP_eq_length]
      intro value earlier
      simpa using (cross value earlier _ List.mem_cons_self).trans_lt (not_le.mp below)
    rw [List.countP_cons_of_pos (by simpa using below)] at split
    omega

theorem le_median_iff {values : List α} (nonempty : values ≠ []) (bound other : α) :
    bound ≤ median values other ↔ values.countP (· < bound) ≤ values.length / 2 := by
  have length := List.length_insertionSort (· ≤ ·) values
  have positive := List.length_pos_of_ne_nil nonempty
  have small : values.length / 2 < (values.insertionSort (· ≤ ·)).length := by omega
  have count := (List.perm_insertionSort (· ≤ ·) values).countP_eq (· < bound)
  rw [median, length, List.getD_eq_getElem?_getD, List.getElem?_eq_getElem small,
    Option.getD_some, le_getElem_iff (List.pairwise_insertionSort _ values), count]

/-- A window that is not longer than its span gains a value above its median. -/
theorem median_le_push {window : List α} (nonempty : window ≠ []) {span : Nat}
    (spanned : window.length ≤ span) {value other : α} (above : median window other < value) :
    median window other ≤ median ((value :: window).take span) other := by
  have positive := List.length_pos_of_ne_nil nonempty
  have pushed : (value :: window).take span ≠ [] := by
    rw [ne_eq, List.take_eq_nil_iff]
    simp only [reduceCtorEq, or_false]
    omega
  have few := (le_median_iff nonempty _ other).mp (le_refl (median window other))
  have kept : ((value :: window).take span).countP (· < median window other) ≤ _ :=
    (List.take_sublist span (value :: window)).countP_le
  rw [List.countP_cons_of_neg (by simpa using above.le)] at kept
  rw [le_median_iff pushed, List.length_take, List.length_cons]
  omega

end OrderStatistic

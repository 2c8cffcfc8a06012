import Mathlib.Data.List.Lex
import Mathlib.Tactic

/-!
# Scans over keys with a prefix

In lexicographic order the keys with a prefix are an interval.  So a cursor that is set to the least
of them and moves on until a key does not have the prefix finds all of them.
-/

namespace PrefixScan

variable {α β : Type*} [LinearOrder α] {front : List α}

/-- A key that is not less than one with a prefix and does not have the prefix itself is greater than
all keys with the prefix. -/
theorem append_lt_of_not_prefix {low : List α} {key : List α} (above : ¬key < front ++ low)
    (other : ¬front <+: key) (rest : List α) : front ++ rest < key := by
  induction front generalizing key with
  | nil => exact absurd List.nil_prefix other
  | cons first front induction =>
      cases key with
      | nil => exact absurd (List.nil_lt_cons first (front ++ low)) above
      | cons head key =>
          rcases lt_trichotomy first head with less | rfl | greater
          · exact List.cons_lt_cons_iff.mpr (.inl less)
          · have shorter : ¬front <+: key := fun found =>
              other ((List.prefix_cons_inj first).mpr found)
            have later : ¬key < front ++ low := fun less =>
              above (List.cons_lt_cons_iff.mpr (.inr ⟨rfl, less⟩))
            exact List.cons_lt_cons_iff.mpr (.inr ⟨rfl, induction later shorter⟩)
          · exact absurd (List.cons_lt_cons_iff.mpr (.inl greater)) above

section Scan

variable (key : β → List α) (start front : List α)

/-- What a cursor finds that is set to the first key from `start` on and stops at a key without the
prefix. -/
def scan (records : List β) : List β :=
  (records.dropWhile fun record => key record < start).takeWhile fun record => front <+: key record

variable {key start front} {records : List β}

/-- From a key with the prefix on, no key without it is followed by one with it. -/
private theorem takeWhile_eq_filter (sorted : records.Pairwise fun left right => key left < key right)
    {low : List α} (above : ∀ record ∈ records, ¬key record < front ++ low) :
    (records.takeWhile fun record => front <+: key record) =
      records.filter fun record => front <+: key record := by
  induction records with
  | nil => rfl
  | cons record records induction =>
      obtain ⟨later, sorted⟩ := List.pairwise_cons.mp sorted
      obtain ⟨first, above⟩ := List.forall_mem_cons.mp above
      by_cases found : front <+: key record
      · rw [List.takeWhile_cons_of_pos (by simpa using found),
          List.filter_cons_of_pos (by simpa using found), induction sorted above]
      · rw [List.takeWhile_cons_of_neg (by simpa using found),
          List.filter_cons_of_neg (by simpa using found)]
        refine (List.filter_eq_nil_iff.mpr fun next member => ?_).symm
        rw [decide_eq_true_iff]
        rintro ⟨rest, same⟩
        have before := append_lt_of_not_prefix first found rest
        exact lt_asymm (later next member) (same ▸ before)

/-- A scan from a key with the prefix finds every record with the prefix from there on. -/
theorem scan_eq_filter (sorted : records.Pairwise fun left right => key left < key right)
    (prefixed : front <+: start)
    (least : ∀ record ∈ records, front <+: key record → start ≤ key record) :
    scan key start front records = records.filter fun record => front <+: key record := by
  obtain ⟨low, rfl⟩ := prefixed
  induction records with
  | nil => rfl
  | cons record records induction =>
      obtain ⟨later, rest_sorted⟩ := List.pairwise_cons.mp sorted
      obtain ⟨first, rest_least⟩ := List.forall_mem_cons.mp least
      by_cases less : key record < front ++ low
      · have absent : ¬front <+: key record := fun found => not_le.mpr less (first found)
        rw [scan, List.dropWhile_cons_of_pos (by simpa using less),
          List.filter_cons_of_neg (by simpa using absent)]
        exact induction rest_sorted rest_least
      · rw [scan, List.dropWhile_cons_of_neg (by simpa using less)]
        refine @takeWhile_eq_filter _ _ _ _ _ _ sorted low fun next member => ?_
        rcases List.mem_cons.mp member with rfl | after
        · exact less
        · exact not_lt.mpr ((not_lt.mp less).trans (later next after).le)

end Scan

end PrefixScan

import Mathlib.Data.List.AList
import Mathlib.Tactic

/-!
# Tallies

A tally keeps an amount for each of finitely many keys, zero where it has none.  Amounts are added
under one key at a time, so the sum over any choice of keys grows by what is added under them.
-/

namespace Tally

variable {Key Amount : Type*} [AddCommGroup Amount]

/-- The amount of a chosen key. -/
def chosen (picks : Key → Bool) (key : Key) (amount : Amount) : Amount :=
  if picks key then amount else 0

section Chosen

variable {picks : Key → Bool} {key : Key}

@[simp]
theorem chosen_add (left right : Amount) :
    chosen picks key (left + right) = chosen picks key left + chosen picks key right := by
  unfold chosen
  split <;> simp

@[simp]
theorem chosen_zero : chosen picks key (0 : Amount) = 0 := by simp [chosen]

@[simp]
theorem chosen_neg (amount : Amount) : chosen picks key (-amount) = -chosen picks key amount := by
  unfold chosen
  split <;> simp

theorem chosen_of_eq_false (unpicked : picks key = false) (amount : Amount) :
    chosen picks key amount = 0 := by
  simp [chosen, unpicked]

end Chosen

/-- The sum over the chosen keys. -/
def sumOf (picks : Key → Bool) (tally : AList fun _ : Key => Amount) : Amount :=
  (tally.entries.map fun entry => chosen picks entry.1 entry.2).sum

@[simp]
theorem sumOf_empty {picks : Key → Bool} :
    sumOf picks (∅ : AList fun _ : Key => Amount) = 0 := rfl

variable [DecidableEq Key]

/-- The amount under a key. -/
def amountOf (tally : AList fun _ : Key => Amount) (key : Key) : Amount :=
  (tally.lookup key).getD 0

/-- Add an amount under a key. -/
def addTo (key : Key) (amount : Amount) (tally : AList fun _ : Key => Amount) :
    AList fun _ : Key => Amount :=
  tally.insert key (amountOf tally key + amount)

/-- Add several amounts under their keys. -/
def addAll (entries : List (Key × Amount)) (tally : AList fun _ : Key => Amount) :
    AList fun _ : Key => Amount :=
  entries.foldl (fun tally entry => addTo entry.1 entry.2 tally) tally

variable {picks : Key → Bool} {tally : AList fun _ : Key => Amount} {key : Key} {amount : Amount}

/-- Erasing a key takes away its amount. -/
private theorem sum_kerase (entries : List (Sigma fun _ : Key => Amount)) (key : Key) :
    (((entries.kerase key).map fun entry => chosen picks entry.1 entry.2).sum) +
        chosen picks key ((entries.dlookup key).getD 0) =
      (entries.map fun entry => chosen picks entry.1 entry.2).sum := by
  induction entries with
  | nil => simp
  | cons entry entries induction =>
      by_cases same : key = entry.1
      · subst same
        rw [List.kerase_cons_eq rfl, List.dlookup_cons_eq, Option.getD_some, List.map_cons,
          List.sum_cons, add_comm]
      · rw [List.kerase_cons_ne same, List.dlookup_cons_ne _ _ same, List.map_cons, List.sum_cons,
          add_assoc, induction, List.map_cons, List.sum_cons]

/-- An amount that is added under a chosen key adds to the sum. -/
@[simp]
theorem sumOf_addTo : sumOf picks (addTo key amount tally) =
    sumOf picks tally + chosen picks key amount := by
  have erased := @sum_kerase _ _ _ _ picks tally.entries key
  rw [sumOf, addTo, AList.entries_insert, List.map_cons, List.sum_cons, chosen_add, sumOf, ← erased,
    amountOf, AList.lookup]
  abel

@[simp]
theorem sumOf_addAll (entries : List (Key × Amount)) : sumOf picks (addAll entries tally) =
    sumOf picks tally + (entries.map fun entry => chosen picks entry.1 entry.2).sum := by
  induction entries generalizing tally with
  | nil => simp [addAll]
  | cons entry entries induction =>
      rw [List.map_cons, List.sum_cons, ← add_assoc, ← sumOf_addTo]
      exact induction

/-- The amount under a key is the sum over this key only. -/
theorem sumOf_single (tally : AList fun _ : Key => Amount) (key : Key) :
    sumOf (fun other => other = key) tally = amountOf tally key := by
  have others : ∀ entries : List (Sigma fun _ : Key => Amount), key ∉ entries.keys →
      (entries.map fun entry => chosen (fun other => other = key) entry.1 entry.2).sum = 0 := by
    intro entries absent
    refine List.sum_eq_zero fun value member => ?_
    obtain ⟨entry, inside, rfl⟩ := List.mem_map.mp member
    refine chosen_of_eq_false (decide_eq_false ?_) _
    rintro rfl
    exact absent (List.mem_keys_of_mem inside)
  have erased := @sum_kerase _ _ _ _ (fun other => other = key) tally.entries key
  rw [others _ (List.notMem_keys_kerase key tally.nodupKeys), zero_add] at erased
  rw [sumOf, ← erased, chosen, if_pos (decide_eq_true rfl)]
  rfl

end Tally

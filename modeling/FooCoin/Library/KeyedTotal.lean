import Mathlib.Algebra.BigOperators.Group.Finset.Piecewise
import Mathlib.Algebra.Order.BigOperators.Group.Finset
import Mathlib.Tactic

/-!
# Totals over keyed stores

A store is a partial function on a finite type of keys.  Its total adds up a weight over the values
present.  Changing one key changes the total by the difference of the two weights, and a store that
is pointwise lighter has the smaller total.
-/

namespace KeyedTotal

open Function

variable {Key Value : Type*} [Fintype Key]

/-- The weight of a possibly absent value. -/
def weightOf (weight : Value → Int) (value : Option Value) : Int := (value.map weight).getD 0

@[simp]
theorem weightOf_none (weight : Value → Int) : weightOf weight none = 0 := rfl

@[simp]
theorem weightOf_some (weight : Value → Int) (value : Value) :
    weightOf weight (some value) = weight value := rfl

/-- The sum of the weights of the values in a store. -/
def total (weight : Value → Int) (store : Key → Option Value) : Int :=
  ∑ key, weightOf weight (store key)

@[simp]
theorem total_empty (weight : Value → Int) : total weight (fun _ : Key => none) = 0 := by
  simp [total]

/-- Changing one key changes the total by the difference of the weights. -/
theorem total_update [DecidableEq Key] (weight : Value → Int) (store : Key → Option Value) (key : Key)
    (value : Option Value) :
    total weight (update store key value) =
      total weight store - weightOf weight (store key) + weightOf weight value := by
  have others : ∑ other ∈ Finset.univ \ {key}, weightOf weight (update store key value other) =
      ∑ other ∈ Finset.univ \ {key}, weightOf weight (store other) := by
    apply Finset.sum_congr rfl
    intro other member
    rw [update_of_ne (by simpa using member)]
  have after := Finset.sum_sdiff_eq_sub (f := fun other => weightOf weight (store other))
    (Finset.subset_univ {key})
  have split := Finset.sum_sdiff (f := fun other => weightOf weight (update store key value other))
    (Finset.subset_univ {key})
  simp only [Finset.sum_singleton, update_self] at after split
  unfold total
  omega

/-- A pointwise lighter store has the smaller total. -/
theorem total_le_total {weight : Value → Int} {low high : Key → Option Value}
    (lighter : ∀ key, weightOf weight (low key) ≤ weightOf weight (high key)) :
    total weight low ≤ total weight high :=
  Finset.sum_le_sum fun key _ => lighter key

/-- The weights of present values are non-negative. -/
theorem zero_le_weightOf {weight : Value → Int} (light : ∀ value, 0 ≤ weight value)
    (value : Option Value) : 0 ≤ weightOf weight value := by
  cases value with
  | none => exact le_rfl
  | some value => exact light value

theorem total_nonneg {weight : Value → Int} (light : ∀ value, 0 ≤ weight value)
    (store : Key → Option Value) : 0 ≤ total weight store :=
  Finset.sum_nonneg fun key _ => zero_le_weightOf light (store key)

/-- A total of non-negative weights is at least each of them. -/
theorem weightOf_le_total {weight : Value → Int} (light : ∀ value, 0 ≤ weight value)
    (store : Key → Option Value) (key : Key) : weightOf weight (store key) ≤ total weight store :=
  Finset.single_le_sum (f := fun key => weightOf weight (store key))
    (fun key _ => zero_le_weightOf light (store key)) (Finset.mem_univ key)

end KeyedTotal

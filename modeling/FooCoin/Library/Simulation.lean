import Mathlib.Tactic

/-!
# Runs that refine runs

A system takes operations one after another, gives a result for each and moves on to another state.
Where each step from related states gives the same result and ends in related states, a whole run
does, as long as its steps meet a condition.
-/

namespace Simulation

variable {Op Result σ τ : Type*}

/-- The results of some operations and the state after them. -/
def run (step : Op → σ → Result × σ) : List Op → σ → List Result × σ
  | [], state => ([], state)
  | op :: ops, state =>
      let (result, state) := step op state
      let (results, state) := run step ops state
      (result :: results, state)

/-- Every step of the run meets a condition on its operation and the state before it. -/
def Admits (step : Op → σ → Result × σ) (meets : Op → σ → Prop) : List Op → σ → Prop
  | [], _ => True
  | op :: ops, state => meets op state ∧ Admits step meets ops (step op state).2

instance decidableAdmits (step : Op → σ → Result × σ) (meets : Op → σ → Prop)
    [∀ op state, Decidable (meets op state)] (ops : List Op) (state : σ) :
    Decidable (Admits step meets ops state) :=
  match ops with
  | [] => inferInstanceAs (Decidable True)
  | op :: ops =>
      have := decidableAdmits step meets ops (step op state).2
      inferInstanceAs (Decidable (meets op state ∧ Admits step meets ops (step op state).2))

variable {step : Op → σ → Result × σ} {spec : Op → τ → Result × τ} {meets : Op → σ → Prop}
  {related : σ → τ → Prop}

/-- A run whose steps meet the condition gives the results of the related run. -/
theorem run_refines
    (simulates : ∀ op state other, related state other → meets op state →
      (step op state).1 = (spec op other).1 ∧ related (step op state).2 (spec op other).2)
    {ops : List Op} {state : σ} {other : τ} (start : related state other)
    (admits : Admits step meets ops state) :
    (run step ops state).1 = (run spec ops other).1 ∧
      related (run step ops state).2 (run spec ops other).2 := by
  induction ops generalizing state other with
  | nil => exact ⟨rfl, start⟩
  | cons op ops induction =>
      obtain ⟨result, next⟩ := simulates op state other start admits.1
      obtain ⟨results, ends⟩ := induction next admits.2
      exact ⟨List.cons_eq_cons.mpr ⟨result, results⟩, ends⟩

end Simulation

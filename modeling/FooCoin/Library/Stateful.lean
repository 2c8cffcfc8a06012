import Mathlib.Tactic

/-!
# Actions that keep their state when they fail

An action takes a state to a result and the state it leaves behind, also when it fails half-way.
`sequence` runs actions until one fails; `onEach` runs an action on every element of a list of
states.
-/

namespace Stateful

variable {ε σ α : Type*}

/-- A state transformer that may fail and keeps its state. -/
abbrev Action (ε σ : Type*) := σ → Except ε Unit × σ

/-- Run an action for every element until one fails. -/
def sequence (step : α → Action ε σ) : List α → Action ε σ
  | [], state => (.ok (), state)
  | value :: values, state =>
      match step value state with
      | (.error failure, state) => (.error failure, state)
      | (.ok (), state) => sequence step values state

/-- Run an action on every state of a list until one fails. -/
def onEach (step : Action ε σ) : Action ε (List σ)
  | [] => (.ok (), [])
  | state :: states =>
      match step state with
      | (.error failure, state) => (.error failure, state :: states)
      | (.ok (), state) => ((onEach step states).1, state :: (onEach step states).2)

/-- A property that every step keeps is kept. -/
theorem sequence_keeps {step : α → Action ε σ} {invariant : σ → Prop} {values : List α}
    (keeps : ∀ value ∈ values, ∀ state, invariant state → invariant (step value state).2)
    {state : σ} (holds : invariant state) : invariant (sequence step values state).2 := by
  induction values generalizing state with
  | nil => exact holds
  | cons value values induction =>
      have first := keeps value List.mem_cons_self state holds
      simp only [sequence]
      split
      · rename_i after outcome
        rwa [outcome] at first
      · rename_i after outcome
        rw [outcome] at first
        exact induction (fun later member => keeps later (List.mem_cons_of_mem value member)) first

/-- A sequence that succeeds ran its first step and the others after it. -/
theorem sequence_cons_eq_ok {step : α → Action ε σ} {value : α} {values : List α}
    {state after : σ} :
    sequence step (value :: values) state = (.ok (), after) ↔
      ∃ middle, step value state = (.ok (), middle) ∧
        sequence step values middle = (.ok (), after) := by
  simp only [sequence]
  constructor
  · intro succeeds
    split at succeeds
    · simp at succeeds
    · rename_i middle first
      exact ⟨middle, first, succeeds⟩
  · rintro ⟨middle, first, rest⟩
    simp only [first, rest]

/-- Where an action succeeds on a list, it succeeded on every state. -/
theorem onEach_eq_ok {step : Action ε σ} {states after : List σ} :
    onEach step states = (.ok (), after) ↔
      List.Forall₂ (fun state after => step state = (.ok (), after)) states after := by
  induction states generalizing after with
  | nil => simp [onEach, eq_comm]
  | cons state states induction =>
      simp only [onEach]
      constructor
      · intro succeeds
        split at succeeds
        · simp at succeeds
        · rename_i first outcome
          obtain ⟨rest, rfl⟩ := Prod.mk.inj succeeds
          exact .cons outcome (induction.mp (Prod.ext rest rfl))
      · intro each
        cases each with
        | cons first rest =>
            have later := induction.mpr rest
            simp only [first, later]

private theorem forall₂_trans {β γ : Type*} {first : α → β → Prop} {second : β → γ → Prop}
    {left : List α} {middle : List β} {right : List γ} (lower : List.Forall₂ first left middle)
    (upper : List.Forall₂ second middle right) :
    List.Forall₂ (fun value result => ∃ between, first value between ∧ second between result) left
      right := by
  induction lower generalizing right with
  | nil =>
      cases upper
      exact .nil
  | cons head _ induction =>
      cases upper with
      | cons head' rest => exact .cons ⟨_, head, head'⟩ (induction rest)

/-- Steps that run an action on every state of a list run it on each state by itself. -/
theorem sequence_onEach_eq_ok {step : α → Action ε σ} {values : List α} {states after : List σ}
    (succeeds : sequence (fun value => onEach (step value)) values states = (.ok (), after)) :
    List.Forall₂ (fun state after => sequence step values state = (.ok (), after)) states after := by
  induction values generalizing states with
  | nil =>
      cases succeeds
      exact List.forall₂_same.mpr fun state _ => rfl
  | cons value values induction =>
      obtain ⟨middle, first, rest⟩ := sequence_cons_eq_ok.mp succeeds
      have composed := forall₂_trans (onEach_eq_ok.mp first) (induction rest)
      exact composed.imp fun state after => sequence_cons_eq_ok.mpr

/-- A failure of a sequence is one of a step. -/
theorem sequence_error {step : α → Action ε σ} {allowed : ε → Prop} {values : List α}
    (each : ∀ value state failure, (step value state).1 = .error failure → allowed failure)
    {state : σ} {failure : ε} (fails : (sequence step values state).1 = .error failure) :
    allowed failure := by
  induction values generalizing state with
  | nil => simp [sequence] at fails
  | cons value values induction =>
      simp only [sequence] at fails
      split at fails
      · rename_i own after outcome
        cases fails
        exact each value state failure (by rw [outcome])
      · exact induction fails

/-- A failure on a list of states is one on a state. -/
theorem onEach_error {step : Action ε σ} {allowed : ε → Prop} {states : List σ}
    (each : ∀ state failure, (step state).1 = .error failure → allowed failure) {failure : ε}
    (fails : (onEach step states).1 = .error failure) : allowed failure := by
  induction states with
  | nil => simp [onEach] at fails
  | cons state states induction =>
      simp only [onEach] at fails
      split at fails
      · rename_i own after outcome
        cases fails
        exact each state failure (by rw [outcome])
      · exact induction fails

/-- A sequence over values that were mapped first. -/
theorem sequence_map {β : Type*} (step : α → Action ε σ) (map : β → α) (values : List β)
    (state : σ) :
    sequence step (values.map map) state = sequence (fun value => step (map value)) values state := by
  induction values generalizing state with
  | nil => rfl
  | cons value values induction =>
      simp only [List.map_cons, sequence]
      split
      · rfl
      · exact induction _

/-- A sequence over the values of two lists. -/
theorem sequence_append (step : α → Action ε σ) (front back : List α) (state : σ) :
    sequence step (front ++ back) state =
      match sequence step front state with
      | (.error failure, state) => (.error failure, state)
      | (.ok (), state) => sequence step back state := by
  induction front generalizing state with
  | nil => rfl
  | cons value front induction =>
      simp only [List.cons_append, sequence]
      split
      · rfl
      · exact induction _

theorem sequence_append_eq_ok {step : α → Action ε σ} {front back : List α} {state after : σ}
    (succeeds : sequence step (front ++ back) state = (.ok (), after)) :
    ∃ middle, sequence step front state = (.ok (), middle) ∧
      sequence step back middle = (.ok (), after) := by
  rw [sequence_append] at succeeds
  split at succeeds
  · simp at succeeds
  · rename_i middle first
    exact ⟨middle, first, succeeds⟩

/-- A sequence over parts of parts. -/
theorem sequence_flatMap {β : Type*} (step : α → Action ε σ) (parts : β → List α)
    (values : List β) (state : σ) :
    sequence (fun value => sequence step (parts value)) values state =
      sequence step (values.flatMap parts) state := by
  induction values generalizing state with
  | nil => rfl
  | cons value values induction =>
      rw [List.flatMap_cons, sequence_append]
      simp only [sequence]
      split
      · rfl
      · exact induction _

end Stateful

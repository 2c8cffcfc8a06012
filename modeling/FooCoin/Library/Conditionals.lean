import Mathlib.Data.List.Basic

/-!
# Conditionals in a flat instruction list

A machine keeps a stack of flags for the open conditionals and executes an instruction if all flags
are set; otherwise it only passes over it.  Conditionals may have any number of branches, which are
taken in turn.  A list that is run to its end with no conditional left open spells structured code,
and running it is running that code.
-/

namespace Conditionals

/-- An instruction and its part in the control structure. -/
inductive Token (α : Type)
  | plain (instr : α)
  /-- Test a value and open a conditional. -/
  | start (instr : α)
  /-- Change to the next branch. -/
  | next (instr : α)
  /-- Close the innermost conditional. -/
  | close (instr : α)

/-- What the instructions do. -/
structure Machine (α σ ε : Type) where
  /-- Execute a plain instruction. -/
  exec : α → σ → Except ε σ
  /-- Pass over an instruction. -/
  pass : α → σ → Except ε σ
  /-- The value that a conditional tests, and the state after the test. -/
  test : α → σ → Except ε (Bool × σ)
  /-- There is no open conditional. -/
  unbalanced : ε

variable {α σ ε : Type}

namespace Machine

/-- Execute a plain instruction, or pass over it. -/
def apply (m : Machine α σ ε) (live : Bool) (instr : α) (state : σ) : Except ε σ :=
  if live then m.exec instr state else m.pass instr state

/-- Test the value of a conditional, or pass over it. -/
def enter (m : Machine α σ ε) (live : Bool) (instr : α) (state : σ) : Except ε (Bool × σ) :=
  if live then m.test instr state else Prod.mk false <$> m.pass instr state

/-- Run one token with the flags of the open conditionals, innermost first. -/
def step (m : Machine α σ ε) : Token α → σ × List Bool → Except ε (σ × List Bool)
  | .plain instr, (state, flags) => do
      let state ← m.apply (flags.all id) instr state
      pure (state, flags)
  | .start instr, (state, flags) => do
      let (value, state) ← m.enter (flags.all id) instr state
      pure (state, value :: flags)
  | .next instr, (state, flags) => do
      let state ← m.pass instr state
      match flags with
      | [] => .error m.unbalanced
      | flag :: flags => pure (state, (!flag) :: flags)
  | .close instr, (state, flags) => do
      let state ← m.pass instr state
      match flags with
      | [] => .error m.unbalanced
      | _ :: flags => pure (state, flags)

/-- Run some tokens. -/
def run (m : Machine α σ ε) : List (Token α) → σ × List Bool → Except ε (σ × List Bool)
  | [], config => pure config
  | token :: tokens, config => m.step token config >>= m.run tokens

end Machine

/-! ## Structured code -/

mutual

/-- A sequence of instructions and conditionals. -/
inductive Code (α : Type)
  | done
  | plain (instr : α) (later : Code α)
  | cond (head : α) (branches : Branches α) (last : α) (later : Code α)

/-- The branches of a conditional, of which every other one is taken. -/
inductive Branches (α : Type)
  | single (body : Code α)
  | more (body : Code α) (separator : α) (others : Branches α)

end

mutual

/-- The tokens that spell structured code. -/
def Code.spell : Code α → List (Token α)
  | .done => []
  | .plain instr later => .plain instr :: later.spell
  | .cond head branches last later =>
      .start head :: (branches.spell ++ .close last :: later.spell)

/-- The tokens that spell the branches of a conditional. -/
def Branches.spell : Branches α → List (Token α)
  | .single body => body.spell
  | .more body separator others => body.spell ++ .next separator :: others.spell

end

mutual

/-- Run structured code, or pass over it where it is not `live`. -/
def Code.exec (m : Machine α σ ε) (live : Bool) : Code α → σ → Except ε σ
  | .done, state => pure state
  | .plain instr later, state => do
      let state ← m.apply live instr state
      later.exec m live state
  | .cond head branches last later, state => do
      let (value, state) ← m.enter live head state
      let state ← branches.exec m live value state
      let state ← m.pass last state
      later.exec m live state

/-- Run the branches in turn: the first one if the value is set, the second one if it is not. -/
def Branches.exec (m : Machine α σ ε) (live value : Bool) : Branches α → σ → Except ε σ
  | .single body, state => body.exec m (value && live) state
  | .more body separator others, state => do
      let state ← body.exec m (value && live) state
      let state ← m.pass separator state
      others.exec m live (!value) state

end

/-- The flag that is left after the last branch. -/
def Branches.lastFlag : Branches α → Bool → Bool
  | .single _, value => value
  | .more _ _ others, value => others.lastFlag (!value)

section Agree

variable (m : Machine α σ ε)

mutual

/-- Running what spells some code is running the code. -/
theorem Code.run_spell (code : Code α) (rest : List (Token α)) (state : σ) (flags : List Bool) :
    m.run (code.spell ++ rest) (state, flags) =
      code.exec m (flags.all id) state >>= fun state => m.run rest (state, flags) := by
  cases code with
  | done => simp [Code.spell, Code.exec]
  | plain instr later =>
      simp only [Code.spell, Code.exec, List.cons_append, Machine.run, Machine.step, bind_assoc,
        pure_bind, later.run_spell rest _ flags]
  | cond head branches last later =>
      have closes (flag : Bool) (state : σ) :
          m.run (.close last :: (later.spell ++ rest)) (state, flag :: flags) =
            m.pass last state >>= fun state => later.exec m (flags.all id) state >>= fun state =>
              m.run rest (state, flags) := by
        simp only [Machine.run, Machine.step, bind_assoc, pure_bind,
          later.run_spell rest _ flags]
      have inside (value : Bool) (state : σ) :
          m.run (branches.spell ++ .close last :: (later.spell ++ rest)) (state, value :: flags) =
            branches.exec m (flags.all id) value state >>= fun state =>
              m.pass last state >>= fun state => later.exec m (flags.all id) state >>=
                fun state => m.run rest (state, flags) := by
        rw [branches.run_spell _ state value flags]
        exact congrArg _ (funext fun state => closes _ state)
      simp only [Code.spell, Code.exec, List.cons_append, List.append_assoc, Machine.run,
        Machine.step, bind_assoc, pure_bind, inside]

/-- Running what spells some branches is running the branches. -/
theorem Branches.run_spell (branches : Branches α) (rest : List (Token α)) (state : σ)
    (value : Bool) (flags : List Bool) :
    m.run (branches.spell ++ rest) (state, value :: flags) =
      branches.exec m (flags.all id) value state >>= fun state =>
        m.run rest (state, branches.lastFlag value :: flags) := by
  cases branches with
  | single body =>
      simp only [Branches.spell, Branches.exec, Branches.lastFlag,
        body.run_spell rest state (value :: flags), List.all_cons, id]
  | more body separator others =>
      simp only [Branches.spell, Branches.exec, Branches.lastFlag, List.append_assoc,
        List.cons_append, body.run_spell _ state (value :: flags), List.all_cons, id, Machine.run,
        Machine.step, bind_assoc, pure_bind, others.run_spell rest _ (!value) flags]

end
/-! ## What is run to its end is structured -/

/-- Put an instruction in front of the first branch. -/
def Branches.cons (instr : α) : Branches α → Branches α
  | .single body => .single (.plain instr body)
  | .more body separator others => .more (.plain instr body) separator others

/-- Put a conditional in front of the first branch. -/
def Branches.nest (head : α) (inner : Branches α) (last : α) : Branches α → Branches α
  | .single body => .single (.cond head inner last body)
  | .more body separator others => .more (.cond head inner last body) separator others

theorem Branches.spell_cons (instr : α) (branches : Branches α) :
    (branches.cons instr).spell = .plain instr :: branches.spell := by
  cases branches with
  | single body => rfl
  | more body separator others => rfl

theorem Branches.spell_nest (head : α) (inner : Branches α) (last : α) (branches : Branches α) :
    (nest head inner last branches).spell =
      .start head :: (inner.spell ++ .close last :: branches.spell) := by
  cases branches with
  | single body => rfl
  | more body separator others =>
      simp only [nest, Branches.spell, Code.spell, List.cons_append, List.append_assoc]

/-- What is left to run spells the rest of some branches for each open conditional, and then
code. -/
def Spells : Nat → List (Token α) → Prop
  | 0, tokens => ∃ code : Code α, code.spell = tokens
  | count + 1, tokens => ∃ (branches : Branches α) (last : α) (rest : List (Token α)),
      tokens = branches.spell ++ .close last :: rest ∧ Spells count rest

theorem Spells.plain {count : Nat} {tokens : List (Token α)} (spells : Spells count tokens)
    (instr : α) : Spells count (.plain instr :: tokens) := by
  cases count with
  | zero =>
      obtain ⟨code, rfl⟩ := spells
      exact ⟨.plain instr code, rfl⟩
  | succ count =>
      obtain ⟨branches, last, rest, rfl, spells⟩ := spells
      exact ⟨branches.cons instr, last, rest, by rw [Branches.spell_cons]; rfl, spells⟩

theorem Spells.start {count : Nat} {tokens : List (Token α)} (spells : Spells (count + 1) tokens)
    (head : α) : Spells count (.start head :: tokens) := by
  obtain ⟨inner, closing, rest, rfl, spells⟩ := spells
  cases count with
  | zero =>
      obtain ⟨code, rfl⟩ := spells
      exact ⟨.cond head inner closing code, rfl⟩
  | succ count =>
      obtain ⟨branches, last, rest, rfl, spells⟩ := spells
      exact ⟨.nest head inner closing branches, last, rest, by
        rw [Branches.spell_nest, List.cons_append, List.append_assoc, List.cons_append], spells⟩

theorem Spells.next {count : Nat} {tokens : List (Token α)} (spells : Spells (count + 1) tokens)
    (separator : α) : Spells (count + 1) (.next separator :: tokens) := by
  obtain ⟨branches, last, rest, rfl, spells⟩ := spells
  exact ⟨.more .done separator branches, last, rest, rfl, spells⟩

theorem Spells.close {count : Nat} {tokens : List (Token α)} (spells : Spells count tokens)
    (last : α) : Spells (count + 1) (.close last :: tokens) :=
  ⟨.single .done, last, tokens, rfl, spells⟩

private theorem bind_eq_ok {β γ : Type} {first : Except ε β} {later : β → Except ε γ} {result : γ}
    (done : first >>= later = .ok result) :
    ∃ value, first = .ok value ∧ later value = .ok result := by
  cases first with
  | error failure => cases done
  | ok value => exact ⟨value, rfl, done⟩

/-- A step to a configuration from which the rest is structured. -/
theorem Machine.spells_of_step {token : Token α} {tokens : List (Token α)} {state after : σ}
    {flags flags' : List Bool} (stepped : m.step token (state, flags) = .ok (after, flags'))
    (spells : Spells flags'.length tokens) : Spells flags.length (token :: tokens) := by
  cases token with
  | plain instr =>
      obtain ⟨_, -, same⟩ := bind_eq_ok stepped
      cases same
      exact spells.plain instr
  | start head =>
      obtain ⟨_, -, same⟩ := bind_eq_ok stepped
      cases same
      exact spells.start head
  | next separator =>
      obtain ⟨_, -, same⟩ := bind_eq_ok stepped
      cases flags with
      | nil => cases same
      | cons flag flags =>
          cases same
          exact spells.next separator
  | close last =>
      obtain ⟨_, -, same⟩ := bind_eq_ok stepped
      cases flags with
      | nil => cases same
      | cons flag flags =>
          cases same
          exact spells.close last

/-- Tokens that are run with all conditionals closed in the end are structured. -/
theorem Machine.spells_of_run {tokens : List (Token α)} {state after : σ} {flags : List Bool}
    (ran : m.run tokens (state, flags) = .ok (after, [])) : Spells flags.length tokens := by
  induction tokens generalizing state flags with
  | nil =>
      cases ran
      exact ⟨.done, rfl⟩
  | cons token tokens induction =>
      obtain ⟨⟨middle, flags'⟩, stepped, ran⟩ := bind_eq_ok ran
      exact m.spells_of_step stepped (induction ran)

/-- A list of tokens runs to its end exactly if it spells code that does. -/
theorem Machine.run_eq_ok_iff {tokens : List (Token α)} {state after : σ} :
    m.run tokens (state, []) = .ok (after, []) ↔
      ∃ code : Code α, code.spell = tokens ∧ code.exec m true state = .ok after := by
  have agree (code : Code α) : m.run code.spell (state, []) = .ok (after, []) ↔
      code.exec m true state = .ok after := by
    have whole := code.run_spell m [] state []
    rw [List.append_nil, List.all_nil] at whole
    rw [whole]
    cases code.exec m true state with
    | error failure => exact iff_of_false nofun nofun
    | ok final => simp [Machine.run, pure, Except.pure, bind, Except.bind]
  constructor
  · intro ran
    obtain ⟨code, rfl⟩ := m.spells_of_run ran
    exact ⟨code, rfl, (agree code).mp ran⟩
  · rintro ⟨code, rfl, done⟩
    exact (agree code).mpr done

end Agree

end Conditionals

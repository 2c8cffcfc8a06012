import FooCoin.Library.Conditionals
import FooCoin.Script.Evaluate

/-!
# The control structure of scripts

`EvalScript` runs a flat list of instructions with a stack of flags.  Here a script is code with
nested conditionals: a conditional tests the top of the stack, takes every other one of its branches
and only accounts for the instructions of the branches in between.
-/

namespace FooCoin

open Op Counted Conditionals

/-- An instruction with the script after it. -/
structure Instruction where
  opcode : Nat
  vchPushValue : Valtype
  rest : CScript

/-- The part of an instruction in the control structure. -/
def Instruction.token (instr : Instruction) : Token Instruction :=
  if instr.opcode = OP_IF ∨ instr.opcode = OP_NOTIF then .start instr
  else if instr.opcode = OP_ELSE then .next instr
  else if instr.opcode = OP_ENDIF then .close instr
  else .plain instr

/-- A script consists of some instructions. -/
inductive Tokenizes : CScript → List (Token Instruction) → Prop
  | nil : Tokenizes [] []
  | cons {pc rest : CScript} {opcode : Nat} {vchPushValue : Valtype}
      {tokens : List (Token Instruction)}
      (first : getOp pc = some (opcode, vchPushValue, rest)) (later : Tokenizes rest tokens) :
      Tokenizes pc (Instruction.token ⟨opcode, vchPushValue, rest⟩ :: tokens)

/-- The variables of `EvalScript` besides the program counter and the flags. -/
structure ScriptState where
  stack : Stack
  altstack : Stack
  nOpCount : Nat
  codehash : CScript

/-- The variables inside some open conditionals. -/
def ScriptState.within (state : ScriptState) (vfExec : List Bool) : EvalState where
  stack := state.stack
  altstack := state.altstack
  vfExec := vfExec
  nOpCount := state.nOpCount
  codehash := state.codehash

/-- The variables without the flags. -/
def EvalState.outside (state : EvalState) : ScriptState where
  stack := state.stack
  altstack := state.altstack
  nOpCount := state.nOpCount
  codehash := state.codehash

/-! ## What instructions do -/

/-- Check and count an instruction, executed or not. -/
def account (instr : Instruction) (state : ScriptState) : EvalResult ScriptState := do
  demand (instr.vchPushValue.length ≤ 520)
  let nOpCount := if OP_16 < instr.opcode then state.nOpCount + 1 else state.nOpCount
  demand (OP_16 < instr.opcode → nOpCount ≤ 201)
  demand (instr.opcode ∉ disabledOpcodes)
  pure { state with nOpCount }

/-- The limit of the stacks after an instruction. -/
def limit (state : ScriptState) : EvalResult ScriptState := do
  demand (state.stack.length + state.altstack.length ≤ 1000)
  pure state

/-- An opcode among the branches is one of the four that open, change and close them. -/
def Instruction.Branches (instr : Instruction) : Prop :=
  OP_IF ≤ instr.opcode ∧ instr.opcode ≤ OP_ENDIF →
    instr.opcode = OP_IF ∨ instr.opcode = OP_NOTIF ∨ instr.opcode = OP_ELSE ∨
      instr.opcode = OP_ENDIF

instance (instr : Instruction) : Decidable instr.Branches := by
  unfold Instruction.Branches
  infer_instance

/-- Pass over an instruction. -/
def passOver (instr : Instruction) (state : ScriptState) : EvalResult ScriptState := do
  let state ← account instr state
  demand instr.Branches
  limit state

variable (crypto : Crypto) (check : SignatureCheck)

/-- Push the operand or run the switch. -/
def operate (instr : Instruction) (state : ScriptState) : EvalResult ScriptState :=
  if instr.opcode ≤ OP_PUSHDATA4 then
    pure { state with stack := instr.vchPushValue :: state.stack }
  else
    EvalState.outside <$>
      (evalOp crypto check instr.opcode instr.rest (state.within [])).outcome

/-- Execute an instruction that is no conditional. -/
def executePlain (instr : Instruction) (state : ScriptState) : EvalResult ScriptState := do
  let state ← account instr state
  let state ← operate crypto check instr state
  limit state

/-- Pop the value that a conditional tests. -/
def testTop (instr : Instruction) (state : ScriptState) : EvalResult (Bool × ScriptState) := do
  let state ← account instr state
  demand (1 ≤ state.stack.length)
  let fValue := castToBool (← stacktop state.stack 1)
  let fValue := if instr.opcode = OP_NOTIF then !fValue else fValue
  let stack ← popstack state.stack
  let state ← limit { state with stack }
  pure (fValue, state)

/-- The script machine. -/
def scriptMachine : Machine Instruction ScriptState EvalFailure where
  exec := executePlain crypto check
  pass := passOver
  test := testTop
  unbalanced := .returnedFalse

/-! ## The flat machine -/

section Step

variable {crypto : Crypto} {check : SignatureCheck} {instr : Instruction} {state : ScriptState}
  {vfExec : List Bool}

/-- An instruction is accounted for, executed and followed by the limit of the stacks. -/
private theorem evalInstruction_within :
    (evalInstruction crypto check instr.opcode instr.vchPushValue instr.rest
        (state.within vfExec)).outcome =
      (do
        let state ← account instr state
        let after ← (evalExecuted crypto check instr.opcode instr.vchPushValue instr.rest
          (state.within vfExec)).outcome
        demand (after.stack.length + after.altstack.length ≤ 1000)
        pure after) := by
  simp only [evalInstruction, outcome_bind, outcome_free, outcome_pure, account, bind_assoc,
    pure_bind]
  rfl

/-- The switch does not look at the flags, except for the conditionals. -/
private theorem evalOp_within (plain : ¬(OP_IF ≤ instr.opcode ∧ instr.opcode ≤ OP_ENDIF)) :
    (evalOp crypto check instr.opcode instr.rest (state.within vfExec)).outcome =
      (fun after => (EvalState.outside after).within vfExec) <$>
        (evalOp crypto check instr.opcode instr.rest (state.within [])).outcome := by
  unfold evalOp
  rw [if_neg plain, if_neg plain]
  split_ifs
  · rfl
  · simp only [checkSigOp, outcome_bind, outcome_free, map_bind]
    rfl
  · simp only [checkMultisigOp, outcome_bind, outcome_free, map_bind]
    rfl
  · simp only [outcome_bind, outcome_free, map_bind]
    rfl

private theorem within_limit (state : ScriptState) :
    (do
      demand ((state.within vfExec).stack.length + (state.within vfExec).altstack.length ≤ 1000)
      pure (state.within vfExec)) = (fun after => after.within vfExec) <$> limit state := by
  simp only [limit, map_bind, map_pure]
  rfl

private theorem refused_branch (refused : ¬instr.Branches) (after : EvalState) :
    branchOp instr.opcode after = .error .returnedFalse := by
  unfold Instruction.Branches at refused
  unfold branchOp
  rw [if_neg (by tauto), if_neg (by tauto), if_neg (by tauto)]

/-- An instruction outside of the conditionals. -/
private theorem evalExecuted_plain (token : instr.token = .plain instr) :
    (evalExecuted crypto check instr.opcode instr.vchPushValue instr.rest
        (state.within vfExec)).outcome =
      (fun after => after.within vfExec) <$>
        (if vfExec.all id then operate crypto check instr state else do
          demand instr.Branches
          pure state) := by
  have not_branch : ¬(instr.opcode = OP_IF ∨ instr.opcode = OP_NOTIF) ∧ instr.opcode ≠ OP_ELSE ∧
      instr.opcode ≠ OP_ENDIF := by
    unfold Instruction.token at token
    split_ifs at token with opens changes closes
    exact ⟨opens, changes, closes⟩
  have live : (state.within vfExec).fExec = vfExec.all id := rfl
  unfold evalExecuted operate
  rw [live]
  by_cases inside : OP_IF ≤ instr.opcode ∧ instr.opcode ≤ OP_ENDIF
  · have refused : ¬instr.Branches := by
      unfold Instruction.Branches
      tauto
    have operator : ¬instr.opcode ≤ OP_PUSHDATA4 := by
      have lower := inside.1
      simp only [OP_IF, OP_PUSHDATA4] at lower ⊢
      omega
    have fails (after : EvalState) :
        (evalOp crypto check instr.opcode instr.rest after).outcome = .error .returnedFalse := by
      rw [evalOp, if_pos inside, outcome_free, refused_branch refused]
    rw [if_neg (fun executed => operator executed.2), if_pos (.inr inside), if_neg operator, fails,
      fails, demand, if_neg refused]
    split_ifs <;> rfl
  · have allowed : instr.Branches := fun branch => absurd branch inside
    cases vfExec.all id with
    | false => simp [inside, allowed, demand]
    | true =>
        by_cases push : instr.opcode ≤ OP_PUSHDATA4
        · simp [push]
          rfl
        · rw [if_neg (fun executed => push executed.2), if_pos (.inl rfl), if_pos rfl, if_neg push,
            evalOp_within inside, Functor.map_map]

/-- An instruction that opens a conditional. -/
private theorem evalExecuted_start (opens : instr.opcode = OP_IF ∨ instr.opcode = OP_NOTIF) :
    (evalExecuted crypto check instr.opcode instr.vchPushValue instr.rest
        (state.within vfExec)).outcome =
      if vfExec.all id then do
        demand (1 ≤ state.stack.length)
        let fValue := castToBool (← stacktop state.stack 1)
        let fValue := if instr.opcode = OP_NOTIF then !fValue else fValue
        let stack ← popstack state.stack
        pure (({ state with stack } : ScriptState).within (fValue :: vfExec))
      else pure (state.within (false :: vfExec)) := by
  have live : (state.within vfExec).fExec = vfExec.all id := rfl
  have inside : OP_IF ≤ instr.opcode ∧ instr.opcode ≤ OP_ENDIF := by
    rcases opens with same | same <;> rw [same] <;> decide
  have operator : ¬instr.opcode ≤ OP_PUSHDATA4 := by
    rcases opens with same | same <;> rw [same] <;> decide
  rw [evalExecuted, if_neg (fun executed => operator executed.2), if_pos (.inr inside), evalOp,
    if_pos inside, outcome_free, branchOp, if_pos opens, live]
  rfl

/-- An instruction that changes or closes a branch. -/
private theorem evalExecuted_branch
    (branch : instr.opcode = OP_ELSE ∨ instr.opcode = OP_ENDIF) :
    (evalExecuted crypto check instr.opcode instr.vchPushValue instr.rest
        (state.within vfExec)).outcome =
      match vfExec with
      | [] => .error .returnedFalse
      | fValue :: vfExec =>
          pure (state.within (if instr.opcode = OP_ELSE then (!fValue) :: vfExec else vfExec)) := by
  have inside : OP_IF ≤ instr.opcode ∧ instr.opcode ≤ OP_ENDIF := by
    rcases branch with same | same <;> rw [same] <;> decide
  have operator : ¬instr.opcode ≤ OP_PUSHDATA4 := by
    rcases branch with same | same <;> rw [same] <;> decide
  rw [evalExecuted, if_neg (fun executed => operator executed.2), if_pos (.inr inside), evalOp,
    if_pos inside, outcome_free, branchOp]
  rcases branch with same | same
  · rw [same, if_neg (by decide), if_pos rfl]
    cases vfExec <;> rfl
  · rw [same, if_neg (by decide), if_neg (by decide), if_pos rfl]
    cases vfExec <;> rfl

private theorem passOver_of_branches (allowed : instr.Branches) :
    passOver instr state = account instr state >>= limit := by
  simp only [passOver, demand, if_pos allowed, except_ok_bind]

/-- One turn of the loop of `EvalScript` is one step of the machine. -/
private theorem evalInstruction_step :
    (evalInstruction crypto check instr.opcode instr.vchPushValue instr.rest
        (state.within vfExec)).outcome =
      (fun config : ScriptState × List Bool => config.1.within config.2) <$>
        (scriptMachine crypto check).step instr.token (state, vfExec) := by
  rw [evalInstruction_within]
  by_cases opens : instr.opcode = OP_IF ∨ instr.opcode = OP_NOTIF
  · have token : instr.token = .start instr := if_pos opens
    have allowed : instr.Branches := fun _ => by tauto
    simp only [token, evalExecuted_start opens, Machine.step, Machine.enter, scriptMachine,
      passOver_of_branches allowed]
    cases vfExec.all id with
    | true =>
        simp only [if_true, testTop, bind_assoc, map_bind, pure_bind, map_pure, limit]
        rfl
    | false =>
        simp only [Bool.false_eq_true, if_false, limit, bind_assoc, map_bind, pure_bind, map_pure]
        rfl
  · by_cases branch : instr.opcode = OP_ELSE ∨ instr.opcode = OP_ENDIF
    · have allowed : instr.Branches := fun _ => by tauto
      have token : instr.token =
          if instr.opcode = OP_ELSE then .next instr else .close instr := by
        unfold Instruction.token
        rw [if_neg opens]
        split_ifs <;> tauto
      rw [token]
      simp only [evalExecuted_branch branch]
      cases vfExec with
      | nil =>
          split_ifs <;>
          · simp only [Machine.step, scriptMachine, passOver_of_branches allowed, limit, bind_assoc,
              map_bind, pure_bind]
            cases account instr state with
            | error failure => rfl
            | ok counted =>
                simp only [except_ok_bind, demand]
                split_ifs <;> rfl
      | cons flag vfExec =>
          split_ifs <;>
          · simp only [Machine.step, scriptMachine, passOver_of_branches allowed, limit, bind_assoc,
              map_bind, pure_bind, map_pure]
            rfl
    · have token : instr.token = .plain instr := by
        rw [not_or] at branch
        unfold Instruction.token
        rw [if_neg opens, if_neg branch.1, if_neg branch.2]
      rw [token]
      simp only [evalExecuted_plain token, Machine.step, Machine.apply, scriptMachine]
      cases vfExec.all id with
      | true =>
          simp only [if_true, executePlain, bind_assoc, map_bind, map_pure, bind_map_left,
            within_limit]
          simp only [map_eq_pure_bind]
      | false =>
          simp only [Bool.false_eq_true, if_false, passOver, bind_assoc, map_bind, map_pure,
            pure_bind, within_limit]
          simp only [map_eq_pure_bind]

/-- The loop of `EvalScript` is a run of the machine. -/
private theorem runFrom_within {pc : CScript} {tokens : List (Token Instruction)}
    (tokenizes : Tokenizes pc tokens) :
    runFrom crypto check pc (state.within vfExec) =
      (fun config : ScriptState × List Bool => config.1.within config.2) <$>
        (scriptMachine crypto check).run tokens (state, vfExec) := by
  induction tokenizes generalizing state vfExec with
  | nil => rfl
  | @cons pc rest opcode vchPushValue tokens first later induction =>
      have turn := @evalInstruction_step crypto check ⟨opcode, vchPushValue, rest⟩ state vfExec
      rw [runFrom_of_getOp first, turn, bind_map_left, Machine.run, map_bind]
      exact congrArg _ (funext fun config => induction)

/-- A script that is run to its end consists of instructions. -/
private theorem exists_tokens_of_runFrom {pc : CScript} {state after : EvalState}
    (ran : runFrom crypto check pc state = .ok after) : ∃ tokens, Tokenizes pc tokens := by
  induction length : pc.length using Nat.strong_induction_on generalizing pc state with
  | _ count induction =>
      cases pc with
      | nil => exact ⟨[], .nil⟩
      | cons byte pc =>
          cases first : getOp (byte :: pc) with
          | none =>
              simp only [runFrom, List.length_cons, evalLoop, first] at ran
              cases ran
          | some instruction =>
              obtain ⟨opcode, vchPushValue, rest⟩ := instruction
              rw [runFrom_of_getOp first] at ran
              obtain ⟨middle, -, ran⟩ := except_bind_eq_ok.mp ran
              obtain ⟨tokens, later⟩ := induction rest.length (length ▸ getOp_length first) ran rfl
              exact ⟨_, .cons first later⟩

/-- `EvalScript` succeeds exactly on the scripts of at most 10000 bytes that consist of well nested
code, and leaves the stack that this code leaves: a conditional takes every other branch, from the
first or the second one on by the value it tests, and the branches in between are only accounted
for. -/
theorem evalScript_iff_code {stack final : Stack} {script : CScript} :
    (evalScript crypto check stack script).outcome = .ok final ↔
      script.length ≤ 10000 ∧ ∃ code : Code Instruction, Tokenizes script code.spell ∧
        ∃ after : ScriptState, after.stack = final ∧
          code.exec (scriptMachine crypto check) true
            { stack, altstack := [], nOpCount := 0, codehash := script } = .ok after := by
  have start : EvalState.initial stack script =
      ScriptState.within { stack, altstack := [], nOpCount := 0, codehash := script } [] := rfl
  rw [evalScript_eq, start]
  constructor
  · intro evaluated
    split_ifs at evaluated with short
    obtain ⟨ended, ran, closed⟩ := except_bind_eq_ok.mp evaluated
    split_ifs at closed with balanced
    cases closed
    obtain ⟨tokens, tokenizes⟩ := exists_tokens_of_runFrom ran
    rw [runFrom_within tokenizes] at ran
    cases machine : (scriptMachine crypto check).run tokens
        ({ stack, altstack := [], nOpCount := 0, codehash := script }, []) with
    | error failure =>
        rw [machine] at ran
        cases ran
    | ok config =>
        rw [machine] at ran
        obtain ⟨after, vfExec⟩ := config
        cases ran
        obtain rfl : vfExec = [] := balanced
        obtain ⟨code, rfl, executed⟩ := ((scriptMachine crypto check).run_eq_ok_iff).mp machine
        exact ⟨short, code, tokenizes, after, rfl, executed⟩
  · rintro ⟨short, code, tokenizes, after, rfl, executed⟩
    have machine := ((scriptMachine crypto check).run_eq_ok_iff).mpr ⟨code, rfl, executed⟩
    rw [if_pos short, runFrom_within tokenizes, machine]
    rfl

end Step

end FooCoin

import FooCoin.Script.Multisig
import FooCoin.Script.Sign

/-!
# Running a script instruction by instruction

`Parses` lists the instructions of a script.  A script that parses is run one instruction after the
other, and a push of bytes is found by `findAndDelete` only where the script pushes them.
-/

namespace FooCoin

open LittleEndian Op Counted OrderedMatching

/-- An instruction: opcode and operand. -/
abbrev Instr := Nat × Valtype

/-- The instructions of a script. -/
inductive Parses : CScript → List Instr → Prop
  | nil : Parses [] []
  | cons {pc rest : CScript} {opcode : Nat} {vch : Valtype} {instrs : List Instr}
      (first : getOp pc = some (opcode, vch, rest)) (later : Parses rest instrs) :
      Parses pc ((opcode, vch) :: instrs)

/-! ## Reading instructions -/

/-- An instruction is an opcode, at most four bytes of size and its operand. -/
theorem getOp_size {pc rest : CScript} {opcode : Nat} {vch : Valtype}
    (parsed : getOp pc = some (opcode, vch, rest)) :
    pc.length ≤ vch.length + 5 + rest.length := by
  cases pc with
  | nil => simp [getOp] at parsed
  | cons byte pc =>
      simp only [getOp] at parsed
      split at parsed
      · split at parsed
        · contradiction
        · rename_i nSize operand sized
          have consumed : pc.length ≤ operand.length + 4 := by
            unfold operandSize at sized
            split at sized
            · simp only [Option.some.injEq, Prod.mk.injEq] at sized
              rw [sized.2]
              omega
            · simp only [Option.ite_none_left_eq_some, Option.some.injEq, Prod.mk.injEq] at sized
              rw [← sized.2.2, List.length_drop]
              split_ifs <;> omega
          simp only [Option.ite_none_left_eq_some, Option.some.injEq, Prod.mk.injEq] at parsed
          obtain ⟨enough, -, rfl, rfl⟩ := parsed
          simp only [List.length_cons, List.length_take, List.length_drop]
          omega
      · simp only [Option.some.injEq, Prod.mk.injEq] at parsed
        obtain ⟨-, rfl, rfl⟩ := parsed
        simp only [List.length_cons, List.length_nil]
        omega

/-- What is left is the end of the script. -/
theorem getOp_suffix {pc rest : CScript} {opcode : Nat} {vch : Valtype}
    (parsed : getOp pc = some (opcode, vch, rest)) : rest <:+ pc := by
  cases pc with
  | nil => simp [getOp] at parsed
  | cons byte pc =>
      simp only [getOp] at parsed
      split at parsed
      · split at parsed
        · contradiction
        · rename_i nSize operand sized
          have inside : operand <:+ pc := by
            unfold operandSize at sized
            split at sized
            · simp only [Option.some.injEq, Prod.mk.injEq] at sized
              exact sized.2 ▸ List.suffix_rfl
            · simp only [Option.ite_none_left_eq_some, Option.some.injEq, Prod.mk.injEq] at sized
              exact sized.2.2 ▸ List.drop_suffix _ _
          simp only [Option.ite_none_left_eq_some, Option.some.injEq, Prod.mk.injEq] at parsed
          obtain ⟨-, -, -, rfl⟩ := parsed
          exact ((List.drop_suffix _ _).trans inside).trans (List.suffix_cons byte pc)
      · simp only [Option.some.injEq, Prod.mk.injEq] at parsed
        exact parsed.2.2 ▸ List.suffix_cons byte pc

theorem Parses.length_le {script : CScript} {instrs : List Instr} (parses : Parses script instrs) :
    script.length ≤ (instrs.map fun instr => instr.2.length + 5).sum := by
  induction parses with
  | nil => simp
  | cons first later induction =>
      have size := getOp_size first
      simp only [List.map_cons, List.sum_cons]
      omega

/-- Only a push has an operand. -/
theorem push_of_operand {pc rest : CScript} {opcode : Nat} {vch : Valtype}
    (parsed : getOp pc = some (opcode, vch, rest)) (operand : vch ≠ []) :
    opcode ≤ OP_PUSHDATA4 := by
  by_contra operator
  exact operand (getOp_operand parsed (Nat.lt_of_not_le operator))

private theorem toNat_ofNat_small {n : Nat} (small : n < 256) : (UInt8.ofNat n).toNat = n := by
  simp [UInt8.toNat_ofNat', Nat.mod_eq_of_lt small]

/-- A push is read back. -/
theorem getOp_pushData (bytes : Valtype) (rest : CScript) (small : bytes.length < 2 ^ 32) :
    ∃ opcode, opcode ≤ OP_PUSHDATA4 ∧
      getOp (pushData bytes ++ rest) = some (opcode, bytes, rest) := by
  unfold pushData
  split_ifs with direct one two
  · refine ⟨bytes.length, by simp only [OP_PUSHDATA1, OP_PUSHDATA4] at direct ⊢; omega, ?_⟩
    have byte := @toNat_ofNat_small bytes.length (by simp only [OP_PUSHDATA1] at direct; omega)
    have push : bytes.length ≤ OP_PUSHDATA4 := by
      simp only [OP_PUSHDATA1, OP_PUSHDATA4] at direct ⊢
      omega
    simp [getOp, operandSize, byte, direct, push]
  · refine ⟨OP_PUSHDATA1, by decide, ?_⟩
    have byte := @toNat_ofNat_small bytes.length (by omega)
    simp [getOp, operandSize, OP_PUSHDATA1, OP_PUSHDATA4, ofLE, byte]
  · refine ⟨OP_PUSHDATA2, by decide, ?_⟩
    have size : ofLE (leBytes 2 bytes.length) = bytes.length := ofLE_leBytes_of_lt (by omega)
    have field : ¬2 + (bytes.length + rest.length) ≤ 1 := by omega
    simp [getOp, operandSize, OP_PUSHDATA1, OP_PUSHDATA2, OP_PUSHDATA4, size, field]
  · refine ⟨OP_PUSHDATA4, by decide, ?_⟩
    have size : ofLE (leBytes 4 bytes.length) = bytes.length := ofLE_leBytes_of_lt (by omega)
    simp [getOp, operandSize, OP_PUSHDATA1, OP_PUSHDATA2, OP_PUSHDATA4, size]

theorem length_pushData_le (bytes : Valtype) : (pushData bytes).length ≤ bytes.length + 5 := by
  unfold pushData
  split_ifs <;> simp only [List.length_cons, List.length_append, length_leBytes] <;> omega

theorem length_le_pushData (bytes : Valtype) : bytes.length ≤ (pushData bytes).length := by
  unfold pushData
  split_ifs <;> simp only [List.length_cons, List.length_append] <;> omega

/-! ## Deleting a push -/

private theorem dropPattern_of_not_prefix {pattern pc : CScript}
    (absent : pc.take pattern.length ≠ pattern) (fuel : Nat) :
    dropPattern pattern fuel pc = (pc, 0) := by
  cases fuel with
  | zero => rfl
  | succ fuel => rw [dropPattern, if_neg fun found => absent found.2]

private theorem findAndDeleteLoop_of_absent {bytes : Valtype} {pc : CScript} {instrs : List Instr}
    (parses : Parses pc instrs) (small : bytes.length < 2 ^ 32)
    (absent : ∀ instr ∈ instrs, instr.2 ≠ bytes) {fuel : Nat} (enough : pc.length < fuel) :
    (findAndDeleteLoop (pushData bytes) fuel pc).1 = pc := by
  have stays {pc : CScript} (here : ∀ opcode rest, getOp pc ≠ some (opcode, bytes, rest)) :
      pc.take (pushData bytes).length ≠ pushData bytes := by
    intro found
    obtain ⟨opcode, -, parsed⟩ := getOp_pushData bytes (pc.drop (pushData bytes).length) small
    rw [← found, List.length_take] at parsed
    have whole : pc.take (pushData bytes).length ++ pc.drop (pushData bytes).length = pc :=
      List.take_append_drop _ _
    have within : (pushData bytes).length ≤ pc.length := by
      have same := congrArg List.length found
      rw [List.length_take] at same
      omega
    rw [Nat.min_eq_left within, whole] at parsed
    exact here opcode _ parsed
  induction parses generalizing fuel with
  | nil =>
      cases fuel with
      | zero => rfl
      | succ fuel =>
          rw [findAndDeleteLoop, dropPattern_of_not_prefix (stays (by simp [getOp]))]
          simp [getOp]
  | @cons pc rest opcode vch instrs first later induction =>
      obtain ⟨other, others⟩ := List.forall_mem_cons.mp absent
      cases fuel with
      | zero => simp at enough
      | succ fuel =>
          have shorter := getOp_length first
          have kept := @induction others fuel (by omega)
          have here : ∀ opcode rest, getOp pc ≠ some (opcode, bytes, rest) := by
            intro opcode' rest' found
            rw [first, Option.some.injEq, Prod.mk.injEq, Prod.mk.injEq] at found
            exact other found.2.1
          rw [findAndDeleteLoop, dropPattern_of_not_prefix (stays here)]
          simp only [first, kept]
          obtain ⟨consumed, rfl⟩ := getOp_suffix first
          rw [List.length_append, Nat.add_sub_cancel, List.take_left]

/-- Bytes that a script does not push are not deleted from it. -/
theorem findAndDelete_of_absent {bytes : Valtype} {script : CScript} {instrs : List Instr}
    (parses : Parses script instrs) (small : bytes.length < 2 ^ 32)
    (absent : ∀ instr ∈ instrs, instr.2 ≠ bytes) :
    (findAndDelete script (pushData bytes)).1 = script := by
  unfold findAndDelete
  split
  · rfl
  · exact findAndDeleteLoop_of_absent parses small absent (Nat.lt_succ_self _)

/-! ## Running instructions -/

section Run

variable {crypto : Crypto} {check : SignatureCheck}

private theorem evalLoop_fuel {fuel fuel' : Nat} {pc : CScript} {state : EvalState}
    (enough : pc.length ≤ fuel) (enough' : pc.length ≤ fuel') :
    evalLoop crypto check fuel pc state = evalLoop crypto check fuel' pc state := by
  induction fuel generalizing fuel' pc state with
  | zero =>
      obtain rfl := List.length_eq_zero_iff.mp (Nat.le_zero.mp enough)
      simp only [evalLoop]
  | succ fuel induction =>
      cases pc with
      | nil => simp only [evalLoop]
      | cons byte pc =>
          cases fuel' with
          | zero => simp at enough'
          | succ fuel' =>
              simp only [evalLoop]
              cases parsed : getOp (byte :: pc) with
              | none => rfl
              | some instruction =>
                  obtain ⟨opcode, vch, rest⟩ := instruction
                  have shorter := getOp_length parsed
                  rw [List.length_cons] at shorter enough enough'
                  have same : evalLoop crypto check fuel rest = evalLoop crypto check fuel' rest :=
                    funext fun state => induction (by omega) (by omega)
                  simp only [same]

/-- The outcome of the loop of `EvalScript` from `pc` to the end. -/
def runFrom (crypto : Crypto) (check : SignatureCheck) (pc : CScript) (state : EvalState) :
    EvalResult EvalState :=
  (evalLoop crypto check pc.length pc state).outcome

@[simp]
theorem runFrom_nil (state : EvalState) : runFrom crypto check [] state = .ok state := rfl

/-- Run one instruction, then the rest. -/
theorem runFrom_of_getOp {pc rest : CScript} {opcode : Nat} {vch : Valtype} {state : EvalState}
    (parsed : getOp pc = some (opcode, vch, rest)) :
    runFrom crypto check pc state =
      (evalInstruction crypto check opcode vch rest state).outcome >>=
        runFrom crypto check rest := by
  cases pc with
  | nil => simp [getOp] at parsed
  | cons byte pc =>
      have shorter := getOp_length parsed
      rw [List.length_cons] at shorter
      unfold runFrom
      rw [List.length_cons, evalLoop]
      simp only [parsed, outcome_bind]
      congr 1
      funext state
      rw [evalLoop_fuel (Nat.le_of_lt_succ shorter) le_rfl]

/-- `EvalScript` in terms of its loop. -/
theorem evalScript_eq (stack : Stack) (script : CScript) :
    (evalScript crypto check stack script).outcome =
      if script.length ≤ 10000 then
        runFrom crypto check script (.initial stack script) >>= fun state =>
          if state.vfExec = [] then .ok state.stack else .error .returnedFalse
      else .error .returnedFalse := by
  unfold evalScript demand
  simp only [outcome_bind, outcome_free, outcome_pure]
  split_ifs
  · rw [except_ok_bind]
    unfold runFrom
    congr 1
    funext state
    split_ifs <;> rfl
  · rfl

/-! ## Single instructions -/

variable {rest : CScript} {state after : EvalState}

/-- A push of at most 520 bytes. -/
theorem evalInstruction_push {opcode : Nat} {vch : Valtype} (push : opcode ≤ OP_PUSHDATA4)
    (short : vch.length ≤ 520) (unconditional : state.vfExec = [])
    (room : state.stack.length + state.altstack.length < 1000) :
    (evalInstruction crypto check opcode vch rest state).outcome =
      .ok { state with stack := vch :: state.stack } := by
  have uncounted : ¬OP_16 < opcode := by
    simp only [OP_PUSHDATA4] at push
    simp only [OP_16]
    omega
  have enabled : opcode ∉ disabledOpcodes := by
    intro disabled
    simp only [OP_PUSHDATA4] at push
    simp only [disabledOpcodes, OP_CAT, OP_SUBSTR, OP_LEFT, OP_RIGHT, OP_INVERT, OP_AND, OP_OR,
      OP_XOR, OP_2MUL, OP_2DIV, OP_MUL, OP_DIV, OP_MOD, OP_LSHIFT, OP_RSHIFT, List.mem_cons,
      List.not_mem_nil, or_false] at disabled
    omega
  have fits : state.stack.length + 1 + state.altstack.length ≤ 1000 := by omega
  simp [evalInstruction, evalExecuted, demand, outcome_bind, short, uncounted, enabled,
    EvalState.fExec, unconditional, push, fits, except_ok_bind]

/-- A longer push ends the evaluation. -/
theorem evalInstruction_long {opcode : Nat} {vch : Valtype} (long : 520 < vch.length) :
    (evalInstruction crypto check opcode vch rest state).outcome = .error .returnedFalse := by
  simp only [evalInstruction, outcome_bind, outcome_free, demand, if_neg (Nat.not_le.mpr long)]
  rfl

/-- An operator outside of conditionals. -/
theorem evalInstruction_operator {opcode : Nat} (operator : OP_16 < opcode)
    (enabled : opcode ∉ disabledOpcodes) (unconditional : state.vfExec = [])
    (count : state.nOpCount < 201)
    (step : (evalOp crypto check opcode rest
      { state with nOpCount := state.nOpCount + 1 }).outcome = .ok after)
    (room : after.stack.length + after.altstack.length ≤ 1000) :
    (evalInstruction crypto check opcode [] rest state).outcome = .ok after := by
  have not_push : ¬opcode ≤ OP_PUSHDATA4 := by
    simp only [OP_16] at operator
    simp only [OP_PUSHDATA4]
    omega
  have counted : state.nOpCount + 1 ≤ 201 := count
  obtain ⟨stack, altstack, vfExec, nOpCount, codehash⟩ := state
  cases unconditional
  simp [evalInstruction, evalExecuted, demand, outcome_bind, operator, enabled, counted,
    EvalState.fExec, not_push, step, room, except_ok_bind]

/-- `OP_1` to `OP_16` push their number. -/
theorem evalInstruction_number {n : Nat} (positive : 1 ≤ n) (small : n ≤ 16)
    (unconditional : state.vfExec = [])
    (room : state.stack.length + state.altstack.length < 1000) :
    (evalInstruction crypto check (OP_1 - 1 + n) [] rest state).outcome =
      .ok { state with stack := getvch n :: state.stack } := by
  have opcode : OP_1 - 1 + n = 80 + n := rfl
  have uncounted : ¬OP_16 < 80 + n := by
    simp only [OP_16]
    omega
  have enabled : 80 + n ∉ disabledOpcodes := by
    simp only [disabledOpcodes, OP_CAT, OP_SUBSTR, OP_LEFT, OP_RIGHT, OP_INVERT, OP_AND, OP_OR,
      OP_XOR, OP_2MUL, OP_2DIV, OP_MUL, OP_DIV, OP_MOD, OP_LSHIFT, OP_RSHIFT, List.mem_cons,
      List.not_mem_nil, or_false]
    omega
  have fits : state.stack.length + 1 + state.altstack.length ≤ 1000 := by omega
  have not_push : ¬80 + n ≤ OP_PUSHDATA4 := by
    simp only [OP_PUSHDATA4]
    omega
  have step : (evalOp crypto check (80 + n) rest state).outcome =
      .ok { state with stack := getvch n :: state.stack } := by
    have not_branch : ¬(OP_IF ≤ 80 + n ∧ 80 + n ≤ OP_ENDIF) := by
      simp only [OP_IF]
      omega
    have separator : 80 + n ≠ OP_CODESEPARATOR := by
      simp only [OP_CODESEPARATOR]
      omega
    have signature : ¬(80 + n = OP_CHECKSIG ∨ 80 + n = OP_CHECKSIGVERIFY) := by
      simp only [OP_CHECKSIG, OP_CHECKSIGVERIFY]
      omega
    have multisig : ¬(80 + n = OP_CHECKMULTISIG ∨ 80 + n = OP_CHECKMULTISIGVERIFY) := by
      simp only [OP_CHECKMULTISIG, OP_CHECKMULTISIGVERIFY]
      omega
    have number : 80 + n = OP_1NEGATE ∨ (OP_1 ≤ 80 + n ∧ 80 + n ≤ OP_16) := by
      simp only [OP_1NEGATE, OP_1, OP_16]
      omega
    have value : ((80 + n : Nat) : Int) - ((OP_1 : Int) - 1) = n := by
      simp only [OP_1]
      push_cast
      omega
    simp only [evalOp, if_neg not_branch, if_neg separator, if_neg signature, if_neg multisig,
      plainOp, if_pos number, outcome_bind, outcome_free, outcome_pure, value]
    rfl
  rw [opcode]
  obtain ⟨stack, altstack, vfExec, nOpCount, codehash⟩ := state
  cases unconditional
  simp [evalInstruction, evalExecuted, demand, outcome_bind, uncounted, enabled,
    EvalState.fExec, not_push, step, fits, except_ok_bind]

end Run

end FooCoin

import FooCoin.Script.Machine

/-!
# Script evaluation

`evalScript` runs a script over a stack and `verifyScript` a script pair, as `EvalScript` and
`VerifyScript` do.  Signature checking is a parameter: `check` takes signature, public key and
script code.  Every computation carries the number of `check` evaluations it has made, also when
it fails.
-/

namespace FooCoin

open LittleEndian Op

/-- `CheckSig` with the transaction, the input and the hash type fixed. -/
abbrev SignatureCheck := Valtype → Valtype → CScript → Bool

/-- A result with the number of signature checks made on the way to it. -/
structure Counted (α : Type) where
  /-- The number of `CheckSig` evaluations. -/
  checks : Nat
  /-- The result. -/
  outcome : EvalResult α

namespace Counted

variable {α β : Type}

/-- A result that needs no signature check. -/
def free (outcome : EvalResult α) : Counted α := ⟨0, outcome⟩

/-- Sequence two computations and add their checks. -/
def bind (first : Counted α) (next : α → Counted β) : Counted β :=
  match first.outcome with
  | .error failure => ⟨first.checks, .error failure⟩
  | .ok value => ⟨first.checks + (next value).checks, (next value).outcome⟩

instance : Monad Counted where
  pure value := free (.ok value)
  bind := Counted.bind

@[simp]
theorem checks_free (outcome : EvalResult α) : (free outcome).checks = 0 := rfl

@[simp]
theorem outcome_free (outcome : EvalResult α) : (free outcome).outcome = outcome := rfl

@[simp]
theorem checks_pure (value : α) : (pure value : Counted α).checks = 0 := rfl

@[simp]
theorem outcome_pure (value : α) : (pure value : Counted α).outcome = .ok value := rfl

/-- A sequence makes no more checks than its parts are allowed. -/
theorem checks_bind_le {first : Counted α} {next : α → Counted β} {own later : Nat}
    (own_le : first.checks ≤ own)
    (later_le : ∀ value, first.outcome = .ok value → (next value).checks ≤ later) :
    (first >>= next).checks ≤ own + later := by
  change (Counted.bind first next).checks ≤ own + later
  unfold Counted.bind
  cases outcome : first.outcome with
  | error failure => exact own_le.trans (Nat.le_add_right _ _)
  | ok value => exact Nat.add_le_add own_le (later_le value outcome)

/-- Before a second part without checks, only the first counts. -/
theorem checks_bind_le_of_last {first : Counted α} {next : α → Counted β} {bound : Nat}
    (own_le : first.checks ≤ bound) (next_free : ∀ value, (next value).checks ≤ 0) :
    (first >>= next).checks ≤ bound :=
  checks_bind_le own_le fun value _ => next_free value

/-- After a first part without checks, only the second counts. -/
theorem checks_bind_le_of_free {outcome : EvalResult α} {next : α → Counted β} {bound : Nat}
    (next_le : ∀ value, outcome = .ok value → (next value).checks ≤ bound) :
    (free outcome >>= next).checks ≤ bound := by
  have total := checks_bind_le (checks_free outcome).le next_le
  rwa [Nat.zero_add] at total

theorem outcome_bind {first : Counted α} {next : α → Counted β} :
    (first >>= next).outcome = first.outcome >>= fun value => (next value).outcome := by
  change (Counted.bind first next).outcome = _
  unfold Counted.bind
  cases first.outcome with
  | error failure => rfl
  | ok value => rfl

end Counted

open Counted

/-- The variables of `EvalScript` besides the program counter. -/
structure EvalState where
  /-- The stack, top first. -/
  stack : Stack
  /-- The alternative stack, top first. -/
  altstack : Stack
  /-- The open conditionals, innermost first. -/
  vfExec : List Bool
  /-- The counted operations. -/
  nOpCount : Nat
  /-- The script from `pbegincodehash` to its end. -/
  codehash : CScript

/-- Every open conditional is in its taken branch. -/
def EvalState.fExec (state : EvalState) : Bool := state.vfExec.all id

/-- Leave the result of a signature operator on the stack, or consume it if the operator
verifies. -/
def leaveResult (verifies : Bool) (fSuccess : Bool) (stack : Stack) : EvalResult Stack :=
  let stack := vchBool fSuccess :: stack
  if verifies then (if fSuccess then popstack stack else .error .returnedFalse) else pure stack

/-- `OP_CHECKSIG` and `OP_CHECKSIGVERIFY`. -/
def checkSigOp (check : SignatureCheck) (opcode : Nat) (state : EvalState) :
    Counted EvalState := do
  free (demand (2 ≤ state.stack.length))
  let vchSig ← free (stacktop state.stack 2)
  let vchPubKey ← free (stacktop state.stack 1)
  let scriptCode := (findAndDelete state.codehash (pushData vchSig)).1
  let fSuccess ← (⟨1, .ok (check vchSig vchPubKey scriptCode)⟩ : Counted Bool)
  let stack ← free (popstacks 2 state.stack)
  let stack ← free (leaveResult (opcode = OP_CHECKSIGVERIFY) fSuccess stack)
  pure { state with stack }

/-- Drop `count` signatures, the first at `stacktop(-isig)`, from the script code. -/
def dropSignatures (stack : Stack) (isig : Nat) : Nat → CScript → EvalResult CScript
  | 0, scriptCode => pure scriptCode
  | count + 1, scriptCode => do
      let vchSig ← stacktop stack isig
      dropSignatures stack (isig + 1) count (findAndDelete scriptCode (pushData vchSig)).1

/-- The loop of `OP_CHECKMULTISIG` over the remaining keys and signatures. -/
def multisigLoop (check : SignatureCheck) (stack : Stack) (scriptCode : CScript) :
    (nKeysCount nSigsCount isig ikey : Nat) → Counted Bool
  | _, 0, _, _ => pure true
  | 0, _ + 1, _, _ => pure false
  | nKeysCount + 1, nSigsCount + 1, isig, ikey => do
      let vchSig ← free (stacktop stack isig)
      let vchPubKey ← free (stacktop stack ikey)
      let matched ← (⟨1, .ok (check vchSig vchPubKey scriptCode)⟩ : Counted Bool)
      let remaining := if matched then nSigsCount else nSigsCount + 1
      if nKeysCount < remaining then pure false
      else
        multisigLoop check stack scriptCode nKeysCount remaining
          (if matched then isig + 1 else isig) (ikey + 1)

/-- `OP_CHECKMULTISIG` and `OP_CHECKMULTISIGVERIFY`. -/
def checkMultisigOp (check : SignatureCheck) (opcode : Nat) (state : EvalState) :
    Counted EvalState := do
  let stack := state.stack
  free (demand (1 ≤ stack.length))
  let nKeysCount := getint (← free (bigNumTop stack 1))
  free (demand (0 ≤ nKeysCount ∧ nKeysCount ≤ 20))
  let nKeys := nKeysCount.toNat
  let nOpCount := state.nOpCount + nKeys
  free (demand (nOpCount ≤ 201))
  let ikey := 2
  free (demand (2 + nKeys ≤ stack.length))
  let nSigsCount := getint (← free (bigNumTop stack (2 + nKeys)))
  free (demand (0 ≤ nSigsCount ∧ nSigsCount ≤ nKeysCount))
  let nSigs := nSigsCount.toNat
  let isig := 3 + nKeys
  free (demand (3 + nKeys + nSigs ≤ stack.length))
  let scriptCode ← free (dropSignatures stack isig nSigs state.codehash)
  let fSuccess ← multisigLoop check stack scriptCode nKeys nSigs isig ikey
  let stack ← free (popstacks (3 + nKeys + nSigs) stack)
  let stack ← free (leaveResult (opcode = OP_CHECKMULTISIGVERIFY) fSuccess stack)
  pure { state with stack, nOpCount }

/-- `OP_IF`, `OP_NOTIF`, `OP_ELSE` and `OP_ENDIF`, and the two refused opcodes among them. -/
def branchOp (opcode : Nat) (state : EvalState) : EvalResult EvalState :=
  if opcode = OP_IF ∨ opcode = OP_NOTIF then
    if state.fExec then do
      demand (1 ≤ state.stack.length)
      let fValue := castToBool (← stacktop state.stack 1)
      let fValue := if opcode = OP_NOTIF then !fValue else fValue
      let stack ← popstack state.stack
      pure { state with stack, vfExec := fValue :: state.vfExec }
    else pure { state with vfExec := false :: state.vfExec }
  else if opcode = OP_ELSE then
    match state.vfExec with
    | [] => .error .returnedFalse
    | fValue :: vfExec => pure { state with vfExec := (!fValue) :: vfExec }
  else if opcode = OP_ENDIF then
    match state.vfExec with
    | [] => .error .returnedFalse
    | _ :: vfExec => pure { state with vfExec }
  else .error .returnedFalse

/-- One case of the switch; `rest` is the script after the instruction. -/
def evalOp (crypto : Crypto) (check : SignatureCheck) (opcode : Nat) (rest : CScript)
    (state : EvalState) : Counted EvalState :=
  if OP_IF ≤ opcode ∧ opcode ≤ OP_ENDIF then free (branchOp opcode state)
  else if opcode = OP_CODESEPARATOR then pure { state with codehash := rest }
  else if opcode = OP_CHECKSIG ∨ opcode = OP_CHECKSIGVERIFY then checkSigOp check opcode state
  else if opcode = OP_CHECKMULTISIG ∨ opcode = OP_CHECKMULTISIGVERIFY then
    checkMultisigOp check opcode state
  else do
    let (stack, altstack) ← free (plainOp crypto opcode state.stack state.altstack)
    pure { state with stack, altstack }

/-- Push the operand or run the switch, if the instruction is executed at all. -/
def evalExecuted (crypto : Crypto) (check : SignatureCheck) (opcode : Nat)
    (vchPushValue : Valtype) (rest : CScript) (state : EvalState) : Counted EvalState :=
  if state.fExec ∧ opcode ≤ OP_PUSHDATA4 then
    pure { state with stack := vchPushValue :: state.stack }
  else if state.fExec ∨ (OP_IF ≤ opcode ∧ opcode ≤ OP_ENDIF) then
    evalOp crypto check opcode rest state
  else pure state

/-- The body of the loop of `EvalScript` after the instruction is read. -/
def evalInstruction (crypto : Crypto) (check : SignatureCheck) (opcode : Nat)
    (vchPushValue : Valtype) (rest : CScript) (state : EvalState) : Counted EvalState := do
  free (demand (vchPushValue.length ≤ 520))
  let nOpCount := if OP_16 < opcode then state.nOpCount + 1 else state.nOpCount
  free (demand (OP_16 < opcode → nOpCount ≤ 201))
  free (demand (opcode ∉ disabledOpcodes))
  let state ← evalExecuted crypto check opcode vchPushValue rest { state with nOpCount }
  free (demand (state.stack.length + state.altstack.length ≤ 1000))
  pure state

/-- The loop of `EvalScript` from `pc`. -/
def evalLoop (crypto : Crypto) (check : SignatureCheck) : Nat → CScript → EvalState →
    Counted EvalState
  | _, [], state => pure state
  | 0, _ :: _, _ => free (.error .returnedFalse)
  | fuel + 1, byte :: pc, state =>
      match getOp (byte :: pc) with
      | none => free (.error .returnedFalse)
      | some (opcode, vchPushValue, rest) => do
          let state ← evalInstruction crypto check opcode vchPushValue rest state
          evalLoop crypto check fuel rest state

/-- The variables of `EvalScript` at its start. -/
def EvalState.initial (stack : Stack) (script : CScript) : EvalState :=
  { stack, altstack := [], vfExec := [], nOpCount := 0, codehash := script }

/-- `EvalScript`: the stack it leaves. -/
def evalScript (crypto : Crypto) (check : SignatureCheck) (stack : Stack) (script : CScript) :
    Counted Stack := do
  free (demand (script.length ≤ 10000))
  let state ← evalLoop crypto check script.length script (.initial stack script)
  free (demand (state.vfExec = []))
  pure state.stack

/-- `VerifyScript`: it succeeds where the source returns `true`. -/
def verifyScript (crypto : Crypto) (check : SignatureCheck) (scriptSig scriptPubKey : CScript)
    (fValidatePayToScriptHash : Bool) : Counted Unit := do
  let stackCopy ← evalScript crypto check [] scriptSig
  let stack ← evalScript crypto check stackCopy scriptPubKey
  free (demand (stack ≠ []))
  free (demand (castToBool (← free (stacktop stack 1))))
  if fValidatePayToScriptHash ∧ isPayToScriptHash scriptPubKey then
    free (demand (isPushOnly scriptSig))
    let pubKey2 ← free (stacktop stackCopy 1)
    let stackCopy ← free (popstack stackCopy)
    let stackCopy ← evalScript crypto check stackCopy pubKey2
    free (demand (stackCopy ≠ []))
    free (demand (castToBool (← free (stacktop stackCopy 1))))
  else pure ()

end FooCoin

import FooCoin.Script.Interpreter

/-!
# Signature operation counts

`getSigOpCount` is the static count of `CScript::GetSigOpCount` and `getSigOpCountP2SH` the count
of a script pair.  Both bound the signature checks of an evaluation: the evaluator and the counter
read the same instructions, and a key count that follows an executed `OP_1` to `OP_16` is that
opcode's number.
-/

namespace FooCoin

open LittleEndian Op Counted

/-- What one instruction adds to `GetSigOpCount` after `lastOpcode`. -/
def sigOpCost (fAccurate : Bool) (lastOpcode opcode : Nat) : Nat :=
  if opcode = OP_CHECKSIG ∨ opcode = OP_CHECKSIGVERIFY then 1
  else if opcode = OP_CHECKMULTISIG ∨ opcode = OP_CHECKMULTISIGVERIFY then
    if fAccurate ∧ OP_1 ≤ lastOpcode ∧ lastOpcode ≤ OP_16 then decodeOP_N lastOpcode else 20
  else 0

/-- The loop of `CScript::GetSigOpCount` from `pc`. -/
def sigOpCountLoop (fAccurate : Bool) : Nat → Nat → CScript → Nat
  | _, _, [] => 0
  | 0, _, _ :: _ => 0
  | fuel + 1, lastOpcode, byte :: pc =>
      match getOp (byte :: pc) with
      | none => 0
      | some (opcode, _, rest) =>
          sigOpCost fAccurate lastOpcode opcode + sigOpCountLoop fAccurate fuel opcode rest

/-- `CScript::GetSigOpCount(bool)`. -/
def getSigOpCount (fAccurate : Bool) (script : CScript) : Nat :=
  sigOpCountLoop fAccurate script.length OP_INVALIDOPCODE script

/-- The loop of `CScript::GetSigOpCount(const CScript&)`: the last operand pushed, `none` if the
script does more than push. -/
def lastPushLoop : Nat → Valtype → CScript → Option Valtype
  | _, data, [] => some data
  | 0, data, _ :: _ => some data
  | fuel + 1, _, byte :: pc =>
      match getOp (byte :: pc) with
      | none => none
      | some (opcode, data, rest) =>
          if OP_16 < opcode then none else lastPushLoop fuel data rest

/-- `CScript::GetSigOpCount(const CScript&)` of `scriptPubKey`. -/
def getSigOpCountP2SH (scriptPubKey scriptSig : CScript) : Nat :=
  if isPayToScriptHash scriptPubKey then
    match lastPushLoop scriptSig.length [] scriptSig with
    | none => 0
    | some subscript => getSigOpCount true subscript
  else getSigOpCount true scriptPubKey

private theorem decodeOP_N_le {opcode : Nat} (small : opcode ≤ OP_16) :
    decodeOP_N opcode ≤ 20 := by
  have bounded : opcode ≤ 0x60 := small
  by_cases zero : opcode = OP_0
  · simp [decodeOP_N, zero]
  · simp only [decodeOP_N, zero, if_false, OP_1]
    omega

/-- An exact cost is at most the estimate. -/
theorem sigOpCost_accurate_le (lastOpcode opcode : Nat) :
    sigOpCost true lastOpcode opcode ≤ sigOpCost false lastOpcode opcode := by
  simp only [sigOpCost, true_and, Bool.false_eq_true, false_and, if_false]
  split
  · exact le_rfl
  · split
    · split
      · exact decodeOP_N_le (by simp_all)
      · exact le_rfl
    · exact le_rfl

theorem sigOpCost_le (fAccurate : Bool) (lastOpcode opcode : Nat) :
    sigOpCost fAccurate lastOpcode opcode ≤ 20 := by
  have estimate : sigOpCost false lastOpcode opcode ≤ 20 := by
    simp only [sigOpCost, Bool.false_eq_true, false_and, if_false]
    split
    · omega
    · split <;> omega
  cases fAccurate with
  | false => exact estimate
  | true => exact (sigOpCost_accurate_le lastOpcode opcode).trans estimate

private theorem sigOpCountLoop_accurate_le (fuel : Nat) (lastOpcode : Nat) (pc : CScript) :
    sigOpCountLoop true fuel lastOpcode pc ≤ sigOpCountLoop false fuel lastOpcode pc := by
  induction fuel generalizing lastOpcode pc with
  | zero => cases pc <;> simp [sigOpCountLoop]
  | succ fuel induction =>
      cases pc with
      | nil => simp [sigOpCountLoop]
      | cons byte pc =>
          simp only [sigOpCountLoop]
          cases getOp (byte :: pc) with
          | none => exact le_rfl
          | some instruction =>
              exact Nat.add_le_add (sigOpCost_accurate_le _ _) (induction _ _)

/-- The exact count is at most the estimate. -/
theorem getSigOpCount_accurate_le (script : CScript) :
    getSigOpCount true script ≤ getSigOpCount false script :=
  sigOpCountLoop_accurate_le _ _ _

private theorem sigOpCountLoop_le (fAccurate : Bool) (fuel : Nat) (lastOpcode : Nat)
    (pc : CScript) : sigOpCountLoop fAccurate fuel lastOpcode pc ≤ 20 * pc.length := by
  induction fuel generalizing lastOpcode pc with
  | zero => cases pc <;> simp [sigOpCountLoop]
  | succ fuel induction =>
      cases pc with
      | nil => simp [sigOpCountLoop]
      | cons byte pc =>
          simp only [sigOpCountLoop]
          cases parsed : getOp (byte :: pc) with
          | none => exact Nat.zero_le _
          | some instruction =>
              obtain ⟨opcode, vch, rest⟩ := instruction
              have shorter := getOp_length parsed
              have cost := sigOpCost_le fAccurate lastOpcode opcode
              have later := induction opcode rest
              simp only
              omega

/-- The count is at most twenty for each byte; the `unsigned int` of the source cannot wrap on a
script of less than 200 MB. -/
theorem getSigOpCount_le (fAccurate : Bool) (script : CScript) :
    getSigOpCount fAccurate script ≤ 20 * script.length :=
  sigOpCountLoop_le _ _ _ _

section Evaluation

variable {crypto : Crypto} {check : SignatureCheck}

private theorem checks_multisigLoop_le (stack : Stack) (scriptCode : CScript)
    (nKeysCount nSigsCount isig ikey : Nat) :
    (multisigLoop check stack scriptCode nKeysCount nSigsCount isig ikey).checks ≤ nKeysCount := by
  induction nKeysCount generalizing nSigsCount isig ikey with
  | zero => cases nSigsCount <;> simp [multisigLoop]
  | succ nKeysCount induction =>
      cases nSigsCount with
      | zero => simp [multisigLoop]
      | succ nSigsCount =>
          rw [multisigLoop]
          refine checks_bind_le_of_free fun vchSig _ => ?_
          refine checks_bind_le_of_free fun vchPubKey _ => ?_
          rw [add_comm nKeysCount 1]
          refine checks_bind_le le_rfl fun matched _ => ?_
          by_cases few : nKeysCount < (if matched then nSigsCount else nSigsCount + 1)
          · simp [few]
          · simp only [few, if_false]
            exact induction _ _ _

private theorem checks_checkSigOp_le (opcode : Nat) (state : EvalState) :
    (checkSigOp check opcode state).checks ≤ 1 := by
  refine checks_bind_le_of_free fun _ _ => ?_
  refine checks_bind_le_of_free fun vchSig _ => ?_
  refine checks_bind_le_of_free fun vchPubKey _ => ?_
  refine checks_bind_le_of_last le_rfl fun fSuccess => ?_
  refine checks_bind_le_of_free fun stack _ => ?_
  exact checks_bind_le_of_free fun stack _ => Nat.le_refl 0

private theorem demand_eq_ok {condition : Prop} [Decidable condition] {value : Unit} :
    demand condition = .ok value ↔ condition := by
  simp [demand]

/-- The multisignature operators make no more checks than the key count on the stack. -/
private theorem checks_checkMultisigOp_le (opcode : Nat) (state : EvalState) {bound : Nat}
    (counted : ∀ n : Int, bigNumTop state.stack 1 = .ok n → 0 ≤ getint n → getint n ≤ 20 →
      (getint n).toNat ≤ bound) :
    (checkMultisigOp check opcode state).checks ≤ bound := by
  refine checks_bind_le_of_free fun _ _ => ?_
  refine checks_bind_le_of_free fun n read => ?_
  refine checks_bind_le_of_free fun _ keys_in_range => ?_
  have keys := demand_eq_ok.mp keys_in_range
  refine checks_bind_le_of_free fun _ _ => ?_
  refine checks_bind_le_of_free fun _ _ => ?_
  refine checks_bind_le_of_free fun _ _ => ?_
  refine checks_bind_le_of_free fun _ _ => ?_
  refine checks_bind_le_of_free fun _ _ => ?_
  refine checks_bind_le_of_free fun scriptCode _ => ?_
  have keys_le := counted n read keys.1 keys.2
  refine checks_bind_le_of_last ((checks_multisigLoop_le _ _ _ _ _ _).trans keys_le)
    fun fSuccess => ?_
  refine checks_bind_le_of_free fun stack _ => ?_
  exact checks_bind_le_of_free fun stack _ => Nat.le_refl 0

/-- After an executed `OP_1` to `OP_16` its number is on top of the stack. -/
def NumberOnTop (lastOpcode : Nat) (state : EvalState) : Prop :=
  OP_1 ≤ lastOpcode → lastOpcode ≤ OP_16 → state.fExec →
    stacktop state.stack 1 = .ok (getvch (decodeOP_N lastOpcode))

/-- The outcome of `OP_1` to `OP_16`. -/
private theorem evalOp_small {opcode : Nat} {rest : CScript} {state after : EvalState}
    (lower : OP_1 ≤ opcode) (upper : opcode ≤ OP_16)
    (step : (evalOp crypto check opcode rest state).outcome = .ok after) :
    stacktop after.stack 1 = .ok (getvch (decodeOP_N opcode)) := by
  have lower' : 0x51 ≤ opcode := lower
  have upper' : opcode ≤ 0x60 := upper
  have number : ((opcode : Int) - ((OP_1 : Int) - 1)) = (decodeOP_N opcode : Nat) := by
    have positive : opcode ≠ OP_0 := by
      simp only [OP_0]
      omega
    simp only [decodeOP_N, positive, if_false, OP_1]
    omega
  have branch : ¬(OP_IF ≤ opcode ∧ opcode ≤ OP_ENDIF) := by
    simp only [OP_IF]
    omega
  have separator : opcode ≠ OP_CODESEPARATOR := by
    simp only [OP_CODESEPARATOR]
    omega
  have signature : ¬(opcode = OP_CHECKSIG ∨ opcode = OP_CHECKSIGVERIFY) := by
    simp only [OP_CHECKSIG, OP_CHECKSIGVERIFY]
    omega
  have multisig : ¬(opcode = OP_CHECKMULTISIG ∨ opcode = OP_CHECKMULTISIGVERIFY) := by
    simp only [OP_CHECKMULTISIG, OP_CHECKMULTISIGVERIFY]
    omega
  have plain : plainOp crypto opcode state.stack state.altstack =
      .ok (getvch (decodeOP_N opcode : Nat) :: state.stack, state.altstack) := by
    simp only [plainOp, lower, upper, and_self, or_true, if_true, number]
    rfl
  simp only [evalOp, branch, separator, signature, multisig, if_false, outcome_bind, outcome_free,
    plain] at step
  cases step
  rfl

private theorem checks_evalOp_le {lastOpcode opcode : Nat} {rest : CScript} {state : EvalState}
    (executing : state.fExec ∨ (OP_IF ≤ opcode ∧ opcode ≤ OP_ENDIF))
    (on_top : NumberOnTop lastOpcode state) :
    (evalOp crypto check opcode rest state).checks ≤ sigOpCost true lastOpcode opcode := by
  by_cases branch : OP_IF ≤ opcode ∧ opcode ≤ OP_ENDIF
  · simp [evalOp, branch]
  have fExec : state.fExec := executing.resolve_right branch
  by_cases separator : opcode = OP_CODESEPARATOR
  · rw [evalOp, if_neg branch, if_pos separator]
    exact Nat.zero_le _
  by_cases signature : opcode = OP_CHECKSIG ∨ opcode = OP_CHECKSIGVERIFY
  · simpa only [evalOp, branch, separator, signature, if_true, if_false, sigOpCost] using
      checks_checkSigOp_le opcode state
  by_cases multisig : opcode = OP_CHECKMULTISIG ∨ opcode = OP_CHECKMULTISIGVERIFY
  · simp only [evalOp, branch, separator, signature, multisig, if_true, if_false, sigOpCost,
      true_and]
    refine checks_checkMultisigOp_le opcode state fun n read _ keys => ?_
    split
    · rename_i small
      have top := on_top small.1 small.2 fExec
      have number : decodeOP_N lastOpcode ≤ 16 := by
        have upper : lastOpcode ≤ 0x60 := small.2
        have lower : 0x51 ≤ lastOpcode := small.1
        have positive : lastOpcode ≠ OP_0 := by
          simp only [OP_0]
          omega
        simp only [decodeOP_N, positive, if_false, OP_1]
        omega
      have read_back : bigNumTop state.stack 1 = .ok (decodeOP_N lastOpcode : Nat) :=
        bigNumTop_of_stacktop top (castToBigNum_getvch_small number)
      rw [read_back] at read
      cases read
      have exact_int : getint (decodeOP_N lastOpcode : Nat) = (decodeOP_N lastOpcode : Nat) := by
        simp only [getint]
        split <;> split <;> omega
      rw [exact_int, Int.toNat_natCast]
    · omega
  · simp only [evalOp, branch, separator, signature, multisig, if_false]
    exact checks_bind_le_of_free fun _ _ => Nat.zero_le _

private theorem checks_evalExecuted_le {lastOpcode opcode : Nat} {vchPushValue : Valtype}
    {rest : CScript} {state : EvalState} (on_top : NumberOnTop lastOpcode state) :
    (evalExecuted crypto check opcode vchPushValue rest state).checks ≤
      sigOpCost true lastOpcode opcode := by
  unfold evalExecuted
  split
  · exact Nat.zero_le _
  · split
    · rename_i executing
      exact checks_evalOp_le executing on_top
    · exact Nat.zero_le _

/-- One instruction makes no more checks than the counter allows for it. -/
private theorem checks_evalInstruction_le {lastOpcode opcode : Nat} {vchPushValue : Valtype}
    {rest : CScript} {state : EvalState} (on_top : NumberOnTop lastOpcode state) :
    (evalInstruction crypto check opcode vchPushValue rest state).checks ≤
      sigOpCost true lastOpcode opcode := by
  refine checks_bind_le_of_free fun _ _ => ?_
  refine checks_bind_le_of_free fun _ _ => ?_
  refine checks_bind_le_of_free fun _ _ => ?_
  refine checks_bind_le_of_last (checks_evalExecuted_le on_top) fun _ => ?_
  exact checks_bind_le_of_free fun _ _ => Nat.le_refl 0

private theorem evalExecuted_numberOnTop {opcode : Nat} {vchPushValue : Valtype}
    {rest : CScript} {state after : EvalState}
    (step : (evalExecuted crypto check opcode vchPushValue rest state).outcome = .ok after) :
    NumberOnTop opcode after := by
  intro lower upper executing
  have lower' : 0x51 ≤ opcode := lower
  have upper' : opcode ≤ 0x60 := upper
  have not_push : ¬opcode ≤ OP_PUSHDATA4 := by
    simp only [OP_PUSHDATA4]
    omega
  have not_branch : ¬(OP_IF ≤ opcode ∧ opcode ≤ OP_ENDIF) := by
    simp only [OP_IF]
    omega
  simp only [evalExecuted, not_push, not_branch, and_false, or_false, if_false] at step
  split at step
  · exact evalOp_small lower upper step
  · rename_i skipping
    cases step
    exact absurd executing skipping

/-- A successful instruction passes its guards and is executed or skipped. -/
private theorem evalInstruction_executed {opcode : Nat} {vchPushValue : Valtype}
    {rest : CScript} {state after : EvalState}
    (step : (evalInstruction crypto check opcode vchPushValue rest state).outcome = .ok after) :
    ∃ nOpCount, (evalExecuted crypto check opcode vchPushValue rest
      { state with nOpCount }).outcome = .ok after := by
  simp only [evalInstruction, outcome_bind, outcome_free, except_bind_eq_ok, outcome_pure,
    Except.ok.injEq] at step
  obtain ⟨_, _, _, _, _, _, next, executed, _, _, rfl⟩ := step
  exact ⟨_, executed⟩

/-- A run of the loop makes no more checks than the counter finds in the same bytes. -/
private theorem checks_evalLoop_le (fuel : Nat) {lastOpcode : Nat} {pc : CScript}
    {state : EvalState} (on_top : NumberOnTop lastOpcode state) :
    (evalLoop crypto check fuel pc state).checks ≤ sigOpCountLoop true fuel lastOpcode pc := by
  induction fuel generalizing lastOpcode pc state with
  | zero => cases pc <;> simp [evalLoop]
  | succ fuel induction =>
      cases pc with
      | nil => simp [evalLoop]
      | cons byte pc =>
          simp only [evalLoop, sigOpCountLoop]
          cases getOp (byte :: pc) with
          | none => exact Nat.zero_le _
          | some instruction =>
              refine checks_bind_le (checks_evalInstruction_le on_top) fun after step => ?_
              obtain ⟨_, executed⟩ := evalInstruction_executed step
              exact induction (evalExecuted_numberOnTop executed)

/-- An evaluation makes at most `GetSigOpCount(true)` signature checks. -/
theorem checks_evalScript_le (stack : Stack) (script : CScript) :
    (evalScript crypto check stack script).checks ≤ getSigOpCount true script := by
  refine checks_bind_le_of_free fun _ _ => ?_
  have no_opcode : NumberOnTop OP_INVALIDOPCODE (.initial stack script) := by
    intro _ upper
    simp [OP_INVALIDOPCODE, OP_16] at upper
  refine checks_bind_le_of_last (checks_evalLoop_le _ no_opcode) fun _ => ?_
  exact checks_bind_le_of_free fun _ _ => Nat.le_refl 0

/-- The subscript on top of the stack counts no more than the last operand pushed. -/
def TopCounted (data : Valtype) (stack : Stack) : Prop :=
  ∀ top, stacktop stack 1 = .ok top → getSigOpCount true top ≤ getSigOpCount true data

/-- The opcodes between the data pushes and the operators push numbers, which count nothing as a
subscript. -/
private theorem plainOp_number {opcode : Nat} (lower : OP_PUSHDATA4 < opcode)
    (upper : opcode ≤ OP_16) {stack altstack : Stack} {result : Stack × Stack}
    (step : plainOp crypto opcode stack altstack = .ok result) :
    ∃ number, result = (number :: stack, altstack) ∧ getSigOpCount true number = 0 := by
  have lower' : 0x4e < opcode := lower
  have upper' : opcode ≤ 0x60 := upper
  by_cases number : opcode = OP_1NEGATE ∨ (OP_1 ≤ opcode ∧ opcode ≤ OP_16)
  · simp only [plainOp, number, if_true] at step
    cases step
    refine ⟨_, rfl, ?_⟩
    clear number lower upper
    interval_cases opcode <;> decide
  · have reserved : opcode = OP_RESERVED := by
      simp only [OP_1NEGATE, OP_1, OP_16, OP_RESERVED] at number ⊢
      omega
    subst reserved
    simp [plainOp, OP_RESERVED, OP_1NEGATE, OP_1, OP_16, OP_NOP, OP_NOP1, OP_NOP10, OP_VERIFY,
      OP_TOALTSTACK, OP_SIZE, OP_EQUAL, OP_EQUALVERIFY, unaryOpcodes, binaryOpcodes, OP_WITHIN,
      hashOpcodes, OP_1ADD, OP_1SUB, OP_NEGATE, OP_ABS, OP_NOT, OP_0NOTEQUAL, OP_ADD, OP_SUB,
      OP_BOOLAND, OP_BOOLOR, OP_NUMEQUAL, OP_NUMEQUALVERIFY, OP_NUMNOTEQUAL, OP_LESSTHAN,
      OP_GREATERTHAN, OP_LESSTHANOREQUAL, OP_GREATERTHANOREQUAL, OP_MIN, OP_MAX, OP_RIPEMD160,
      OP_SHA1, OP_SHA256, OP_HASH160, OP_HASH256] at step

private theorem evalExecuted_push {opcode : Nat} {vchPushValue : Valtype} {rest : CScript}
    {state after : EvalState} (push : opcode ≤ OP_16)
    (step : (evalExecuted crypto check opcode vchPushValue rest state).outcome = .ok after)
    (unconditional : state.vfExec = []) :
    after.vfExec = [] ∧ TopCounted vchPushValue after.stack := by
  have executing : state.fExec = true := by simp [EvalState.fExec, unconditional]
  by_cases immediate : opcode ≤ OP_PUSHDATA4
  · simp only [evalExecuted, executing, immediate, and_self, if_true, outcome_pure,
      Except.ok.injEq] at step
    subst step
    refine ⟨unconditional, fun top on_top => ?_⟩
    cases on_top
    exact le_rfl
  · have push' : opcode ≤ 0x60 := push
    have not_branch : ¬(OP_IF ≤ opcode ∧ opcode ≤ OP_ENDIF) := by
      simp only [OP_IF]
      omega
    have separator : opcode ≠ OP_CODESEPARATOR := by
      simp only [OP_CODESEPARATOR]
      omega
    have signature : ¬(opcode = OP_CHECKSIG ∨ opcode = OP_CHECKSIGVERIFY) := by
      simp only [OP_CHECKSIG, OP_CHECKSIGVERIFY]
      omega
    have multisig : ¬(opcode = OP_CHECKMULTISIG ∨ opcode = OP_CHECKMULTISIGVERIFY) := by
      simp only [OP_CHECKMULTISIG, OP_CHECKMULTISIGVERIFY]
      omega
    simp only [evalExecuted, executing, immediate, and_false, true_or, if_true, if_false, evalOp,
      not_branch, separator, signature, multisig, outcome_bind, outcome_free,
      except_bind_eq_ok, outcome_pure, Except.ok.injEq] at step
    obtain ⟨result, plain, rfl⟩ := step
    obtain ⟨number, rfl, counts_nothing⟩ := plainOp_number (Nat.lt_of_not_le immediate) push plain
    refine ⟨unconditional, fun top on_top => ?_⟩
    cases on_top
    exact counts_nothing ▸ Nat.zero_le _

/-- A script that only pushes leaves the operand that the counter looks at on top. -/
private theorem evalLoop_lastPush (fuel : Nat) {data last : Valtype} {pc : CScript}
    {state after : EvalState} (unconditional : state.vfExec = [])
    (counted : TopCounted data state.stack) (pushes : lastPushLoop fuel data pc = some last)
    (step : (evalLoop crypto check fuel pc state).outcome = .ok after) :
    TopCounted last after.stack := by
  induction fuel generalizing data pc state with
  | zero =>
      cases pc with
      | nil =>
          cases pushes
          cases step
          exact counted
      | cons byte pc => simp [evalLoop] at step
  | succ fuel induction =>
      cases pc with
      | nil =>
          cases pushes
          cases step
          exact counted
      | cons byte pc =>
          simp only [evalLoop] at step
          simp only [lastPushLoop] at pushes
          cases parsed : getOp (byte :: pc) with
          | none => simp [parsed] at pushes
          | some instruction =>
              obtain ⟨opcode, operand, rest⟩ := instruction
              simp only [parsed] at step pushes
              split at pushes
              · contradiction
              · rename_i push
                simp only [outcome_bind, except_bind_eq_ok] at step
                obtain ⟨next, instruction, later⟩ := step
                obtain ⟨_, executed⟩ := evalInstruction_executed instruction
                obtain ⟨unconditional', counted'⟩ :=
                  evalExecuted_push (Nat.le_of_not_lt push) executed unconditional
                exact induction unconditional' counted' pushes later

private theorem lastPushLoop_of_isPushOnly (fuel : Nat) (data : Valtype) {pc : CScript}
    (push_only : isPushOnlyLoop fuel pc = true) : ∃ last, lastPushLoop fuel data pc = some last := by
  induction fuel generalizing data pc with
  | zero => cases pc <;> exact ⟨data, rfl⟩
  | succ fuel induction =>
      cases pc with
      | nil => exact ⟨data, rfl⟩
      | cons byte pc =>
          simp only [isPushOnlyLoop] at push_only
          simp only [lastPushLoop]
          cases parsed : getOp (byte :: pc) with
          | none => simp [parsed] at push_only
          | some instruction =>
              simp only [parsed] at push_only ⊢
              split at push_only
              · contradiction
              · rename_i push
                simp only [push, if_false]
                exact induction _ push_only

/-- The checks of a pay-to-script-hash subscript are counted by `GetSigOpCount(scriptSig)`. -/
private theorem checks_subscript_le {scriptSig scriptPubKey pubKey2 : CScript}
    {stackCopy rest : Stack} (p2sh : isPayToScriptHash scriptPubKey = true)
    (push_only : isPushOnly scriptSig = true)
    (evaluated : (evalScript crypto check [] scriptSig).outcome = .ok stackCopy)
    (top : stacktop stackCopy 1 = .ok pubKey2) :
    (evalScript crypto check rest pubKey2).checks ≤ getSigOpCountP2SH scriptPubKey scriptSig := by
  obtain ⟨last, pushes⟩ := lastPushLoop_of_isPushOnly scriptSig.length [] push_only
  have counts : getSigOpCountP2SH scriptPubKey scriptSig = getSigOpCount true last := by
    simp only [getSigOpCountP2SH, p2sh, if_true, pushes]
  simp only [evalScript, outcome_bind, outcome_free, except_bind_eq_ok, outcome_pure,
    Except.ok.injEq] at evaluated
  obtain ⟨_, _, after, run, _, _, rfl⟩ := evaluated
  have empty_stack : TopCounted [] (EvalState.initial [] scriptSig).stack := by
    intro _ on_top
    cases on_top
  have counted := evalLoop_lastPush _ rfl empty_stack pushes run
  rw [counts]
  exact (checks_evalScript_le rest pubKey2).trans (counted pubKey2 top)

/-- A pair of scripts makes at most the sum of its three counts in signature checks. -/
theorem checks_verifyScript_le (scriptSig scriptPubKey : CScript) :
    (verifyScript crypto check scriptSig scriptPubKey true).checks ≤
      getSigOpCount false scriptSig + getSigOpCount false scriptPubKey +
        getSigOpCountP2SH scriptPubKey scriptSig := by
  have estimate (stack : Stack) (script : CScript) :
      (evalScript crypto check stack script).checks ≤ getSigOpCount false script :=
    (checks_evalScript_le stack script).trans (getSigOpCount_accurate_le script)
  rw [Nat.add_assoc]
  refine checks_bind_le (estimate _ _) fun stackCopy evaluated => ?_
  refine checks_bind_le (estimate _ _) fun stack _ => ?_
  refine checks_bind_le_of_free fun _ _ => ?_
  refine checks_bind_le_of_free fun _ _ => ?_
  refine checks_bind_le_of_free fun _ _ => ?_
  split
  · rename_i p2sh
    refine checks_bind_le_of_free fun _ push_only => ?_
    refine checks_bind_le_of_free fun pubKey2 top => ?_
    refine checks_bind_le_of_free fun rest _ => ?_
    refine checks_bind_le_of_last
      (checks_subscript_le p2sh.2 (demand_eq_ok.mp push_only) evaluated top) fun _ => ?_
    refine checks_bind_le_of_free fun _ _ => ?_
    refine checks_bind_le_of_free fun _ _ => ?_
    exact Nat.le_refl 0
  · exact Nat.zero_le _

end Evaluation

end FooCoin

import FooCoin.Script.Evaluate

/-!
# What standard scripts accept

The scripts that `solver` recognises, as lists of instructions, and what they leave of a stack.
-/

namespace FooCoin

open LittleEndian Op Counted OrderedMatching

/-! ## Recognised scripts -/

private theorem matchTemplate_nil {script : CScript} {vSolutions : List Valtype} :
    matchTemplate [] script = some vSolutions ↔ script = [] ∧ vSolutions = [] := by
  simp only [matchTemplate, Option.ite_none_right_eq_some, Option.some.injEq]
  exact and_congr_right fun _ => eq_comm

private theorem matchTemplate_cons {opcode2 : Nat} {template : List Nat} {script : CScript}
    {vSolutions : List Valtype} (single : opcode2 ≠ OP_PUBKEYS)
    (matched : matchTemplate (opcode2 :: template) script = some vSolutions) :
    ∃ opcode vch rest first later, getOp script = some (opcode, vch, rest) ∧
      matchOpcode opcode2 opcode vch = some first ∧ matchTemplate template rest = some later ∧
        vSolutions = first ++ later := by
  simp only [matchTemplate, if_neg single, Option.bind_eq_bind, Option.bind_eq_some_iff,
    Option.pure_def, Option.some.injEq] at matched
  obtain ⟨⟨opcode, vch, rest⟩, parsed, first, matches_first, later, matches_later, same⟩ := matched
  exact ⟨opcode, vch, rest, first, later, parsed, matches_first, matches_later, same.symm⟩

private theorem matchTemplate_pubkeys {opcode2 : Nat} {template : List Nat} {script : CScript}
    {vSolutions : List Valtype}
    (matched : matchTemplate (OP_PUBKEYS :: opcode2 :: template) script = some vSolutions) :
    ∃ opcode vch pc keys opcode' vch' rest first later,
      getOp script = some (opcode, vch, pc) ∧
      pubKeysLoop (script.length + 1) (opcode, vch, pc) = some (keys, opcode', vch', rest) ∧
      matchOpcode opcode2 opcode' vch' = some first ∧
      matchTemplate template rest = some later ∧ vSolutions = keys ++ first ++ later := by
  rw [matchTemplate] at matched
  simp only [if_true, Option.bind_eq_bind, Option.bind_eq_some_iff, Option.pure_def,
    Option.some.injEq] at matched
  obtain ⟨⟨opcode, vch, pc⟩, parsed, ⟨keys, opcode', vch', rest⟩, loop, first, matches_first,
    later, matches_later, same⟩ := matched
  exact ⟨opcode, vch, pc, keys, opcode', vch', rest, first, later, parsed, loop, matches_first,
    matches_later, same.symm⟩

/-- An operator of a template stands for itself. -/
private theorem matchOpcode_operator {opcode2 opcode : Nat} {vch : Valtype} {first : List Valtype}
    (operator : opcode2 ≠ OP_PUBKEY ∧ opcode2 ≠ OP_PUBKEYHASH ∧ opcode2 ≠ OP_SMALLINTEGER)
    (matched : matchOpcode opcode2 opcode vch = some first) :
    opcode = opcode2 ∧ vch = [] ∧ first = [] := by
  simp only [matchOpcode, if_neg operator.1, if_neg operator.2.1, if_neg operator.2.2] at matched
  split_ifs at matched with differs
  push Not at differs
  exact ⟨differs.1, differs.2, (Option.some.inj matched).symm⟩

/-- The instruction of an operator of a template. -/
private theorem operator_of_template {opcode2 : Nat} {template : List Nat} {script : CScript}
    {vSolutions : List Valtype}
    (operator : opcode2 ≠ OP_PUBKEYS ∧ opcode2 ≠ OP_PUBKEY ∧ opcode2 ≠ OP_PUBKEYHASH ∧
      opcode2 ≠ OP_SMALLINTEGER)
    (matched : matchTemplate (opcode2 :: template) script = some vSolutions) :
    ∃ rest, getOp script = some (opcode2, [], rest) ∧
      matchTemplate template rest = some vSolutions := by
  obtain ⟨opcode, vch, rest, first, later, parsed, here, below, rfl⟩ :=
    matchTemplate_cons operator.1 matched
  obtain ⟨rfl, rfl, rfl⟩ := matchOpcode_operator operator.2 here
  exact ⟨rest, parsed, below⟩

/-- Read the template that a solution comes from. -/
private theorem solver_cases {script : CScript} {typeRet : TxnOutType} {vSolutions : List Valtype}
    (solved : solver script = some (typeRet, vSolutions)) :
    (typeRet = .TX_SCRIPTHASH ∧ isPayToScriptHash script ∧
        vSolutions = [(script.drop 2).take 20]) ∨
      (typeRet = .TX_PUBKEY ∧ matchTemplate [OP_PUBKEY, OP_CHECKSIG] script = some vSolutions) ∨
      (typeRet = .TX_PUBKEYHASH ∧ matchTemplate
        [OP_DUP, OP_HASH160, OP_PUBKEYHASH, OP_EQUALVERIFY, OP_CHECKSIG] script =
          some vSolutions) ∨
      (typeRet = .TX_MULTISIG ∧ matchTemplate
        [OP_SMALLINTEGER, OP_PUBKEYS, OP_SMALLINTEGER, OP_CHECKMULTISIG] script =
          some vSolutions ∧ multisigCounts vSolutions) := by
  unfold solver at solved
  split at solved
  · simp only [Option.some.injEq, Prod.mk.injEq] at solved
    exact .inl ⟨solved.1.symm, ‹_›, solved.2.symm⟩
  · split at solved
    · rename_i found
      simp only [Option.some.injEq, Prod.mk.injEq] at solved
      exact .inr (.inl ⟨solved.1.symm, solved.2 ▸ found⟩)
    · split at solved
      · rename_i found
        simp only [Option.some.injEq, Prod.mk.injEq] at solved
        exact .inr (.inr (.inl ⟨solved.1.symm, solved.2 ▸ found⟩))
      · split at solved
        · rename_i found
          split_ifs at solved with counts
          simp only [Option.some.injEq, Prod.mk.injEq] at solved
          exact .inr (.inr (.inr ⟨solved.1.symm, solved.2 ▸ found, solved.2 ▸ counts⟩))
        · contradiction

/-- The operand of a public key instruction. -/
def IsPubKeyPush (instr : Instr) : Prop :=
  instr.1 ≤ OP_PUSHDATA4 ∧ 33 ≤ instr.2.length ∧ instr.2.length ≤ 120

private theorem isPubKeyPush_of_getOp {pc rest : CScript} {opcode : Nat} {vch : Valtype}
    (parsed : getOp pc = some (opcode, vch, rest)) (size : 33 ≤ vch.length ∧ vch.length ≤ 120) :
    IsPubKeyPush (opcode, vch) := by
  refine ⟨push_of_operand parsed ?_, size⟩
  rintro rfl
  simp at size

/-- `TX_PUBKEY`: a public key and `OP_CHECKSIG`. -/
theorem solver_pubkey {script : CScript} {vSolutions : List Valtype}
    (solved : solver script = some (.TX_PUBKEY, vSolutions)) :
    ∃ instr, IsPubKeyPush instr ∧ vSolutions = [instr.2] ∧
      Parses script [instr, (OP_CHECKSIG, [])] := by
  obtain ⟨differs, -⟩ | ⟨-, matched⟩ | ⟨differs, -⟩ | ⟨differs, -⟩ := solver_cases solved
  · contradiction
  · obtain ⟨opcode, vch, rest, first, later, parsed, key, below, rfl⟩ :=
      matchTemplate_cons (by decide) matched
    obtain ⟨rest, checksig, below⟩ := operator_of_template (by decide) below
    obtain ⟨rfl, rfl⟩ := matchTemplate_nil.mp below
    simp only [matchOpcode, if_true, Option.ite_none_right_eq_some, Option.some.injEq] at key
    obtain ⟨size, rfl⟩ := key
    exact ⟨(opcode, vch), isPubKeyPush_of_getOp parsed size, rfl,
      .cons parsed (.cons checksig .nil)⟩
  · contradiction
  · contradiction

/-- `TX_PUBKEYHASH`: the hash of a public key between its operators. -/
theorem solver_pubkeyhash {script : CScript} {vSolutions : List Valtype}
    (solved : solver script = some (.TX_PUBKEYHASH, vSolutions)) :
    ∃ opcode hash, opcode ≤ OP_PUSHDATA4 ∧ hash.length = 20 ∧ vSolutions = [hash] ∧
      Parses script [(OP_DUP, []), (OP_HASH160, []), (opcode, hash), (OP_EQUALVERIFY, []),
        (OP_CHECKSIG, [])] := by
  obtain ⟨differs, -⟩ | ⟨differs, -⟩ | ⟨-, matched⟩ | ⟨differs, -⟩ := solver_cases solved
  · contradiction
  · contradiction
  · obtain ⟨rest, dup, matched⟩ := operator_of_template (by decide) matched
    obtain ⟨rest, hash160, matched⟩ := operator_of_template (by decide) matched
    obtain ⟨opcode, vch, rest, first, later, parsed, hash, below, rfl⟩ :=
      matchTemplate_cons (by decide) matched
    obtain ⟨rest, equalverify, below⟩ := operator_of_template (by decide) below
    obtain ⟨rest, checksig, below⟩ := operator_of_template (by decide) below
    obtain ⟨rfl, rfl⟩ := matchTemplate_nil.mp below
    have other : OP_PUBKEYHASH ≠ OP_PUBKEY := by decide
    simp only [matchOpcode, if_neg other, if_true, Option.ite_none_right_eq_some,
      Option.some.injEq] at hash
    obtain ⟨size, rfl⟩ := hash
    refine ⟨opcode, vch, push_of_operand parsed ?_, size, rfl,
      .cons dup (.cons hash160 (.cons parsed (.cons equalverify (.cons checksig .nil))))⟩
    rintro rfl
    simp at size
  · contradiction

/-- `TX_SCRIPTHASH`: the hash of a script. -/
theorem solver_scripthash {script : CScript} {vSolutions : List Valtype} :
    solver script = some (.TX_SCRIPTHASH, vSolutions) ↔
      isPayToScriptHash script = true ∧ vSolutions = [(script.drop 2).take 20] := by
  constructor
  · intro solved
    obtain ⟨-, scriptHash, same⟩ | ⟨differs, -⟩ | ⟨differs, -⟩ | ⟨differs, -⟩ := solver_cases solved
    · exact ⟨scriptHash, same⟩
    all_goals contradiction
  · rintro ⟨scriptHash, rfl⟩
    rw [solver, if_pos scriptHash]

/-- A pay-to-script-hash script. -/
theorem parses_payToScriptHash {script : CScript} (scriptHash : isPayToScriptHash script) :
    ((script.drop 2).take 20).length = 20 ∧
      Parses script [(OP_HASH160, []), (20, (script.drop 2).take 20), (OP_EQUAL, [])] := by
  simp only [isPayToScriptHash, decide_eq_true_eq, Bool.decide_and, Bool.and_eq_true] at scriptHash
  obtain ⟨size, first, second, last⟩ := scriptHash
  obtain ⟨byte, script, rfl⟩ := List.exists_cons_of_length_eq_add_one size
  obtain ⟨width, script, rfl⟩ := List.exists_cons_of_length_eq_add_one (Nat.succ.inj size)
  simp only [List.getElem?_cons_zero, List.getElem?_cons_succ, Option.some.injEq]
    at first second last
  subst first second
  have length : script.length = 21 := by simpa using size
  have split : script = script.take 20 ++ [UInt8.ofNat OP_EQUAL] := by
    refine (List.take_append_drop 20 script).symm.trans ?_
    have dropped : script.drop 20 = [UInt8.ofNat OP_EQUAL] := by
      refine List.ext_getElem? fun i => ?_
      rw [List.getElem?_drop]
      cases i with
      | zero => simpa using last
      | succ i =>
          rw [List.getElem?_eq_none (by omega)]
          rfl
    rw [dropped]
  have hash_length : (script.take 20).length = 20 := by
    rw [List.length_take, length]
    rfl
  have hash160 : getOp (UInt8.ofNat OP_HASH160 :: 20 :: script) =
      some (OP_HASH160, [], 20 :: script) := by
    simp [getOp, OP_HASH160, OP_PUSHDATA4]
  have push : getOp (20 :: script) = some (20, script.take 20, [UInt8.ofNat OP_EQUAL]) := by
    have dropped : script.drop 20 = [UInt8.ofNat OP_EQUAL] := by
      rw [split, List.drop_left' hash_length]
    have enough : ¬script.length < 20 := by omega
    simp [getOp, operandSize, OP_PUSHDATA1, OP_PUSHDATA4, enough, dropped]
  exact ⟨hash_length, .cons hash160 (.cons push (.cons rfl .nil))⟩

/-- The public keys that the loop reads are instructions in front of the one it stops at. -/
private theorem parses_pubKeysLoop {fuel opcode opcode' : Nat} {vch vch' : Valtype}
    {keys : List Valtype} {pc rest : CScript} {tail : List Instr}
    (read : pubKeysLoop fuel (opcode, vch, pc) = some (keys, opcode', vch', rest))
    (later : Parses rest tail) {script : CScript} (here : getOp script = some (opcode, vch, pc)) :
    (∃ stop, getOp stop = some (opcode', vch', rest)) ∧
      ∃ instrs, instrs.map Prod.snd = keys ∧ (∀ instr ∈ instrs, IsPubKeyPush instr) ∧
        Parses script (instrs ++ (opcode', vch') :: tail) := by
  induction fuel generalizing opcode vch pc keys script with
  | zero => simp [pubKeysLoop] at read
  | succ fuel induction =>
      unfold pubKeysLoop at read
      split at read
      · rename_i size
        simp only [Option.bind_eq_bind, Option.bind_eq_some_iff, Option.pure_def, Option.some.injEq,
          Prod.mk.injEq, Prod.exists] at read
        obtain ⟨opcode2, vch2, pc2, next, others, _, _, _, below, rfl, rfl, rfl, rfl⟩ := read
        obtain ⟨stop, instrs, rfl, pushes, parses⟩ := induction below next
        exact ⟨stop, (opcode, vch) :: instrs, rfl,
          List.forall_mem_cons.mpr ⟨isPubKeyPush_of_getOp here size, pushes⟩, .cons here parses⟩
      · simp only [Option.some.injEq, Prod.mk.injEq] at read
        obtain ⟨rfl, rfl, rfl, rfl⟩ := read
        exact ⟨⟨script, here⟩, [], rfl, by simp, .cons here later⟩

/-- A small number of a template is pushed by one opcode. -/
private theorem matchOpcode_smallInteger {pc rest : CScript} {opcode : Nat} {vch : Valtype}
    {first : List Valtype} (parsed : getOp pc = some (opcode, vch, rest))
    (matched : matchOpcode OP_SMALLINTEGER opcode vch = some first) :
    ∃ n, n ≤ 16 ∧ first = [[UInt8.ofNat n]] ∧ (1 ≤ n → opcode = OP_1 - 1 + n ∧ vch = []) := by
  have distinct : OP_SMALLINTEGER ≠ OP_PUBKEY ∧ OP_SMALLINTEGER ≠ OP_PUBKEYHASH := by decide
  simp only [matchOpcode, if_neg distinct.1, if_neg distinct.2, if_true,
    Option.ite_none_right_eq_some, Option.some.injEq] at matched
  obtain ⟨small, rfl⟩ := matched
  refine ⟨decodeOP_N opcode, ?_, rfl, fun positive => ?_⟩
  · rcases small with rfl | ⟨lower, upper⟩
    · decide
    · simp only [OP_1, OP_16] at lower upper
      have nonzero : opcode ≠ OP_0 := by
        simp only [OP_0]
        omega
      rw [decodeOP_N, if_neg nonzero, OP_1]
      omega
  · rcases small with rfl | ⟨lower, upper⟩
    · simp [decodeOP_N] at positive
    · simp only [OP_1, OP_16] at lower upper
      have nonzero : opcode ≠ OP_0 := by
        simp only [OP_0]
        omega
      refine ⟨?_, getOp_operand parsed ?_⟩
      · rw [decodeOP_N, if_neg nonzero, OP_1]
        omega
      · simp only [OP_PUSHDATA4]
        omega

private theorem multisigCounts_spec {m n : Nat} {keys : List Valtype} (m_le : m ≤ 16)
    (n_le : n ≤ 16) (counts : multisigCounts ([UInt8.ofNat m] :: (keys ++ [[UInt8.ofNat n]]))) :
    1 ≤ m ∧ m ≤ n ∧ keys.length = n := by
  have byte {k : Nat} (small : k ≤ 16) : (UInt8.ofNat k).toNat = k := by
    simp only [UInt8.toNat_ofNat']
    omega
  have last : ([UInt8.ofNat m] :: (keys ++ [[UInt8.ofNat n]])).getLast? = some [UInt8.ofNat n] := by
    rw [← List.cons_append, List.getLast?_concat]
  simp only [multisigCounts, solutionByte, last, List.head?_cons,
    Option.bind_some, Option.map_some, Option.getD_some, byte m_le, byte n_le, List.length_cons,
    List.length_append, List.length_nil, decide_eq_true_eq, Bool.decide_and,
    Bool.and_eq_true] at counts
  omega

/-- The instructions of a multisig script of `m` signatures. -/
def multisigInstrs (m : Nat) (keys : List Instr) : List Instr :=
  (OP_1 - 1 + m, []) :: (keys ++ [(OP_1 - 1 + keys.length, []), (OP_CHECKMULTISIG, [])])

/-- `TX_MULTISIG`: the number of signatures, the public keys and their number. -/
theorem solver_multisig {script : CScript} {vSolutions : List Valtype}
    (solved : solver script = some (.TX_MULTISIG, vSolutions)) :
    ∃ m keys, 1 ≤ m ∧ m ≤ keys.length ∧ keys.length ≤ 16 ∧
      (∀ key ∈ keys, IsPubKeyPush key) ∧
      vSolutions = [UInt8.ofNat m] :: (keys.map Prod.snd ++ [[UInt8.ofNat keys.length]]) ∧
      Parses script (multisigInstrs m keys) := by
  obtain ⟨differs, -⟩ | ⟨differs, -⟩ | ⟨differs, -⟩ | ⟨-, matched, counts⟩ := solver_cases solved
  · contradiction
  · contradiction
  · contradiction
  · obtain ⟨opcode, vch, rest, first, later, parsed, number, below, rfl⟩ :=
      matchTemplate_cons (by decide) matched
    obtain ⟨m, m_le, rfl, m_eq⟩ := matchOpcode_smallInteger parsed number
    obtain ⟨opcode1, vch1, pc, keys, opcode2, vch2, rest2, count, last, parsed_keys, loop,
      count_matched, last_matched, rfl⟩ := matchTemplate_pubkeys below
    obtain ⟨rest3, checkmultisig, done⟩ := operator_of_template (by decide) last_matched
    obtain ⟨rfl, rfl⟩ := matchTemplate_nil.mp done
    obtain ⟨⟨stop, stopped⟩, instrs, rfl, pushes, parses⟩ :=
      parses_pubKeysLoop loop (.cons checkmultisig .nil) parsed_keys
    obtain ⟨n, n_le, rfl, n_eq⟩ := matchOpcode_smallInteger stopped count_matched
    rw [List.append_nil, List.singleton_append] at counts ⊢
    obtain ⟨m_pos, m_le_n, size⟩ := multisigCounts_spec m_le n_le counts
    rw [List.length_map] at size
    subst size
    obtain ⟨rfl, rfl⟩ := m_eq m_pos
    obtain ⟨rfl, rfl⟩ := n_eq (m_pos.trans m_le_n)
    exact ⟨m, instrs, m_pos, m_le_n, n_le, pushes, rfl, .cons parsed parses⟩

/-! ## Running the operators -/

section Run

variable {crypto : Crypto} {check : SignatureCheck} {rest : CScript} {stack : Stack}
  {nOpCount : Nat} {codehash : CScript}

/-- The state of a script without conditionals and without alternative stack. -/
abbrev plainState (stack : Stack) (nOpCount : Nat) (codehash : CScript) : EvalState :=
  { stack, altstack := [], vfExec := [], nOpCount, codehash }

private theorem evalOp_dup (vch : Valtype) :
    (evalOp crypto check OP_DUP rest (plainState (vch :: stack) nOpCount codehash)).outcome =
      .ok (plainState (vch :: vch :: stack) nOpCount codehash) := rfl

private theorem evalOp_hash160 (vch : Valtype) :
    (evalOp crypto check OP_HASH160 rest (plainState (vch :: stack) nOpCount codehash)).outcome =
      .ok (plainState (uint160Bytes (crypto.Hash160 vch) :: stack) nOpCount codehash) := rfl

private theorem evalOp_equal (left right : Valtype) :
    (evalOp crypto check OP_EQUAL rest
        (plainState (right :: left :: stack) nOpCount codehash)).outcome =
      .ok (plainState (vchBool (decide (left = right)) :: stack) nOpCount codehash) := rfl

private theorem evalOp_equalverify (vch : Valtype) :
    (evalOp crypto check OP_EQUALVERIFY rest
        (plainState (vch :: vch :: stack) nOpCount codehash)).outcome =
      .ok (plainState stack nOpCount codehash) := by
  simp [evalOp, plainOp, compareOp, demand, stacktop, popstack, outcome_bind, except_ok_bind,
    plainState, OP_IF, OP_ENDIF, OP_CODESEPARATOR, OP_CHECKSIG, OP_CHECKSIGVERIFY,
    OP_CHECKMULTISIG, OP_CHECKMULTISIGVERIFY, OP_1NEGATE, OP_1, OP_16, OP_NOP, OP_NOP1, OP_NOP10,
    OP_VERIFY, OP_TOALTSTACK, OP_TUCK, OP_SIZE, OP_EQUAL, OP_EQUALVERIFY]

private theorem evalOp_checksig (vchSig vchPubKey : Valtype) :
    (evalOp crypto check OP_CHECKSIG rest
        (plainState (vchPubKey :: vchSig :: stack) nOpCount codehash)).outcome =
      .ok (plainState (vchBool (check vchSig vchPubKey
        (findAndDelete codehash (pushData vchSig)).1) :: stack) nOpCount codehash) := rfl

/-- A script starts by running its pushes. -/
theorem runFrom_pushes (stack : Stack) (pushes : List Instr) {pc : CScript} {tail : List Instr}
    (parses : Parses pc (pushes ++ tail))
    (short : ∀ instr ∈ pushes, instr.1 ≤ OP_PUSHDATA4 ∧ instr.2.length ≤ 520)
    (room : stack.length + pushes.length ≤ 1000) :
    ∃ rest, Parses rest tail ∧ runFrom crypto check pc (plainState stack nOpCount codehash) =
      runFrom crypto check rest
        (plainState ((pushes.map Prod.snd).reverse ++ stack) nOpCount codehash) := by
  induction pushes generalizing pc stack with
  | nil => exact ⟨pc, parses, rfl⟩
  | cons instr pushes induction =>
      cases parses with
      | @cons _ next opcode vch _ first later =>
          obtain ⟨here, others⟩ := List.forall_mem_cons.mp short
          rw [List.length_cons] at room
          have step := @evalInstruction_push crypto check next (plainState stack nOpCount codehash)
            _ _ here.1 here.2 rfl (by simp only [List.length_nil]; omega)
          obtain ⟨rest, parses, run⟩ := @induction (vch :: stack) next later others
            (by simp only [List.length_cons]; omega)
          refine ⟨rest, parses, ?_⟩
          rw [runFrom_of_getOp first, step, except_ok_bind]
          simpa using run

/-- A script starts by running its first operator. -/
theorem runFrom_operator (stack stack' : Stack) (nOpCount nOpCount' : Nat) {pc : CScript}
    {opcode : Nat} {tail : List Instr} (parses : Parses pc ((opcode, []) :: tail))
    (operator : OP_16 < opcode) (enabled : opcode ∉ disabledOpcodes) (count : nOpCount < 201)
    (step : ∀ rest, (evalOp crypto check opcode rest
      (plainState stack (nOpCount + 1) codehash)).outcome =
        .ok (plainState stack' nOpCount' codehash))
    (room : stack'.length ≤ 1000) :
    ∃ rest, Parses rest tail ∧ runFrom crypto check pc (plainState stack nOpCount codehash) =
      runFrom crypto check rest (plainState stack' nOpCount' codehash) := by
  cases parses with
  | @cons _ rest _ _ _ first later =>
      have instruction := @evalInstruction_operator crypto check rest
        (plainState stack nOpCount codehash) _ _ operator enabled rfl count (step rest) room
      exact ⟨rest, later, by rw [runFrom_of_getOp first, instruction, except_ok_bind]⟩

/-- A script starts by running its first small number. -/
theorem runFrom_number (stack : Stack) {pc : CScript} {n : Nat} {tail : List Instr}
    (parses : Parses pc ((OP_1 - 1 + n, []) :: tail)) (positive : 1 ≤ n) (small : n ≤ 16)
    (room : stack.length < 1000) :
    ∃ rest, Parses rest tail ∧ runFrom crypto check pc (plainState stack nOpCount codehash) =
      runFrom crypto check rest (plainState (getvch n :: stack) nOpCount codehash) := by
  cases parses with
  | @cons _ rest _ _ _ first later =>
      have instruction := @evalInstruction_number crypto check rest
        (plainState stack nOpCount codehash) n positive small rfl room
      exact ⟨rest, later, by rw [runFrom_of_getOp first, instruction, except_ok_bind]⟩

/-- A script that runs to its end leaves the stack. -/
theorem evalScript_of_runFrom {script : CScript} {stack' : Stack}
    (small : script.length ≤ 10000)
    (run : runFrom crypto check script (plainState stack 0 script) =
      .ok (plainState stack' nOpCount codehash)) :
    (evalScript crypto check stack script).outcome = .ok stack' := by
  rw [evalScript_eq, if_pos small]
  change runFrom crypto check script (plainState stack 0 script) >>= _ = _
  rw [run]
  rfl

/-- A script of pushes leaves their operands. -/
theorem evalScript_pushes {script : CScript} {pushes : List Instr} (parses : Parses script pushes)
    (short : ∀ instr ∈ pushes, instr.1 ≤ OP_PUSHDATA4 ∧ instr.2.length ≤ 520)
    (small : script.length ≤ 10000) (room : pushes.length ≤ 1000) :
    (evalScript crypto check [] script).outcome = .ok (pushes.map Prod.snd).reverse := by
  rw [← List.append_nil pushes] at parses
  obtain ⟨rest, ended, run⟩ := @runFrom_pushes crypto check 0 script [] _ _ _ parses short
    (by rwa [List.length_nil, Nat.zero_add])
  cases ended
  rw [runFrom_nil, List.append_nil] at run
  exact evalScript_of_runFrom small run

/-- A public key checks the signature below it. -/
theorem evalScript_pubkey {script : CScript} {key : Instr} {vchSig : Valtype}
    (push : IsPubKeyPush key) (parses : Parses script [key, (OP_CHECKSIG, [])])
    (room : stack.length < 900) :
    (evalScript crypto check (vchSig :: stack) script).outcome =
      .ok (vchBool (check vchSig key.2 (findAndDelete script (pushData vchSig)).1) :: stack) := by
  have small := parses.length_le
  have size := push.2.2
  obtain ⟨rest, parses, pushed⟩ := runFrom_pushes (vchSig :: stack) [key] parses
    (by simpa using ⟨push.1, by omega⟩) (by simp only [List.length_cons, List.length_nil]; omega)
  obtain ⟨rest, ended, checked⟩ := runFrom_operator (key.2 :: vchSig :: stack) _ 0 1 parses
    (by decide) (by decide) (by decide) (fun rest => evalOp_checksig vchSig key.2)
    (by simp only [List.length_cons]; omega)
  cases ended
  refine evalScript_of_runFrom ?_ (pushed.trans checked)
  simp only [List.map_cons, List.map_nil, List.sum_cons, List.sum_nil, List.length_nil] at small
  omega

/-- A public key hash checks the signature below its public key. -/
theorem evalScript_pubkeyhash {script : CScript} {opcode : Nat} {vchPubKey vchSig : Valtype}
    (push : opcode ≤ OP_PUSHDATA4)
    (parses : Parses script [(OP_DUP, []), (OP_HASH160, []),
      (opcode, uint160Bytes (crypto.Hash160 vchPubKey)), (OP_EQUALVERIFY, []), (OP_CHECKSIG, [])])
    (room : stack.length < 900) :
    (evalScript crypto check (vchPubKey :: vchSig :: stack) script).outcome =
      .ok (vchBool (check vchSig vchPubKey (findAndDelete script (pushData vchSig)).1) ::
        stack) := by
  have small := parses.length_le
  obtain ⟨rest, parses, dup⟩ := runFrom_operator (vchPubKey :: vchSig :: stack) _ 0 1 parses
    (by decide) (by decide) (by decide) (fun rest => evalOp_dup vchPubKey)
    (by simp only [List.length_cons]; omega)
  obtain ⟨rest, parses, hash⟩ := runFrom_operator (vchPubKey :: vchPubKey :: vchSig :: stack) _ 1 2
    parses (by decide) (by decide) (by decide) (fun rest => evalOp_hash160 vchPubKey)
    (by simp only [List.length_cons]; omega)
  obtain ⟨rest, parses, pushed⟩ := runFrom_pushes
    (uint160Bytes (crypto.Hash160 vchPubKey) :: vchPubKey :: vchSig :: stack)
    [(opcode, uint160Bytes (crypto.Hash160 vchPubKey))] parses (by simpa using push)
    (by simp only [List.length_cons, List.length_nil]; omega)
  obtain ⟨rest, parses, equal⟩ := runFrom_operator _ (vchPubKey :: vchSig :: stack) 2 3 parses
    (by decide) (by decide) (by decide) (fun rest => evalOp_equalverify _)
    (by simp only [List.length_cons]; omega)
  obtain ⟨rest, ended, checked⟩ := runFrom_operator (vchPubKey :: vchSig :: stack) _ 3 4 parses
    (by decide) (by decide) (by decide) (fun rest => evalOp_checksig vchSig vchPubKey)
    (by simp only [List.length_cons]; omega)
  cases ended
  refine evalScript_of_runFrom ?_
    (dup.trans (hash.trans (pushed.trans (equal.trans checked))))
  simp only [List.map_cons, List.map_nil, List.sum_cons, List.sum_nil, List.length_nil,
    length_uint160Bytes] at small
  omega

/-- A script hash compares the script on top with it. -/
theorem evalScript_scripthash {script redeemScript : CScript}
    (scriptHash : isPayToScriptHash script) (room : stack.length < 900) :
    (evalScript crypto check (redeemScript :: stack) script).outcome =
      .ok (vchBool (decide (uint160Bytes (crypto.Hash160 redeemScript) =
        (script.drop 2).take 20)) :: stack) := by
  obtain ⟨length, parses⟩ := parses_payToScriptHash scriptHash
  generalize (script.drop 2).take 20 = scriptId at length parses ⊢
  have small := parses.length_le
  obtain ⟨rest, parses, hash⟩ := runFrom_operator (redeemScript :: stack) _ 0 1 parses (by decide)
    (by decide) (by decide) (fun rest => evalOp_hash160 redeemScript)
    (by simp only [List.length_cons]; omega)
  obtain ⟨rest, parses, pushed⟩ := runFrom_pushes
    (uint160Bytes (crypto.Hash160 redeemScript) :: stack) [(20, scriptId)] parses
    (by simp [length, OP_PUSHDATA4]) (by simp only [List.length_cons, List.length_nil]; omega)
  obtain ⟨rest, ended, equal⟩ := runFrom_operator
    (scriptId :: uint160Bytes (crypto.Hash160 redeemScript) :: stack) _ 1 2 parses (by decide)
    (by decide) (by decide) (fun rest => evalOp_equal _ _) (by simp only [List.length_cons]; omega)
  cases ended
  refine evalScript_of_runFrom ?_ (hash.trans (pushed.trans equal))
  simp only [List.map_cons, List.map_nil, List.sum_cons, List.sum_nil, List.length_nil,
    length] at small
  omega

private theorem evalOp_checkmultisig (state : EvalState) :
    (evalOp crypto check OP_CHECKMULTISIG rest state).outcome =
      (checkMultisigOp check OP_CHECKMULTISIG state).outcome := rfl

/-- A multisig script matches the signatures below it with its keys. -/
theorem evalScript_multisig {script : CScript} {m : Nat} {keys : List Instr} {sigs : List Valtype}
    {unused : Valtype} (pushes : ∀ key ∈ keys, IsPubKeyPush key) (few : keys.length ≤ 16)
    (sigs_le : sigs.length ≤ keys.length) (m_eq : sigs.length = m) (m_pos : 1 ≤ m)
    (parses : Parses script (multisigInstrs m keys)) (room : stack.length < 900) :
    (evalScript crypto check (sigs.reverse ++ unused :: stack) script).outcome =
      .ok (vchBool (greedy (fun vchSig vchPubKey => check vchSig vchPubKey
        (withoutSignatures sigs.reverse script)) sigs.reverse (keys.map Prod.snd).reverse) ::
          stack) := by
  have small : script.length ≤ 10000 := by
    have total := parses.length_le
    have keys_small : (keys.map fun key => key.2.length + 5).sum ≤ keys.length * 125 := by
      rw [← List.length_map (fun key : Instr => key.2.length + 5), ← smul_eq_mul]
      refine List.sum_le_card_nsmul _ 125 fun size member => ?_
      obtain ⟨key, key_member, rfl⟩ := List.mem_map.mp member
      have size := (pushes key key_member).2.2
      omega
    simp only [multisigInstrs, List.map_cons, List.map_append, List.map_nil, List.sum_cons,
      List.sum_append, List.sum_nil, List.length_nil] at total
    omega
  have sigs_few : sigs.length ≤ 16 := sigs_le.trans few
  obtain ⟨rest, parses, required⟩ := runFrom_number (sigs.reverse ++ unused :: stack) parses m_pos
    (by omega)
    (by simp only [List.length_append, List.length_reverse, List.length_cons]; omega)
  obtain ⟨rest, parses, pushed⟩ := runFrom_pushes
    (getvch m :: (sigs.reverse ++ unused :: stack)) keys parses
    (fun key member => ⟨(pushes key member).1, (pushes key member).2.2.trans (by decide)⟩)
    (by simp only [List.length_append, List.length_reverse, List.length_cons]; omega)
  obtain ⟨rest, parses, number⟩ := runFrom_number
    ((keys.map Prod.snd).reverse ++ getvch m :: (sigs.reverse ++ unused :: stack)) parses (by omega)
    few
    (by
      simp only [List.length_append, List.length_reverse, List.length_cons, List.length_map]
      omega)
  obtain ⟨-, matched⟩ := checkMultisigOp_greedy check
    (plainState (getvch keys.length :: ((keys.map Prod.snd).reverse ++
      getvch m :: (sigs.reverse ++ unused :: stack))) 1 script)
    stack unused (getvch m) (getvch keys.length) sigs (keys.map Prod.snd) rfl
    (by rw [List.length_map]; exact castToBigNum_getvch_small few)
    (by rw [m_eq]; exact castToBigNum_getvch_small (by omega))
    (by rw [List.length_map]; omega) (by rwa [List.length_map])
    (by rw [List.length_map]; change 1 + keys.length ≤ 201; omega)
  obtain ⟨rest, ended, checked⟩ := runFrom_operator _ _ 0 (1 + (keys.map Prod.snd).length) parses
    (by decide) (by decide) (by decide) (fun rest => (evalOp_checkmultisig _).trans matched)
    (by simp only [List.length_cons]; omega)
  cases ended
  exact evalScript_of_runFrom small (required.trans (pushed.trans (number.trans checked)))

/-- A script keeps its instructions when signatures that it does not push are dropped from it. -/
theorem withoutSignatures_eq {script : CScript} {instrs : List Instr} {sigs : List Valtype}
    (parses : Parses script instrs)
    (absent : ∀ vchSig ∈ sigs, vchSig.length < 2 ^ 32 ∧ ∀ instr ∈ instrs, instr.2 ≠ vchSig) :
    withoutSignatures sigs script = script := by
  induction sigs with
  | nil => rfl
  | cons vchSig sigs induction =>
      obtain ⟨⟨small, unpushed⟩, others⟩ := List.forall_mem_cons.mp absent
      have kept := findAndDelete_of_absent parses small unpushed
      change withoutSignatures sigs (findAndDelete script (pushData vchSig)).1 = script
      rw [kept]
      exact induction others

/-! ## Script pairs -/

@[simp]
theorem castToBool_vchBool (fValue : Bool) : castToBool (vchBool fValue) = fValue := by
  cases fValue <;> rfl

private theorem isOk_demand (fValue : Bool) : (demand (fValue = true)).isOk = fValue := by
  cases fValue <;> rfl

/-- An input whose script fails spends nothing. -/
theorem verifyScript_refused {scriptSig scriptPubKey : CScript}
    (refused : (evalScript crypto check [] scriptSig).outcome.isOk = false) :
    (verifyScript crypto check scriptSig scriptPubKey true).outcome.isOk = false := by
  simp only [verifyScript, outcome_bind]
  cases outcome : (evalScript crypto check [] scriptSig).outcome with
  | error failure => rfl
  | ok stack => simp [outcome, Except.isOk, Except.toBool] at refused

/-- An output that is no script hash is spent when its script leaves true. -/
theorem verifyScript_bare {scriptSig scriptPubKey : CScript} {stack below : Stack} {fValue : Bool}
    (bare : ¬isPayToScriptHash scriptPubKey)
    (inputs : (evalScript crypto check [] scriptSig).outcome = .ok stack)
    (outputs : (evalScript crypto check stack scriptPubKey).outcome =
      .ok (vchBool fValue :: below)) :
    (verifyScript crypto check scriptSig scriptPubKey true).outcome.isOk = fValue := by
  have evaluated : (verifyScript crypto check scriptSig scriptPubKey true).outcome =
      demand (fValue = true) := by
    simp only [verifyScript, outcome_bind, inputs, except_ok_bind, outputs, outcome_free, bare]
    rw [demand, if_pos (by simp), except_ok_bind]
    change (demand (castToBool (vchBool fValue) = true) >>= fun _ => pure ()) = _
    rw [castToBool_vchBool]
    cases fValue <;> rfl
  rw [evaluated, isOk_demand]

/-- A script hash is spent when the script that it is the hash of leaves true. -/
theorem verifyScript_scripthash {scriptSig scriptPubKey redeemScript : CScript}
    {stack below : Stack} {fValue : Bool} (scriptHash : isPayToScriptHash scriptPubKey)
    (pushes : isPushOnly scriptSig)
    (named : uint160Bytes (crypto.Hash160 redeemScript) = (scriptPubKey.drop 2).take 20)
    (room : stack.length < 900)
    (inputs : (evalScript crypto check [] scriptSig).outcome = .ok (redeemScript :: stack))
    (redeemed : (evalScript crypto check stack redeemScript).outcome =
      .ok (vchBool fValue :: below)) :
    (verifyScript crypto check scriptSig scriptPubKey true).outcome.isOk = fValue := by
  have outputs := @evalScript_scripthash crypto check stack _ redeemScript scriptHash room
  rw [decide_eq_true named] at outputs
  have evaluated : (verifyScript crypto check scriptSig scriptPubKey true).outcome =
      demand (fValue = true) := by
    simp only [verifyScript, outcome_bind, inputs, except_ok_bind, outputs, outcome_free,
      scriptHash, pushes, and_self, if_true]
    rw [demand, if_pos (by simp), except_ok_bind]
    change (demand (castToBool (vchBool true) = true) >>= fun _ => demand (true = true) >>= fun _ =>
      (evalScript crypto check stack redeemScript).outcome >>= fun stackCopy =>
        demand (stackCopy ≠ []) >>= fun _ => stacktop stackCopy 1 >>= fun top =>
          demand (castToBool top = true)) = _
    rw [castToBool_vchBool, redeemed]
    change demand (castToBool (vchBool fValue) = true) = _
    rw [castToBool_vchBool]
  rw [evaluated, isOk_demand]

/-- A script of pushes is recognised as one. -/
theorem isPushOnly_of_parses {script : CScript} {pushes : List Instr}
    (parses : Parses script pushes) (small : ∀ instr ∈ pushes, instr.1 ≤ OP_PUSHDATA4) :
    isPushOnly script := by
  have loop {fuel : Nat} (enough : script.length ≤ fuel) : isPushOnlyLoop fuel script = true := by
    induction parses generalizing fuel with
    | nil => simp only [isPushOnlyLoop]
    | @cons pc rest opcode vch instrs first later induction =>
        obtain ⟨here, others⟩ := List.forall_mem_cons.mp small
        have shorter := getOp_length first
        cases pc with
        | nil => simp [getOp] at first
        | cons byte pc =>
            cases fuel with
            | zero => simp at enough
            | succ fuel =>
                have push : ¬OP_16 < opcode := by
                  simp only [OP_PUSHDATA4] at here
                  simp only [OP_16]
                  omega
                simp only [isPushOnlyLoop, first, if_neg push]
                exact induction others (by simp only [List.length_cons] at *; omega)
  exact loop le_rfl

/-- Pushed values are the operands of pushes. -/
theorem parses_pushAll {values : List Valtype} (small : ∀ vch ∈ values, vch.length < 2 ^ 32) :
    ∃ pushes, pushes.map Prod.snd = values ∧ (∀ instr ∈ pushes, instr.1 ≤ OP_PUSHDATA4) ∧
      Parses (pushAll values) pushes := by
  induction values with
  | nil => exact ⟨[], rfl, by simp, .nil⟩
  | cons vch values induction =>
      obtain ⟨here, others⟩ := List.forall_mem_cons.mp small
      obtain ⟨pushes, rfl, sizes, parses⟩ := induction others
      obtain ⟨opcode, size, parsed⟩ := getOp_pushData vch (pushAll (pushes.map Prod.snd)) here
      exact ⟨(opcode, vch) :: pushes, rfl, List.forall_mem_cons.mpr ⟨size, sizes⟩,
        .cons parsed parses⟩

theorem length_pushAll_le (values : List Valtype) :
    (pushAll values).length ≤ (values.map fun vch => vch.length + 5).sum := by
  rw [pushAll, List.length_flatMap]
  exact List.sum_le_sum fun vch _ => length_pushData_le vch

/-- Few short values are pushed onto an empty stack. -/
theorem evalScript_pushAll {values : List Valtype} (few : values.length ≤ 18)
    (short : ∀ vch ∈ values, vch.length ≤ 520) :
    (evalScript crypto check [] (pushAll values)).outcome = .ok values.reverse := by
  obtain ⟨pushes, rfl, sizes, parses⟩ :=
    parses_pushAll fun vch member => (short vch member).trans_lt (by norm_num)
  rw [List.length_map] at few
  have short_pushes : ∀ instr ∈ pushes, instr.1 ≤ OP_PUSHDATA4 ∧ instr.2.length ≤ 520 :=
    fun instr member => ⟨sizes instr member, short _ (List.mem_map_of_mem member)⟩
  refine evalScript_pushes parses short_pushes ?_ (by omega)
  have total := length_pushAll_le (pushes.map Prod.snd)
  have bound : ((pushes.map Prod.snd).map fun vch => vch.length + 5).sum ≤ pushes.length * 525 := by
    rw [← List.length_map Prod.snd, ← List.length_map (fun vch : Valtype => vch.length + 5),
      ← smul_eq_mul]
    refine List.sum_le_card_nsmul _ 525 fun size member => ?_
    obtain ⟨vch, vch_member, rfl⟩ := List.mem_map.mp member
    have size := short vch vch_member
    omega
  omega

/-- A value of more than 520 bytes is not pushed. -/
theorem evalScript_pushAll_long {values : List Valtype} {long : Valtype}
    (few : values.length ≤ 17) (short : ∀ vch ∈ values, vch.length ≤ 520)
    (too_long : 520 < long.length) :
    (evalScript crypto check [] (pushAll (values ++ [long]))).outcome.isOk = false := by
  rw [evalScript_eq]
  split_ifs with small
  · have within : ∀ vch ∈ values ++ [long], vch.length < 2 ^ 32 := by
      intro vch member
      rcases List.mem_append.mp member with earlier | last
      · exact (short vch earlier).trans_lt (by norm_num)
      · obtain rfl := List.mem_singleton.mp last
        have size := length_le_pushData vch
        simp only [pushAll, List.flatMap_append, List.flatMap_cons, List.flatMap_nil,
          List.append_nil, List.length_append] at small
        omega
    obtain ⟨pushes, operands, sizes, parses⟩ := parses_pushAll within
    obtain ⟨earlier, last, rfl, rfl, last_eq⟩ := List.map_eq_append_iff.mp operands
    obtain ⟨⟨opcode, _⟩, rfl, rfl⟩ := List.map_eq_singleton_iff.mp last_eq
    rw [List.length_map] at few
    obtain ⟨rest, ended, run⟩ := runFrom_pushes [] earlier parses
      (fun instr member => ⟨sizes instr (List.mem_append_left _ member),
        short _ (List.mem_map_of_mem member)⟩)
      (by simp only [List.length_nil]; omega)
    cases ended with
    | cons first later =>
        change (runFrom crypto check _ (plainState [] 0 _) >>= _).isOk = false
        rw [run, runFrom_of_getOp first, evalInstruction_long too_long]
        rfl
  · rfl

end Run

end FooCoin

import FooCoin.Script.Spendable

/-!
# What spends a standard output

For each standard type of output, what the script of an input has to leave on the stack so that
`VerifyScript` succeeds: nothing else spends the output.
-/

namespace FooCoin

open LittleEndian Op Counted OrderedMatching

variable {crypto : Crypto} {check : SignatureCheck} {script : CScript} {stack final : Stack}
  {nOpCount : Nat} {codehash : CScript}

/-! ## Evaluations that get stuck -/

private theorem evalInstruction_operation {opcode : Nat} {rest : CScript}
    (operator : OP_16 < opcode) (enabled : opcode ∉ disabledOpcodes) (count : nOpCount < 201) :
    (evalInstruction crypto check opcode [] rest (plainState stack nOpCount codehash)).outcome =
      (evalOp crypto check opcode rest (plainState stack (nOpCount + 1) codehash)).outcome >>=
        fun after => demand (after.stack.length + after.altstack.length ≤ 1000) >>=
          fun _ => pure after := by
  have not_push : ¬opcode ≤ OP_PUSHDATA4 := by
    simp only [OP_16] at operator
    simp only [OP_PUSHDATA4]
    omega
  have counted : nOpCount + 1 ≤ 201 := count
  simp [evalInstruction, evalExecuted, demand, outcome_bind, operator, enabled, counted,
    EvalState.fExec, not_push, except_ok_bind, -bind_pure_comp]
  rfl

/-- An operator that fails or overfills the stack ends the evaluation. -/
private theorem runFrom_operator_stuck {pc : CScript} {opcode : Nat} {tail : List Instr}
    (parses : Parses pc ((opcode, []) :: tail)) (operator : OP_16 < opcode)
    (enabled : opcode ∉ disabledOpcodes) (count : nOpCount < 201)
    (stuck : ∀ rest after, (evalOp crypto check opcode rest
      (plainState stack (nOpCount + 1) codehash)).outcome = .ok after →
        1000 < after.stack.length + after.altstack.length) (after : EvalState) :
    runFrom crypto check pc (plainState stack nOpCount codehash) ≠ .ok after := by
  cases parses with
  | @cons _ rest _ _ _ first later =>
      intro ran
      rw [runFrom_of_getOp first, evalInstruction_operation operator enabled count,
        except_bind_eq_ok] at ran
      obtain ⟨middle, executed, -⟩ := ran
      obtain ⟨result, stepped, limited⟩ := except_bind_eq_ok.mp executed
      have full := stuck rest result stepped
      rw [demand, if_neg (by omega)] at limited
      cases limited

/-- A push onto a full stack ends the evaluation. -/
private theorem runFrom_push_stuck {pc : CScript} {instr : Instr} {tail : List Instr}
    (parses : Parses pc (instr :: tail)) (push : instr.1 ≤ OP_PUSHDATA4)
    (full : 1000 ≤ stack.length) (after : EvalState) :
    runFrom crypto check pc (plainState stack nOpCount codehash) ≠ .ok after := by
  cases parses with
  | @cons _ rest opcode vch _ first later =>
      intro ran
      rw [runFrom_of_getOp first, except_bind_eq_ok] at ran
      obtain ⟨middle, executed, -⟩ := ran
      have uncounted : ¬OP_16 < opcode := by
        simp only [OP_PUSHDATA4] at push
        simp only [OP_16]
        omega
      have overflows : ¬stack.length + 1 ≤ 1000 := by omega
      simp [evalInstruction, evalExecuted, demand, outcome_bind, uncounted, EvalState.fExec, push,
        overflows] at executed

/-- A script whose run gets stuck leaves no stack. -/
private theorem evalScript_stuck
    (stuck : ∀ after, runFrom crypto check script (plainState stack 0 script) ≠ .ok after) :
    (evalScript crypto check stack script).outcome ≠ .ok final := by
  intro evaluated
  rw [evalScript_eq] at evaluated
  split_ifs at evaluated
  obtain ⟨after, ran, -⟩ := except_bind_eq_ok.mp evaluated
  exact stuck after ran

/-! ## The templates -/

private theorem evalOp_checksig' (vchSig vchPubKey : Valtype) (rest : CScript) :
    (evalOp crypto check OP_CHECKSIG rest
        (plainState (vchPubKey :: vchSig :: stack) nOpCount codehash)).outcome =
      .ok (plainState (vchBool (check vchSig vchPubKey
        (findAndDelete codehash (pushData vchSig)).1) :: stack) nOpCount codehash) := rfl

private theorem evalOp_equalverify' (left right : Valtype) (rest : CScript) :
    (evalOp crypto check OP_EQUALVERIFY rest
        (plainState (right :: left :: stack) nOpCount codehash)).outcome =
      if left = right then .ok (plainState stack nOpCount codehash)
      else .error .returnedFalse := by
  by_cases same : left = right <;>
    simp [evalOp, plainOp, compareOp, demand, stacktop, popstack, outcome_bind, except_ok_bind,
      plainState, same, OP_IF, OP_ENDIF, OP_CODESEPARATOR, OP_CHECKSIG, OP_CHECKSIGVERIFY,
      OP_CHECKMULTISIG, OP_CHECKMULTISIGVERIFY, OP_1NEGATE, OP_1, OP_16, OP_NOP, OP_NOP1, OP_NOP10,
      OP_VERIFY, OP_TOALTSTACK, OP_TUCK, OP_SIZE, OP_EQUAL, OP_EQUALVERIFY]
  rfl

/-- A public key takes a signature. -/
private theorem evalScript_pubkey_iff {key : Instr} (push : IsPubKeyPush key)
    (parses : Parses script [key, (OP_CHECKSIG, [])]) :
    (evalScript crypto check stack script).outcome = .ok final ↔
      ∃ vchSig below, stack = vchSig :: below ∧ below.length ≤ 998 ∧
        vchBool (check vchSig key.2 (findAndDelete script (pushData vchSig)).1) :: below =
          final := by
  have small : script.length ≤ 10000 := by
    have total := parses.length_le
    have size := push.2.2
    simp only [List.map_cons, List.map_nil, List.sum_cons, List.sum_nil, List.length_nil] at total
    omega
  by_cases full : 1000 ≤ stack.length
  · refine iff_of_false (evalScript_stuck (runFrom_push_stuck parses push.1 full)) ?_
    rintro ⟨vchSig, below, rfl, room, -⟩
    rw [List.length_cons] at full
    omega
  obtain ⟨rest, checks, pushed⟩ := @runFrom_pushes crypto check 0 script stack [key] _ _ parses
    (by simpa using ⟨push.1, push.2.2.trans (by decide)⟩)
    (by simp only [List.length_singleton]; omega)
  cases stack with
  | nil =>
      refine iff_of_false (evalScript_stuck fun after => ?_) (by simp)
      rw [pushed]
      refine runFrom_operator_stuck checks (by decide) (by decide) (by decide) ?_ after
      intro rest after executed
      cases executed
  | cons vchSig below =>
      rw [List.length_cons] at full
      obtain ⟨rest, ended, checked⟩ := runFrom_operator (key.2 :: vchSig :: below) _ 0 1 checks
        (by decide) (by decide) (by decide) (evalOp_checksig' vchSig key.2)
        (by simp only [List.length_cons]; omega)
      cases ended
      rw [evalScript_of_runFrom small (pushed.trans checked), Except.ok.injEq]
      constructor
      · exact fun same => ⟨vchSig, below, rfl, by omega, same⟩
      · rintro ⟨other, others, same, -, result⟩
        cases same
        exact result

/-- A public key hash takes a public key with this hash and a signature. -/
private theorem evalScript_pubkeyhash_iff {opcode : Nat} {hash : Valtype}
    (push : opcode ≤ OP_PUSHDATA4) (length : hash.length = 20)
    (parses : Parses script [(OP_DUP, []), (OP_HASH160, []), (opcode, hash),
      (OP_EQUALVERIFY, []), (OP_CHECKSIG, [])]) :
    (evalScript crypto check stack script).outcome = .ok final ↔
      ∃ vchPubKey vchSig below, stack = vchPubKey :: vchSig :: below ∧ below.length ≤ 996 ∧
        uint160Bytes (crypto.Hash160 vchPubKey) = hash ∧
        vchBool (check vchSig vchPubKey (findAndDelete script (pushData vchSig)).1) :: below =
          final := by
  have small : script.length ≤ 10000 := by
    have total := parses.length_le
    simp only [List.map_cons, List.map_nil, List.sum_cons, List.sum_nil, List.length_nil,
      length] at total
    omega
  cases stack with
  | nil =>
      refine iff_of_false (evalScript_stuck fun after => ?_) (by simp)
      refine runFrom_operator_stuck parses (by decide) (by decide) (by decide) ?_ after
      intro rest after executed
      cases executed
  | cons vchPubKey stack =>
      by_cases dup_full : 1000 < stack.length + 2
      · refine iff_of_false (evalScript_stuck fun after => ?_) ?_
        · refine runFrom_operator_stuck parses (by decide) (by decide) (by decide) ?_ after
          intro rest after executed
          cases executed
          simp only [List.length_cons, List.length_nil]
          omega
        · rintro ⟨key, vchSig, below, same, room, -⟩
          cases same
          rw [List.length_cons] at dup_full
          omega
      obtain ⟨rest, hashes, dup⟩ := @runFrom_operator crypto check script (vchPubKey :: stack)
        (vchPubKey :: vchPubKey :: stack) 0 1 _ _ _ parses (by decide) (by decide) (by decide)
        (fun _ => rfl) (by simp only [List.length_cons]; omega)
      obtain ⟨rest, pushes, hashed⟩ := @runFrom_operator crypto check script
        (vchPubKey :: vchPubKey :: stack)
        (uint160Bytes (crypto.Hash160 vchPubKey) :: vchPubKey :: stack) 1 2 _ _ _ hashes
        (by decide) (by decide) (by decide) (fun _ => rfl)
        (by simp only [List.length_cons]; omega)
      by_cases push_full : 1000 ≤ stack.length + 2
      · refine iff_of_false (evalScript_stuck fun after => ?_) ?_
        · rw [dup, hashed]
          exact runFrom_push_stuck pushes push (by simp only [List.length_cons]; omega) after
        · rintro ⟨key, vchSig, below, same, room, -⟩
          cases same
          rw [List.length_cons] at push_full
          omega
      obtain ⟨rest, compares, pushed⟩ := @runFrom_pushes crypto check 2 script
        (uint160Bytes (crypto.Hash160 vchPubKey) :: vchPubKey :: stack) [(opcode, hash)] _ _ pushes
        (by simpa [length] using push)
        (by simp only [List.length_cons, List.length_nil]; omega)
      have start := dup.trans (hashed.trans pushed)
      by_cases named : uint160Bytes (crypto.Hash160 vchPubKey) = hash
      · subst named
        obtain ⟨rest, checks, equal⟩ := @runFrom_operator crypto check script
          (uint160Bytes (crypto.Hash160 vchPubKey) :: uint160Bytes (crypto.Hash160 vchPubKey) ::
            vchPubKey :: stack) (vchPubKey :: stack) 2 3 _ _ _ compares (by decide) (by decide)
          (by decide) (fun rest => (evalOp_equalverify' _ _ rest).trans (if_pos rfl))
          (by simp only [List.length_cons]; omega)
        cases stack with
        | nil =>
            refine iff_of_false (evalScript_stuck fun after => ?_) (by simp)
            rw [start.trans equal]
            refine runFrom_operator_stuck checks (by decide) (by decide) (by decide) ?_ after
            intro rest after executed
            cases executed
        | cons vchSig below =>
            rw [List.length_cons] at push_full
            obtain ⟨rest, ended, checked⟩ := runFrom_operator (vchPubKey :: vchSig :: below) _ 3 4
              checks (by decide) (by decide) (by decide) (evalOp_checksig' vchSig vchPubKey)
              (by simp only [List.length_cons]; omega)
            cases ended
            rw [evalScript_of_runFrom small (start.trans (equal.trans checked)),
              Except.ok.injEq]
            constructor
            · exact fun same => ⟨vchPubKey, vchSig, below, rfl, by omega, rfl, same⟩
            · rintro ⟨key, other, others, same, -, -, result⟩
              cases same
              exact result
      · refine iff_of_false (evalScript_stuck fun after => ?_) ?_
        · rw [start]
          refine runFrom_operator_stuck compares (by decide) (by decide) (by decide) ?_ after
          intro rest after executed
          rw [List.map_singleton, List.reverse_singleton, List.singleton_append,
            evalOp_equalverify', if_neg named] at executed
          cases executed
        · rintro ⟨key, other, others, same, -, hashes, -⟩
          cases same
          exact named hashes

/-! ## Numbers and pushes that do not fit -/

private theorem evalOp_number {n : Nat} (positive : 1 ≤ n) (small : n ≤ 16) (rest : CScript) :
    (evalOp crypto check (OP_1 - 1 + n) rest (plainState stack nOpCount codehash)).outcome =
      .ok (plainState (getvch n :: stack) nOpCount codehash) := by
  interval_cases n <;> rfl

/-- A small number on a full stack ends the evaluation. -/
private theorem runFrom_number_stuck {pc : CScript} {n : Nat} {tail : List Instr}
    (parses : Parses pc ((OP_1 - 1 + n, []) :: tail)) (positive : 1 ≤ n) (small : n ≤ 16)
    (full : 1000 ≤ stack.length) (after : EvalState) :
    runFrom crypto check pc (plainState stack nOpCount codehash) ≠ .ok after := by
  cases parses with
  | @cons _ rest _ _ _ first later =>
      intro ran
      rw [runFrom_of_getOp first, except_bind_eq_ok] at ran
      obtain ⟨middle, executed, -⟩ := ran
      have uncounted : ¬OP_16 < OP_1 - 1 + n := by
        simp only [OP_16, OP_1]
        omega
      have not_push : ¬OP_1 - 1 + n ≤ OP_PUSHDATA4 := by
        simp only [OP_PUSHDATA4, OP_1]
        omega
      have overflows : ¬stack.length + 1 ≤ 1000 := by omega
      have step := @evalOp_number crypto check stack nOpCount codehash n positive small rest
      simp only [evalInstruction, evalExecuted, outcome_bind, outcome_free, uncounted, if_false,
        EvalState.fExec, List.all_nil, not_push, and_false, if_true, true_or] at executed
      obtain ⟨_, -, executed⟩ := except_bind_eq_ok.mp executed
      obtain ⟨_, -, executed⟩ := except_bind_eq_ok.mp executed
      obtain ⟨_, -, executed⟩ := except_bind_eq_ok.mp executed
      obtain ⟨result, stepped, executed⟩ := except_bind_eq_ok.mp executed
      rw [step, Except.ok.injEq] at stepped
      subst stepped
      simp [demand, overflows] at executed

/-- Pushes that do not fit on the stack end the evaluation. -/
private theorem runFrom_pushes_stuck {pc : CScript} {pushes tail : List Instr}
    (parses : Parses pc (pushes ++ tail))
    (short : ∀ instr ∈ pushes, instr.1 ≤ OP_PUSHDATA4 ∧ instr.2.length ≤ 520)
    (within : stack.length ≤ 1000) (full : 1000 < stack.length + pushes.length)
    (after : EvalState) :
    runFrom crypto check pc (plainState stack nOpCount codehash) ≠ .ok after := by
  induction pushes generalizing pc stack with
  | nil =>
      rw [List.length_nil] at full
      omega
  | cons instr pushes induction =>
      obtain ⟨here, others⟩ := List.forall_mem_cons.mp short
      rw [List.cons_append] at parses
      by_cases no_room : 1000 ≤ stack.length
      · exact runFrom_push_stuck parses here.1 no_room after
      · obtain ⟨rest, later, pushed⟩ := @runFrom_pushes crypto check nOpCount codehash stack
          [instr] _ _ parses (by simpa using here) (by simp only [List.length_singleton]; omega)
        rw [pushed]
        rw [List.length_cons] at full
        refine induction later others ?_ ?_ <;>
        · simp only [List.map_singleton, List.reverse_singleton, List.singleton_append,
            List.length_cons]
          omega

/-- `OP_CHECKMULTISIG` needs the signatures and one more element below the keys. -/
private theorem length_of_checkMultisigOp {n m : Nat} {state after : EvalState}
    (n_top : bigNumTop state.stack 1 = .ok (n : Int)) (n_le : n ≤ 20)
    (m_top : bigNumTop state.stack (2 + n) = .ok (m : Int)) (m_le : m ≤ 20)
    (executed : (checkMultisigOp check OP_CHECKMULTISIG state).outcome = .ok after) :
    3 + n + m ≤ state.stack.length := by
  have count {k : Nat} (small : k ≤ 20) : getint (k : Int) = k := by
    rw [getint, if_neg (by omega), if_neg (by omega)]
  by_contra short
  simp only [checkMultisigOp, outcome_bind, outcome_free, n_top, m_top, except_ok_bind, count n_le,
    count m_le, Int.toNat_natCast, demand, if_neg short] at executed
  split_ifs at executed <;> cases executed

private theorem length_le_of_multisig {m : Nat} {keys : List Instr}
    (pushes : ∀ key ∈ keys, IsPubKeyPush key) (few : keys.length ≤ 16)
    (parses : Parses script (multisigInstrs m keys)) : script.length ≤ 10000 := by
  have total := parses.length_le
  have keys_small : (keys.map fun key => key.2.length + 5).sum ≤ keys.length * 125 := by
    rw [← List.length_map (fun key : Instr => key.2.length + 5), ← smul_eq_mul]
    refine List.sum_le_card_nsmul _ 125 fun size member => ?_
    obtain ⟨key, key_member, rfl⟩ := List.mem_map.mp member
    have size := (pushes key key_member).2.2
    omega
  simp only [multisigInstrs, List.map_cons, List.map_append, List.map_nil, List.sum_cons,
    List.sum_append, List.sum_nil, List.length_nil] at total
  omega

/-- A multisig script takes its signatures and one more element. -/
private theorem evalScript_multisig_iff {m : Nat} {keys : List Instr}
    (pushes : ∀ key ∈ keys, IsPubKeyPush key) (few : keys.length ≤ 16) (m_pos : 1 ≤ m)
    (m_le : m ≤ keys.length) (parses : Parses script (multisigInstrs m keys)) :
    (evalScript crypto check stack script).outcome = .ok final ↔
      ∃ (sigs : List Valtype) (unused : Valtype) (below : Stack),
        stack = sigs.reverse ++ unused :: below ∧ sigs.length = m ∧
        stack.length + keys.length ≤ 998 ∧
        vchBool (greedy (fun vchSig vchPubKey => check vchSig vchPubKey
          (withoutSignatures sigs.reverse script)) sigs.reverse (keys.map Prod.snd).reverse) ::
            below = final := by
  have small := length_le_of_multisig pushes few parses
  have short : ∀ key ∈ keys, key.1 ≤ OP_PUSHDATA4 ∧ key.2.length ≤ 520 := fun key member =>
    ⟨(pushes key member).1, (pushes key member).2.2.trans (by decide)⟩
  by_cases room : stack.length + keys.length ≤ 998
  swap
  · refine iff_of_false (evalScript_stuck fun after => ?_)
      (fun ⟨_, _, _, _, _, fits, _⟩ => room fits)
    by_cases first_full : 1000 ≤ stack.length
    · exact runFrom_number_stuck parses m_pos (m_le.trans few) first_full after
    obtain ⟨rest, parses, required⟩ := @runFrom_number crypto check 0 script stack _ m _ parses
      m_pos (m_le.trans few) (by omega)
    rw [required]
    by_cases keys_full : 1000 < stack.length + 1 + keys.length
    · exact runFrom_pushes_stuck parses short (by simp only [List.length_cons]; omega)
        (by simpa only [List.length_cons] using keys_full) after
    obtain ⟨rest, parses, pushed⟩ := @runFrom_pushes crypto check 0 script (getvch m :: stack)
      keys _ _ parses short (by simp only [List.length_cons]; omega)
    rw [pushed]
    refine runFrom_number_stuck parses (m_pos.trans m_le) few ?_ after
    simp only [List.length_append, List.length_reverse, List.length_map, List.length_cons]
    omega
  obtain ⟨rest, parses, required⟩ := @runFrom_number crypto check 0 script stack _ m _ parses
    m_pos (m_le.trans few) (by omega)
  obtain ⟨rest, parses, pushed⟩ := @runFrom_pushes crypto check 0 script (getvch m :: stack)
    keys _ _ parses short (by simp only [List.length_cons]; omega)
  obtain ⟨rest, parses, number⟩ := @runFrom_number crypto check 0 script
    ((keys.map Prod.snd).reverse ++ getvch m :: stack) _ keys.length _ parses (m_pos.trans m_le)
    few
    (by
      simp only [List.length_append, List.length_reverse, List.length_cons, List.length_map]
      omega)
  have start := required.trans (pushed.trans number)
  by_cases enough : m < stack.length
  · obtain ⟨unused, below, split⟩ :=
      List.exists_cons_of_length_pos (List.length_drop ▸ Nat.sub_pos_of_lt enough :
        0 < (stack.drop m).length)
    have whole : stack = (stack.take m).reverse.reverse ++ unused :: below := by
      rw [List.reverse_reverse, ← split, List.take_append_drop]
    generalize taken : (stack.take m).reverse = sigs at whole
    have count : sigs.length = m := by
      rw [← taken, List.length_reverse, List.length_take]
      omega
    subst whole
    obtain ⟨-, matched⟩ := checkMultisigOp_greedy check
      (plainState (getvch keys.length :: ((keys.map Prod.snd).reverse ++
        getvch m :: (sigs.reverse ++ unused :: below))) 1 script)
      below unused (getvch m) (getvch keys.length) sigs (keys.map Prod.snd) rfl
      (by rw [List.length_map]; exact castToBigNum_getvch_small few)
      (by rw [count]; exact castToBigNum_getvch_small (m_le.trans few))
      (by rw [List.length_map]; omega) (by rwa [List.length_map, count])
      (by rw [List.length_map]; change 1 + keys.length ≤ 201; omega)
    simp only [List.length_append, List.length_cons] at room
    obtain ⟨rest, ended, checked⟩ := @runFrom_operator crypto check script _ _ 0
      (1 + (keys.map Prod.snd).length) _ _ _ parses (by decide) (by decide) (by decide)
      (fun _ => matched) (by simp only [List.length_cons]; omega)
    cases ended
    rw [evalScript_of_runFrom small (start.trans checked), Except.ok.injEq]
    constructor
    · intro same
      refine ⟨sigs, unused, below, rfl, count, ?_, same⟩
      simp only [List.length_append, List.length_cons]
      omega
    · rintro ⟨others, other, under, same, count', -, result⟩
      obtain ⟨sigs_eq, rest_eq⟩ := List.append_inj same (by
        rw [List.length_reverse, List.length_reverse, count, count'])
      cases rest_eq
      cases List.reverse_injective sigs_eq
      exact result
  · refine iff_of_false (evalScript_stuck fun after => ?_) ?_
    · rw [start]
      refine runFrom_operator_stuck parses (by decide) (by decide) (by decide) ?_ after
      intro rest after executed
      have length := @length_of_checkMultisigOp check keys.length m _ after
        (bigNumTop_of_stacktop rfl (castToBigNum_getvch_small few)) (by omega)
        (@bigNumTop_of_stacktop _ _ (getvch m) _ ?_ (castToBigNum_getvch_small (m_le.trans few)))
        (by omega) executed
      · simp only [List.length_append, List.length_reverse, List.length_map,
          List.length_cons] at length
        omega
      · simp [Nat.add_comm 2, stacktop]
    · rintro ⟨sigs, unused, below, rfl, count, -, -⟩
      simp only [List.length_append, List.length_reverse, List.length_cons] at enough
      omega

/-- A script hash takes a script, and says whether it has this hash. -/
private theorem evalScript_scripthash_iff (scriptHash : isPayToScriptHash script) :
    (evalScript crypto check stack script).outcome = .ok final ↔
      ∃ redeemScript below, stack = redeemScript :: below ∧ below.length ≤ 998 ∧
        vchBool (decide (uint160Bytes (crypto.Hash160 redeemScript) =
          (script.drop 2).take 20)) :: below = final := by
  obtain ⟨length, parses⟩ := parses_payToScriptHash scriptHash
  have small : script.length ≤ 10000 := by
    have total := parses.length_le
    simp only [List.map_cons, List.map_nil, List.sum_cons, List.sum_nil, List.length_nil,
      length] at total
    omega
  cases stack with
  | nil =>
      refine iff_of_false (evalScript_stuck fun after => ?_) (by simp)
      refine runFrom_operator_stuck parses (by decide) (by decide) (by decide) ?_ after
      intro rest after executed
      cases executed
  | cons redeemScript below =>
      by_cases full : 999 ≤ below.length
      · refine iff_of_false (evalScript_stuck fun after => ?_) ?_
        · by_cases hash_full : 1000 ≤ below.length
          · refine runFrom_operator_stuck parses (by decide) (by decide) (by decide) ?_ after
            intro rest after executed
            cases executed
            simp only [List.length_cons, List.length_nil]
            omega
          · obtain ⟨rest, pushes, hashed⟩ := @runFrom_operator crypto check script
              (redeemScript :: below) (uint160Bytes (crypto.Hash160 redeemScript) :: below) 0 1
              _ _ _ parses (by decide) (by decide) (by decide) (fun _ => rfl)
              (by simp only [List.length_cons]; omega)
            rw [hashed]
            exact runFrom_push_stuck pushes (show 20 ≤ OP_PUSHDATA4 by decide)
              (by simp only [List.length_cons]; omega) after
        · rintro ⟨other, others, same, room, -⟩
          cases same
          omega
      obtain ⟨rest, pushes, hashed⟩ := @runFrom_operator crypto check script
        (redeemScript :: below) (uint160Bytes (crypto.Hash160 redeemScript) :: below) 0 1 _ _ _
        parses (by decide) (by decide) (by decide) (fun _ => rfl)
        (by simp only [List.length_cons]; omega)
      obtain ⟨rest, compares, pushed⟩ := @runFrom_pushes crypto check 1 script
        (uint160Bytes (crypto.Hash160 redeemScript) :: below)
        [(20, (script.drop 2).take 20)] _ _ pushes (by simp [length, OP_PUSHDATA4])
        (by simp only [List.length_cons, List.length_nil]; omega)
      obtain ⟨rest, ended, equal⟩ := @runFrom_operator crypto check script
        ((script.drop 2).take 20 :: uint160Bytes (crypto.Hash160 redeemScript) :: below) _ 1 2
        _ _ _ compares (by decide) (by decide) (by decide) (fun _ => rfl)
        (by simp only [List.length_cons]; omega)
      cases ended
      rw [evalScript_of_runFrom small (hashed.trans (pushed.trans equal)), Except.ok.injEq]
      constructor
      · exact fun same => ⟨redeemScript, below, rfl, by omega, same⟩
      · rintro ⟨other, others, same, -, result⟩
        cases same
        exact result

/-! ## Script pairs -/

/-- A script leaves true on top of its stack. -/
def LeavesTrue (result : EvalResult Stack) : Prop :=
  ∃ top below, result = .ok (top :: below) ∧ castToBool top = true

private theorem demand_then {condition : Prop} [Decidable condition] (next : EvalResult Unit) :
    (demand condition >>= fun _ => next) = .ok () ↔ condition ∧ next = .ok () := by
  by_cases holds : condition
  · rw [demand, if_pos holds, except_ok_bind, and_iff_right holds]
  · rw [demand, if_neg holds]
    exact iff_of_false (fun refused => by cases refused) fun both => holds both.1

/-- The checks of a result, and what comes after them. -/
private theorem leavesTrue_then (result : EvalResult Stack) (next : EvalResult Unit) :
    (result >>= fun stack => demand (stack ≠ []) >>= fun _ => stacktop stack 1 >>= fun top =>
        demand (castToBool top = true) >>= fun _ => next) = .ok () ↔
      LeavesTrue result ∧ next = .ok () := by
  rcases result with failure | (_ | ⟨top, below⟩)
  · refine iff_of_false (fun failed => by cases failed) ?_
    rintro ⟨⟨_, _, ended, _⟩, _⟩
    cases ended
  · refine iff_of_false (fun failed => by cases failed) ?_
    rintro ⟨⟨_, _, ended, _⟩, _⟩
    cases ended
  · have first : stacktop (top :: below) 1 = .ok top := rfl
    rw [except_ok_bind, demand, if_pos (List.cons_ne_nil top below), except_ok_bind, first,
      except_ok_bind, demand_then]
    refine and_congr_left fun _ => ⟨fun holds => ⟨top, below, rfl, holds⟩, ?_⟩
    rintro ⟨_, _, same, holds⟩
    cases same
    exact holds

private theorem leavesTrue_iff (result : EvalResult Stack) :
    (result >>= fun stack => demand (stack ≠ []) >>= fun _ => stacktop stack 1 >>= fun top =>
        demand (castToBool top = true)) = .ok () ↔ LeavesTrue result := by
  have checks := leavesTrue_then result (pure ())
  simp only [bind_pure_unit] at checks
  exact checks.trans (and_iff_left rfl)

/-- The script of an input leaves a stack, on which the script of the output leaves true.  For a
script hash, the input only pushes, and the script on top of its stack leaves true on the rest. -/
theorem verifyScript_eq_ok_iff {scriptSig scriptPubKey : CScript} :
    (verifyScript crypto check scriptSig scriptPubKey true).outcome = .ok () ↔
      ∃ stack, (evalScript crypto check [] scriptSig).outcome = .ok stack ∧
        LeavesTrue (evalScript crypto check stack scriptPubKey).outcome ∧
        (isPayToScriptHash scriptPubKey = true → isPushOnly scriptSig = true ∧
          ∃ redeemScript rest, stack = redeemScript :: rest ∧
            LeavesTrue (evalScript crypto check rest redeemScript).outcome) := by
  simp only [verifyScript, outcome_bind, outcome_free]
  rw [except_bind_eq_ok]
  refine exists_congr fun stack => and_congr_right fun _ => ?_
  rw [leavesTrue_then]
  refine and_congr_right fun _ => ?_
  by_cases scriptHash : isPayToScriptHash scriptPubKey = true
  · simp only [scriptHash, and_self, if_true, outcome_bind, outcome_free, forall_const]
    rw [demand_then]
    refine and_congr_right fun _ => ?_
    cases stack with
    | nil =>
        refine iff_of_false (fun failed => by cases failed) ?_
        rintro ⟨_, _, same, _⟩
        cases same
    | cons redeemScript rest =>
        have top : stacktop (redeemScript :: rest) 1 = .ok redeemScript := rfl
        have popped : popstack (redeemScript :: rest) = .ok rest := rfl
        rw [top, except_ok_bind, popped, except_ok_bind, leavesTrue_iff]
        constructor
        · exact fun leaves => ⟨redeemScript, rest, rfl, leaves⟩
        · rintro ⟨other, others, same, leaves⟩
          cases same
          exact leaves
  · rw [if_neg (fun validated => scriptHash validated.2)]
    exact iff_of_true rfl fun absurd => (scriptHash absurd).elim

/-! ## Standard outputs -/

/-- A stack, top first, spends a standard output: with a signature for its key; with a key of its
hash and a signature for this key; with as many signatures as it asks for, for some of its keys in
their order, on top of one more element; or with a script of its hash that leaves true on the rest
of the stack. -/
def Spends (crypto : Crypto) (check : SignatureCheck) (scriptPubKey : CScript)
    (vSolutions : List Valtype) (stack : Stack) : TxnOutType → Prop
  | .TX_PUBKEY => ∃ vchSig below, stack = vchSig :: below ∧ below.length ≤ 998 ∧
      check vchSig (vSolutions.head?.getD [])
        (findAndDelete scriptPubKey (pushData vchSig)).1 = true
  | .TX_PUBKEYHASH => ∃ vchPubKey vchSig below, stack = vchPubKey :: vchSig :: below ∧
      below.length ≤ 996 ∧
      uint160Bytes (crypto.Hash160 vchPubKey) = vSolutions.head?.getD [] ∧
      check vchSig vchPubKey (findAndDelete scriptPubKey (pushData vchSig)).1 = true
  | .TX_MULTISIG => ∃ (sigs : List Valtype) (unused : Valtype) (below : Stack),
      stack = sigs.reverse ++ unused :: below ∧
      sigs.length = solutionByte vSolutions.head? ∧
      stack.length + vSolutions.tail.dropLast.length ≤ 998 ∧
      Matched (fun vchSig vchPubKey =>
          check vchSig vchPubKey (withoutSignatures sigs.reverse scriptPubKey))
        sigs vSolutions.tail.dropLast
  | .TX_SCRIPTHASH => ∃ redeemScript below, stack = redeemScript :: below ∧ below.length ≤ 998 ∧
      uint160Bytes (crypto.Hash160 redeemScript) = vSolutions.head?.getD [] ∧
      LeavesTrue (evalScript crypto check below redeemScript).outcome

/-- A script that pushes the result of a test leaves true when the test succeeds. -/
private theorem leavesTrue_of_iff {result : EvalResult Stack} {Accepts : Bool → Stack → Prop}
    (leaves : ∀ final, result = .ok final ↔
      ∃ fValue below, Accepts fValue below ∧ vchBool fValue :: below = final) :
    LeavesTrue result ↔ ∃ below, Accepts true below := by
  constructor
  · rintro ⟨top, rest, ended, holds⟩
    obtain ⟨fValue, below, accepted, same⟩ := (leaves _).mp ended
    cases same
    rw [castToBool_vchBool] at holds
    exact ⟨rest, holds ▸ accepted⟩
  · rintro ⟨below, accepted⟩
    exact ⟨_, _, (leaves _).mpr ⟨true, below, accepted, rfl⟩, rfl⟩

section Standard

variable {scriptPubKey : CScript} {vSolutions : List Valtype}

private theorem leavesTrue_pubkey
    (solved : solver scriptPubKey = some (.TX_PUBKEY, vSolutions)) :
    LeavesTrue (evalScript crypto check stack scriptPubKey).outcome ↔
      Spends crypto check scriptPubKey vSolutions stack .TX_PUBKEY := by
  obtain ⟨key, push, rfl, parses⟩ := solver_pubkey solved
  rw [@leavesTrue_of_iff _ (fun fValue below => ∃ vchSig, stack = vchSig :: below ∧
    below.length ≤ 998 ∧
    check vchSig key.2 (findAndDelete scriptPubKey (pushData vchSig)).1 = fValue)]
  · exact exists_comm
  · intro final
    rw [evalScript_pubkey_iff push parses]
    constructor
    · rintro ⟨vchSig, below, taken, room, same⟩
      exact ⟨_, below, ⟨vchSig, taken, room, rfl⟩, same⟩
    · rintro ⟨_, below, ⟨vchSig, taken, room, rfl⟩, same⟩
      exact ⟨vchSig, below, taken, room, same⟩

private theorem leavesTrue_pubkeyhash
    (solved : solver scriptPubKey = some (.TX_PUBKEYHASH, vSolutions)) :
    LeavesTrue (evalScript crypto check stack scriptPubKey).outcome ↔
      Spends crypto check scriptPubKey vSolutions stack .TX_PUBKEYHASH := by
  obtain ⟨opcode, hash, push, length, rfl, parses⟩ := solver_pubkeyhash solved
  rw [@leavesTrue_of_iff _ (fun fValue below => ∃ vchPubKey vchSig,
    stack = vchPubKey :: vchSig :: below ∧ below.length ≤ 996 ∧
    uint160Bytes (crypto.Hash160 vchPubKey) = hash ∧
    check vchSig vchPubKey (findAndDelete scriptPubKey (pushData vchSig)).1 = fValue)]
  · constructor
    · rintro ⟨below, vchPubKey, vchSig, accepted⟩
      exact ⟨vchPubKey, vchSig, below, accepted⟩
    · rintro ⟨vchPubKey, vchSig, below, accepted⟩
      exact ⟨below, vchPubKey, vchSig, accepted⟩
  · intro final
    rw [evalScript_pubkeyhash_iff push length parses]
    constructor
    · rintro ⟨vchPubKey, vchSig, below, taken, room, named, same⟩
      exact ⟨_, below, ⟨vchPubKey, vchSig, taken, room, named, rfl⟩, same⟩
    · rintro ⟨_, below, ⟨vchPubKey, vchSig, taken, room, named, rfl⟩, same⟩
      exact ⟨vchPubKey, vchSig, below, taken, room, named, same⟩

private theorem leavesTrue_multisig
    (solved : solver scriptPubKey = some (.TX_MULTISIG, vSolutions)) :
    LeavesTrue (evalScript crypto check stack scriptPubKey).outcome ↔
      Spends crypto check scriptPubKey vSolutions stack .TX_MULTISIG := by
  obtain ⟨m, keys, m_pos, m_le, few, pushes, rfl, parses⟩ := solver_multisig solved
  have middle : ([UInt8.ofNat m] :: (keys.map Prod.snd ++
      [[UInt8.ofNat keys.length]])).tail.dropLast = keys.map Prod.snd := by
    rw [List.tail_cons, List.dropLast_concat]
  have byte : solutionByte (some [UInt8.ofNat m]) = m := by
    simp only [solutionByte, Option.bind_some, List.head?_cons, Option.map_some, Option.getD_some,
      UInt8.toNat_ofNat']
    omega
  simp only [Spends, middle, List.head?_cons, byte, List.length_map]
  rw [@leavesTrue_of_iff _ (fun fValue below => ∃ (sigs : List Valtype) (unused : Valtype),
    stack = sigs.reverse ++ unused :: below ∧ sigs.length = m ∧
    stack.length + keys.length ≤ 998 ∧
    greedy (fun vchSig vchPubKey => check vchSig vchPubKey
      (withoutSignatures sigs.reverse scriptPubKey)) sigs.reverse (keys.map Prod.snd).reverse =
        fValue)]
  · simp only [greedy_iff_matched, matched_reverse]
    constructor
    · rintro ⟨below, sigs, unused, accepted⟩
      exact ⟨sigs, unused, below, accepted⟩
    · rintro ⟨sigs, unused, below, accepted⟩
      exact ⟨below, sigs, unused, accepted⟩
  · intro final
    rw [evalScript_multisig_iff pushes few m_pos m_le parses]
    constructor
    · rintro ⟨sigs, unused, below, taken, count, room, same⟩
      exact ⟨_, below, ⟨sigs, unused, taken, count, room, rfl⟩, same⟩
    · rintro ⟨_, below, ⟨sigs, unused, taken, count, room, rfl⟩, same⟩
      exact ⟨sigs, unused, below, taken, count, room, same⟩

private theorem leavesTrue_scripthash
    (solved : solver scriptPubKey = some (.TX_SCRIPTHASH, vSolutions)) :
    LeavesTrue (evalScript crypto check stack scriptPubKey).outcome ↔
      ∃ redeemScript below, stack = redeemScript :: below ∧ below.length ≤ 998 ∧
        uint160Bytes (crypto.Hash160 redeemScript) = vSolutions.head?.getD [] := by
  obtain ⟨scriptHash, rfl⟩ := solver_scripthash.mp solved
  rw [@leavesTrue_of_iff _ (fun fValue below => ∃ redeemScript,
    stack = redeemScript :: below ∧ below.length ≤ 998 ∧
    decide (uint160Bytes (crypto.Hash160 redeemScript) = (scriptPubKey.drop 2).take 20) =
      fValue)]
  · simp only [decide_eq_true_eq]
    exact exists_comm
  · intro final
    rw [evalScript_scripthash_iff scriptHash]
    constructor
    · rintro ⟨redeemScript, below, taken, room, same⟩
      exact ⟨_, below, ⟨redeemScript, taken, room, rfl⟩, same⟩
    · rintro ⟨_, below, ⟨redeemScript, taken, room, rfl⟩, same⟩
      exact ⟨redeemScript, below, taken, room, same⟩

end Standard

/-- An input spends a standard output exactly when its script leaves a stack that spends it, and
only pushes values where the output is a script hash. -/
theorem verifyScript_iff_spends (crypto : Crypto) (check : SignatureCheck)
    {scriptPubKey : CScript} {typeRet : TxnOutType} {vSolutions : List Valtype}
    (solved : solver scriptPubKey = some (typeRet, vSolutions)) (scriptSig : CScript) :
    (verifyScript crypto check scriptSig scriptPubKey true).outcome = .ok () ↔
      ∃ stack, (evalScript crypto check [] scriptSig).outcome = .ok stack ∧
        (typeRet = .TX_SCRIPTHASH → isPushOnly scriptSig = true) ∧
        Spends crypto check scriptPubKey vSolutions stack typeRet := by
  rw [verifyScript_eq_ok_iff]
  refine exists_congr fun stack => and_congr_right fun _ => ?_
  have scriptHash_iff : isPayToScriptHash scriptPubKey = true ↔ typeRet = .TX_SCRIPTHASH := by
    constructor
    · intro scriptHash
      have hashed := solver_scripthash.mpr ⟨scriptHash, rfl⟩
      rw [solved, Option.some.injEq, Prod.mk.injEq] at hashed
      exact hashed.1
    · rintro rfl
      exact (solver_scripthash.mp solved).1
  rw [scriptHash_iff]
  cases typeRet with
  | TX_PUBKEY =>
      simp only [reduceCtorEq, false_implies, and_true, true_and]
      exact leavesTrue_pubkey solved
  | TX_PUBKEYHASH =>
      simp only [reduceCtorEq, false_implies, and_true, true_and]
      exact leavesTrue_pubkeyhash solved
  | TX_MULTISIG =>
      simp only [reduceCtorEq, false_implies, and_true, true_and]
      exact leavesTrue_multisig solved
  | TX_SCRIPTHASH =>
      rw [leavesTrue_scripthash solved]
      simp only [forall_const, Spends]
      constructor
      · rintro ⟨⟨redeemScript, below, rfl, room, named⟩, pushes, other, rest, same, leaves⟩
        cases same
        exact ⟨pushes, redeemScript, below, rfl, room, named, leaves⟩
      · rintro ⟨pushes, redeemScript, below, rfl, room, named, leaves⟩
        exact ⟨⟨redeemScript, below, rfl, room, named⟩, pushes, redeemScript, below, rfl, leaves⟩

/-- A signature for the key of the sample output. -/
theorem verifyScript_iff_spends_tagPayment :
    (verifyScript tagCrypto (fun vchSig _ _ => vchSig = [7]) (pushData [7]) tagPayment
      true).outcome = .ok () :=
  (@verifyScript_iff_spends tagCrypto (fun vchSig _ _ => vchSig = [7]) tagPayment .TX_PUBKEY
    [tagPubKey] (by decide +kernel) (pushData [7])).mpr
      ⟨[[7]], rfl, nofun, [7], [], rfl, by decide, rfl⟩

end FooCoin

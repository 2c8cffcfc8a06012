import FooCoin.Script.Templates
import FooCoin.WalletAmounts

/-!
# Standard templates

`Solver` recognises exactly the scripts of the four standard templates, here as strings of bytes,
and its solutions are their data.  The destination of a script built from a key or script hash is
that hash, and the destinations of a built multisig script are its keys in order.
-/

namespace FooCoin

open LittleEndian Op

variable {crypto : Crypto}

/-- The bytes push the vector, in one of the four encodings. -/
def IsPush (piece : CScript) (vch : Valtype) : Prop :=
  (vch.length < OP_PUSHDATA1 ∧ piece = UInt8.ofNat vch.length :: vch) ∨
    ∃ opcode width, (opcode, width) ∈ [(OP_PUSHDATA1, 1), (OP_PUSHDATA2, 2), (OP_PUSHDATA4, 4)] ∧
      vch.length < 256 ^ width ∧
      piece = UInt8.ofNat opcode :: (leBytes width vch.length ++ vch)

/-- A public key and the bytes that push it. -/
def IsKeyPush (key : CScript × Valtype) : Prop :=
  IsPush key.1 key.2 ∧ 33 ≤ key.2.length ∧ key.2.length ≤ 120

/-- The scripts of the standard templates with their data. -/
inductive Template : TxnOutType → CScript → List Valtype → Prop
  | pubkey {key : CScript × Valtype} (isKey : IsKeyPush key) :
      Template .TX_PUBKEY (key.1 ++ [UInt8.ofNat OP_CHECKSIG]) [key.2]
  | pubkeyhash {piece : CScript} {hash : Valtype} (push : IsPush piece hash)
      (size : hash.length = 20) :
      Template .TX_PUBKEYHASH
        (UInt8.ofNat OP_DUP :: UInt8.ofNat OP_HASH160 ::
          (piece ++ [UInt8.ofNat OP_EQUALVERIFY, UInt8.ofNat OP_CHECKSIG])) [hash]
  | scripthash {hash : Valtype} (size : hash.length = 20) :
      Template .TX_SCRIPTHASH
        (UInt8.ofNat OP_HASH160 :: 0x14 :: (hash ++ [UInt8.ofNat OP_EQUAL])) [hash]
  | multisig {m : Nat} {keys : List (CScript × Valtype)} (areKeys : ∀ key ∈ keys, IsKeyPush key)
      (positive : 1 ≤ m) (enough : m ≤ keys.length) (few : keys.length ≤ 16) :
      Template .TX_MULTISIG
        (UInt8.ofNat (OP_1 - 1 + m) :: (keys.flatMap Prod.fst ++
          [UInt8.ofNat (OP_1 - 1 + keys.length), UInt8.ofNat OP_CHECKMULTISIG]))
        ([UInt8.ofNat m] :: (keys.map Prod.snd ++ [[UInt8.ofNat keys.length]]))

/-! ## Instructions as bytes -/

private theorem toNat_opcode {n : Nat} (small : n < 256) : (UInt8.ofNat n).toNat = n := by
  rw [UInt8.toNat_ofNat', Nat.mod_eq_of_lt small]

private theorem operandSize_field {opcode width : Nat}
    (encoding : (opcode, width) ∈ [(OP_PUSHDATA1, 1), (OP_PUSHDATA2, 2), (OP_PUSHDATA4, 4)])
    (pc : CScript) :
    opcode < 256 ∧ opcode ≤ OP_PUSHDATA4 ∧ operandSize opcode pc =
      if pc.length < width then none else some (ofLE (pc.take width), pc.drop width) := by
  simp only [List.mem_cons, List.not_mem_nil, or_false, Prod.mk.injEq] at encoding
  rcases encoding with ⟨rfl, rfl⟩ | ⟨rfl, rfl⟩ | ⟨rfl, rfl⟩ <;> exact ⟨by decide, by decide, rfl⟩

private theorem getOp_of_operandSize {byte : UInt8} {pc rest : CScript} {bytes : Valtype}
    (push : byte.toNat ≤ OP_PUSHDATA4)
    (sized : operandSize byte.toNat pc = some (bytes.length, bytes ++ rest)) :
    getOp (byte :: pc) = some (byte.toNat, bytes, rest) := by
  have enough : ¬(bytes ++ rest).length < bytes.length := by
    rw [List.length_append]
    omega
  simp only [getOp, push, if_true, sized, if_neg enough, List.take_left, List.drop_left]

/-- A push is read back in every encoding. -/
theorem getOp_of_isPush {piece : CScript} {vch : Valtype} (push : IsPush piece vch)
    (rest : CScript) : ∃ opcode, getOp (piece ++ rest) = some (opcode, vch, rest) := by
  rcases push with ⟨direct, rfl⟩ | ⟨opcode, width, encoding, size, rfl⟩
  · have bound : vch.length < 76 := direct
    have opcode := @toNat_opcode vch.length (by omega)
    have small : (UInt8.ofNat vch.length).toNat ≤ OP_PUSHDATA4 := by
      rw [opcode, OP_PUSHDATA4]
      omega
    have sized : operandSize (UInt8.ofNat vch.length).toNat (vch ++ rest) =
        some (vch.length, vch ++ rest) := by
      rw [opcode, operandSize, if_pos direct]
    exact ⟨_, getOp_of_operandSize small sized⟩
  · obtain ⟨small, push, sized⟩ :=
      operandSize_field encoding (leBytes width vch.length ++ (vch ++ rest))
    have length := length_leBytes width vch.length
    have enough : ¬(leBytes width vch.length ++ (vch ++ rest)).length < width := by
      rw [List.length_append, length]
      omega
    rw [if_neg enough, List.take_left' length, List.drop_left' length,
      ofLE_leBytes_of_lt size] at sized
    have byte := toNat_opcode small
    rw [List.cons_append, List.append_assoc]
    exact ⟨_, getOp_of_operandSize (byte.symm ▸ push) (byte.symm ▸ sized)⟩

/-- Where a push is read, its bytes stand. -/
theorem exists_isPush {pc rest : CScript} {opcode : Nat} {vch : Valtype}
    (parsed : getOp pc = some (opcode, vch, rest)) (push : opcode ≤ OP_PUSHDATA4) :
    ∃ piece, IsPush piece vch ∧ pc = piece ++ rest := by
  cases pc with
  | nil => simp [getOp] at parsed
  | cons byte pc =>
      simp only [getOp] at parsed
      split_ifs at parsed with small
      · cases sized : operandSize byte.toNat pc with
        | none => simp [sized] at parsed
        | some field =>
            obtain ⟨nSize, operand⟩ := field
            simp only [sized, Option.ite_none_left_eq_some, Option.some.injEq, Prod.mk.injEq,
              Nat.not_lt] at parsed
            obtain ⟨enough, rfl, rfl, rfl⟩ := parsed
            have length : (operand.take nSize).length = nSize := List.length_take_of_le enough
            by_cases direct : byte.toNat < OP_PUSHDATA1
            · rw [operandSize, if_pos direct, Option.some.injEq, Prod.mk.injEq] at sized
              obtain ⟨rfl, rfl⟩ := sized
              refine ⟨byte :: pc.take byte.toNat, .inl ⟨by rwa [length], ?_⟩, ?_⟩
              · rw [length, UInt8.ofNat_toNat]
              · rw [List.cons_append, List.take_append_drop]
            · have encoding : ∃ width, (byte.toNat, width) ∈
                  [(OP_PUSHDATA1, 1), (OP_PUSHDATA2, 2), (OP_PUSHDATA4, 4)] := by
                simp only [OP_PUSHDATA1, OP_PUSHDATA4] at direct small
                have opcode : byte.toNat = OP_PUSHDATA1 ∨ byte.toNat = OP_PUSHDATA2 ∨
                    byte.toNat = OP_PUSHDATA4 := by
                  simp only [OP_PUSHDATA1, OP_PUSHDATA2, OP_PUSHDATA4]
                  omega
                rcases opcode with same | same | same <;> rw [same]
                · exact ⟨1, by simp⟩
                · exact ⟨2, by simp⟩
                · exact ⟨4, by simp⟩
              obtain ⟨width, encoding⟩ := encoding
              obtain ⟨-, -, field⟩ := operandSize_field encoding pc
              rw [field] at sized
              simp only [Option.ite_none_left_eq_some, Option.some.injEq, Prod.mk.injEq,
                Nat.not_lt] at sized
              obtain ⟨wide, rfl, rfl⟩ := sized
              have width_eq : (pc.take width).length = width := List.length_take_of_le wide
              have fits := ofLE_lt (pc.take width)
              have written := leBytes_ofLE (pc.take width)
              rw [width_eq] at fits written
              refine ⟨_, .inr ⟨byte.toNat, width, encoding, by rwa [length], rfl⟩, ?_⟩
              rw [length, written, UInt8.ofNat_toNat, List.cons_append, List.append_assoc,
                List.take_append_drop, List.take_append_drop]
      · rw [Option.some.injEq, Prod.mk.injEq] at parsed
        exact absurd (parsed.1 ▸ push) small

private theorem eq_direct_of_getOp {pc rest : CScript} {opcode : Nat} {vch : Valtype}
    (direct : opcode < OP_PUSHDATA1) (parsed : getOp pc = some (opcode, vch, rest)) :
    pc = UInt8.ofNat opcode :: (vch ++ rest) := by
  cases pc with
  | nil => simp [getOp] at parsed
  | cons byte pc =>
      simp only [getOp] at parsed
      split_ifs at parsed with push
      · cases sized : operandSize byte.toNat pc with
        | none => simp [sized] at parsed
        | some field =>
            simp only [sized, Option.ite_none_left_eq_some, Option.some.injEq,
              Prod.mk.injEq] at parsed
            obtain ⟨-, rfl, rfl, rfl⟩ := parsed
            rw [operandSize, if_pos direct, Option.some.injEq] at sized
            subst sized
            rw [List.take_append_drop, UInt8.ofNat_toNat]
      · simp only [Option.some.injEq, Prod.mk.injEq] at parsed
        rw [parsed.1, OP_PUSHDATA4] at push
        rw [OP_PUSHDATA1] at direct
        omega

private theorem getOp_opcode {opcode : Nat} (operator : OP_PUSHDATA4 < opcode)
    (small : opcode < 256) (rest : CScript) :
    getOp (UInt8.ofNat opcode :: rest) = some (opcode, [], rest) := by
  simp only [getOp, toNat_opcode small]
  rw [if_neg (Nat.not_le.mpr operator)]

private theorem eq_cons_of_getOp {pc rest : CScript} {opcode : Nat} {vch : Valtype}
    (operator : OP_PUSHDATA4 < opcode) (parsed : getOp pc = some (opcode, vch, rest)) :
    pc = UInt8.ofNat opcode :: rest := by
  cases pc with
  | nil => simp [getOp] at parsed
  | cons byte pc =>
      simp only [getOp] at parsed
      split_ifs at parsed with push
      · cases sized : operandSize byte.toNat pc with
        | none => simp [sized] at parsed
        | some field =>
            simp only [sized, Option.ite_none_left_eq_some, Option.some.injEq,
              Prod.mk.injEq] at parsed
            omega
      · simp only [Option.some.injEq, Prod.mk.injEq] at parsed
        obtain ⟨rfl, -, rfl⟩ := parsed
        rw [UInt8.ofNat_toNat]

/-! ## Matching a template -/

private theorem matchTemplate_matched {opcode2 opcode : Nat} {template : List Nat}
    {script rest : CScript} {vch : Valtype} {first : List Valtype} (single : opcode2 ≠ OP_PUBKEYS)
    (parsed : getOp script = some (opcode, vch, rest))
    (matched : matchOpcode opcode2 opcode vch = some first) :
    matchTemplate (opcode2 :: template) script =
      (matchTemplate template rest).map (first ++ ·) := by
  simp only [matchTemplate, if_neg single, Option.bind_eq_bind, parsed, Option.bind_some, matched,
    Option.pure_def]
  cases matchTemplate template rest <;> rfl

private theorem matchTemplate_refused {opcode2 opcode : Nat} {template : List Nat}
    {script rest : CScript} {vch : Valtype} (single : opcode2 ≠ OP_PUBKEYS)
    (parsed : getOp script = some (opcode, vch, rest))
    (refused : matchOpcode opcode2 opcode vch = none) :
    matchTemplate (opcode2 :: template) script = none := by
  simp only [matchTemplate, if_neg single, Option.bind_eq_bind, parsed, Option.bind_some, refused,
    Option.bind_none]

private theorem matchTemplate_operator {opcode : Nat} {template : List Nat} (rest : CScript)
    (operator : opcode ≠ OP_PUBKEYS ∧ opcode ≠ OP_PUBKEY ∧ opcode ≠ OP_PUBKEYHASH ∧
      opcode ≠ OP_SMALLINTEGER) (above : OP_PUSHDATA4 < opcode) (small : opcode < 256) :
    matchTemplate (opcode :: template) (UInt8.ofNat opcode :: rest) =
      matchTemplate template rest := by
  have matched : matchOpcode opcode opcode [] = some [] := by
    simp [matchOpcode, operator]
  rw [matchTemplate_matched operator.1 (getOp_opcode above small rest) matched]
  exact Option.map_id_apply

private theorem matchTemplate_end : matchTemplate [] [] = some [] := by
  simp [matchTemplate]

private theorem not_payToScriptHash {script rest : CScript} {opcode : Nat} {vch : Valtype}
    (parsed : getOp script = some (opcode, vch, rest)) (other : opcode ≠ OP_HASH160) :
    ¬isPayToScriptHash script = true := by
  intro scriptHash
  cases (parses_payToScriptHash scriptHash).2 with
  | cons first later =>
      rw [first] at parsed
      exact other (congrArg Prod.fst (Option.some.inj parsed)).symm

private theorem IsKeyPush.not_opcode {key : CScript × Valtype} (isKey : IsKeyPush key)
    {rest rest' : CScript} {opcode opcode' : Nat}
    (parsed : getOp rest = some (opcode, key.2, rest')) (above : OP_PUSHDATA4 < opcode') :
    opcode ≠ opcode' := by
  rintro rfl
  have nonempty : key.2 ≠ [] := by
    intro empty
    have size := isKey.2.1
    rw [empty] at size
    simp at size
  exact absurd (push_of_operand parsed nonempty) (Nat.not_le.mpr above)

private theorem length_isPush_pos {piece : CScript} {vch : Valtype} (push : IsPush piece vch) :
    0 < piece.length := by
  rcases push with ⟨-, rfl⟩ | ⟨opcode, width, -, -, rfl⟩ <;> simp

private theorem exists_getOp_keys {keys : List (CScript × Valtype)} {stop : CScript}
    {instr : Nat × Valtype × CScript} (areKeys : ∀ key ∈ keys, IsKeyPush key)
    (stops : getOp stop = some instr) :
    ∃ first, getOp (keys.flatMap Prod.fst ++ stop) = some first := by
  cases keys with
  | nil => exact ⟨instr, stops⟩
  | cons key keys =>
      obtain ⟨opcode, next⟩ := getOp_of_isPush (areKeys key List.mem_cons_self).1
        (keys.flatMap Prod.fst ++ stop)
      rw [List.flatMap_cons, List.append_assoc]
      exact ⟨_, next⟩

private theorem pubKeysLoop_keys {keys : List (CScript × Valtype)} {stop rest pc : CScript}
    {opcode opcode' : Nat} {vch vch' : Valtype} {fuel : Nat}
    (areKeys : ∀ key ∈ keys, IsKeyPush key) (stops : getOp stop = some (opcode', vch', rest))
    (noKey : ¬(33 ≤ vch'.length ∧ vch'.length ≤ 120))
    (parsed : getOp (keys.flatMap Prod.fst ++ stop) = some (opcode, vch, pc))
    (enough : (keys.flatMap Prod.fst).length < fuel) :
    pubKeysLoop fuel (opcode, vch, pc) = some (keys.map Prod.snd, opcode', vch', rest) := by
  induction keys generalizing opcode vch pc fuel with
  | nil =>
      rw [List.flatMap_nil, List.nil_append, stops, Option.some.injEq, Prod.mk.injEq,
        Prod.mk.injEq] at parsed
      obtain ⟨rfl, rfl, rfl⟩ := parsed
      obtain ⟨fuel, rfl⟩ : ∃ fewer, fuel = fewer + 1 := ⟨fuel - 1, by omega⟩
      rw [pubKeysLoop, if_neg noKey]
      rfl
  | cons key keys induction =>
      obtain ⟨here, others⟩ := List.forall_mem_cons.mp areKeys
      rw [List.flatMap_cons, List.append_assoc] at parsed
      rw [List.flatMap_cons, List.length_append] at enough
      have positive := length_isPush_pos here.1
      obtain ⟨fuel, rfl⟩ : ∃ fewer, fuel = fewer + 1 := ⟨fuel - 1, by omega⟩
      obtain ⟨push, read⟩ := getOp_of_isPush here.1 (keys.flatMap Prod.fst ++ stop)
      rw [read, Option.some.injEq, Prod.mk.injEq, Prod.mk.injEq] at parsed
      obtain ⟨rfl, rfl, rfl⟩ := parsed
      obtain ⟨⟨opcode2, vch2, pc2⟩, next⟩ := exists_getOp_keys others stops
      have later := @induction pc2 opcode2 vch2 fuel others next (by omega)
      rw [pubKeysLoop, if_pos here.2]
      simp only [next, Option.bind_eq_bind, Option.bind_some, later, Option.pure_def,
        List.map_cons]

private theorem matchTemplate_multisigKeys {keys : List (CScript × Valtype)}
    {opcode2 opcode' : Nat} {vch' : Valtype} {template : List Nat} {stop rest : CScript}
    {first : List Valtype} (areKeys : ∀ key ∈ keys, IsKeyPush key)
    (stops : getOp stop = some (opcode', vch', rest))
    (noKey : ¬(33 ≤ vch'.length ∧ vch'.length ≤ 120))
    (matched : matchOpcode opcode2 opcode' vch' = some first) :
    matchTemplate (OP_PUBKEYS :: opcode2 :: template) (keys.flatMap Prod.fst ++ stop) =
      (matchTemplate template rest).map (keys.map Prod.snd ++ first ++ ·) := by
  obtain ⟨⟨opcode, vch, pc⟩, parsed⟩ := exists_getOp_keys areKeys stops
  have loop := @pubKeysLoop_keys keys stop rest pc opcode opcode' vch vch'
    ((keys.flatMap Prod.fst ++ stop).length + 1) areKeys stops noKey parsed (by
      rw [List.length_append]
      omega)
  rw [matchTemplate]
  simp only [parsed, if_true, Option.bind_eq_bind, Option.bind_some, loop, matched, Option.pure_def]
  cases matchTemplate template rest <;> rfl

/-! ## Solving a template -/

private theorem matchOpcode_key {key : Valtype} (size : 33 ≤ key.length ∧ key.length ≤ 120)
    (opcode : Nat) : matchOpcode OP_PUBKEY opcode key = some [key] := by
  rw [matchOpcode, if_pos rfl, if_pos size]

private theorem matchOpcode_count {n : Nat} (positive : 1 ≤ n) (small : n ≤ 16) :
    matchOpcode OP_SMALLINTEGER (OP_1 - 1 + n) [] = some [[UInt8.ofNat n]] := by
  have distinct : OP_SMALLINTEGER ≠ OP_PUBKEY ∧ OP_SMALLINTEGER ≠ OP_PUBKEYHASH := by decide
  have integer : OP_1 - 1 + n = OP_0 ∨ OP_1 ≤ OP_1 - 1 + n ∧ OP_1 - 1 + n ≤ OP_16 := by
    simp only [OP_1, OP_16]
    omega
  have decoded : decodeOP_N (OP_1 - 1 + n) = n := by
    have nonzero : OP_1 - 1 + n ≠ OP_0 := by
      simp only [OP_0, OP_1]
      omega
    rw [decodeOP_N, if_neg nonzero]
    omega
  rw [matchOpcode, if_neg distinct.1, if_neg distinct.2, if_pos rfl, if_pos integer, decoded]

private theorem multisigCounts_of_le {m : Nat} {keys : List Valtype} (positive : 1 ≤ m)
    (enough : m ≤ keys.length) (few : keys.length ≤ 16) :
    multisigCounts ([UInt8.ofNat m] :: (keys ++ [[UInt8.ofNat keys.length]])) = true := by
  have last : ([UInt8.ofNat m] :: (keys ++ [[UInt8.ofNat keys.length]])).getLast? =
      some [UInt8.ofNat keys.length] := by
    rw [← List.cons_append, List.getLast?_concat]
  have first := @toNat_opcode m (by omega)
  have count := @toNat_opcode keys.length (by omega)
  simp only [multisigCounts, solutionByte, last, List.head?_cons, Option.bind_some,
    Option.map_some, Option.getD_some, first, count, List.length_cons, List.length_append,
    List.length_nil, decide_eq_true_eq, Bool.decide_and, Bool.and_eq_true]
  omega

/-- A script of a template is solved by its data. -/
theorem solver_of_template {typeRet : TxnOutType} {script : CScript} {vSolutions : List Valtype}
    (template : Template typeRet script vSolutions) :
    solver script = some (typeRet, vSolutions) := by
  cases template with
  | @pubkey key isKey =>
      obtain ⟨opcode, parsed⟩ := getOp_of_isPush isKey.1 [UInt8.ofNat OP_CHECKSIG]
      have other := @IsKeyPush.not_opcode key isKey _ _ _ OP_HASH160 parsed (by decide)
      rw [solver, if_neg (not_payToScriptHash parsed other),
        matchTemplate_matched (by decide) parsed (matchOpcode_key isKey.2 opcode),
        matchTemplate_operator [] (by decide) (by decide) (by decide), matchTemplate_end]
      rfl
  | @pubkeyhash piece hash push size =>
      have first := @getOp_opcode OP_DUP (by decide) (by decide)
        (UInt8.ofNat OP_HASH160 :: (piece ++ [UInt8.ofNat OP_EQUALVERIFY,
          UInt8.ofNat OP_CHECKSIG]))
      obtain ⟨opcode, parsed⟩ :=
        getOp_of_isPush push [UInt8.ofNat OP_EQUALVERIFY, UInt8.ofNat OP_CHECKSIG]
      have matched : matchOpcode OP_PUBKEYHASH opcode hash = some [hash] := by
        rw [matchOpcode, if_neg (by decide), if_pos rfl, if_pos size]
      rw [solver, if_neg (not_payToScriptHash first (by decide)),
        matchTemplate_refused (by decide) first rfl,
        matchTemplate_operator _ (by decide) (by decide) (by decide),
        matchTemplate_operator _ (by decide) (by decide) (by decide),
        matchTemplate_matched (by decide) parsed matched,
        matchTemplate_operator _ (by decide) (by decide) (by decide),
        matchTemplate_operator _ (by decide) (by decide) (by decide), matchTemplate_end]
      rfl
  | @scripthash hash size =>
      refine solver_scripthash.mpr ⟨?_, ?_⟩
      · simp [isPayToScriptHash, size]
      · simp [List.take_left' size]
  | @multisig m keys areKeys positive enough few =>
      have above : OP_PUSHDATA4 < OP_1 - 1 + m := by
        simp only [OP_PUSHDATA4, OP_1]
        omega
      have small : OP_1 - 1 + m < 256 := by
        simp only [OP_1]
        omega
      have first := getOp_opcode above small (keys.flatMap Prod.fst ++
        [UInt8.ofNat (OP_1 - 1 + keys.length), UInt8.ofNat OP_CHECKMULTISIG])
      have number : ∀ n, 1 ≤ n → n ≤ 16 → matchOpcode OP_SMALLINTEGER (OP_1 - 1 + n) [] =
          some [[UInt8.ofNat n]] := fun _ => matchOpcode_count
      have noDup : matchOpcode OP_DUP (OP_1 - 1 + m) [] = none := by
        have differs : OP_1 - 1 + m ≠ OP_DUP := by
          simp only [OP_1, OP_DUP]
          omega
        rw [matchOpcode, if_neg (by decide), if_neg (by decide), if_neg (by decide),
          if_pos (.inl differs)]
      have count := @getOp_opcode (OP_1 - 1 + keys.length)
        (by simp only [OP_PUSHDATA4, OP_1]; omega) (by simp only [OP_1]; omega)
        [UInt8.ofNat OP_CHECKMULTISIG]
      have other : OP_1 - 1 + m ≠ OP_HASH160 := by
        simp only [OP_1, OP_HASH160]
        omega
      have counts := @multisigCounts_of_le m (keys.map Prod.snd) positive
        (by rwa [List.length_map]) (by rwa [List.length_map])
      rw [List.length_map] at counts
      rw [solver, if_neg (not_payToScriptHash first other),
        matchTemplate_refused (by decide) first rfl, matchTemplate_refused (by decide) first noDup,
        matchTemplate_matched (by decide) first (number m positive (enough.trans few)),
        matchTemplate_multisigKeys areKeys count (by simp)
          (number keys.length (positive.trans enough) few),
        matchTemplate_operator [] (by decide) (by decide) (by decide), matchTemplate_end]
      simp only [Option.map_some, List.append_nil, List.singleton_append]
      rw [if_pos counts]

/-- The bytes of parsed instructions whose operands are pushed. -/
private theorem exists_keyPushes {keys tail : List Instr} {script : CScript}
    (pushes : ∀ key ∈ keys, IsPubKeyPush key) (parses : Parses script (keys ++ tail)) :
    ∃ (pieces : List (CScript × Valtype)) (rest : CScript),
      (∀ key ∈ pieces, IsKeyPush key) ∧ pieces.map Prod.snd = keys.map Prod.snd ∧
        script = pieces.flatMap Prod.fst ++ rest ∧ Parses rest tail := by
  induction keys generalizing script with
  | nil => exact ⟨[], script, by simp, rfl, rfl, parses⟩
  | cons key keys induction =>
      obtain ⟨here, others⟩ := List.forall_mem_cons.mp pushes
      cases parses with
      | @cons _ next opcode vch _ first later =>
          obtain ⟨piece, push, rfl⟩ := exists_isPush first here.1
          obtain ⟨pieces, rest, areKeys, values, rfl, parses⟩ := induction others later
          refine ⟨(piece, vch) :: pieces, rest,
            List.forall_mem_cons.mpr ⟨⟨push, here.2⟩, areKeys⟩, ?_, ?_, parses⟩
          · rw [List.map_cons, List.map_cons, values]
          · rw [List.flatMap_cons, List.append_assoc]

/-- What is solved is a script of the template with its data. -/
theorem template_of_solver {typeRet : TxnOutType} {script : CScript} {vSolutions : List Valtype}
    (solved : solver script = some (typeRet, vSolutions)) :
    Template typeRet script vSolutions := by
  cases typeRet with
  | TX_PUBKEY =>
      obtain ⟨⟨opcode, key⟩, isKey, rfl, parses⟩ := solver_pubkey solved
      obtain ⟨pieces, rest, areKeys, values, rfl, later⟩ :=
        @exists_keyPushes [(opcode, key)] _ _ (by simpa using isKey) parses
      cases later with
      | cons checksig ended =>
          cases ended
          obtain ⟨⟨piece, _⟩, rfl, rfl⟩ := List.map_eq_singleton_iff.mp values
          rw [eq_cons_of_getOp (by decide) checksig, List.flatMap_singleton]
          exact .pubkey (areKeys _ List.mem_cons_self)
  | TX_PUBKEYHASH =>
      obtain ⟨opcode, hash, push, size, rfl, parses⟩ := solver_pubkeyhash solved
      cases parses with
      | cons dup parses =>
      cases parses with
      | cons hash160 parses =>
      cases parses with
      | cons data parses =>
      cases parses with
      | cons equalverify parses =>
      cases parses with
      | cons checksig parses =>
          cases parses
          obtain ⟨piece, isPush, same⟩ := exists_isPush data push
          rw [eq_cons_of_getOp (by decide) dup, eq_cons_of_getOp (by decide) hash160, same,
            eq_cons_of_getOp (by decide) equalverify, eq_cons_of_getOp (by decide) checksig]
          exact .pubkeyhash isPush size
  | TX_SCRIPTHASH =>
      obtain ⟨scriptHash, rfl⟩ := solver_scripthash.mp solved
      obtain ⟨size, parses⟩ := parses_payToScriptHash scriptHash
      cases parses with
      | cons hash160 parses =>
      cases parses with
      | cons data parses =>
      cases parses with
      | cons equal parses =>
          cases parses
          generalize (script.drop 2).take 20 = hash at size data ⊢
          rw [eq_cons_of_getOp (by decide) hash160, eq_direct_of_getOp (by decide) data,
            eq_cons_of_getOp (by decide) equal]
          exact .scripthash size
  | TX_MULTISIG =>
      obtain ⟨m, keys, positive, enough, few, areKeys, rfl, parses⟩ := solver_multisig solved
      cases parses with
      | cons number parses =>
          obtain ⟨pieces, rest, arePieces, values, rfl, later⟩ := exists_keyPushes areKeys parses
          have length : pieces.length = keys.length := by
            rw [← List.length_map Prod.snd, values, List.length_map]
          cases later with
          | cons count later =>
          cases later with
          | cons checkmultisig later =>
              cases later
              rw [eq_cons_of_getOp (by simp only [OP_PUSHDATA4, OP_1]; omega) number,
                eq_cons_of_getOp (by simp only [OP_PUSHDATA4, OP_1]; omega) count,
                eq_cons_of_getOp (by decide) checkmultisig, ← values, ← length]
              exact .multisig arePieces positive (length ▸ enough) (length ▸ few)

/-- `Solver` recognises exactly the templates. -/
theorem solver_iff {typeRet : TxnOutType} {script : CScript} {vSolutions : List Valtype} :
    solver script = some (typeRet, vSolutions) ↔ Template typeRet script vSolutions :=
  ⟨template_of_solver, solver_of_template⟩

/-! ## Destinations -/

/-- `CScript::SetDestination`. -/
def setDestination : CTxDestination → CScript
  | .CNoDestination => []
  | .CKeyID keyID =>
      UInt8.ofNat OP_DUP :: UInt8.ofNat OP_HASH160 :: 20 :: (uint160Bytes keyID ++
        [UInt8.ofNat OP_EQUALVERIFY, UInt8.ofNat OP_CHECKSIG])
  | .CScriptID scriptID =>
      UInt8.ofNat OP_HASH160 :: 20 :: (uint160Bytes scriptID ++ [UInt8.ofNat OP_EQUAL])

/-- `CScript::SetMultisig` of the serialized public keys. -/
def setMultisig (nRequired : Nat) (keys : List Valtype) : CScript :=
  UInt8.ofNat (encodeOP_N nRequired) :: (keys.flatMap pushData ++
    [UInt8.ofNat (encodeOP_N keys.length), UInt8.ofNat OP_CHECKMULTISIG])

/-- `ExtractDestinations`: the type, the destinations and the number of signatures, `none` where it
returns `false`. -/
def extractDestinations (crypto : Crypto) (scriptPubKey : CScript) :
    Option (TxnOutType × List CTxDestination × Nat) :=
  match solver scriptPubKey with
  | none => none
  | some (.TX_MULTISIG, vSolutions) =>
      some (.TX_MULTISIG, vSolutions.tail.dropLast.map fun key => .CKeyID (crypto.Hash160 key),
        solutionByte vSolutions.head?)
  | some (typeRet, _) =>
      (extractDestination crypto scriptPubKey).map fun address => (typeRet, [address], 1)

theorem uint160OfBytes_uint160Bytes (word : UInt160) :
    uint160OfBytes (uint160Bytes word) = word := by
  have small := word.isLt
  rw [uint160OfBytes, uint160Bytes, ofLE_leBytes_of_lt (by omega), BitVec.ofNat_toNat,
    BitVec.setWidth_eq]

private theorem isPush_hash (word : UInt160) :
    IsPush (20 :: uint160Bytes word) (uint160Bytes word) := by
  left
  rw [length_uint160Bytes]
  exact ⟨by decide, rfl⟩

private theorem isPush_pushData {bytes : Valtype} (small : bytes.length < 2 ^ 32) :
    IsPush (pushData bytes) bytes := by
  unfold pushData
  split_ifs with direct one two
  · exact .inl ⟨direct, rfl⟩
  · exact .inr ⟨OP_PUSHDATA1, 1, by simp, by omega, by
      simp [leBytes, Nat.mod_eq_of_lt (show bytes.length < 256 by omega)]⟩
  · exact .inr ⟨OP_PUSHDATA2, 2, by simp, by omega, rfl⟩
  · exact .inr ⟨OP_PUSHDATA4, 4, by simp, by omega, rfl⟩

private theorem extract_keyID (keyID : UInt160) :
    extractDestination crypto (setDestination (.CKeyID keyID)) = some (.CKeyID keyID) := by
  have solved := solver_of_template (.pubkeyhash (isPush_hash keyID) (length_uint160Bytes keyID))
  simp only [List.cons_append] at solved
  simp only [extractDestination, setDestination, solved, List.head?_cons, Option.getD_some,
    uint160OfBytes_uint160Bytes]

private theorem extract_scriptID (scriptID : UInt160) :
    extractDestination crypto (setDestination (.CScriptID scriptID)) =
      some (.CScriptID scriptID) := by
  have solved := solver_of_template (.scripthash (length_uint160Bytes scriptID))
  have twenty : (0x14 : UInt8) = 20 := rfl
  rw [twenty] at solved
  simp only [extractDestination, setDestination, solved, List.head?_cons, Option.getD_some,
    uint160OfBytes_uint160Bytes]

private theorem encodeOP_N_eq {n : Nat} (positive : 1 ≤ n) : encodeOP_N n = OP_1 - 1 + n := by
  rw [encodeOP_N, if_neg (by omega), OP_1]
  omega

private theorem extract_multisig {m : Nat} {keys : List Valtype} (positive : 1 ≤ m)
    (enough : m ≤ keys.length) (few : keys.length ≤ 16)
    (sizes : ∀ key ∈ keys, 33 ≤ key.length ∧ key.length ≤ 120) :
    extractDestinations crypto (setMultisig m keys) =
      some (.TX_MULTISIG, keys.map fun key => .CKeyID (crypto.Hash160 key), m) := by
  have areKeys : ∀ key ∈ keys.map fun key => (pushData key, key), IsKeyPush key := by
    intro piece member
    obtain ⟨key, key_member, rfl⟩ := List.mem_map.mp member
    have size := sizes key key_member
    exact ⟨isPush_pushData (by omega), size⟩
  have solved := solver_of_template (.multisig areKeys positive (by rwa [List.length_map])
    (by rwa [List.length_map]))
  simp only [List.flatMap_map, List.map_map, List.length_map, Function.comp_def,
    List.map_id'] at solved
  have number : solutionByte (some [UInt8.ofNat m]) = m := toNat_opcode (by omega)
  simp only [extractDestinations, setMultisig, encodeOP_N_eq positive,
    encodeOP_N_eq (positive.trans enough), solved, List.tail_cons, List.dropLast_concat,
    List.head?_cons, number]

/-- `Solver` recognises exactly the templates and yields their data, and the destinations of built
scripts are those they were built from. -/
theorem solver_sound (crypto : Crypto) :
    (∀ typeRet script vSolutions,
      solver script = some (typeRet, vSolutions) ↔ Template typeRet script vSolutions) ∧
    (∀ keyID, extractDestination crypto (setDestination (.CKeyID keyID)) = some (.CKeyID keyID)) ∧
    (∀ scriptID, extractDestination crypto (setDestination (.CScriptID scriptID)) =
      some (.CScriptID scriptID)) ∧
    ∀ (m : Nat) (keys : List Valtype), 1 ≤ m → m ≤ keys.length → keys.length ≤ 16 →
      (∀ key ∈ keys, 33 ≤ key.length ∧ key.length ≤ 120) →
        extractDestinations crypto (setMultisig m keys) =
          some (.TX_MULTISIG, keys.map fun key => .CKeyID (crypto.Hash160 key), m) :=
  ⟨fun _ _ _ => solver_iff, extract_keyID, extract_scriptID, fun _ _ => extract_multisig⟩

end FooCoin

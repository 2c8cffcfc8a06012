import FooCoin.Script.Interpreter

/-!
# Standard scripts

`solver` matches a script against the templates of the standard transaction types.  Relay policy and
the key store both classify outputs with it.
-/

namespace FooCoin

open LittleEndian Op

/-- `txnouttype`, the standard ones. -/
inductive TxnOutType
  | TX_PUBKEY
  | TX_PUBKEYHASH
  | TX_SCRIPTHASH
  | TX_MULTISIG
  deriving DecidableEq

/-- The pushes of public keys from an instruction on, then the first instruction that is none. -/
def pubKeysLoop : Nat → Nat × Valtype × CScript → Option (List Valtype × Nat × Valtype × CScript)
  | 0, _ => none
  | fuel + 1, (opcode1, vch1, pc1) =>
      if 33 ≤ vch1.length ∧ vch1.length ≤ 120 then do
        let (keys, next) ← pubKeysLoop fuel (← getOp pc1)
        pure (vch1 :: keys, next)
      else some ([], opcode1, vch1, pc1)

/-- What an instruction adds to the solutions when it matches a template opcode. -/
def matchOpcode (opcode2 opcode1 : Nat) (vch1 : Valtype) : Option (List Valtype) :=
  if opcode2 = OP_PUBKEY then
    if 33 ≤ vch1.length ∧ vch1.length ≤ 120 then some [vch1] else none
  else if opcode2 = OP_PUBKEYHASH then
    if vch1.length = 20 then some [vch1] else none
  else if opcode2 = OP_SMALLINTEGER then
    if opcode1 = OP_0 ∨ (OP_1 ≤ opcode1 ∧ opcode1 ≤ OP_16) then
      some [[UInt8.ofNat (decodeOP_N opcode1)]]
    else none
  else if opcode1 ≠ opcode2 ∨ vch1 ≠ [] then none
  else some []

/-- Compare a script with a template; the result is the solutions. -/
def matchTemplate : List Nat → CScript → Option (List Valtype)
  | [], script1 => if script1 = [] then some [] else none
  | opcode2 :: script2, script1 => do
      let (opcode1, vch1, pc1) ← getOp script1
      if opcode2 = OP_PUBKEYS then
        let (keys, opcode1, vch1, pc1) ← pubKeysLoop (script1.length + 1) (opcode1, vch1, pc1)
        match script2 with
        | [] => none
        | opcode2 :: script2 =>
            let solutions ← matchOpcode opcode2 opcode1 vch1
            pure (keys ++ solutions ++ (← matchTemplate script2 pc1))
      else
        let solutions ← matchOpcode opcode2 opcode1 vch1
        pure (solutions ++ (← matchTemplate script2 pc1))

/-- The first byte of a solution. -/
def solutionByte (solution : Option Valtype) : Nat :=
  ((solution.bind List.head?).map UInt8.toNat).getD 0

/-- The counts of a multisig script fit its keys. -/
def multisigCounts (vSolutions : List Valtype) : Bool :=
  let m := solutionByte vSolutions.head?
  let n := solutionByte vSolutions.getLast?
  1 ≤ m ∧ 1 ≤ n ∧ m ≤ n ∧ vSolutions.length - 2 = n

/-- `Solver`: the type and the solutions, `none` where it returns `false`. -/
def solver (scriptPubKey : CScript) : Option (TxnOutType × List Valtype) :=
  if isPayToScriptHash scriptPubKey then
    some (.TX_SCRIPTHASH, [(scriptPubKey.drop 2).take 20])
  else
    match matchTemplate [OP_PUBKEY, OP_CHECKSIG] scriptPubKey with
    | some vSolutions => some (.TX_PUBKEY, vSolutions)
    | none =>
        match matchTemplate [OP_DUP, OP_HASH160, OP_PUBKEYHASH, OP_EQUALVERIFY, OP_CHECKSIG]
          scriptPubKey with
        | some vSolutions => some (.TX_PUBKEYHASH, vSolutions)
        | none =>
            match matchTemplate [OP_SMALLINTEGER, OP_PUBKEYS, OP_SMALLINTEGER, OP_CHECKMULTISIG]
              scriptPubKey with
            | some vSolutions =>
                if multisigCounts vSolutions then some (.TX_MULTISIG, vSolutions) else none
            | none => none

/-- `ScriptSigArgsExpected`. -/
def scriptSigArgsExpected : TxnOutType → List Valtype → Int
  | .TX_PUBKEY, _ => 1
  | .TX_PUBKEYHASH, _ => 2
  | .TX_MULTISIG, vSolutions =>
      match vSolutions with
      | (m :: _) :: _ => m.toNat + 1
      | _ => -1
  | .TX_SCRIPTHASH, _ => 1

/-- `IsStandard` of a script. -/
def isStandard (scriptPubKey : CScript) : Bool :=
  match solver scriptPubKey with
  | none => false
  | some (.TX_MULTISIG, vSolutions) =>
      let m := solutionByte vSolutions.head?
      let n := solutionByte vSolutions.getLast?
      (1 ≤ n ∧ n ≤ 3) ∧ 1 ≤ m ∧ m ≤ n
  | some _ => true

/-- What a key store holds. -/
structure CKeyStore where
  /-- `HaveKey`. -/
  haveKey : UInt160 → Bool
  /-- The scripts by their hash. -/
  mapScripts : List (UInt160 × CScript)

/-- `GetCScript`. -/
def CKeyStore.getCScript (keystore : CKeyStore) (hash : UInt160) : Option CScript :=
  (keystore.mapScripts.find? fun script => script.1 = hash).map Prod.snd

/-- A 160-bit word from its bytes. -/
def uint160OfBytes (bytes : Valtype) : UInt160 := BitVec.ofNat 160 (ofLE bytes)

/-- `IsMine` of a script; a chain of script hashes longer than the key store would never end. -/
def isMineLoop (crypto : Crypto) (keystore : CKeyStore) : Nat → CScript → Bool
  | 0, _ => false
  | fuel + 1, scriptPubKey =>
      match solver scriptPubKey with
      | none => false
      | some (.TX_PUBKEY, vSolutions) =>
          keystore.haveKey (crypto.Hash160 (vSolutions.head?.getD []))
      | some (.TX_PUBKEYHASH, vSolutions) =>
          keystore.haveKey (uint160OfBytes (vSolutions.head?.getD []))
      | some (.TX_SCRIPTHASH, vSolutions) =>
          match keystore.getCScript (uint160OfBytes (vSolutions.head?.getD [])) with
          | none => false
          | some subscript => isMineLoop crypto keystore fuel subscript
      | some (.TX_MULTISIG, vSolutions) =>
          vSolutions.tail.dropLast.all fun key => keystore.haveKey (crypto.Hash160 key)

/-- `IsMine` of a script. -/
def isMine (crypto : Crypto) (keystore : CKeyStore) (scriptPubKey : CScript) : Bool :=
  isMineLoop crypto keystore (keystore.mapScripts.length + 1) scriptPubKey

end FooCoin

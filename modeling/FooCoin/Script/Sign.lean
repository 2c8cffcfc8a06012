import FooCoin.KeyStore
import FooCoin.Script.Signature
import FooCoin.Script.Standard

/-!
# Signing and merging scripts

`signSignature` fills in the script of an input from a key store, `combineSignatures` merges two
scripts for the same output.  The merge looks at the stacks that the scripts leave, also when their
evaluation fails, so `evalScriptLeft` follows `EvalScript` to the point where it gives up.
-/

namespace FooCoin

open LittleEndian Op Counted

/-- A key store that can sign. -/
structure SigningKeyStore extends CKeyStore where
  /-- `CKey::Sign` of the key that `GetKey` finds. -/
  getKey : UInt160 → Option (UInt256 → Option Valtype)
  /-- `GetPubKey`. -/
  getPubKey : UInt160 → Option Valtype

/-- A basic key store as a signer; `sign` is `CKey::Sign` of the key with a secret. -/
def CBasicKeyStore.signing (lib : OpenSSL) (sign : CSecret → UInt256 → Option Valtype)
    (mapScripts : List (UInt160 × CScript)) (store : CBasicKeyStore) : SigningKeyStore where
  haveKey := store.haveKey
  mapScripts
  getKey address := (store.mapKeys.lookup address).map fun entry => sign entry.1
  getPubKey address := (store.mapKeys.lookup address).map fun entry => pubKeyOf lib entry.1 entry.2

/-- Replace the script of an input. -/
def CTransaction.setScriptSig (tx : CTransaction) (nIn : Nat) (scriptSig : CScript) :
    CTransaction :=
  { tx with vin := tx.vin.modify nIn fun txin => { txin with scriptSig } }

/-- A signature does not cover the scripts of the inputs. -/
theorem signatureHash_setScriptSig (crypto : Crypto) (scriptCode : CScript) (tx : CTransaction)
    (n nIn : Nat) (scriptSig : CScript) (nHashType : Int32) :
    signatureHash crypto scriptCode (tx.setScriptSig n scriptSig) nIn nHashType =
      signatureHash crypto scriptCode tx nIn nHashType := by
  have blank (code : CScript) :
      (tx.setScriptSig n scriptSig).vin.mapIdx (fun i txin =>
          { txin with scriptSig := if i = nIn then code else [] }) =
        tx.vin.mapIdx fun i txin => { txin with scriptSig := if i = nIn then code else [] } := by
    refine List.ext_getElem? fun i => ?_
    simp only [CTransaction.setScriptSig, List.getElem?_mapIdx, List.getElem?_modify]
    cases tx.vin[i]? with
    | none => rfl
    | some txin => by_cases here : n = i <;> simp [here]
  have inputs : (tx.setScriptSig n scriptSig).vin.length = tx.vin.length := by
    simp [CTransaction.setScriptSig]
  simp only [signatureHash, blank, inputs]
  rfl

/-- A check of a signature does not depend on the scripts of the inputs. -/
theorem checkSig_setScriptSig (crypto : Crypto) (tx : CTransaction) (n nIn : Nat)
    (scriptSig : CScript) (nHashType : Int32) :
    checkSig crypto (tx.setScriptSig n scriptSig) nIn nHashType =
      checkSig crypto tx nIn nHashType := by
  funext vchSig vchPubKey scriptCode
  simp only [checkSig, signatureHash_setScriptSig]

/-! ## Signing -/

/-- `Sign1`: the script with the signature appended, `none` where the source returns `false`. -/
def sign1 (keystore : SigningKeyStore) (hash : UInt256) (nHashType : Int32) (address : UInt160)
    (scriptSigRet : CScript) : Option CScript := do
  let sign ← keystore.getKey address
  let vchSig ← sign hash
  pure (scriptSigRet ++ pushData (vchSig ++ [nHashType.toUInt32.toUInt8]))

/-- The loop of `SignN`: the number of signatures and the script. -/
def signLoop (crypto : Crypto) (keystore : SigningKeyStore) (hash : UInt256) (nHashType : Int32)
    (nRequired : Nat) : List Valtype → Nat → CScript → Nat × CScript
  | [], nSigned, scriptSigRet => (nSigned, scriptSigRet)
  | pubkey :: pubkeys, nSigned, scriptSigRet =>
      if nSigned < nRequired then
        match sign1 keystore hash nHashType (crypto.Hash160 pubkey) scriptSigRet with
        | some scriptSigRet =>
            signLoop crypto keystore hash nHashType nRequired pubkeys (nSigned + 1) scriptSigRet
        | none => signLoop crypto keystore hash nHashType nRequired pubkeys nSigned scriptSigRet
      else (nSigned, scriptSigRet)

/-- `SignN`: whether enough keys signed, and the script. -/
def signN (crypto : Crypto) (keystore : SigningKeyStore) (hash : UInt256) (nHashType : Int32)
    (multisigdata : List Valtype) (scriptSigRet : CScript) : Bool × CScript :=
  let nRequired := solutionByte multisigdata.head?
  let (nSigned, scriptSigRet) :=
    signLoop crypto keystore hash nHashType nRequired multisigdata.tail.dropLast 0 scriptSigRet
  (nSigned = nRequired, scriptSigRet)

/-- `Solver` of a key store: what it returns, the script and the type it leaves. -/
def solverSign (crypto : Crypto) (keystore : SigningKeyStore) (scriptPubKey : CScript)
    (hash : UInt256) (nHashType : Int32) : Bool × CScript × Option TxnOutType :=
  match solver scriptPubKey with
  | none => (false, [], none)
  | some (.TX_PUBKEY, vSolutions) =>
      let keyID := crypto.Hash160 (vSolutions.head?.getD [])
      match sign1 keystore hash nHashType keyID [] with
      | none => (false, [], some .TX_PUBKEY)
      | some scriptSigRet => (true, scriptSigRet, some .TX_PUBKEY)
  | some (.TX_PUBKEYHASH, vSolutions) =>
      let keyID := uint160OfBytes (vSolutions.head?.getD [])
      match sign1 keystore hash nHashType keyID [] with
      | none => (false, [], some .TX_PUBKEYHASH)
      | some scriptSigRet =>
          let vch := (keystore.getPubKey keyID).getD []
          (true, scriptSigRet ++ pushData vch, some .TX_PUBKEYHASH)
  | some (.TX_SCRIPTHASH, vSolutions) =>
      match keystore.getCScript (uint160OfBytes (vSolutions.head?.getD [])) with
      | none => (false, [], some .TX_SCRIPTHASH)
      | some subscript => (true, subscript, some .TX_SCRIPTHASH)
  | some (.TX_MULTISIG, vSolutions) =>
      let (complete, scriptSigRet) :=
        signN crypto keystore hash nHashType vSolutions [UInt8.ofNat OP_0]
      (complete, scriptSigRet, some .TX_MULTISIG)

/-- `SignSignature`: what it returns and the transaction it leaves. -/
def signSignature (crypto : Crypto) (keystore : SigningKeyStore) (fromPubKey : CScript)
    (txTo : CTransaction) (nIn : Nat) (nHashType : Int32) : Outcome (Bool × CTransaction) :=
  if txTo.vin.length ≤ nIn then .error .assertion
  else
    let hash := signatureHash crypto fromPubKey txTo nIn nHashType
    let verified (tx : CTransaction) (scriptSig : CScript) : Bool :=
      (verifyScript crypto (checkSig crypto tx nIn 0) scriptSig fromPubKey true).outcome.isOk
    match solverSign crypto keystore fromPubKey hash nHashType with
    | (false, scriptSig, _) => .ok (false, txTo.setScriptSig nIn scriptSig)
    | (true, subscript, some .TX_SCRIPTHASH) =>
        let txTo := txTo.setScriptSig nIn subscript
        let hash2 := signatureHash crypto subscript txTo nIn nHashType
        let (solved, scriptSig, subType) :=
          solverSign crypto keystore subscript hash2 nHashType
        let scriptSig := scriptSig ++ pushData subscript
        let txTo := txTo.setScriptSig nIn scriptSig
        .ok (solved && subType ≠ some .TX_SCRIPTHASH && verified txTo scriptSig, txTo)
    | (true, scriptSig, _) =>
        let txTo := txTo.setScriptSig nIn scriptSig
        .ok (verified txTo scriptSig, txTo)

/-! ## The stack of a failed evaluation -/

/-- The stack that a case of the switch leaves when it ends the evaluation. -/
def abandonedStack (crypto : Crypto) (check : SignatureCheck) (opcode : Nat) (rest : CScript)
    (state : EvalState) : Stack :=
  if opcode ∈ [OP_EQUALVERIFY, OP_NUMEQUALVERIFY, OP_CHECKSIGVERIFY, OP_CHECKMULTISIGVERIFY] then
    -- the operator pushes its result as the one before it does, then looks at it
    match (evalOp crypto check (opcode - 1) rest state).outcome with
    | .ok state => state.stack
    | .error _ => state.stack
  else if opcode = OP_PICK ∨ opcode = OP_ROLL then
    -- the index is popped before it is compared with the height of the stack
    match demand (2 ≤ state.stack.length) >>= fun _ => bigNumTop state.stack 1 with
    | .ok _ => state.stack.tail
    | .error _ => state.stack
  else state.stack

/-- The loop of `EvalScript` from `pc`, for the stack it leaves. -/
def evalLoopLeft (crypto : Crypto) (check : SignatureCheck) : Nat → CScript → EvalState → Stack
  | _, [], state => state.stack
  | 0, _ :: _, state => state.stack
  | fuel + 1, byte :: pc, state =>
      match getOp (byte :: pc) with
      | none => state.stack
      | some (opcode, vchPushValue, rest) =>
          let nOpCount := if OP_16 < opcode then state.nOpCount + 1 else state.nOpCount
          if 520 < vchPushValue.length ∨ (OP_16 < opcode ∧ 201 < nOpCount) ∨
              opcode ∈ disabledOpcodes then state.stack
          else
            match (evalExecuted crypto check opcode vchPushValue rest
              { state with nOpCount }).outcome with
            | .error _ => abandonedStack crypto check opcode rest { state with nOpCount }
            | .ok state =>
                if 1000 < state.stack.length + state.altstack.length then state.stack
                else evalLoopLeft crypto check fuel rest state

/-- The stack that `EvalScript` leaves, whatever it returns. -/
def evalScriptLeft (crypto : Crypto) (check : SignatureCheck) (stack : Stack) (script : CScript) :
    Stack :=
  if 10000 < script.length then stack
  else evalLoopLeft crypto check script.length script (.initial stack script)

/-! ## Merging -/

/-- `PushAll`. -/
def pushAll (values : List Valtype) : CScript := values.flatMap pushData

/-- The order of `set<valtype>`. -/
def valtypeLE (left right : Valtype) : Bool :=
  left.map UInt8.toNat ≤ right.map UInt8.toNat

/-- The nonempty elements of both lists, each once, in the order of `set<valtype>`. -/
def allSigs (sigs1 sigs2 : List Valtype) : List Valtype :=
  (((sigs1 ++ sigs2).filter (· ≠ [])).dedup).mergeSort valtypeLE

/-- File a signature under the first public key that has none yet and that it is valid for. -/
def fileSignature (check : Valtype → Valtype → Bool) (sig : Valtype) :
    List Valtype → (Valtype → Option Valtype) → Valtype → Option Valtype
  | [], sigs => sigs
  | pubkey :: pubkeys, sigs =>
      if (sigs pubkey).isSome then fileSignature check sig pubkeys sigs
      else if check sig pubkey then Function.update sigs pubkey (some sig)
      else fileSignature check sig pubkeys sigs

/-- `CombineMultisig`. -/
def combineMultisig (crypto : Crypto) (scriptPubKey : CScript) (txTo : CTransaction) (nIn : Nat)
    (vSolutions sigs1 sigs2 : List Valtype) : CScript :=
  let nSigsRequired := solutionByte vSolutions.head?
  let pubkeys := vSolutions.tail.dropLast
  let check (sig pubkey : Valtype) := checkSig crypto txTo nIn 0 sig pubkey scriptPubKey
  let sigs := (allSigs sigs1 sigs2).foldl (fun sigs sig => fileSignature check sig pubkeys sigs)
    fun _ => none
  let merged := (pubkeys.filterMap sigs).take nSigsRequired
  UInt8.ofNat OP_0 ::
    (pushAll merged ++ List.replicate (nSigsRequired - merged.length) (UInt8.ofNat OP_0))

/-- The type and the solutions that `Solver` leaves, `none` for `TX_NONSTANDARD`.  A multisig
template whose counts do not fit keeps its type. -/
def solverLeft (scriptPubKey : CScript) : Option TxnOutType × List Valtype :=
  match solver scriptPubKey with
  | some (typeRet, vSolutions) => (some typeRet, vSolutions)
  | none =>
      match matchTemplate [OP_SMALLINTEGER, OP_PUBKEYS, OP_SMALLINTEGER, OP_CHECKMULTISIG]
        scriptPubKey with
      | some vSolutions => (some .TX_MULTISIG, vSolutions)
      | none => (none, [])

/-- `CombineSignatures` of two stacks, bottom first; every nested script pops an element of the
first. -/
def combineStacks (crypto : Crypto) (txTo : CTransaction) (nIn : Nat) :
    Nat → CScript → List Valtype → List Valtype → CScript
  | fuel, scriptPubKey, sigs1, sigs2 =>
      match solverLeft scriptPubKey with
      | (none, _) => if sigs2.length ≤ sigs1.length then pushAll sigs1 else pushAll sigs2
      | (some .TX_PUBKEY, _) | (some .TX_PUBKEYHASH, _) =>
          if sigs1.head?.getD [] = [] then pushAll sigs2 else pushAll sigs1
      | (some .TX_SCRIPTHASH, _) =>
          let spk := sigs1.getLast?.getD []
          if spk = [] then pushAll sigs2
          else if sigs2.getLast?.getD [] = [] then pushAll sigs1
          else
            match fuel with
            | 0 => []
            | fuel + 1 =>
                combineStacks crypto txTo nIn fuel spk sigs1.dropLast sigs2.dropLast ++ pushData spk
      | (some .TX_MULTISIG, vSolutions) =>
          combineMultisig crypto scriptPubKey txTo nIn vSolutions sigs1 sigs2

/-- `CTransaction::SetNull`. -/
def CTransaction.null : CTransaction := { nVersion := 1, vin := [], vout := [], nLockTime := 0 }

/-- The elements that a script leaves on an empty stack, bottom first. -/
def scriptValues (crypto : Crypto) (scriptSig : CScript) : List Valtype :=
  (evalScriptLeft crypto (checkSig crypto .null 0 0) [] scriptSig).reverse

/-- `CombineSignatures`. -/
def combineSignatures (crypto : Crypto) (scriptPubKey : CScript) (txTo : CTransaction) (nIn : Nat)
    (scriptSig1 scriptSig2 : CScript) : CScript :=
  let stack1 := scriptValues crypto scriptSig1
  let stack2 := scriptValues crypto scriptSig2
  combineStacks crypto txTo nIn stack1.length scriptPubKey stack1 stack2

end FooCoin

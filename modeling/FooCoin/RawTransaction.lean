import FooCoin.Script.Sign
import FooCoin.TxIndex

/-!
# Signing raw transactions

`signrawtransaction` from its decoded variants on.  The previous outputs come from the map that
`FetchInputs` leaves, also when it fails, and from the `prevtxs` array.  An access that leaves its
vector ends the command with `RpcFailure.outOfRange`, so that it is told apart from an error that
the command reports.
-/

namespace FooCoin

open Function

/-! ## What `FetchInputs` leaves -/

/-- The entry that a failing round of `FetchInputs` leaves; `torn` is what an interrupted read of a
transaction leaves in it. -/
def leftEntry (torn : CDiskTxPos → CTransaction) (txdb : TxIndexMap) (hash : UInt256) :
    CTxIndex × CTransaction :=
  match txdb hash with
  | none => ({ pos := .null, vSpent := [] }, .null)
  | some txindex => (txindex, if txindex.pos = .pool then .null else torn txindex.pos)

/-- The first loop of `FetchInputs`, for the map it leaves. -/
def fetchLoopLeft (fetch : UInt256 → Option (CTxIndex × CTransaction))
    (left : UInt256 → CTxIndex × CTransaction) : List CTxIn → MapPrevTx → MapPrevTx
  | [], inputs => inputs
  | txin :: vin, inputs =>
      if (inputs txin.prevout.hash).isSome then fetchLoopLeft fetch left vin inputs
      else
        match fetch txin.prevout.hash with
        | none => update inputs txin.prevout.hash (some (left txin.prevout.hash))
        | some prev =>
            fetchLoopLeft fetch left vin (update inputs txin.prevout.hash (some prev))

/-- The map is the one that `FetchInputs` returns where it succeeds. -/
theorem fetchLoopLeft_eq {fetch : UInt256 → Option (CTxIndex × CTransaction)}
    {left : UInt256 → CTxIndex × CTransaction} {vin : List CTxIn} {inputs result : MapPrevTx}
    (fetched : fetchLoop fetch vin inputs = .ok result) :
    fetchLoopLeft fetch left vin inputs = result := by
  induction vin generalizing inputs with
  | nil => simpa [fetchLoop, fetchLoopLeft] using fetched
  | cons txin vin induction =>
      simp only [fetchLoop, fetchLoopLeft] at fetched ⊢
      split at fetched
      · exact (if_pos ‹_›).trans (induction fetched)
      · rw [if_neg ‹_›]
        cases found : fetch txin.prevout.hash with
        | none => simp [found] at fetched
        | some prev =>
            rw [found] at fetched
            exact induction fetched

/-! ## Requests -/

/-- How the command ends without a result. -/
inductive RpcFailure
  /-- An access left its vector. -/
  | outOfRange
  /-- `JSONRPCError`. -/
  | error (code : Int) (message : String)
  /-- Another exception or a failed assertion. -/
  | exception
  deriving DecidableEq

/-- `isspace`. -/
def isSpace (c : Char) : Bool := c = ' ' ∨ (9 ≤ c.toNat ∧ c.toNat ≤ 13)

/-- `phexdigit`. -/
def hexDigit (c : Char) : Option Nat :=
  if '0' ≤ c ∧ c ≤ '9' then some (c.toNat - '0'.toNat)
  else if 'a' ≤ c ∧ c ≤ 'f' then some (c.toNat - 'a'.toNat + 10)
  else if 'A' ≤ c ∧ c ≤ 'F' then some (c.toNat - 'A'.toNat + 10)
  else none

/-- `IsHex`. -/
def isHex (str : List Char) : Bool :=
  str.all (fun c => (hexDigit c).isSome) ∧ 0 < str.length ∧ str.length % 2 = 0

/-- The loop of `ParseHex`. -/
def parseHexLoop : Nat → List Char → List UInt8
  | 0, _ => []
  | fuel + 1, psz =>
      match psz.dropWhile isSpace with
      | high :: low :: psz =>
          match hexDigit high, hexDigit low with
          | some high, some low => UInt8.ofNat (16 * high + low) :: parseHexLoop fuel psz
          | _, _ => []
      | _ => []

/-- `ParseHex`. -/
def parseHex (psz : List Char) : List UInt8 := parseHexLoop psz.length psz

/-- `uint256::SetHex`. -/
def setHex (psz : List Char) : UInt256 :=
  let psz := psz.dropWhile isSpace
  let psz :=
    match psz with
    | '0' :: 'x' :: psz | '0' :: 'X' :: psz => psz
    | psz => psz
  let digits := ((psz.map hexDigit).takeWhile Option.isSome).filterMap id
  BitVec.ofNat 256 (digits.foldl (fun word digit => 16 * word + digit) 0)

/-- `HexStr`. -/
def hexStr (bytes : List UInt8) : List Char :=
  bytes.flatMap fun byte => [(byte.toNat / 16).digitChar, (byte.toNat % 16).digitChar]

/-- An element of the `prevtxs` array. -/
inductive PrevTxParam
  /-- No object. -/
  | other
  /-- An object that `RPCTypeCheck` refuses with this text. -/
  | mistyped (message : String)
  /-- An object with the three members. -/
  | object (txid : List Char) (vout : Int64) (scriptPubKey : List Char)

/-- A parameter read with `get_str`, `none` where it is no string. -/
abbrev StrParam := Option String

/-- A request with its transactions decoded. -/
structure SignRequest where
  /-- `txVariants[0]`. -/
  first : CTransaction
  /-- The other variants. -/
  others : List CTransaction
  /-- The second parameter; leaving it out is the same as an empty array. -/
  prevTxs : List PrevTxParam
  /-- The third parameter, if given. -/
  keys : Option (List StrParam)
  /-- The fourth parameter, if given. -/
  sigHashType : Option StrParam

/-- `txVariants`. -/
def SignRequest.txVariants (request : SignRequest) : List CTransaction :=
  request.first :: request.others

/-- What the command reads of the node and of the libraries. -/
structure SignNode (lib : OpenSSL) where
  env : Env
  /-- What an interrupted `ReadFromDisk` leaves. -/
  torn : CDiskTxPos → CTransaction
  mempool : MapTx
  txdb : TxIndexMap
  /-- `pwalletMain`. -/
  wallet : SigningKeyStore
  /-- `CBitcoinSecret`: the secret and `fCompressed` of a valid string. -/
  bitcoinSecret : String → Option (CSecret × Bool)
  /-- `CKey::Sign` of the key with the secret. -/
  sign : CSecret → UInt256 → Option Valtype

variable {lib : OpenSSL}

/-! ## Previous outputs -/

/-- `mapPrevOut`. -/
abbrev MapPrevOut := COutPoint → Option CScript

/-- A round of `FetchInputs` as the command calls it. -/
def SignNode.fetch (node : SignNode lib) : UInt256 → Option (CTxIndex × CTransaction) :=
  fetchPrev node.env node.mempool node.txdb (fun _ => none) false

/-- `mapPrevTx` after `FetchInputs`. -/
def SignNode.mapPrevTx (node : SignNode lib) (mergedTx : CTransaction) : MapPrevTx :=
  if mergedTx.isCoinBase then fun _ => none
  else fetchLoopLeft node.fetch (leftEntry node.torn node.txdb) mergedTx.vin fun _ => none

/-- Copy the scripts of the fetched outputs. -/
def copyPrevOuts (mapPrevTx : MapPrevTx) : List CTxIn → MapPrevOut → Except RpcFailure MapPrevOut
  | [], mapPrevOut => pure mapPrevOut
  | txin :: vin, mapPrevOut =>
      match mapPrevTx txin.prevout.hash with
      | none => copyPrevOuts mapPrevTx vin mapPrevOut
      | some (_, txPrev) =>
          match txPrev.vout[txin.prevout.n.toNat]? with
          | none => throw .outOfRange
          | some txout =>
              copyPrevOuts mapPrevTx vin (update mapPrevOut txin.prevout (some txout.scriptPubKey))

/-- The outpoint and the script of an element of `prevtxs`. -/
def PrevTxParam.parse : PrevTxParam → Except RpcFailure (COutPoint × CScript)
  | .other =>
      throw (.error (-22) "expected object with \x7b\"txid'\",\"vout\",\"scriptPubKey\"\x7d")
  | .mistyped message => throw (.error (-3) message)
  | .object txidHex vout pkHex =>
      if ¬isHex txidHex then throw (.error (-22) "txid must be hexadecimal")
      else
        let nOut := vout.toInt32
        if nOut < 0 then throw (.error (-22) "vout must be positive")
        else if ¬isHex pkHex then throw (.error (-22) "scriptPubKey must be hexadecimal")
        else pure ({ hash := setHex txidHex, n := nOut.toUInt32 }, parseHex pkHex)

/-- Add a previous output given in the call. -/
def addPrevOut (mapPrevOut : MapPrevOut) (outpoint : COutPoint) (scriptPubKey : CScript) :
    Except RpcFailure MapPrevOut :=
  match mapPrevOut outpoint with
  | some known =>
      if known ≠ scriptPubKey then throw (.error (-22) "Previous output scriptPubKey mismatch")
      else pure mapPrevOut
  | none => pure (update mapPrevOut outpoint (some scriptPubKey))

/-- Add the previous outputs given in the call. -/
def addPrevOuts : List PrevTxParam → MapPrevOut → Except RpcFailure MapPrevOut
  | [], mapPrevOut => pure mapPrevOut
  | p :: prevTxs, mapPrevOut => do
      let (outpoint, scriptPubKey) ← p.parse
      addPrevOuts prevTxs (← addPrevOut mapPrevOut outpoint scriptPubKey)

/-! ## Keys and hash type -/

/-- Read a private key and add it to the key store. -/
def SignNode.addKey (node : SignNode lib) (tempKeystore : CBasicKeyStore) :
    StrParam → Except RpcFailure CBasicKeyStore
  | none => throw .exception
  | some k =>
      match node.bitcoinSecret k with
      | none => throw (.error (-5) "Invalid private key")
      | some (secret, fCompressed) =>
          match (CKey.reset : CKey lib).setSecret secret fCompressed >>=
            tempKeystore.addKey node.env.crypto with
          | .error _ => throw .exception
          | .ok tempKeystore => pure tempKeystore

/-- The key store to sign with. -/
def SignNode.keystore (node : SignNode lib) :
    Option (List StrParam) → Except RpcFailure SigningKeyStore
  | none => pure node.wallet
  | some keys => do
      let tempKeystore ← keys.foldlM node.addKey { mapKeys := ∅ }
      pure (tempKeystore.signing lib node.sign [])

/-- `mapSigHashValues`. -/
def sigHashValue : String → Option Int32
  | "ALL" => some 1
  | "ALL|ANYONECANPAY" => some (1 ||| sighashAnyoneCanPay)
  | "NONE" => some sighashNone
  | "NONE|ANYONECANPAY" => some (sighashNone ||| sighashAnyoneCanPay)
  | "SINGLE" => some sighashSingle
  | "SINGLE|ANYONECANPAY" => some (sighashSingle ||| sighashAnyoneCanPay)
  | _ => none

/-- `nHashType`. -/
def hashTypeOf : Option StrParam → Except RpcFailure Int32
  | none => pure 1
  | some none => throw .exception
  | some (some strHashType) =>
      match sigHashValue strHashType with
      | some nHashType => pure nHashType
      | none => throw (.error (-8) "Invalid sighash param")

/-! ## Signing -/

/-- Merge the signatures of the variants into input `i`. -/
def mergeVariants (crypto : Crypto) (prevPubKey : CScript) (i : Nat) :
    List CTransaction → CTransaction → Except RpcFailure CTransaction
  | [], mergedTx => pure mergedTx
  | txv :: txVariants, mergedTx =>
      match mergedTx.vin[i]?, txv.vin[i]? with
      | some txin, some input =>
          let scriptSig :=
            combineSignatures crypto prevPubKey mergedTx i txin.scriptSig input.scriptSig
          mergeVariants crypto prevPubKey i txVariants (mergedTx.setScriptSig i scriptSig)
      | _, _ => throw .outOfRange

/-- The body of the signing loop: the transaction and whether the input is complete. -/
def signInput (crypto : Crypto) (keystore : SigningKeyStore) (nHashType : Int32)
    (mapPrevOut : MapPrevOut) (txVariants : List CTransaction) (i : Nat)
    (mergedTx : CTransaction) : Except RpcFailure (CTransaction × Bool) :=
  match mergedTx.vin[i]? with
  | none => throw .outOfRange
  | some txin =>
      match mapPrevOut txin.prevout with
      | none => pure (mergedTx, false)
      | some prevPubKey =>
          match signSignature crypto keystore prevPubKey (mergedTx.setScriptSig i []) i
            nHashType with
          | .error _ => throw .exception
          | .ok (_, mergedTx) => do
              let mergedTx ← mergeVariants crypto prevPubKey i txVariants mergedTx
              match mergedTx.vin[i]? with
              | none => throw .outOfRange
              | some txin =>
                  let verified := verifyScript crypto (checkSig crypto mergedTx i 0) txin.scriptSig
                    prevPubKey true
                  pure (mergedTx, verified.outcome.isOk)

/-- The signing loop over `count` inputs from input `i` on. -/
def signInputs (crypto : Crypto) (keystore : SigningKeyStore) (nHashType : Int32)
    (mapPrevOut : MapPrevOut) (txVariants : List CTransaction) :
    Nat → Nat → CTransaction → Bool → Except RpcFailure (CTransaction × Bool)
  | 0, _, mergedTx, fComplete => pure (mergedTx, fComplete)
  | count + 1, i, mergedTx, fComplete => do
      let (mergedTx, complete) ←
        signInput crypto keystore nHashType mapPrevOut txVariants i mergedTx
      signInputs crypto keystore nHashType mapPrevOut txVariants count (i + 1) mergedTx
        (fComplete && complete)

/-- `signrawtransaction`: the members `hex` and `complete` of the result. -/
def signrawtransaction (node : SignNode lib) (request : SignRequest) :
    Except RpcFailure (List Char × Bool) := do
  let mergedTx := request.first
  let mapPrevOut ← copyPrevOuts (node.mapPrevTx mergedTx) mergedTx.vin fun _ => none
  let mapPrevOut ← addPrevOuts request.prevTxs mapPrevOut
  let keystore ← node.keystore request.keys
  let nHashType ← hashTypeOf request.sigHashType
  let (mergedTx, fComplete) ←
    signInputs node.env.crypto keystore nHashType mapPrevOut request.txVariants
      mergedTx.vin.length 0 mergedTx true
  pure (hexStr mergedTx.write, fComplete)

end FooCoin

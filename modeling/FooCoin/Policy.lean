import FooCoin.Script.Standard
import FooCoin.TxIndex

/-!
# Relay policy

The rules that the memory pool and the block assembler add to those of the chain: standard
transactions, standard inputs and minimum fees.
-/

namespace FooCoin

/-- `CTransaction::CURRENT_VERSION`. -/
def currentVersion : Int32 := 1

/-- `CTransaction::IsStandard`. -/
def CTransaction.isStandard (tx : CTransaction) : Bool :=
  tx.nVersion ≤ currentVersion ∧
    (tx.vin.all fun txin => txin.scriptSig.length ≤ 500 ∧ isPushOnly txin.scriptSig) ∧
    tx.vout.all fun txout => FooCoin.isStandard txout.scriptPubKey

/-- The number of arguments that a pay-to-script-hash input needs for its script, `none` where
`AreInputsStandard` returns `false`. -/
def subscriptArgsExpected : Stack → Option Int
  | [] => none
  | subscript :: _ => do
      let (whichType2, vSolutions2) ← solver subscript
      if whichType2 = .TX_SCRIPTHASH then none
      else
        let tmpExpected := scriptSigArgsExpected whichType2 vSolutions2
        if tmpExpected < 0 then none else some tmpExpected

/-- One round of the loop of `AreInputsStandard`. -/
def isInputStandard (crypto : Crypto) (tx : CTransaction) (i : Nat) (txin : CTxIn)
    (prev : CTxOut) : Bool :=
  match solver prev.scriptPubKey with
  | none => false
  | some (whichType, vSolutions) =>
      let nArgsExpected := scriptSigArgsExpected whichType vSolutions
      if nArgsExpected < 0 then false
      else
        match (evalScript crypto (checkSig crypto tx i 0) [] txin.scriptSig).outcome with
        | .error _ => false
        | .ok stack =>
            if whichType = .TX_SCRIPTHASH then
              match subscriptArgsExpected stack with
              | none => false
              | some tmpExpected => stack.length = nArgsExpected + tmpExpected
            else stack.length = nArgsExpected

/-- The loop of `AreInputsStandard`, from input `i` on. -/
def inputsStandardLoop (crypto : Crypto) (inputs : MapPrevTx) (tx : CTransaction) :
    Nat → List CTxIn → Outcome Bool
  | _, [] => pure true
  | i, txin :: vin => do
      let prev ← getOutputFor txin inputs
      if isInputStandard crypto tx i txin prev then inputsStandardLoop crypto inputs tx (i + 1) vin
      else pure false

/-- `CTransaction::AreInputsStandard`. -/
def CTransaction.areInputsStandard (crypto : Crypto) (inputs : MapPrevTx) (tx : CTransaction) :
    Outcome Bool :=
  if tx.isCoinBase then pure true else inputsStandardLoop crypto inputs tx 0 tx.vin

/-- `GetMinFee_mode`. -/
inductive GetMinFeeMode
  | GMF_BLOCK
  | GMF_RELAY
  | GMF_SEND
  deriving DecidableEq

/-- `CTransaction::GetMinFee`, in exact integers: a transaction of at most `MAX_BLOCK_SIZE` keeps
every step in range. -/
def CTransaction.getMinFee (nBlockSize : Nat) (fAllowFree : Bool) (mode : GetMinFeeMode)
    (tx : CTransaction) : Int :=
  let nBaseFee := if mode = .GMF_RELAY then minRelayTxFee else minTxFee
  let nBytes := tx.size
  let nNewBlockSize := nBlockSize + nBytes
  let nMinFee : Int := (1 + (nBytes / 1000 : Nat)) * nBaseFee
  let nMinFee :=
    if fAllowFree ∧ (if nBlockSize = 1 then nBytes < 10000 else nNewBlockSize < 27000) then 0
    else nMinFee
  let dust := (tx.vout.filter fun txout => txout.nValue.toInt < cent).length
  let nMinFee := nMinFee + dust * nBaseFee
  if nBlockSize ≠ 1 ∧ maxBlockSizeGen ≤ nNewBlockSize then maxMoney
  else
    let nMinFee :=
      if nBlockSize ≠ 1 ∧ maxBlockSizeGen / 2 ≤ nNewBlockSize then
        nMinFee * (maxBlockSizeGen / (maxBlockSizeGen - nNewBlockSize) : Nat)
      else nMinFee
    if MoneyRange nMinFee then nMinFee else maxMoney

end FooCoin

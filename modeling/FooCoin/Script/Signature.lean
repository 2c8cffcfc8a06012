import FooCoin.Transaction

/-!
# Signatures of transactions

`signatureHash` is the digest a signature commits to, `checkSig` the check that the script machine
is run with, and `verifySignature` the verification of one input against the transaction it spends
from.  The cache of valid signatures in `CheckSig` is a module of its own.
-/

namespace FooCoin

open LittleEndian Op Counted

/-- `SIGHASH_NONE`. -/
def sighashNone : Int32 := 2

/-- `SIGHASH_SINGLE`. -/
def sighashSingle : Int32 := 3

/-- `SIGHASH_ANYONECANPAY`. -/
def sighashAnyoneCanPay : Int32 := 0x80

/-- `SignatureHash`. -/
def signatureHash (crypto : Crypto) (scriptCode : CScript) (txTo : CTransaction) (nIn : Nat)
    (nHashType : Int32) : UInt256 :=
  let scriptCode := (findAndDelete scriptCode [UInt8.ofNat OP_CODESEPARATOR]).1
  let signed := txTo.vin.mapIdx fun i txin =>
    { txin with scriptSig := if i = nIn then scriptCode else [] }
  let updatable := signed.mapIdx fun i txin =>
    { txin with nSequence := if i = nIn then txin.nSequence else 0 }
  let base := nHashType &&& 0x1f
  if txTo.vin.length ≤ nIn ∨ (base = sighashSingle ∧ txTo.vout.length ≤ nIn) then 1
  else
    let vin := if base = sighashNone ∨ base = sighashSingle then updatable else signed
    let vout :=
      if base = sighashNone then []
      else if base = sighashSingle then
        List.replicate nIn CTxOut.null ++ (txTo.vout.drop nIn).take 1
      else txTo.vout
    let vin := if nHashType &&& sighashAnyoneCanPay ≠ 0 then (vin.drop nIn).take 1 else vin
    crypto.Hash ({ txTo with vin, vout }.write ++ leBytes 4 nHashType.toUInt32.toNat)

/-- `CheckSig`. -/
def checkSig (crypto : Crypto) (txTo : CTransaction) (nIn : Nat) (nHashType : Int32) :
    SignatureCheck := fun vchSig vchPubKey scriptCode =>
  match vchSig.getLast? with
  | none => false
  | some back =>
      let hashType := Int32.ofNat back.toNat
      if nHashType ≠ 0 ∧ nHashType ≠ hashType then false
      else
        let sighash := signatureHash crypto scriptCode txTo nIn hashType
        crypto.SetPubKey vchPubKey && crypto.Verify vchPubKey sighash vchSig.dropLast

/-- `VerifySignature`. -/
def verifySignature (crypto : Crypto) (txFrom txTo : CTransaction) (nIn : Nat)
    (fValidatePayToScriptHash : Bool) (nHashType : Int32) : Outcome Unit :=
  match txTo.vin[nIn]? with
  | none => .error .assertion
  | some txin =>
      match txFrom.vout[txin.prevout.n.toNat]? with
      | none => .error .rejected
      | some txout => do
          require (txin.prevout.hash = txFrom.getHash crypto)
          require (verifyScript crypto (checkSig crypto txTo nIn nHashType) txin.scriptSig
            txout.scriptPubKey fValidatePayToScriptHash).outcome.isOk

/-- Verification with pay-to-script-hash is the stricter one. -/
theorem verifyScript_lenient {crypto : Crypto} {check : SignatureCheck}
    {scriptSig scriptPubKey : CScript}
    (strict : (verifyScript crypto check scriptSig scriptPubKey true).outcome = .ok ()) :
    (verifyScript crypto check scriptSig scriptPubKey false).outcome = .ok () := by
  simp only [verifyScript, outcome_bind, outcome_free, except_bind_eq_ok] at strict ⊢
  obtain ⟨stackCopy, first, stack, second, _, nonempty, top, read, _, true_top, _⟩ := strict
  exact ⟨stackCopy, first, stack, second, _, nonempty, top, read, _, true_top, by simp⟩

/-- An input that verifies with pay-to-script-hash verifies without. -/
theorem verifySignature_lenient {crypto : Crypto} {txFrom txTo : CTransaction} {nIn : Nat}
    {nHashType : Int32} (strict : verifySignature crypto txFrom txTo nIn true nHashType = .ok ()) :
    verifySignature crypto txFrom txTo nIn false nHashType = .ok () := by
  unfold verifySignature at strict ⊢
  cases input : txTo.vin[nIn]? with
  | none => simp [input] at strict
  | some txin =>
      simp only [input] at strict ⊢
      cases output : txFrom.vout[txin.prevout.n.toNat]? with
      | none => simp [output] at strict
      | some txout =>
          simp only [output, except_bind_eq_ok, require_eq_ok] at strict ⊢
          obtain ⟨_, same_hash, verified⟩ := strict
          obtain ⟨_, outcome⟩ := exists_of_isOk verified
          rw [verifyScript_lenient outcome]
          exact ⟨(), same_hash, rfl⟩

end FooCoin

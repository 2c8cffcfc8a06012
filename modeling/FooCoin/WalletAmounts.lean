import FooCoin.MerkleBranch
import FooCoin.Node
import Mathlib.Data.BitVec
import Mathlib.Data.List.AList

/-!
# What a transaction means to the accounts of a wallet

`GetAmounts` splits a transaction of a wallet into what was generated, received and sent, and the
fee.  It depends on the depth of the transaction in the main chain, on the keys of the wallet and on
the address book.
-/

namespace FooCoin

/-! ## Destinations -/

/-- `CTxDestination`. -/
inductive CTxDestination
  | CNoDestination
  | CKeyID (id : UInt160)
  | CScriptID (id : UInt160)
deriving DecidableEq

/-- `ExtractDestination`, `none` where it returns `false`. -/
def extractDestination (crypto : Crypto) (scriptPubKey : CScript) : Option CTxDestination :=
  match solver scriptPubKey with
  | some (.TX_PUBKEY, vSolutions) => some (.CKeyID (crypto.Hash160 (vSolutions.head?.getD [])))
  | some (.TX_PUBKEYHASH, vSolutions) =>
      some (.CKeyID (uint160OfBytes (vSolutions.head?.getD [])))
  | some (.TX_SCRIPTHASH, vSolutions) =>
      some (.CScriptID (uint160OfBytes (vSolutions.head?.getD [])))
  | _ => none

/-- `IsMine` of a destination. -/
def isMineDestination (keystore : CKeyStore) : CTxDestination → Bool
  | .CNoDestination => false
  | .CKeyID keyID => keystore.haveKey keyID
  | .CScriptID scriptID => (keystore.getCScript scriptID).isSome

/-! ## Wallets with accounts -/

/-- The name of an account. -/
abbrev Account := List UInt8

/-- The fields of a `CWalletTx` that the accounts use, with the cached amounts. -/
structure AccountTx extends CWalletTx where
  strFromAccount : Account
  fMerkleVerified : Bool
  nDebitCached : Option Int
  nCreditCached : Option Int

/-- A wallet with its address book. -/
structure AccountWallet where
  keystore : CKeyStore
  nMinimumInputValue : Int
  mapWallet : AList fun _ : UInt256 => AccountTx
  mapAddressBook : AList fun _ : CTxDestination => Account

/-- The wallet as its keys see it. -/
def AccountWallet.toCWallet (wallet : AccountWallet) : CWallet where
  keystore := wallet.keystore
  nMinimumInputValue := wallet.nMinimumInputValue
  mapWallet hash := (wallet.mapWallet.lookup hash).map AccountTx.toCWalletTx

/-- The block chain as a wallet sees it. -/
structure ChainView where
  mapBlockIndex : UInt256 → Option BlockChain
  pnext : UInt256 → BlockChain
  pindexBest : BlockChain
  nBestHeight : Int
  nAdjustedTime : Int

section Amounts

variable (crypto : Crypto) (view : ChainView) (wallet : AccountWallet)

/-- `CBlockIndex::IsInMainChain`. -/
def ChainView.isInMainChain (pindex : BlockChain) : Bool :=
  view.pnext (getBlockHash pindex) ≠ [] ∨ pindex = view.pindexBest

/-- `CMerkleTx::GetDepthInMainChain`. -/
def AccountTx.getDepthInMainChain (wtx : AccountTx) : Outcome Int :=
  if wtx.hashBlock = 0 ∨ wtx.nIndex = -1 then pure 0
  else
    match view.mapBlockIndex wtx.hashBlock with
    | none => pure 0
    | some [] => pure 0
    | some (entry :: pprev) =>
        if view.isInMainChain (entry :: pprev) = false then pure 0
        else if wtx.fMerkleVerified = false ∧ checkMerkleBranch crypto (wtx.tx.getHash crypto)
            wtx.vMerkleBranch wtx.nIndex ≠ entry.hashMerkleRoot then pure 0
        else
          match view.pindexBest with
          | [] => throw .nullPointer
          | best :: _ => pure (best.nHeight - entry.nHeight + 1)

/-- `CMerkleTx::GetBlocksToMaturity`. -/
def AccountTx.getBlocksToMaturity (wtx : AccountTx) : Outcome Int :=
  if wtx.tx.isCoinBase = false then pure 0
  else do pure (max 0 ((coinbaseMaturity + 15) - (← wtx.getDepthInMainChain crypto view)))

/-- `CTransaction::IsFinal` now. -/
def AccountTx.isFinal (wtx : AccountTx) : Bool :=
  wtx.tx.isFinal view.nBestHeight view.nAdjustedTime

/-- The loop of `CWallet::GetCredit`. -/
def AccountWallet.getCreditLoop : Int → List CTxOut → Outcome Int
  | nCredit, [] => pure nCredit
  | nCredit, txout :: vout =>
      if ¬MoneyRange txout.nValue.toInt then throw .thrown
      else
        let nCredit := nCredit +
          if wallet.toCWallet.isMineOutput crypto txout then txout.nValue.toInt else 0
        if MoneyRange nCredit then AccountWallet.getCreditLoop nCredit vout else throw .thrown

/-- `CWallet::GetCredit` of a transaction. -/
def AccountWallet.getCredit (tx : CTransaction) : Outcome Int :=
  wallet.getCreditLoop crypto 0 tx.vout

/-- `CWalletTx::GetDebit`. -/
def AccountTx.getDebit (wtx : AccountTx) : Outcome Int :=
  if wtx.tx.vin = [] then pure 0
  else
    match wtx.nDebitCached with
    | some nDebitCached => pure nDebitCached
    | none => wallet.toCWallet.getDebitLoop crypto 0 wtx.tx.vin

/-- `CWalletTx::GetCredit`. -/
def AccountTx.getCredit (wtx : AccountTx) : Outcome Int := do
  if wtx.tx.isCoinBase = true ∧ 0 < (← wtx.getBlocksToMaturity crypto view) then pure 0
  else
    match wtx.nCreditCached with
    | some nCreditCached => pure nCreditCached
    | none => wallet.getCredit crypto wtx.tx

/-- The destination of an output, or that of a variable that was not set. -/
def CTxOut.address (txout : CTxOut) : CTxDestination :=
  (extractDestination crypto txout.scriptPubKey).getD .CNoDestination

/-- `CWallet::IsChange`. -/
def AccountWallet.isChange (txout : CTxOut) : Bool :=
  match extractDestination crypto txout.scriptPubKey with
  | none => false
  | some address => isMineDestination wallet.keystore address ∧ address ∉ wallet.mapAddressBook

/-- The results of `CWalletTx::GetAmounts`. -/
structure Amounts where
  nGeneratedImmature : Int
  nGeneratedMature : Int
  listReceived : List (CTxDestination × Int64)
  listSent : List (CTxDestination × Int64)
  nFee : Int
  strSentAccount : Account

/-- The loop of `GetAmounts` over the outputs: what was received and what was sent. -/
def AccountWallet.splitOutputs (nDebit : Int) :
    List CTxOut → List (CTxDestination × Int64) × List (CTxDestination × Int64)
  | [] => ([], [])
  | txout :: vout =>
      let (listReceived, listSent) := AccountWallet.splitOutputs nDebit vout
      if 0 < nDebit ∧ wallet.isChange crypto txout then (listReceived, listSent)
      else
        let entry := (txout.address crypto, txout.nValue)
        (if wallet.toCWallet.isMineOutput crypto txout then entry :: listReceived else listReceived,
          if 0 < nDebit then entry :: listSent else listSent)

/-- `CWalletTx::GetAmounts`. -/
def AccountTx.getAmounts (wtx : AccountTx) : Outcome Amounts :=
  if wtx.tx.isCoinBase = true then do
    let generated : Amounts := ⟨0, 0, [], [], 0, wtx.strFromAccount⟩
    if 0 < (← wtx.getBlocksToMaturity crypto view) then
      pure { generated with nGeneratedImmature := ← wallet.getCredit crypto wtx.tx }
    else pure { generated with nGeneratedMature := ← wtx.getCredit crypto view wallet }
  else do
    let nDebit ← wtx.getDebit crypto wallet
    let nFee ← if 0 < nDebit then do pure (nDebit - (← wtx.tx.getValueOut)) else pure 0
    let (listReceived, listSent) := wallet.splitOutputs crypto nDebit wtx.tx.vout
    pure ⟨0, 0, listReceived, listSent, nFee, wtx.strFromAccount⟩

/-- The results of `CWalletTx::GetAccountAmounts`, sums of an `int64`. -/
structure AccountAmounts where
  nGenerated : BitVec 64
  nReceived : BitVec 64
  nSent : BitVec 64
  nFee : BitVec 64

/-- What some payments received for an account. -/
def AccountWallet.received (strAccount : Account) : List (CTxDestination × Int64) → BitVec 64
  | [] => 0
  | (address, nValue) :: listReceived =>
      let rest := AccountWallet.received strAccount listReceived
      match wallet.mapAddressBook.lookup address with
      | some strName => if strName = strAccount then nValue.toBitVec + rest else rest
      | none => if strAccount = [] then nValue.toBitVec + rest else rest

/-- The sum of some payments. -/
def sent (listSent : List (CTxDestination × Int64)) : BitVec 64 :=
  (listSent.map fun entry => entry.2.toBitVec).sum

/-- `CWalletTx::GetAccountAmounts`. -/
def AccountTx.getAccountAmounts (strAccount : Account) (wtx : AccountTx) :
    Outcome AccountAmounts := do
  let amounts ← wtx.getAmounts crypto view wallet
  let sends := strAccount = amounts.strSentAccount
  pure
    { nGenerated := if strAccount = [] then .ofInt 64 amounts.nGeneratedMature else 0
      nReceived := wallet.received strAccount amounts.listReceived
      nSent := if sends then sent amounts.listSent else 0
      nFee := if sends then .ofInt 64 amounts.nFee else 0 }

end Amounts

end FooCoin

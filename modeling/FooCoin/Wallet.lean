import FooCoin.Block
import FooCoin.Library.Stateful
import FooCoin.Script.Standard

/-!
# Wallets

What the registered wallets record when a block is connected.  `SyncWithWallets` runs before the
database commits, and an exception that it throws leaves the wallets as far as it had come.
-/

namespace FooCoin

open Function Stateful

/-- The loop of `GetMerkleBranch`. -/
def merkleBranchLoop (crypto : Crypto) : Nat → Nat → List UInt256 → List UInt256
  | 0, _, _ => []
  | fuel + 1, nIndex, level =>
      if level.length ≤ 1 then []
      else
        (level[min (nIndex ^^^ 1) (level.length - 1)]?).getD 0 ::
          merkleBranchLoop crypto fuel (nIndex / 2) (merkleLevel crypto level)

/-- `CBlock::GetMerkleBranch`. -/
def CBlock.getMerkleBranch (crypto : Crypto) (block : CBlock) (nIndex : Nat) : List UInt256 :=
  merkleBranchLoop crypto block.vtx.length nIndex (block.vtx.map (CTransaction.getHash crypto))

/-- `CWalletTx`: a transaction with its place in a block and the flags of its spent outputs. -/
structure CWalletTx where
  tx : CTransaction
  hashBlock : UInt256
  nIndex : Int
  vMerkleBranch : List UInt256
  fFromMe : Bool
  vfSpent : List Bool
  deriving DecidableEq

/-- `CWalletTx(pwallet, tx)`. -/
def CWalletTx.ofTransaction (tx : CTransaction) : CWalletTx where
  tx := tx
  hashBlock := 0
  nIndex := -1
  vMerkleBranch := []
  fFromMe := false
  vfSpent := []

/-- `CMerkleTx::SetMerkleBranch` with a block. -/
def CWalletTx.setMerkleBranch (crypto : Crypto) (block : CBlock) (wtx : CWalletTx) : CWalletTx :=
  match block.vtx.findIdx? fun tx => tx = wtx.tx with
  | none => { wtx with hashBlock := block.getHash crypto, nIndex := -1, vMerkleBranch := [] }
  | some nIndex =>
      { wtx with
        hashBlock := block.getHash crypto
        nIndex
        vMerkleBranch := block.getMerkleBranch crypto nIndex }

/-- `CWalletTx::IsSpent`. -/
def CWalletTx.isSpent (wtx : CWalletTx) (nOut : Nat) : Outcome Bool :=
  if wtx.tx.vout.length ≤ nOut then .error .thrown else .ok ((wtx.vfSpent[nOut]?).getD false)

/-- `CWalletTx::MarkSpent` of an output that exists. -/
def CWalletTx.markSpent (wtx : CWalletTx) (nOut : Nat) : CWalletTx :=
  let resized := (List.range wtx.tx.vout.length).map fun n => (wtx.vfSpent[n]?).getD false
  { wtx with vfSpent := resized.set nOut true }

/-- The merge of `AddToWallet` into an entry that is there already. -/
def CWalletTx.merge (wtxIn wtx : CWalletTx) : CWalletTx where
  tx := wtx.tx
  hashBlock := if wtxIn.hashBlock ≠ 0 then wtxIn.hashBlock else wtx.hashBlock
  nIndex := if wtxIn.nIndex ≠ -1 then wtxIn.nIndex else wtx.nIndex
  vMerkleBranch := if wtxIn.nIndex ≠ -1 then wtxIn.vMerkleBranch else wtx.vMerkleBranch
  fFromMe := wtxIn.fFromMe || wtx.fFromMe
  vfSpent := wtx.vfSpent.mapIdx fun n fSpent => fSpent || (wtxIn.vfSpent[n]?).getD false

/-- `CWallet`. -/
structure CWallet where
  keystore : CKeyStore
  /-- `nMinimumInputValue`, which all wallets share. -/
  nMinimumInputValue : Int
  mapWallet : UInt256 → Option CWalletTx

section Wallet

variable (crypto : Crypto)

/-- `CWallet::IsMine` of an output. -/
def CWallet.isMineOutput (wallet : CWallet) (txout : CTxOut) : Bool :=
  FooCoin.isMine crypto wallet.keystore txout.scriptPubKey

/-- `CWallet::IsMine` of a transaction. -/
def CWallet.isMine (wallet : CWallet) (tx : CTransaction) : Bool :=
  tx.vout.any fun txout =>
    wallet.isMineOutput crypto txout ∧ wallet.nMinimumInputValue ≤ txout.nValue.toInt

/-- `CWallet::GetDebit` of an input. -/
def CWallet.getDebitInput (wallet : CWallet) (txin : CTxIn) : Int :=
  match wallet.mapWallet txin.prevout.hash with
  | none => 0
  | some prev =>
      match prev.tx.vout[txin.prevout.n.toNat]? with
      | none => 0
      | some txout => if wallet.isMineOutput crypto txout then txout.nValue.toInt else 0

/-- The loop of `CWallet::GetDebit` of a transaction. -/
def CWallet.getDebitLoop (wallet : CWallet) : Int → List CTxIn → Outcome Int
  | nDebit, [] => pure nDebit
  | nDebit, txin :: vin => do
      let nDebit ← int64 (nDebit + wallet.getDebitInput crypto txin)
      if MoneyRange nDebit then wallet.getDebitLoop nDebit vin else throw .thrown

/-- `CWallet::IsFromMe`. -/
def CWallet.isFromMe (wallet : CWallet) (tx : CTransaction) : Outcome Bool := do
  pure (0 < (← wallet.getDebitLoop crypto 0 tx.vin))

/-- The loop body of `WalletUpdateSpent`. -/
def CWallet.updateSpentInput (txin : CTxIn) : Action Failure CWallet := fun wallet =>
  match wallet.mapWallet txin.prevout.hash with
  | none => (.ok (), wallet)
  | some wtx =>
      match wtx.isSpent txin.prevout.n.toNat with
      | .error failure => (.error failure, wallet)
      | .ok fSpent =>
          if ¬fSpent ∧
              (wtx.tx.vout[txin.prevout.n.toNat]?).any fun txout =>
                wallet.isMineOutput crypto txout then
            (.ok (), { wallet with
              mapWallet := update wallet.mapWallet txin.prevout.hash
                (some (wtx.markSpent txin.prevout.n.toNat)) })
          else (.ok (), wallet)

/-- `CWallet::WalletUpdateSpent`. -/
def CWallet.walletUpdateSpent (tx : CTransaction) : Action Failure CWallet :=
  sequence (CWallet.updateSpentInput crypto) tx.vin

/-- `CWallet::AddToWallet`. -/
def CWallet.addToWallet (wtxIn : CWalletTx) : Action Failure CWallet := fun wallet =>
  let hash := wtxIn.tx.getHash crypto
  let wtx :=
    match wallet.mapWallet hash with
    | none => wtxIn
    | some wtx => wtxIn.merge wtx
  CWallet.walletUpdateSpent crypto wtx.tx
    { wallet with mapWallet := update wallet.mapWallet hash (some wtx) }

/-- `CWallet::AddToWalletIfInvolvingMe` for a transaction of a block. -/
def CWallet.addToWalletIfInvolvingMe (block : CBlock) (fUpdate : Bool) (tx : CTransaction) :
    Action Failure CWallet := fun wallet =>
  let fExisted := (wallet.mapWallet (tx.getHash crypto)).isSome
  if fExisted ∧ ¬fUpdate then (.ok (), wallet)
  else
    match (if fExisted || wallet.isMine crypto tx then .ok true else wallet.isFromMe crypto tx) with
    | .error failure => (.error failure, wallet)
    | .ok true =>
        CWallet.addToWallet crypto
          ((CWalletTx.ofTransaction tx).setMerkleBranch crypto block) wallet
    | .ok false => CWallet.walletUpdateSpent crypto tx wallet

/-- `SyncWithWallets` for a transaction of a block. -/
def syncWithWallets (block : CBlock) (fUpdate : Bool) (tx : CTransaction) :
    Action Failure (List CWallet) :=
  onEach (CWallet.addToWalletIfInvolvingMe crypto block fUpdate tx)

/-- The wallets at the end of `ConnectBlock`. -/
def syncBlock (block : CBlock) : Action Failure (List CWallet) :=
  sequence (syncWithWallets crypto block true) block.vtx

end Wallet

end FooCoin

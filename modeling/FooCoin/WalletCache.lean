import FooCoin.SampleChain
import FooCoin.Script.Destination

/-!
# The cached amounts of a wallet

Every wallet transaction caches its debit, credit, available credit and change.  They depend on the
key store, the address book, the spent flags and the other transactions.  The operations on a wallet
and the getters, with the caches that each of them fills and clears, and the condition under which
no cached amount goes stale.
-/

namespace FooCoin

open Function Stateful

/-- A wallet transaction with its cached amounts, those whose flag is set. -/
structure CachedTx extends CWalletTx where
  nDebitCached : Option Int
  nCreditCached : Option Int
  nAvailableCreditCached : Option Int
  nChangeCached : Option Int
  deriving DecidableEq

/-- A wallet with cached amounts. -/
structure CachedWallet where
  keystore : CKeyStore
  nMinimumInputValue : Int
  mapAddressBook : CTxDestination → Option Account
  mapWallet : UInt256 → Option CachedTx

/-- The wallet without the caches. -/
def CachedWallet.toCWallet (wallet : CachedWallet) : CWallet where
  keystore := wallet.keystore
  nMinimumInputValue := wallet.nMinimumInputValue
  mapWallet hash := (wallet.mapWallet hash).map CachedTx.toCWalletTx

/-- Replace a wallet transaction. -/
def CachedWallet.put (wallet : CachedWallet) (hash : UInt256) (wtx : CachedTx) : CachedWallet :=
  { wallet with mapWallet := update wallet.mapWallet hash (some wtx) }

@[simp]
theorem CachedWallet.mapWallet_put_self (wallet : CachedWallet) (hash : UInt256)
    (wtx : CachedTx) : (wallet.put hash wtx).mapWallet hash = some wtx := by
  simp [put]

@[simp]
theorem CachedWallet.mapWallet_put_of_ne {wallet : CachedWallet} {hash other : UInt256}
    {wtx : CachedTx} (differs : other ≠ hash) :
    (wallet.put hash wtx).mapWallet other = wallet.mapWallet other := by
  simp [put, differs]

/-- The loop of `GetCredit` and `GetChange` over outputs. -/
def sumOutputs (value : CTxOut → Int) : Int → List CTxOut → Outcome Int
  | nCredit, [] => pure nCredit
  | nCredit, txout :: vout =>
      if ¬MoneyRange txout.nValue.toInt then throw .thrown
      else
        let nCredit := nCredit + value txout
        if MoneyRange nCredit then sumOutputs value nCredit vout else throw .thrown

/-- The amount that a getter returns, and its cache afterwards. -/
def cachedAmount (fUseCache : Bool) (cached : Option Int) (amount : Outcome Int) :
    Outcome Int × Option Int :=
  match (if fUseCache then cached else none) with
  | some nCached => (.ok nCached, cached)
  | none =>
      match amount with
      | .ok nAmount => (.ok nAmount, some nAmount)
      | .error failure => (.error failure, cached)

section Wallet

variable (crypto : Crypto)

/-- `CWallet::IsMine` of an output. -/
def CachedWallet.isMineOutput (wallet : CachedWallet) (txout : CTxOut) : Bool :=
  wallet.toCWallet.isMineOutput crypto txout

/-- `CWallet::IsChange`. -/
def CachedWallet.isChange (wallet : CachedWallet) (txout : CTxOut) : Bool :=
  match extractDestination crypto txout.scriptPubKey with
  | none => false
  | some address =>
      isMineDestination wallet.keystore address && (wallet.mapAddressBook address).isNone

/-- `CWallet::GetDebit` of a transaction. -/
def CachedWallet.getDebit (wallet : CachedWallet) (tx : CTransaction) : Outcome Int :=
  wallet.toCWallet.getDebitLoop crypto 0 tx.vin

/-- `CWallet::GetCredit` of an output in range. -/
def CachedWallet.creditOf (wallet : CachedWallet) (txout : CTxOut) : Int :=
  if wallet.isMineOutput crypto txout then txout.nValue.toInt else 0

/-- `CWallet::GetChange` of an output in range. -/
def CachedWallet.changeOf (wallet : CachedWallet) (txout : CTxOut) : Int :=
  if wallet.isChange crypto txout then txout.nValue.toInt else 0

/-- `CWallet::GetCredit` of a transaction. -/
def CachedWallet.getCredit (wallet : CachedWallet) (tx : CTransaction) : Outcome Int :=
  sumOutputs (wallet.creditOf crypto) 0 tx.vout

/-- `CWallet::GetChange` of a transaction. -/
def CachedWallet.getChange (wallet : CachedWallet) (tx : CTransaction) : Outcome Int :=
  sumOutputs (wallet.changeOf crypto) 0 tx.vout

/-- The outputs that are not spent. -/
def CWalletTx.unspent (wtx : CWalletTx) : List CTxOut :=
  (wtx.tx.vout.zipIdx.filter fun output => !(wtx.vfSpent[output.2]?).getD false).map Prod.fst

/-- The loop of `CWalletTx::GetAvailableCredit`. -/
def CachedWallet.getAvailableCredit (wallet : CachedWallet) (wtx : CWalletTx) : Outcome Int :=
  sumOutputs (wallet.creditOf crypto) 0 wtx.unspent

/-! ## The getters -/

/-- `CWalletTx::GetDebit`. -/
def CachedTx.getDebit (wallet : CachedWallet) (wtx : CachedTx) : Outcome Int × CachedTx :=
  if wtx.tx.vin = [] then (.ok 0, wtx)
  else
    let (nDebit, nDebitCached) :=
      cachedAmount true wtx.nDebitCached (wallet.getDebit crypto wtx.tx)
    (nDebit, { wtx with nDebitCached })

/-- `CWalletTx::GetCredit`. -/
def CachedTx.getCredit (wallet : CachedWallet) (fUseCache : Bool) (nBlocksToMaturity : Int)
    (wtx : CachedTx) : Outcome Int × CachedTx :=
  if wtx.tx.isCoinBase = true ∧ 0 < nBlocksToMaturity then (.ok 0, wtx)
  else
    let (nCredit, nCreditCached) :=
      cachedAmount fUseCache wtx.nCreditCached (wallet.getCredit crypto wtx.tx)
    (nCredit, { wtx with nCreditCached })

/-- `CWalletTx::GetAvailableCredit`. -/
def CachedTx.getAvailableCredit (wallet : CachedWallet) (fUseCache : Bool)
    (nBlocksToMaturity : Int) (wtx : CachedTx) : Outcome Int × CachedTx :=
  if wtx.tx.isCoinBase = true ∧ 0 < nBlocksToMaturity then (.ok 0, wtx)
  else
    let (nCredit, nAvailableCreditCached) :=
      cachedAmount fUseCache wtx.nAvailableCreditCached
        (wallet.getAvailableCredit crypto wtx.toCWalletTx)
    (nCredit, { wtx with nAvailableCreditCached })

/-- `CWalletTx::GetChange`. -/
def CachedTx.getChange (wallet : CachedWallet) (wtx : CachedTx) : Outcome Int × CachedTx :=
  let (nChange, nChangeCached) :=
    cachedAmount true wtx.nChangeCached (wallet.getChange crypto wtx.tx)
  (nChange, { wtx with nChangeCached })

/-! ## The mutators -/

/-- `CWalletTx::MarkDirty`. -/
def CachedTx.markDirty (wtx : CachedTx) : CachedTx :=
  { wtx with
    nDebitCached := none
    nCreditCached := none
    nAvailableCreditCached := none
    nChangeCached := none }

/-- `CWalletTx::UpdateSpent`. -/
def CachedTx.updateSpent (vfNewSpent : List Bool) (wtx : CachedTx) : CachedTx :=
  let fReturn := wtx.vfSpent.zipIdx.any fun flag => !flag.1 && (vfNewSpent[flag.2]?).getD false
  { wtx with
    vfSpent := wtx.vfSpent.mapIdx fun n fSpent => fSpent || (vfNewSpent[n]?).getD false
    nAvailableCreditCached := if fReturn then none else wtx.nAvailableCreditCached }

/-- `CWalletTx::MarkSpent`, which throws if there is no such output. -/
def CachedTx.markSpent (nOut : Nat) (wtx : CachedTx) : CachedTx :=
  if wtx.tx.vout.length ≤ nOut then wtx
  else
    { wtx with
      toCWalletTx := wtx.toCWalletTx.markSpent nOut
      nAvailableCreditCached :=
        if (wtx.vfSpent[nOut]?).getD false then wtx.nAvailableCreditCached else none }

/-- The loop body of `WalletUpdateSpent`, which logs the credit of a transaction before it marks its
output. -/
def CachedWallet.updateSpentInput (toMaturity : UInt256 → Int) (txin : CTxIn) :
    Action Failure CachedWallet := fun wallet =>
  match wallet.mapWallet txin.prevout.hash with
  | none => (.ok (), wallet)
  | some wtx =>
      match wtx.isSpent txin.prevout.n.toNat with
      | .error failure => (.error failure, wallet)
      | .ok fSpent =>
          if fSpent = false ∧
              (wtx.tx.vout[txin.prevout.n.toNat]?).any (wallet.isMineOutput crypto) = true then
            match wtx.getCredit crypto wallet true (toMaturity txin.prevout.hash) with
            | (.error failure, wtx) => (.error failure, wallet.put txin.prevout.hash wtx)
            | (.ok _, wtx) =>
                (.ok (), wallet.put txin.prevout.hash (wtx.markSpent txin.prevout.n.toNat))
          else (.ok (), wallet)

/-- `CWallet::WalletUpdateSpent`. -/
def CachedWallet.walletUpdateSpent (toMaturity : UInt256 → Int) (tx : CTransaction) :
    Action Failure CachedWallet :=
  sequence (CachedWallet.updateSpentInput crypto toMaturity) tx.vin

/-- `CWallet::AddToWallet`, which binds the transaction to the wallet. -/
def CachedWallet.addToWallet (toMaturity : UInt256 → Int) (wtxIn : CachedTx) :
    Action Failure CachedWallet := fun wallet =>
  let hash := wtxIn.tx.getHash crypto
  let wtx : CachedTx :=
    match wallet.mapWallet hash with
    | none => wtxIn.markDirty
    | some wtx =>
        { wtx.markDirty with toCWalletTx := wtxIn.toCWalletTx.merge wtx.toCWalletTx }
  CachedWallet.walletUpdateSpent crypto toMaturity wtx.tx (wallet.put hash wtx)

/-- `CWallet::MarkDirty`. -/
def CachedWallet.markDirty (wallet : CachedWallet) : CachedWallet :=
  { wallet with mapWallet := fun hash => (wallet.mapWallet hash).map CachedTx.markDirty }

/-- `CWallet::EraseFromWallet`. -/
def CachedWallet.eraseFromWallet (hash : UInt256) (wallet : CachedWallet) : CachedWallet :=
  { wallet with mapWallet := update wallet.mapWallet hash none }

/-- `AddKey` of the key store. -/
def CKeyStore.addKey (keyID : UInt160) (keystore : CKeyStore) : CKeyStore :=
  { keystore with haveKey := update keystore.haveKey keyID true }

/-- `AddCScript` of the key store. -/
def CKeyStore.addCScript (redeemScript : CScript) (keystore : CKeyStore) : CKeyStore :=
  let hash := crypto.Hash160 redeemScript
  { keystore with
    mapScripts := (hash, redeemScript) :: keystore.mapScripts.filter fun script => script.1 ≠ hash }

/-- `CWallet::SetAddressBookName`. -/
def CachedWallet.setAddressBookName (address : CTxDestination) (strName : Account)
    (wallet : CachedWallet) : CachedWallet :=
  { wallet with mapAddressBook := update wallet.mapAddressBook address (some strName) }

/-- The operations on a wallet; the getters and the mutators of a wallet transaction name it by its
hash. -/
inductive Operation
  | addToWallet (toMaturity : UInt256 → Int) (wtxIn : CachedTx)
  | walletUpdateSpent (toMaturity : UInt256 → Int) (tx : CTransaction)
  | updateSpent (hash : UInt256) (vfNewSpent : List Bool)
  | markSpent (hash : UInt256) (nOut : Nat)
  | eraseFromWallet (hash : UInt256)
  | addKey (keyID : UInt160)
  | addCScript (redeemScript : CScript)
  | setAddressBookName (address : CTxDestination) (strName : Account)
  | markDirty
  | getDebit (hash : UInt256)
  | getCredit (hash : UInt256) (fUseCache : Bool) (nBlocksToMaturity : Int)
  | getAvailableCredit (hash : UInt256) (fUseCache : Bool) (nBlocksToMaturity : Int)
  | getChange (hash : UInt256)

/-- Change a wallet transaction that is there. -/
def CachedWallet.modify (hash : UInt256) (change : CachedTx → CachedTx) (wallet : CachedWallet) :
    CachedWallet :=
  match wallet.mapWallet hash with
  | none => wallet
  | some wtx => wallet.put hash (change wtx)

/-- The wallet after an operation. -/
def CachedWallet.step (wallet : CachedWallet) : Operation → CachedWallet
  | .addToWallet toMaturity wtxIn => (CachedWallet.addToWallet crypto toMaturity wtxIn wallet).2
  | .walletUpdateSpent toMaturity tx =>
      (CachedWallet.walletUpdateSpent crypto toMaturity tx wallet).2
  | .updateSpent hash vfNewSpent => wallet.modify hash (CachedTx.updateSpent vfNewSpent)
  | .markSpent hash nOut => wallet.modify hash (CachedTx.markSpent nOut)
  | .eraseFromWallet hash => wallet.eraseFromWallet hash
  | .addKey keyID => { wallet with keystore := wallet.keystore.addKey keyID }
  | .addCScript redeemScript =>
      { wallet with keystore := wallet.keystore.addCScript crypto redeemScript }
  | .setAddressBookName address strName => wallet.setAddressBookName address strName
  | .markDirty => wallet.markDirty
  | .getDebit hash => wallet.modify hash fun wtx => (wtx.getDebit crypto wallet).2
  | .getCredit hash fUseCache nBlocksToMaturity =>
      wallet.modify hash fun wtx => (wtx.getCredit crypto wallet fUseCache nBlocksToMaturity).2
  | .getAvailableCredit hash fUseCache nBlocksToMaturity =>
      wallet.modify hash fun wtx =>
        (wtx.getAvailableCredit crypto wallet fUseCache nBlocksToMaturity).2
  | .getChange hash => wallet.modify hash fun wtx => (wtx.getChange crypto wallet).2

/-! ## Coherence -/

/-- Every cached amount is what the wallet would compute now. -/
structure CachedTx.Coherent (wallet : CachedWallet) (wtx : CachedTx) : Prop where
  debit : ∀ nDebit, wtx.nDebitCached = some nDebit → wallet.getDebit crypto wtx.tx = .ok nDebit
  credit : ∀ nCredit, wtx.nCreditCached = some nCredit →
    wallet.getCredit crypto wtx.tx = .ok nCredit
  availableCredit : ∀ nCredit, wtx.nAvailableCreditCached = some nCredit →
    wallet.getAvailableCredit crypto wtx.toCWalletTx = .ok nCredit
  change : ∀ nChange, wtx.nChangeCached = some nChange →
    wallet.getChange crypto wtx.tx = .ok nChange

/-- The cached amounts of every wallet transaction are what the wallet would compute now. -/
def CachedWallet.Coherent (wallet : CachedWallet) : Prop :=
  ∀ hash wtx, wallet.mapWallet hash = some wtx → wtx.Coherent crypto wallet

/-- No cached amount counts an output that another key store owns and this one does not, or the
other way around. -/
structure CachedWallet.KeepsOwned (wallet : CachedWallet) (keystore : CKeyStore) : Prop where
  credit : ∀ hash wtx, wallet.mapWallet hash = some wtx →
    wtx.nCreditCached ≠ none ∨ wtx.nAvailableCreditCached ≠ none → ∀ txout ∈ wtx.tx.vout,
      isMine crypto keystore txout.scriptPubKey = isMine crypto wallet.keystore txout.scriptPubKey
  change : ∀ hash wtx, wallet.mapWallet hash = some wtx → wtx.nChangeCached ≠ none →
    ∀ txout ∈ wtx.tx.vout, ∀ address,
      extractDestination crypto txout.scriptPubKey = some address →
      wallet.mapAddressBook address = none →
        isMineDestination keystore address = isMineDestination wallet.keystore address
  debit : ∀ hash wtx, wallet.mapWallet hash = some wtx → wtx.nDebitCached ≠ none →
    ∀ txin ∈ wtx.tx.vin, ∀ prev, wallet.mapWallet txin.prevout.hash = some prev →
    ∀ txout, prev.tx.vout[txin.prevout.n.toNat]? = some txout →
      isMine crypto keystore txout.scriptPubKey = isMine crypto wallet.keystore txout.scriptPubKey

/-- No other wallet transaction with a cached debit spends an output of the transaction that is
mine. -/
def CachedWallet.Unspending (wallet : CachedWallet) (hash : UInt256) (tx : CTransaction) : Prop :=
  ∀ other wtx, other ≠ hash → wallet.mapWallet other = some wtx → wtx.nDebitCached ≠ none →
    ∀ txin ∈ wtx.tx.vin, txin.prevout.hash = hash →
    ∀ txout, tx.vout[txin.prevout.n.toNat]? = some txout → wallet.isMineOutput crypto txout = false

/-- The operation changes no amount that is cached without clearing the cache: new keys and scripts,
new names, new transactions and erased ones touch no cached amount. -/
def CachedWallet.Quiet (wallet : CachedWallet) : Operation → Prop
  | .addKey keyID => wallet.KeepsOwned crypto (wallet.keystore.addKey keyID)
  | .addCScript redeemScript =>
      wallet.KeepsOwned crypto (wallet.keystore.addCScript crypto redeemScript)
  | .setAddressBookName address _ =>
      ∀ hash wtx, wallet.mapWallet hash = some wtx → wtx.nChangeCached ≠ none →
        ∀ txout ∈ wtx.tx.vout, wallet.isChange crypto txout = true →
          extractDestination crypto txout.scriptPubKey ≠ some address
  | .addToWallet _ wtxIn =>
      wallet.mapWallet (wtxIn.tx.getHash crypto) = none →
        wallet.Unspending crypto (wtxIn.tx.getHash crypto) wtxIn.tx
  | .eraseFromWallet hash =>
      ∀ wtx, wallet.mapWallet hash = some wtx → wallet.Unspending crypto hash wtx.tx
  | _ => True

/-- Runs of quiet operations from a wallet. -/
inductive QuietRun (start : CachedWallet) : CachedWallet → Prop
  | start : QuietRun start start
  | step {wallet : CachedWallet} {operation : Operation} (earlier : QuietRun start wallet)
      (quiet : wallet.Quiet crypto operation) : QuietRun start (wallet.step crypto operation)

/-- No amount is cached. -/
def CachedWallet.Fresh (wallet : CachedWallet) : Prop :=
  ∀ hash wtx, wallet.mapWallet hash = some wtx → wtx.markDirty = wtx

end Wallet

variable {crypto : Crypto} {wallet : CachedWallet}

/-! ## What the amounts depend on -/

private theorem sumOutputs_congr {value value' : CTxOut → Int} {vout : List CTxOut} {nCredit : Int}
    (same : ∀ txout ∈ vout, value' txout = value txout) :
    sumOutputs value' nCredit vout = sumOutputs value nCredit vout := by
  induction vout generalizing nCredit with
  | nil => rfl
  | cons txout vout induction =>
      obtain ⟨here, others⟩ := List.forall_mem_cons.mp same
      simp only [sumOutputs, here, induction others]

private theorem getDebitLoop_congr {before after : CWallet} {vin : List CTxIn} {nDebit : Int}
    (same : ∀ txin ∈ vin, after.getDebitInput crypto txin = before.getDebitInput crypto txin) :
    after.getDebitLoop crypto nDebit vin = before.getDebitLoop crypto nDebit vin := by
  induction vin generalizing nDebit with
  | nil => rfl
  | cons txin vin induction =>
      obtain ⟨here, others⟩ := List.forall_mem_cons.mp same
      simp only [CWallet.getDebitLoop, here, induction others]

private theorem unspent_subset (wtx : CWalletTx) : wtx.unspent ⊆ wtx.tx.vout := by
  intro txout member
  obtain ⟨⟨found, n⟩, kept, rfl⟩ := List.mem_map.mp member
  exact List.fst_mem_of_mem_zipIdx (List.mem_filter.mp kept).1

/-- A coherent transaction stays coherent in a wallet that values what it has cached alike. -/
private theorem CachedTx.Coherent.transfer {after : CachedWallet} {wtx : CachedTx}
    (coherent : wtx.Coherent crypto wallet)
    (credit : wtx.nCreditCached ≠ none ∨ wtx.nAvailableCreditCached ≠ none →
      ∀ txout ∈ wtx.tx.vout, after.creditOf crypto txout = wallet.creditOf crypto txout)
    (change : wtx.nChangeCached ≠ none → ∀ txout ∈ wtx.tx.vout,
      after.changeOf crypto txout = wallet.changeOf crypto txout)
    (debit : wtx.nDebitCached ≠ none → ∀ txin ∈ wtx.tx.vin,
      after.toCWallet.getDebitInput crypto txin = wallet.toCWallet.getDebitInput crypto txin) :
    wtx.Coherent crypto after where
  debit nDebit cached := by
    have known := coherent.debit nDebit cached
    rwa [CachedWallet.getDebit, getDebitLoop_congr (debit (by simp [cached]))]
  credit nCredit cached := by
    have known := coherent.credit nCredit cached
    rwa [CachedWallet.getCredit, sumOutputs_congr (credit (.inl (by simp [cached])))]
  availableCredit nCredit cached := by
    have known := coherent.availableCredit nCredit cached
    rwa [CachedWallet.getAvailableCredit, sumOutputs_congr fun txout member =>
      credit (.inr (by simp [cached])) txout (unspent_subset _ member)]
  change nChange cached := by
    have known := coherent.change nChange cached
    rwa [CachedWallet.getChange, sumOutputs_congr (change (by simp [cached]))]

private theorem coherent_of_markDirty {wtx : CachedTx} (dirty : wtx.markDirty = wtx) :
    wtx.Coherent crypto wallet := by
  rw [← dirty]
  constructor <;> simp [CachedTx.markDirty]

private theorem getDebitInput_put {hash : UInt256} {old new : CachedTx}
    (stored : wallet.mapWallet hash = some old) (same : new.tx = old.tx) (txin : CTxIn) :
    (wallet.put hash new).toCWallet.getDebitInput crypto txin =
      wallet.toCWallet.getDebitInput crypto txin := by
  by_cases here : txin.prevout.hash = hash
  · simp only [CWallet.getDebitInput, CachedWallet.toCWallet, CachedWallet.put, here, update_self,
      stored, Option.map_some, same]
    rfl
  · simp only [CWallet.getDebitInput, CachedWallet.toCWallet, CachedWallet.put,
      update_of_ne here]
    rfl

/-- A wallet transaction is replaced by a coherent one with the same outputs and inputs. -/
private theorem CachedWallet.Coherent.put {hash : UInt256} {old new : CachedTx}
    (coherent : wallet.Coherent crypto) (stored : wallet.mapWallet hash = some old)
    (same : new.tx = old.tx) (new_coherent : new.Coherent crypto wallet) :
    (wallet.put hash new).Coherent crypto := by
  intro other wtx found
  have earlier : wtx.Coherent crypto wallet := by
    by_cases here : other = hash
    · subst here
      rw [CachedWallet.mapWallet_put_self, Option.some.injEq] at found
      exact found ▸ new_coherent
    · rw [CachedWallet.mapWallet_put_of_ne here] at found
      exact coherent other wtx found
  exact earlier.transfer (fun _ _ _ => rfl) (fun _ _ _ => rfl)
    fun _ txin _ => getDebitInput_put stored same txin

/-! ## The getters and mutators of a transaction -/

private theorem cachedAmount_sound {fUseCache : Bool} {cached : Option Int} {amount : Outcome Int}
    (sound : ∀ value, cached = some value → amount = .ok value) {value : Int}
    (after : (cachedAmount fUseCache cached amount).2 = some value) : amount = .ok value := by
  cases used : (if fUseCache then cached else none) with
  | some nCached =>
      simp only [cachedAmount, used] at after
      exact sound value after
  | none =>
      cases amount with
      | ok nAmount =>
          simp only [cachedAmount, used, Option.some.injEq] at after
          rw [after]
      | error failure =>
          simp only [cachedAmount, used] at after
          exact sound value after

section Getters

variable {wtx : CachedTx}

private theorem getDebit_keeps (coherent : wtx.Coherent crypto wallet) :
    (wtx.getDebit crypto wallet).2.tx = wtx.tx ∧
      (wtx.getDebit crypto wallet).2.Coherent crypto wallet := by
  unfold CachedTx.getDebit
  split
  · exact ⟨rfl, coherent⟩
  · exact ⟨rfl, fun _ after => cachedAmount_sound coherent.debit after, coherent.credit,
      coherent.availableCredit, coherent.change⟩

private theorem getCredit_keeps (coherent : wtx.Coherent crypto wallet) (fUseCache : Bool)
    (nBlocksToMaturity : Int) :
    (wtx.getCredit crypto wallet fUseCache nBlocksToMaturity).2.tx = wtx.tx ∧
      (wtx.getCredit crypto wallet fUseCache nBlocksToMaturity).2.Coherent crypto wallet := by
  unfold CachedTx.getCredit
  split
  · exact ⟨rfl, coherent⟩
  · exact ⟨rfl, coherent.debit, fun _ after => cachedAmount_sound coherent.credit after,
      coherent.availableCredit, coherent.change⟩

private theorem getAvailableCredit_keeps (coherent : wtx.Coherent crypto wallet) (fUseCache : Bool)
    (nBlocksToMaturity : Int) :
    (wtx.getAvailableCredit crypto wallet fUseCache nBlocksToMaturity).2.tx = wtx.tx ∧
      (wtx.getAvailableCredit crypto wallet fUseCache nBlocksToMaturity).2.Coherent crypto
        wallet := by
  unfold CachedTx.getAvailableCredit
  split
  · exact ⟨rfl, coherent⟩
  · exact ⟨rfl, coherent.debit, coherent.credit,
      fun _ after => cachedAmount_sound coherent.availableCredit after, coherent.change⟩

private theorem getChange_keeps (coherent : wtx.Coherent crypto wallet) :
    (wtx.getChange crypto wallet).2.tx = wtx.tx ∧
      (wtx.getChange crypto wallet).2.Coherent crypto wallet :=
  ⟨rfl, coherent.debit, coherent.credit, coherent.availableCredit,
    fun _ after => cachedAmount_sound coherent.change after⟩

/-- The unspent outputs are those whose flags are not set. -/
private theorem unspent_congr {before after : CWalletTx} (same_tx : after.tx = before.tx)
    (same : ∀ n < before.tx.vout.length,
      (after.vfSpent[n]?).getD false = (before.vfSpent[n]?).getD false) :
    after.unspent = before.unspent := by
  rw [CWalletTx.unspent, CWalletTx.unspent, same_tx]
  refine congrArg (List.map Prod.fst) (List.filter_congr fun output member => ?_)
  have inside := List.snd_lt_of_mem_zipIdx member
  rw [same output.2 (by simpa using inside)]

private theorem markSpent_keeps (coherent : wtx.Coherent crypto wallet) (nOut : Nat) :
    (wtx.markSpent nOut).tx = wtx.tx ∧ (wtx.markSpent nOut).Coherent crypto wallet := by
  unfold CachedTx.markSpent
  split
  · exact ⟨rfl, coherent⟩
  refine ⟨rfl, coherent.debit, coherent.credit, fun nCredit cached => ?_, coherent.change⟩
  simp only at cached
  split at cached
  · rename_i spent
    have same : (wtx.toCWalletTx.markSpent nOut).unspent = wtx.unspent := by
      refine unspent_congr rfl fun n inside => ?_
      simp only [CWalletTx.markSpent, List.getElem?_set, List.length_map, List.length_range,
        List.getElem?_map, List.getElem?_range inside, Option.map_some]
      split
      · rename_i here
        subst here
        rw [if_pos inside, spent]
        rfl
      · rfl
    have known := coherent.availableCredit nCredit cached
    rwa [CachedWallet.getAvailableCredit, same]
  · contradiction

private theorem updateSpent_keeps (coherent : wtx.Coherent crypto wallet)
    (vfNewSpent : List Bool) :
    (wtx.updateSpent vfNewSpent).tx = wtx.tx ∧
      (wtx.updateSpent vfNewSpent).Coherent crypto wallet := by
  refine ⟨rfl, coherent.debit, coherent.credit, fun nCredit cached => ?_, coherent.change⟩
  simp only [CachedTx.updateSpent] at cached
  split at cached
  · contradiction
  · rename_i unchanged
    have same : (wtx.updateSpent vfNewSpent).unspent = wtx.unspent := by
      refine unspent_congr rfl fun n _ => ?_
      simp only [CachedTx.updateSpent, List.getElem?_mapIdx]
      cases flag : wtx.vfSpent[n]? with
      | none => rfl
      | some fSpent =>
          have member : (fSpent, n) ∈ wtx.vfSpent.zipIdx := List.mem_zipIdx_iff_getElem?.mpr flag
          have old := List.any_eq_true.not.mp unchanged
          push Not at old
          have here := old _ member
          simp only [Option.map_some, Option.getD_some]
          cases fSpent <;> simp_all
    have known := coherent.availableCredit nCredit cached
    rwa [CachedWallet.getAvailableCredit, same]

end Getters

/-! ## The operations -/

private theorem CachedWallet.Coherent.modify {hash : UInt256} {change : CachedTx → CachedTx}
    (coherent : wallet.Coherent crypto)
    (keeps : ∀ wtx : CachedTx, wtx.Coherent crypto wallet →
      (change wtx).tx = wtx.tx ∧ (change wtx).Coherent crypto wallet) :
    (wallet.modify hash change).Coherent crypto := by
  unfold CachedWallet.modify
  split
  · exact coherent
  · rename_i wtx stored
    obtain ⟨same, new_coherent⟩ := keeps wtx (coherent hash wtx stored)
    exact coherent.put stored same new_coherent

private theorem CachedWallet.Coherent.updateSpentInput (coherent : wallet.Coherent crypto)
    (toMaturity : UInt256 → Int) (txin : CTxIn) :
    (CachedWallet.updateSpentInput crypto toMaturity txin wallet).2.Coherent crypto := by
  unfold CachedWallet.updateSpentInput
  split
  · exact coherent
  · rename_i wtx stored
    split
    · exact coherent
    · split_ifs
      · obtain ⟨same, credited⟩ := getCredit_keeps (coherent _ wtx stored) true
          (toMaturity txin.prevout.hash)
        split
        · rename_i logged
          rw [logged] at same credited
          exact coherent.put stored same credited
        · rename_i logged
          rw [logged] at same credited
          obtain ⟨same_marked, marked⟩ := markSpent_keeps credited txin.prevout.n.toNat
          exact coherent.put stored (same_marked.trans same) marked
      · exact coherent

private theorem CachedWallet.Coherent.walletUpdateSpent (coherent : wallet.Coherent crypto)
    (toMaturity : UInt256 → Int) (tx : CTransaction) :
    (CachedWallet.walletUpdateSpent crypto toMaturity tx wallet).2.Coherent crypto :=
  sequence_keeps (fun txin _ _ earlier => earlier.updateSpentInput toMaturity txin) coherent

/-- Where a transaction is entered or erased, the debit changes only for those that spend it. -/
private theorem getDebitInput_of_unspending {hash : UInt256} {tx : CTransaction} {other : UInt256}
    {wtx : CachedTx} (unspending : wallet.Unspending crypto hash tx) (differs : other ≠ hash)
    (stored : wallet.mapWallet other = some wtx) (cached : wtx.nDebitCached ≠ none) {txin : CTxIn}
    (member : txin ∈ wtx.tx.vin) (spends : txin.prevout.hash = hash) {holder : CWallet}
    (same : holder.keystore = wallet.keystore) {prev : CWalletTx}
    (held : holder.mapWallet txin.prevout.hash = some prev) (prev_tx : prev.tx = tx) :
    holder.getDebitInput crypto txin = 0 := by
  simp only [CWallet.getDebitInput, held, prev_tx]
  cases output : tx.vout[txin.prevout.n.toNat]? with
  | none => rfl
  | some txout =>
      have foreign := unspending other wtx differs stored cached txin member spends txout output
      have owner : holder.isMineOutput crypto txout = wallet.isMineOutput crypto txout :=
        congrArg (fun keystore => isMine crypto keystore txout.scriptPubKey) same
      simp only [owner, foreign]
      rfl

private theorem CachedWallet.Coherent.enter {wtxIn : CachedTx} {hash : UInt256}
    (coherent : wallet.Coherent crypto) (absent : wallet.mapWallet hash = none)
    (unspending : wallet.Unspending crypto hash wtxIn.tx) :
    (wallet.put hash wtxIn.markDirty).Coherent crypto := by
  intro other wtx found
  by_cases here : other = hash
  · subst here
    rw [CachedWallet.mapWallet_put_self, Option.some.injEq] at found
    exact coherent_of_markDirty (found ▸ rfl)
  · rw [CachedWallet.mapWallet_put_of_ne here] at found
    refine (coherent other wtx found).transfer (fun _ _ _ => rfl) (fun _ _ _ => rfl)
      fun cached txin member => ?_
    by_cases spends : txin.prevout.hash = hash
    · have after := @getDebitInput_of_unspending crypto wallet _ _ _ _ unspending here found cached
        txin member spends (wallet.put hash wtxIn.markDirty).toCWallet rfl
        wtxIn.markDirty.toCWalletTx (by simp [CachedWallet.toCWallet, spends]) rfl
      rw [after, CWallet.getDebitInput, CachedWallet.toCWallet]
      simp only [spends, absent, Option.map_none]
    · simp only [CWallet.getDebitInput, CachedWallet.toCWallet,
        CachedWallet.mapWallet_put_of_ne spends]
      rfl

private theorem CachedWallet.Coherent.addToWallet {toMaturity : UInt256 → Int} {wtxIn : CachedTx}
    (coherent : wallet.Coherent crypto)
    (quiet : wallet.Quiet crypto (.addToWallet toMaturity wtxIn)) :
    (CachedWallet.addToWallet crypto toMaturity wtxIn wallet).2.Coherent crypto := by
  simp only [CachedWallet.addToWallet]
  refine CachedWallet.Coherent.walletUpdateSpent ?_ toMaturity _
  cases stored : wallet.mapWallet (wtxIn.tx.getHash crypto) with
  | none => exact coherent.enter stored (quiet stored)
  | some wtx => exact coherent.put stored rfl (coherent_of_markDirty rfl)

private theorem CachedWallet.Coherent.eraseFromWallet {hash : UInt256}
    (coherent : wallet.Coherent crypto)
    (quiet : wallet.Quiet crypto (.eraseFromWallet hash)) :
    (wallet.eraseFromWallet hash).Coherent crypto := by
  intro other wtx found
  by_cases here : other = hash
  · subst here
    simp [CachedWallet.eraseFromWallet] at found
  · simp only [CachedWallet.eraseFromWallet, update_of_ne here] at found
    refine (coherent other wtx found).transfer (fun _ _ _ => rfl) (fun _ _ _ => rfl)
      fun cached txin member => ?_
    by_cases spends : txin.prevout.hash = hash
    · cases stored : wallet.mapWallet hash with
      | none =>
          simp only [CWallet.getDebitInput, CachedWallet.toCWallet, CachedWallet.eraseFromWallet,
            spends, update_self, stored, Option.map_none]
      | some erased =>
          have before := @getDebitInput_of_unspending crypto wallet _ _ _ _ (quiet erased stored)
            here found cached txin member spends wallet.toCWallet rfl erased.toCWalletTx
            (by simp [CachedWallet.toCWallet, spends, stored]) rfl
          rw [before]
          simp only [CWallet.getDebitInput, CachedWallet.toCWallet, CachedWallet.eraseFromWallet,
            spends, update_self, Option.map_none]
    · simp only [CWallet.getDebitInput, CachedWallet.toCWallet, CachedWallet.eraseFromWallet,
        update_of_ne spends]
      rfl

private theorem CachedWallet.Coherent.rekey {keystore : CKeyStore}
    (coherent : wallet.Coherent crypto) (keeps : wallet.KeepsOwned crypto keystore) :
    CachedWallet.Coherent crypto { wallet with keystore } := by
  intro hash wtx stored
  refine (coherent hash wtx stored).transfer ?_ ?_ ?_
  · intro cached txout member
    have owned : CachedWallet.isMineOutput crypto { wallet with keystore } txout =
        wallet.isMineOutput crypto txout := keeps.credit hash wtx stored cached txout member
    rw [CachedWallet.creditOf, CachedWallet.creditOf, owned]
  · intro cached txout member
    have owned : CachedWallet.isChange crypto { wallet with keystore } txout =
        wallet.isChange crypto txout := by
      unfold CachedWallet.isChange
      split
      · rfl
      · rename_i address extracted
        cases named : wallet.mapAddressBook address with
        | some strName => simp
        | none => rw [keeps.change hash wtx stored cached txout member address extracted named]
    rw [CachedWallet.changeOf, CachedWallet.changeOf, owned]
  · intro cached txin member
    simp only [CWallet.getDebitInput, CachedWallet.toCWallet]
    cases found : wallet.mapWallet txin.prevout.hash with
    | none => rfl
    | some prev =>
        simp only [Option.map_some]
        cases output : prev.tx.vout[txin.prevout.n.toNat]? with
        | none => rfl
        | some txout =>
            have owned : CachedWallet.isMineOutput crypto { wallet with keystore } txout =
                wallet.isMineOutput crypto txout :=
              keeps.debit hash wtx stored cached txin member prev found txout output
            change (if CachedWallet.isMineOutput crypto { wallet with keystore } txout
                then _ else _) =
              if wallet.isMineOutput crypto txout then _ else _
            rw [owned]

private theorem CachedWallet.Coherent.setAddressBookName {address : CTxDestination}
    {strName : Account} (coherent : wallet.Coherent crypto)
    (quiet : wallet.Quiet crypto (.setAddressBookName address strName)) :
    (wallet.setAddressBookName address strName).Coherent crypto := by
  intro hash wtx stored
  refine (coherent hash wtx stored).transfer (fun _ _ _ => rfl) ?_ fun _ _ _ => rfl
  intro cached txout member
  have other := quiet hash wtx stored cached txout member
  have same : (wallet.setAddressBookName address strName).isChange crypto txout =
      wallet.isChange crypto txout := by
    unfold CachedWallet.isChange at other ⊢
    cases extracted : extractDestination crypto txout.scriptPubKey with
    | none => rfl
    | some place =>
        simp only [extracted] at other ⊢
        by_cases here : place = address
        · subst here
          have kept : (isMineDestination wallet.keystore place &&
              (wallet.mapAddressBook place).isNone) = false :=
            Bool.eq_false_iff.mpr fun changes => other changes rfl
          rw [kept]
          simp [CachedWallet.setAddressBookName]
        · simp only [CachedWallet.setAddressBookName, update_of_ne here]
  rw [CachedWallet.changeOf, CachedWallet.changeOf, same]

private theorem CachedWallet.Coherent.step {operation : Operation}
    (coherent : wallet.Coherent crypto) (quiet : wallet.Quiet crypto operation) :
    (wallet.step crypto operation).Coherent crypto := by
  cases operation with
  | addToWallet toMaturity wtxIn => exact coherent.addToWallet quiet
  | walletUpdateSpent toMaturity tx => exact coherent.walletUpdateSpent toMaturity tx
  | updateSpent hash vfNewSpent =>
      exact coherent.modify fun wtx earlier => updateSpent_keeps earlier vfNewSpent
  | markSpent hash nOut => exact coherent.modify fun wtx earlier => markSpent_keeps earlier nOut
  | eraseFromWallet hash => exact coherent.eraseFromWallet quiet
  | addKey keyID => exact coherent.rekey quiet
  | addCScript redeemScript => exact coherent.rekey quiet
  | setAddressBookName address strName => exact coherent.setAddressBookName quiet
  | markDirty =>
      intro hash wtx stored
      obtain ⟨old, -, rfl⟩ := Option.map_eq_some_iff.mp stored
      exact coherent_of_markDirty rfl
  | getDebit hash => exact coherent.modify fun wtx earlier => getDebit_keeps earlier
  | getCredit hash fUseCache nBlocksToMaturity =>
      exact coherent.modify fun wtx earlier => getCredit_keeps earlier fUseCache nBlocksToMaturity
  | getAvailableCredit hash fUseCache nBlocksToMaturity =>
      exact coherent.modify fun wtx earlier =>
        getAvailableCredit_keeps earlier fUseCache nBlocksToMaturity
  | getChange hash => exact coherent.modify fun wtx earlier => getChange_keeps earlier

/-- In every wallet that quiet operations reach, the cached amounts are what the wallet would
compute now. -/
theorem coherent_of_quietRun {start : CachedWallet} (fresh : start.Fresh)
    (run : QuietRun crypto start wallet) : wallet.Coherent crypto := by
  induction run with
  | start => exact fun hash wtx stored => coherent_of_markDirty (fresh hash wtx stored)
  | step earlier quiet induction => exact induction.step quiet

/-! ## A script that is added late -/

/-- A public key of the wallet. -/
def walletPubKey : Valtype := List.replicate 33 2

/-- What `addmultisigaddress` adds for the public key. -/
def lateScript : CScript := setMultisig 1 [walletPubKey]

/-- A transaction that pays to the script. -/
def latePayment : CTransaction where
  nVersion := 1
  vin := [{ prevout := { hash := 1, n := 0 }, scriptSig := [], nSequence := 0xffffffff }]
  vout := [{ nValue := 5, scriptPubKey := setDestination (.CScriptID
    (sampleCrypto.Hash160 lateScript)) }]
  nLockTime := 0

/-- A wallet with the key and without transactions. -/
def lateWallet : CachedWallet where
  keystore :=
    { haveKey := fun keyID => keyID = sampleCrypto.Hash160 walletPubKey
      mapScripts := [] }
  nMinimumInputValue := 0
  mapAddressBook _ := none
  mapWallet _ := none

/-- The payment as it is added to the wallet. -/
def latePaymentTx : CachedTx where
  toCWalletTx := CWalletTx.ofTransaction latePayment
  nDebitCached := none
  nCreditCached := none
  nAvailableCreditCached := none
  nChangeCached := none

/-- The wallet after the payment was added and its credit asked for. -/
def creditedWallet : CachedWallet :=
  (lateWallet.step sampleCrypto (.addToWallet (fun _ => 0) latePaymentTx)).step sampleCrypto
    (.getCredit (latePayment.getHash sampleCrypto) true 0)

theorem coherent_of_quietRun_creditedWallet : creditedWallet.Coherent sampleCrypto :=
  @coherent_of_quietRun sampleCrypto creditedWallet lateWallet
    (fun _ _ stored => by simp [lateWallet] at stored)
    (.step (.step .start fun _ _ _ _ stored => by simp [lateWallet] at stored) trivial)

/-- The credit that was cached before the script was added is stale. -/
theorem not_coherent_addCScript :
    ¬(creditedWallet.step sampleCrypto (.addCScript lateScript)).Coherent sampleCrypto := by
  intro coherent
  have stored : (creditedWallet.step sampleCrypto (.addCScript lateScript)).mapWallet
      (latePayment.getHash sampleCrypto) = some { latePaymentTx with nCreditCached := some 0 } := by
    decide +kernel
  have credited : (creditedWallet.step sampleCrypto (.addCScript lateScript)).getCredit sampleCrypto
      latePayment = .ok 5 := by
    decide +kernel
  have cached := (coherent _ _ stored).credit 0 rfl
  exact absurd (Except.ok.inj (credited.symm.trans cached)) (by norm_num)

end FooCoin

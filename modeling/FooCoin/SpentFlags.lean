import FooCoin.CreateTransaction
import FooCoin.Script.Spendable
import FooCoin.WalletSync

/-!
# The spent flags of a wallet

A wallet learns of transactions from blocks, from the memory pool and from its own commits.  When
parents come first, an output of the wallet is marked as spent exactly when a transaction that
spends it was delivered, whatever the order was.
-/

namespace FooCoin

open Function Stateful

variable {crypto : Crypto}

/-! ## Deliveries -/

/-- The entry that `AddToWalletIfInvolvingMe` makes; the block is `none` for `NULL`. -/
def CWalletTx.received (crypto : Crypto) (pblock : Option CBlock) (tx : CTransaction) : CWalletTx :=
  match pblock with
  | none => .ofTransaction tx
  | some block => (CWalletTx.ofTransaction tx).setMerkleBranch crypto block

/-- `CWallet::AddToWalletIfInvolvingMe` for a transaction of a block or of the memory pool. -/
def CWallet.receive (crypto : Crypto) (pblock : Option CBlock) (fUpdate : Bool)
    (tx : CTransaction) : Action Failure CWallet := fun wallet =>
  let fExisted := (wallet.mapWallet (tx.getHash crypto)).isSome
  if fExisted ∧ ¬fUpdate then (.ok (), wallet)
  else
    match (if fExisted || wallet.isMine crypto tx then .ok true else wallet.isFromMe crypto tx) with
    | .error failure => (.error failure, wallet)
    | .ok true => CWallet.addToWallet crypto (.received crypto pblock tx) wallet
    | .ok false => CWallet.walletUpdateSpent crypto tx wallet

theorem CWallet.receive_block (block : CBlock) (fUpdate : Bool) (tx : CTransaction) :
    CWallet.receive crypto (some block) fUpdate tx =
      CWallet.addToWalletIfInvolvingMe crypto block fUpdate tx := rfl

/-- The loop body of `CommitTransaction`: `mapWallet[...]` makes an empty entry where there is
none. -/
def CWallet.markCoin (txin : CTxIn) : Action Failure CWallet := fun wallet =>
  let coin := (wallet.mapWallet txin.prevout.hash).getD (.ofTransaction .null)
  let put (coin : CWalletTx) : CWallet :=
    { wallet with mapWallet := update wallet.mapWallet txin.prevout.hash (some coin) }
  if coin.tx.vout.length ≤ txin.prevout.n.toNat then (.error .thrown, put coin)
  else (.ok (), put (coin.markSpent txin.prevout.n.toNat))

/-- What `CWallet::CommitTransaction` does to `mapWallet`. -/
def CWallet.commitTransaction (crypto : Crypto) (tx : CTransaction) : Action Failure CWallet :=
  fun wallet =>
    match CWallet.addToWallet crypto { CWalletTx.ofTransaction tx with fFromMe := true } wallet with
    | (.error failure, wallet) => (.error failure, wallet)
    | (.ok (), wallet) => sequence CWallet.markCoin tx.vin wallet

/-- A call that delivers a transaction. -/
inductive Delivery where
  | receive (pblock : Option CBlock) (fUpdate : Bool) (tx : CTransaction)
  | commit (tx : CTransaction)

namespace Delivery

/-- The transaction that is delivered. -/
def tx : Delivery → CTransaction
  | receive _ _ tx => tx
  | commit tx => tx

/-- The call. -/
def run (crypto : Crypto) : Delivery → Action Failure CWallet
  | receive pblock fUpdate tx => CWallet.receive crypto pblock fUpdate tx
  | commit tx => CWallet.commitTransaction crypto tx

end Delivery

/-- A transaction spends an output of the transaction with a hash. -/
def CTransaction.Spends (tx : CTransaction) (hash : UInt256) (i : Nat) : Prop :=
  ∃ txin ∈ tx.vin, txin.prevout.hash = hash ∧ txin.prevout.n.toNat = i

/-- Every delivered transaction comes after those of its parents that are delivered at all. -/
def ParentsFirst (crypto : Crypto) (deliveries : List Delivery) : Prop :=
  ∀ earlier delivery later, deliveries = earlier ++ delivery :: later →
    ∀ parent ∈ deliveries.map Delivery.tx, ∀ i, delivery.tx.Spends (parent.getHash crypto) i →
      parent ∈ earlier.map Delivery.tx

/-- A wallet without transactions. -/
def CWallet.empty (keystore : CKeyStore) (nMinimumInputValue : Int) : CWallet where
  keystore
  nMinimumInputValue
  mapWallet _ := none

/-- The wallet is the one that `CreateTransaction` reads. -/
structure SpendingWallet.Reads (spending : SpendingWallet crypto) (wallet : CWallet) : Prop where
  mapWallet : ∀ hash, spending.mapWallet.lookup hash = wallet.mapWallet hash
  keystore : ∀ store, (spending.signer store).toCKeyStore = wallet.keystore
  nMinimumInputValue : spending.nMinimumInputValue = wallet.nMinimumInputValue

/-- `CreateTransaction` makes the transaction for payments of a positive amount. -/
def CWallet.Creates (crypto : Crypto) (wallet : CWallet) (tx : CTransaction) : Prop :=
  ∃ (lib : OpenSSL) (spending : SpendingWallet crypto) (keypool object fuel : Nat)
    (chances : Nat → CreateChance lib) (vecSend : List (CScript × Int64)) (wtxNew : CTransaction)
    (state after : PoolState) (attempt : SpendingWallet.Attempt),
    spending.Reads wallet ∧ 0 < (vecSend.map fun s => s.2.toInt).sum ∧
      spending.createTransaction keypool object chances fuel vecSend wtxNew state =
        some (.ok attempt, after) ∧ attempt.wtxNew = tx

/-- Every committed transaction was created earlier in the run. -/
def CommitsCreated (crypto : Crypto) (start : CWallet) (deliveries : List Delivery) : Prop :=
  ∀ earlier tx later, deliveries = earlier ++ .commit tx :: later →
    ∃ before between wallet, earlier = before ++ between ∧
      sequence (Delivery.run crypto) before start = (.ok (), wallet) ∧ wallet.Creates crypto tx

/-! ## What the wallet has recorded -/

/-- The wallet has entered the transactions among `known` that involve it, and has marked what
`spenders` spend. -/
structure CWallet.Recorded (crypto : Crypto) (wallet : CWallet)
    (known spenders : List CTransaction) : Prop where
  entry : ∀ hash wtx, wallet.mapWallet hash = some wtx →
    wtx.tx.getHash crypto = hash ∧ wtx.tx ∈ known
  absent : ∀ tx ∈ known, wallet.mapWallet (tx.getHash crypto) = none →
    wallet.isMine crypto tx = false ∧ wallet.isFromMe crypto tx = .ok false
  spent : ∀ hash wtx i, wallet.mapWallet hash = some wtx →
    (wtx.tx.vout[i]?).any (wallet.isMineOutput crypto) = true →
      (wtx.isSpent i = .ok true ↔ ∃ tx ∈ spenders, tx.Spends hash i)

/-- Some outputs have been marked, and nothing else has changed. -/
structure CWallet.Marked (crypto : Crypto) (before after : CWallet)
    (marked : UInt256 → Nat → Prop) : Prop where
  keystore : after.keystore = before.keystore
  minimum : after.nMinimumInputValue = before.nMinimumInputValue
  none_iff : ∀ hash, after.mapWallet hash = none ↔ before.mapWallet hash = none
  entry : ∀ hash old new, before.mapWallet hash = some old → after.mapWallet hash = some new →
    new.tx = old.tx ∧ ∀ i, (old.tx.vout[i]?).any (before.isMineOutput crypto) = true →
      (new.isSpent i = .ok true ↔ old.isSpent i = .ok true ∨ marked hash i)

/-! ## Marking -/

private theorem CWallet.Marked.refl (wallet : CWallet) :
    wallet.Marked crypto wallet fun _ _ => False := by
  refine ⟨rfl, rfl, fun _ => Iff.rfl, fun hash old new found same => ?_⟩
  obtain rfl := Option.some.inj (found.symm.trans same)
  exact ⟨rfl, fun i _ => (or_iff_left id).symm⟩

private theorem isMineOutput_congr {before after : CWallet}
    (keystore : after.keystore = before.keystore) :
    after.isMineOutput crypto = before.isMineOutput crypto := by
  funext txout
  rw [CWallet.isMineOutput, CWallet.isMineOutput, keystore]

private theorem CWallet.Marked.trans {before middle after : CWallet}
    {first second : UInt256 → Nat → Prop} (lower : before.Marked crypto middle first)
    (upper : middle.Marked crypto after second) :
    before.Marked crypto after fun hash i => first hash i ∨ second hash i := by
  refine ⟨upper.keystore.trans lower.keystore, upper.minimum.trans lower.minimum,
    fun hash => (upper.none_iff hash).trans (lower.none_iff hash),
    fun hash old new found last => ?_⟩
  cases between : middle.mapWallet hash with
  | none =>
      rw [(lower.none_iff hash).mp between] at found
      contradiction
  | some wtx =>
      obtain ⟨first_tx, first_flags⟩ := lower.entry hash old wtx found between
      obtain ⟨second_tx, second_flags⟩ := upper.entry hash wtx new between last
      refine ⟨second_tx.trans first_tx, fun i mine => ?_⟩
      have still : (wtx.tx.vout[i]?).any (middle.isMineOutput crypto) = true := by
        rwa [first_tx, isMineOutput_congr lower.keystore]
      rw [second_flags i still, first_flags i mine, or_assoc]

/-- Replace an entry. -/
def CWallet.put (wallet : CWallet) (hash : UInt256) (wtx : CWalletTx) : CWallet :=
  { wallet with mapWallet := update wallet.mapWallet hash (some wtx) }

@[simp]
theorem CWallet.mapWallet_put_self (wallet : CWallet) (hash : UInt256) (wtx : CWalletTx) :
    (wallet.put hash wtx).mapWallet hash = some wtx :=
  update_self ..

theorem CWallet.mapWallet_put_of_ne {wallet : CWallet} {hash other : UInt256} {wtx : CWalletTx}
    (different : other ≠ hash) : (wallet.put hash wtx).mapWallet other = wallet.mapWallet other :=
  update_of_ne different ..

/-- An entry that keeps its transaction is marked by what its flags gain. -/
private theorem CWallet.marked_update {wallet : CWallet} {hash : UInt256} {old new : CWalletTx}
    {marked : Nat → Prop} (found : wallet.mapWallet hash = some old) (same : new.tx = old.tx)
    (flags : ∀ i, (old.tx.vout[i]?).any (wallet.isMineOutput crypto) = true →
      (new.isSpent i = .ok true ↔ old.isSpent i = .ok true ∨ marked i)) :
    wallet.Marked crypto (wallet.put hash new) fun other i => hash = other ∧ marked i := by
  refine ⟨rfl, rfl, fun other => ?_, fun other before after first second => ?_⟩
  · by_cases here : other = hash
    · subst here
      simp [found]
    · rw [CWallet.mapWallet_put_of_ne here]
  · by_cases here : other = hash
    · subst here
      obtain rfl := Option.some.inj (found.symm.trans first)
      obtain rfl := Option.some.inj ((wallet.mapWallet_put_self ..).symm.trans second)
      exact ⟨same, fun i mine => by simpa using flags i mine⟩
    · rw [CWallet.mapWallet_put_of_ne here] at second
      obtain rfl := Option.some.inj (first.symm.trans second)
      exact ⟨rfl, fun i _ => by simp [Ne.symm here]⟩

private theorem inside_of_mine {wallet : CWallet} {wtx : CWalletTx} {i : Nat}
    (mine : (wtx.tx.vout[i]?).any (wallet.isMineOutput crypto) = true) :
    i < wtx.tx.vout.length := by
  simp only [Option.any_eq_true] at mine
  obtain ⟨txout, found, -⟩ := mine
  exact (List.getElem?_eq_some_iff.mp found).1

/-- What an input spends. -/
def CTxIn.Spends (txin : CTxIn) (hash : UInt256) (i : Nat) : Prop :=
  txin.prevout.hash = hash ∧ txin.prevout.n.toNat = i

private theorem marked_updateSpentInput {txin : CTxIn} {wallet after : CWallet}
    (updated : CWallet.updateSpentInput crypto txin wallet = (.ok (), after)) :
    wallet.Marked crypto after txin.Spends := by
  have quiet (hash_absent : ∀ old, wallet.mapWallet txin.prevout.hash = some old →
      ∀ i, (old.tx.vout[i]?).any (wallet.isMineOutput crypto) = true →
        txin.prevout.n.toNat = i → old.isSpent i = .ok true) :
      wallet.Marked crypto wallet txin.Spends := by
    refine ⟨rfl, rfl, fun _ => Iff.rfl, fun hash old new found same => ?_⟩
    obtain rfl := Option.some.inj (found.symm.trans same)
    refine ⟨rfl, fun i mine => (or_iff_left_of_imp ?_).symm⟩
    rintro ⟨rfl, index⟩
    exact hash_absent old found i mine index
  unfold CWallet.updateSpentInput at updated
  split at updated
  · rename_i absent
    obtain ⟨-, rfl⟩ := Prod.mk.inj updated
    exact quiet fun old found => by simp [absent] at found
  · rename_i wtx found
    split at updated
    · simp at updated
    · rename_i fSpent known
      split_ifs at updated with marks
      · obtain ⟨-, rfl⟩ := Prod.mk.inj updated
        exact CWallet.marked_update found rfl fun i mine =>
          (isSpent_markSpent (inside_of_mine mine)).trans or_comm
      · obtain ⟨-, rfl⟩ := Prod.mk.inj updated
        refine quiet fun old present i mine index => ?_
        obtain rfl := Option.some.inj (found.symm.trans present)
        subst index
        rw [known, Except.ok.injEq]
        by_contra unspent
        exact marks ⟨unspent, mine⟩

private theorem marked_sequence {step : CTxIn → Action Failure CWallet} {vin : List CTxIn}
    {wallet after : CWallet}
    (each : ∀ txin ∈ vin, ∀ before after, step txin before = (.ok (), after) →
      before.Marked crypto after txin.Spends)
    (updated : sequence step vin wallet = (.ok (), after)) :
    wallet.Marked crypto after fun hash i => ∃ txin ∈ vin, txin.Spends hash i := by
  induction vin generalizing wallet with
  | nil =>
      obtain ⟨-, rfl⟩ := Prod.mk.inj updated
      simpa using CWallet.Marked.refl wallet
  | cons txin vin induction =>
      obtain ⟨middle, first, rest⟩ := sequence_cons_eq_ok.mp updated
      have lower := each txin List.mem_cons_self wallet middle first
      have upper := induction (fun later member => each later (List.mem_cons_of_mem _ member)) rest
      simpa only [List.exists_mem_cons_iff] using lower.trans upper

private theorem marked_walletUpdateSpent {tx : CTransaction} {wallet after : CWallet}
    (updated : CWallet.walletUpdateSpent crypto tx wallet = (.ok (), after)) :
    wallet.Marked crypto after tx.Spends :=
  marked_sequence (fun _ _ _ _ => marked_updateSpentInput) updated

private theorem marked_markCoin {txin : CTxIn} {wallet after : CWallet}
    (updated : CWallet.markCoin txin wallet = (.ok (), after)) :
    wallet.Marked crypto after txin.Spends := by
  unfold CWallet.markCoin at updated
  dsimp only at updated
  split_ifs at updated with outside
  · simp at updated
  · obtain ⟨-, rfl⟩ := Prod.mk.inj updated
    cases found : wallet.mapWallet txin.prevout.hash with
    | none =>
        rw [found] at outside
        exact absurd (Nat.zero_le _) outside
    | some wtx =>
        exact CWallet.marked_update found rfl fun i mine =>
          (isSpent_markSpent (inside_of_mine mine)).trans or_comm

/-! ## What entries and marks keep -/

private theorem isFromMe_congr {before after : CWallet} {tx : CTransaction}
    (inputs : ∀ txin ∈ tx.vin, after.getDebitInput crypto txin = before.getDebitInput crypto txin) :
    after.isFromMe crypto tx = before.isFromMe crypto tx := by
  have loop (vin : List CTxIn) (nDebit : Int)
      (same : ∀ txin ∈ vin, after.getDebitInput crypto txin = before.getDebitInput crypto txin) :
      after.getDebitLoop crypto nDebit vin = before.getDebitLoop crypto nDebit vin := by
    induction vin generalizing nDebit with
    | nil => rfl
    | cons txin vin induction =>
        obtain ⟨own, others⟩ := List.forall_mem_cons.mp same
        rw [CWallet.getDebitLoop, CWallet.getDebitLoop, own]
        simp only [fun nDebit => induction nDebit others]
  rw [CWallet.isFromMe, CWallet.isFromMe, loop tx.vin 0 inputs]

private theorem isMine_congr {before after : CWallet} (keystore : after.keystore = before.keystore)
    (minimum : after.nMinimumInputValue = before.nMinimumInputValue) (tx : CTransaction) :
    after.isMine crypto tx = before.isMine crypto tx := by
  rw [CWallet.isMine, CWallet.isMine, isMineOutput_congr keystore, minimum]

private theorem CWallet.Marked.isFromMe_eq {before after : CWallet}
    {marked : UInt256 → Nat → Prop} (marks : before.Marked crypto after marked)
    (tx : CTransaction) : after.isFromMe crypto tx = before.isFromMe crypto tx := by
  refine isFromMe_congr fun txin _ => ?_
  unfold CWallet.getDebitInput
  cases found : before.mapWallet txin.prevout.hash with
  | none => rw [(marks.none_iff _).mpr found]
  | some old =>
      cases last : after.mapWallet txin.prevout.hash with
      | none =>
          rw [(marks.none_iff _).mp last] at found
          contradiction
      | some new =>
          dsimp only
          rw [(marks.entry _ old new found last).1, isMineOutput_congr marks.keystore]

/-- Marks add spenders. -/
private theorem CWallet.Recorded.marked {before after : CWallet} {marked : UInt256 → Nat → Prop}
    {known spenders spenders' : List CTransaction}
    (recorded : before.Recorded crypto known spenders) (marks : before.Marked crypto after marked)
    (added : ∀ hash i, (∃ tx ∈ spenders', tx.Spends hash i) ↔
      (∃ tx ∈ spenders, tx.Spends hash i) ∨ marked hash i) :
    after.Recorded crypto known spenders' := by
  have back {hash : UInt256} {new : CWalletTx} (last : after.mapWallet hash = some new) :
      ∃ old, before.mapWallet hash = some old := by
    cases found : before.mapWallet hash with
    | none =>
        rw [(marks.none_iff hash).mpr found] at last
        contradiction
    | some old => exact ⟨old, rfl⟩
  refine ⟨fun hash new last => ?_, fun tx member missing => ?_, fun hash new i last mine => ?_⟩
  · obtain ⟨old, found⟩ := back last
    rw [(marks.entry hash old new found last).1]
    exact recorded.entry hash old found
  · rw [isMine_congr marks.keystore marks.minimum, marks.isFromMe_eq]
    exact recorded.absent tx member ((marks.none_iff _).mp missing)
  · obtain ⟨old, found⟩ := back last
    obtain ⟨same, flags⟩ := marks.entry hash old new found last
    rw [same, isMineOutput_congr marks.keystore] at mine
    rw [flags i mine, recorded.spent hash old i found mine, added]

private theorem exists_spends_cons {tx : CTransaction} {spenders : List CTransaction}
    (hash : UInt256) (i : Nat) : (∃ spender ∈ tx :: spenders, spender.Spends hash i) ↔
      (∃ spender ∈ spenders, spender.Spends hash i) ∨ tx.Spends hash i := by
  rw [List.exists_mem_cons_iff, or_comm]

/-- A new entry without flags, which nothing that is known spends. -/
private theorem CWallet.Recorded.enter {wallet : CWallet} {seen : List CTransaction}
    {wtx : CWalletTx} (recorded : wallet.Recorded crypto seen seen) (unmarked : wtx.vfSpent = [])
    (unspent : ∀ tx ∈ seen, ∀ i, ¬tx.Spends (wtx.tx.getHash crypto) i) :
    (wallet.put (wtx.tx.getHash crypto) wtx).Recorded crypto (wtx.tx :: seen) seen := by
  refine ⟨fun hash entry found => ?_, fun tx member missing => ?_,
    fun hash entry i found mine => ?_⟩
  · by_cases here : hash = wtx.tx.getHash crypto
    · subst here
      obtain rfl := Option.some.inj ((wallet.mapWallet_put_self ..).symm.trans found)
      exact ⟨rfl, List.mem_cons_self⟩
    · rw [CWallet.mapWallet_put_of_ne here] at found
      obtain ⟨same, listed⟩ := recorded.entry hash entry found
      exact ⟨same, List.mem_cons_of_mem _ listed⟩
  · have different : tx.getHash crypto ≠ wtx.tx.getHash crypto := by
      intro here
      rw [here, CWallet.mapWallet_put_self] at missing
      contradiction
    rw [CWallet.mapWallet_put_of_ne different] at missing
    have listed : tx ∈ seen := (List.mem_cons.mp member).resolve_left fun same =>
      different (congrArg _ same)
    obtain ⟨not_mine, not_from⟩ := recorded.absent tx listed missing
    refine ⟨not_mine, (isFromMe_congr fun txin input => ?_).trans not_from⟩
    have other : txin.prevout.hash ≠ wtx.tx.getHash crypto := fun here =>
      unspent tx listed _ ⟨txin, input, here, rfl⟩
    rw [CWallet.getDebitInput, CWallet.getDebitInput, CWallet.mapWallet_put_of_ne other]
    rfl
  · by_cases here : hash = wtx.tx.getHash crypto
    · subst here
      obtain rfl := Option.some.inj ((wallet.mapWallet_put_self ..).symm.trans found)
      constructor
      · intro spent
        have flag := (isSpent_eq_ok.mp spent).2
        simp [unmarked] at flag
      · rintro ⟨tx, listed, spends⟩
        exact absurd spends (unspent tx listed i)
    · rw [CWallet.mapWallet_put_of_ne here] at found
      exact recorded.spent hash entry i found mine

/-- A transaction that is known already, or does not involve the wallet, becomes known. -/
private theorem CWallet.Recorded.know {wallet : CWallet} {known spenders : List CTransaction}
    (recorded : wallet.Recorded crypto known spenders) (tx : CTransaction)
    (outside : wallet.mapWallet (tx.getHash crypto) = none →
      wallet.isMine crypto tx = false ∧ wallet.isFromMe crypto tx = .ok false) :
    wallet.Recorded crypto (tx :: known) spenders := by
  refine ⟨fun hash wtx found => ?_, fun other member missing => ?_, recorded.spent⟩
  · obtain ⟨same, listed⟩ := recorded.entry hash wtx found
    exact ⟨same, List.mem_cons_of_mem _ listed⟩
  · rcases List.mem_cons.mp member with rfl | listed
    · exact outside missing
    · exact recorded.absent other listed missing

/-! ## One delivery -/

section Step

variable {wallet after : CWallet} {seen : List CTransaction} {tx : CTransaction}

/-- The transaction is the only one that is known by its hash, and when it is delivered for the
first time, nothing that is known spends it. -/
structure Orderly (crypto : Crypto) (seen : List CTransaction) (tx : CTransaction) : Prop where
  unique : ∀ other ∈ seen, other.getHash crypto = tx.getHash crypto → other = tx
  unspent : tx ∉ seen → ∀ other ∈ seen, ∀ i, ¬other.Spends (tx.getHash crypto) i

private theorem mem_seen_of_found {wtx : CWalletTx} (recorded : wallet.Recorded crypto seen seen)
    (orderly : Orderly crypto seen tx)
    (found : wallet.mapWallet (tx.getHash crypto) = some wtx) : wtx.tx = tx ∧ tx ∈ seen := by
  obtain ⟨same, listed⟩ := recorded.entry _ wtx found
  obtain rfl := orderly.unique _ listed same
  exact ⟨rfl, listed⟩

private theorem merge_vfSpent {wtxIn wtx : CWalletTx} (unmarked : wtxIn.vfSpent = []) :
    (wtxIn.merge wtx).vfSpent = wtx.vfSpent := by
  apply List.ext_getElem?
  simp [CWalletTx.merge, unmarked]

/-- `AddToWallet` of a transaction that involves the wallet. -/
private theorem recorded_addToWallet {wtxIn : CWalletTx}
    (recorded : wallet.Recorded crypto seen seen) (orderly : Orderly crypto seen wtxIn.tx)
    (unmarked : wtxIn.vfSpent = [])
    (involves : wallet.mapWallet (wtxIn.tx.getHash crypto) = none → wtxIn.tx ∉ seen)
    (added : CWallet.addToWallet crypto wtxIn wallet = (.ok (), after)) :
    after.Recorded crypto (wtxIn.tx :: seen) (wtxIn.tx :: seen) := by
  unfold CWallet.addToWallet at added
  dsimp only at added
  cases found : wallet.mapWallet (wtxIn.tx.getHash crypto) with
  | none =>
      rw [found] at added
      have entered := recorded.enter unmarked (orderly.unspent (involves found))
      exact entered.marked (marked_walletUpdateSpent added) exists_spends_cons
  | some wtx =>
      rw [found] at added
      obtain ⟨same, listed⟩ := mem_seen_of_found recorded orderly found
      have merged : wallet.Marked crypto (wallet.put (wtxIn.tx.getHash crypto) (wtxIn.merge wtx))
          fun other _ => wtxIn.tx.getHash crypto = other ∧ False := by
        refine CWallet.marked_update found rfl fun i _ => ?_
        rw [or_false, isSpent_eq_ok, isSpent_eq_ok, merge_vfSpent unmarked]
        rfl
      have kept : (wallet.put (wtxIn.tx.getHash crypto) (wtxIn.merge wtx)).Recorded crypto seen
          seen := recorded.marked merged fun hash i => by simp
      have marks := marked_walletUpdateSpent added
      have known := kept.know wtxIn.tx fun missing => by simp at missing
      have spent : (wtxIn.merge wtx).tx = wtxIn.tx := same
      rw [spent] at marks
      exact known.marked marks exists_spends_cons

private theorem received_unmarked (pblock : Option CBlock) (tx : CTransaction) :
    (CWalletTx.received crypto pblock tx).tx = tx ∧
      (CWalletTx.received crypto pblock tx).vfSpent = [] := by
  unfold CWalletTx.received
  split
  · exact ⟨rfl, rfl⟩
  · unfold CWalletTx.setMerkleBranch
    split
    · exact ⟨rfl, rfl⟩
    · exact ⟨rfl, rfl⟩

private theorem recorded_receive {pblock : Option CBlock} {fUpdate : Bool}
    (recorded : wallet.Recorded crypto seen seen) (orderly : Orderly crypto seen tx)
    (received : CWallet.receive crypto pblock fUpdate tx wallet = (.ok (), after)) :
    after.Recorded crypto (tx :: seen) (tx :: seen) := by
  obtain ⟨same_tx, unmarked⟩ := @received_unmarked crypto pblock tx
  have join (involves : wallet.mapWallet (tx.getHash crypto) = none → tx ∉ seen)
      (added : CWallet.addToWallet crypto (.received crypto pblock tx) wallet = (.ok (), after)) :
      after.Recorded crypto (tx :: seen) (tx :: seen) := by
    have result := recorded_addToWallet recorded (same_tx.symm ▸ orderly) unmarked
      (same_tx.symm ▸ involves) added
    rwa [same_tx] at result
  unfold CWallet.receive at received
  dsimp only at received
  split_ifs at received with known involved
  · obtain ⟨-, rfl⟩ := Prod.mk.inj received
    obtain ⟨wtx, found⟩ := Option.isSome_iff_exists.mp known.1
    have listed := (mem_seen_of_found recorded orderly found).2
    have kept := recorded.know tx fun missing => by simp [found] at missing
    refine ⟨kept.entry, kept.absent, fun hash wtx i found mine => ?_⟩
    rw [kept.spent hash wtx i found mine, exists_spends_cons]
    exact (or_iff_left_of_imp fun spends => ⟨tx, listed, spends⟩).symm
  · refine join (fun missing listed => ?_) received
    have absent := (recorded.absent tx listed missing).1
    simp [missing, absent] at involved
  · obtain ⟨unrecorded, not_mine⟩ := Bool.or_eq_false_iff.mp (eq_false_of_ne_true involved)
    have missing := Option.not_isSome_iff_eq_none.mp (ne_true_of_eq_false unrecorded)
    split at received
    · simp at received
    · rename_i from_me
      refine join (fun _ listed => ?_) received
      have absent := (recorded.absent tx listed missing).2
      simp [from_me] at absent
    · rename_i from_me
      have known := recorded.know tx fun _ => ⟨not_mine, from_me⟩
      exact known.marked (marked_walletUpdateSpent received) exists_spends_cons

/-- Every input of the transaction spends an output of the wallet, together of a positive value. -/
structure CWallet.Funds (crypto : Crypto) (wallet : CWallet) (tx : CTransaction) : Prop where
  inputs : ∀ txin ∈ tx.vin, ∃ wtx, wallet.mapWallet txin.prevout.hash = some wtx ∧
    txin.prevout.n.toNat < wtx.tx.vout.length
  positive : 0 < (tx.vin.map (wallet.getDebitInput crypto)).sum

private theorem getDebitLoop_sum {nDebit total : Int} {vin : List CTxIn}
    (looped : wallet.getDebitLoop crypto nDebit vin = .ok total) :
    total = nDebit + (vin.map (wallet.getDebitInput crypto)).sum := by
  induction vin generalizing nDebit with
  | nil =>
      obtain rfl := pure_eq_ok.mp looped
      simp
  | cons txin vin induction =>
      obtain ⟨next, fits, looped⟩ := except_bind_eq_ok.mp looped
      obtain ⟨-, rfl⟩ := int64_eq_ok.mp fits
      split_ifs at looped
      rw [induction looped, List.map_cons, List.sum_cons, add_assoc]

private theorem not_funds_of_foreign (foreign : wallet.isFromMe crypto tx = .ok false) :
    ¬wallet.Funds crypto tx := by
  intro funds
  obtain ⟨nDebit, looped, sign⟩ := except_bind_eq_ok.mp foreign
  have total := getDebitLoop_sum looped
  have positive := funds.positive
  rw [zero_add] at total
  simp only [pure_eq_ok, decide_eq_false_iff_not] at sign
  omega

private theorem recorded_commit (recorded : wallet.Recorded crypto seen seen)
    (orderly : Orderly crypto seen tx) (funds : wallet.Funds crypto tx)
    (committed : CWallet.commitTransaction crypto tx wallet = (.ok (), after)) :
    after.Recorded crypto (tx :: seen) (tx :: seen) := by
  unfold CWallet.commitTransaction at committed
  split at committed
  · simp at committed
  · rename_i middle added
    have entered := recorded_addToWallet recorded orderly rfl
      (fun missing listed => not_funds_of_foreign (recorded.absent tx listed missing).2 funds) added
    refine entered.marked (marked_sequence (fun _ _ _ _ => marked_markCoin) committed) ?_
    intro hash i
    refine (or_iff_left_of_imp ?_).symm
    rintro ⟨txin, input, spends⟩
    exact ⟨tx, List.mem_cons_self, txin, input, spends⟩

end Step

/-! ## A run -/

/-- Entries stay, and the keys are the same. -/
structure CWallet.Keeps (before after : CWallet) : Prop where
  keystore : after.keystore = before.keystore
  minimum : after.nMinimumInputValue = before.nMinimumInputValue
  entry : ∀ hash old, before.mapWallet hash = some old →
    ∃ new, after.mapWallet hash = some new ∧ new.tx = old.tx

private theorem CWallet.Keeps.refl (wallet : CWallet) : wallet.Keeps wallet :=
  ⟨rfl, rfl, fun _ old found => ⟨old, found, rfl⟩⟩

private theorem CWallet.Keeps.trans {before middle after : CWallet} (first : before.Keeps middle)
    (second : middle.Keeps after) : before.Keeps after := by
  refine ⟨second.keystore.trans first.keystore, second.minimum.trans first.minimum, ?_⟩
  intro hash old found
  obtain ⟨between, found, same⟩ := first.entry hash old found
  obtain ⟨new, last, same'⟩ := second.entry hash between found
  exact ⟨new, last, same'.trans same⟩

private theorem CWallet.Marked.keeps {before after : CWallet} {marked : UInt256 → Nat → Prop}
    (marks : before.Marked crypto after marked) : before.Keeps after := by
  refine ⟨marks.keystore, marks.minimum, fun hash old found => ?_⟩
  cases last : after.mapWallet hash with
  | none =>
      rw [(marks.none_iff hash).mp last] at found
      contradiction
  | some new => exact ⟨new, rfl, (marks.entry hash old new found last).1⟩

private theorem CWallet.keeps_put {wallet : CWallet} {hash : UInt256} {wtx : CWalletTx}
    (same : ∀ old, wallet.mapWallet hash = some old → wtx.tx = old.tx) :
    wallet.Keeps (wallet.put hash wtx) := by
  refine ⟨rfl, rfl, fun other old found => ?_⟩
  by_cases here : other = hash
  · subst here
    exact ⟨wtx, wallet.mapWallet_put_self .., same old found⟩
  · exact ⟨old, (CWallet.mapWallet_put_of_ne here).trans found, rfl⟩

private theorem keeps_addToWallet {wallet after : CWallet} {wtxIn : CWalletTx}
    (added : CWallet.addToWallet crypto wtxIn wallet = (.ok (), after)) : wallet.Keeps after := by
  unfold CWallet.addToWallet at added
  dsimp only at added
  refine CWallet.Keeps.trans ?_ (marked_walletUpdateSpent added).keeps
  refine CWallet.keeps_put fun old found => ?_
  rw [found]
  rfl

private theorem keeps_run {delivery : Delivery} {wallet after : CWallet}
    (ran : delivery.run crypto wallet = (.ok (), after)) : wallet.Keeps after := by
  cases delivery with
  | receive pblock fUpdate tx =>
      unfold Delivery.run CWallet.receive at ran
      dsimp only at ran
      split_ifs at ran with known involved
      · obtain ⟨-, rfl⟩ := Prod.mk.inj ran
        exact .refl wallet
      · exact keeps_addToWallet ran
      · split at ran
        · simp at ran
        · exact keeps_addToWallet ran
        · exact (marked_walletUpdateSpent ran).keeps
  | commit tx =>
      unfold Delivery.run CWallet.commitTransaction at ran
      dsimp only at ran
      split at ran
      · simp at ran
      · rename_i middle added
        have marks : middle.Marked crypto after _ :=
          marked_sequence (fun _ _ _ _ => marked_markCoin) ran
        exact (keeps_addToWallet added).trans marks.keeps

private theorem keeps_runs {deliveries : List Delivery} {wallet after : CWallet}
    (ran : sequence (Delivery.run crypto) deliveries wallet = (.ok (), after)) :
    wallet.Keeps after := by
  induction deliveries generalizing wallet with
  | nil =>
      obtain ⟨-, rfl⟩ := Prod.mk.inj ran
      exact .refl wallet
  | cons delivery deliveries induction =>
      obtain ⟨middle, first, rest⟩ := sequence_cons_eq_ok.mp ran
      exact (keeps_run first).trans (induction rest)

/-- A created transaction spends outputs of the wallet that made it, and of every later one. -/
private theorem funds_of_creates {wallet after : CWallet} {tx : CTransaction}
    (creates : wallet.Creates crypto tx) (keeps : wallet.Keeps after) : after.Funds crypto tx := by
  obtain ⟨lib, spending, keypool, object, fuel, chances, vecSend, wtxNew, state, final, attempt,
    reads, positive, created, rfl⟩ := creates
  obtain ⟨balanced, -⟩ := SpendingWallet.balanced_createTransaction keypool object created
  obtain ⟨store, owned⟩ := balanced.inputs
  have worth := SpendingWallet.inputs_positive keypool object created positive
  have entry {txin : CTxIn} (input : txin ∈ attempt.wtxNew.vin) :
      ∃ wtx txout, after.mapWallet txin.prevout.hash = some wtx ∧
        wtx.tx.vout[txin.prevout.n.toNat]? = some txout ∧
          after.isMineOutput crypto txout = true ∧
            spending.nValue (SpendingWallet.spentCoin txin) = txout.nValue.toInt := by
    obtain ⟨txout, found, mine⟩ := owned txin input
    rw [reads.keystore, ← keeps.keystore] at mine
    have value : spending.nValue (SpendingWallet.spentCoin txin) = txout.nValue.toInt := by
      rw [SpendingWallet.nValue, found]
      rfl
    obtain ⟨wtx, stored, output⟩ := Option.bind_eq_some_iff.mp found
    rw [reads.mapWallet] at stored
    obtain ⟨new, last, same⟩ := keeps.entry _ wtx stored
    rw [← same] at output
    exact ⟨new, txout, last, output, mine, value⟩
  refine ⟨fun txin input => ?_, ?_⟩
  · obtain ⟨wtx, txout, found, output, -, -⟩ := entry input
    exact ⟨wtx, found, (List.getElem?_eq_some_iff.mp output).1⟩
  · have values : attempt.wtxNew.vin.map (after.getDebitInput crypto) =
        attempt.wtxNew.vin.map fun txin => spending.nValue (SpendingWallet.spentCoin txin) := by
      refine List.map_congr_left fun txin input => ?_
      obtain ⟨wtx, txout, found, output, mine, value⟩ := entry input
      simp only [CWallet.getDebitInput, found, output, mine, if_true, value]
    rw [values]
    exact worth

/-! ## Deliveries that succeed -/

/-- The value that an input spends from some transactions. -/
def spentValue (crypto : Crypto) (txs : List CTransaction) (txin : CTxIn) : Int :=
  match txs.find? fun tx => tx.getHash crypto = txin.prevout.hash with
  | none => 0
  | some tx => ((tx.vout[txin.prevout.n.toNat]?).map fun txout => txout.nValue.toInt).getD 0

/-- What the checks before a delivery establish: inputs spend outputs that exist, and amounts are in
range. -/
structure Deliverable (crypto : Crypto) (txs : List CTransaction) : Prop where
  outputs : ∀ tx ∈ txs, ∀ parent ∈ txs, ∀ i, tx.Spends (parent.getHash crypto) i →
    i < parent.vout.length
  nonneg : ∀ tx ∈ txs, ∀ txout ∈ tx.vout, 0 ≤ txout.nValue.toInt
  total : ∀ tx ∈ txs, (tx.vin.map (spentValue crypto txs)).sum ≤ maxMoney

section Succeeds

variable {txs : List CTransaction} {wallet : CWallet}

private theorem updateSpent_succeeds {vin : List CTxIn}
    (inside : ∀ txin ∈ vin, ∀ wtx, wallet.mapWallet txin.prevout.hash = some wtx →
      txin.prevout.n.toNat < wtx.tx.vout.length) :
    ∃ after, sequence (CWallet.updateSpentInput crypto) vin wallet = (.ok (), after) := by
  induction vin generalizing wallet with
  | nil => exact ⟨wallet, rfl⟩
  | cons txin vin induction =>
      obtain ⟨own, others⟩ := List.forall_mem_cons.mp inside
      have first : ∃ middle, CWallet.updateSpentInput crypto txin wallet = (.ok (), middle) := by
        unfold CWallet.updateSpentInput
        split
        · exact ⟨_, rfl⟩
        · rename_i wtx found
          have known : wtx.isSpent txin.prevout.n.toNat =
              .ok ((wtx.vfSpent[txin.prevout.n.toNat]?).getD false) :=
            isSpent_eq_ok.mpr ⟨own wtx found, rfl⟩
          rw [known]
          dsimp only
          split_ifs
          · exact ⟨_, rfl⟩
          · exact ⟨_, rfl⟩
      obtain ⟨middle, first⟩ := first
      have marks := marked_updateSpentInput first
      obtain ⟨after, rest⟩ := @induction middle fun later input new last => by
        cases found : wallet.mapWallet later.prevout.hash with
        | none =>
            rw [(marks.none_iff _).mpr found] at last
            contradiction
        | some old =>
            rw [(marks.entry _ old new found last).1]
            exact others later input old found
      exact ⟨after, sequence_cons_eq_ok.mpr ⟨middle, first, rest⟩⟩

private theorem markCoin_succeeds (crypto : Crypto) {vin : List CTxIn}
    (inside : ∀ txin ∈ vin, ∃ wtx, wallet.mapWallet txin.prevout.hash = some wtx ∧
      txin.prevout.n.toNat < wtx.tx.vout.length) :
    ∃ after, sequence CWallet.markCoin vin wallet = (.ok (), after) := by
  induction vin generalizing wallet with
  | nil => exact ⟨wallet, rfl⟩
  | cons txin vin induction =>
      obtain ⟨⟨wtx, found, own⟩, others⟩ := List.forall_mem_cons.mp inside
      obtain ⟨middle, first⟩ : ∃ middle, CWallet.markCoin txin wallet = (.ok (), middle) := by
        unfold CWallet.markCoin
        rw [found]
        exact ⟨_, if_neg (Nat.not_le.mpr own)⟩
      have marks : wallet.Marked crypto middle _ := marked_markCoin first
      obtain ⟨after, rest⟩ := @induction middle fun later input => by
        obtain ⟨old, found, small⟩ := others later input
        obtain ⟨new, last, same⟩ := marks.keeps.entry _ old found
        exact ⟨new, last, same ▸ small⟩
      exact ⟨after, sequence_cons_eq_ok.mpr ⟨middle, first, rest⟩⟩

variable {seen : List CTransaction} {tx : CTransaction}
  (unique : Set.InjOn (CTransaction.getHash crypto) {tx | tx ∈ txs})
  (valid : Deliverable crypto txs) (recorded : wallet.Recorded crypto seen seen)
  (listed : ∀ other ∈ seen, other ∈ txs) (delivered : tx ∈ txs)

include unique valid recorded listed in
private theorem getDebitInput_le (txin : CTxIn) :
    0 ≤ wallet.getDebitInput crypto txin ∧
      wallet.getDebitInput crypto txin ≤ spentValue crypto txs txin := by
  have value_nonneg {parent : CTransaction} (member : parent ∈ txs) (n : Nat) :
      0 ≤ ((parent.vout[n]?).map fun txout => txout.nValue.toInt).getD 0 := by
    cases output : parent.vout[n]? with
    | none => exact le_rfl
    | some txout => exact valid.nonneg parent member txout (List.mem_of_getElem? output)
  have spent_nonneg : 0 ≤ spentValue crypto txs txin := by
    unfold spentValue
    split
    · exact le_rfl
    · rename_i parent found
      exact value_nonneg (List.mem_of_find?_eq_some found) _
  unfold CWallet.getDebitInput
  cases stored : wallet.mapWallet txin.prevout.hash with
  | none => exact ⟨le_rfl, spent_nonneg⟩
  | some wtx =>
      obtain ⟨hash, member⟩ := recorded.entry _ wtx stored
      have found : txs.find? (fun tx => tx.getHash crypto = txin.prevout.hash) = some wtx.tx := by
        cases search : txs.find? fun tx => tx.getHash crypto = txin.prevout.hash with
        | none =>
            have missed := List.find?_eq_none.mp search wtx.tx (listed _ member)
            simp [hash] at missed
        | some parent =>
            have same : parent.getHash crypto = txin.prevout.hash := by
              simpa using List.find?_some search
            rw [unique (List.mem_of_find?_eq_some search) (listed _ member) (same.trans hash.symm)]
      dsimp only
      cases output : wtx.tx.vout[txin.prevout.n.toNat]? with
      | none => exact ⟨le_rfl, spent_nonneg⟩
      | some txout =>
          have value : spentValue crypto txs txin = txout.nValue.toInt := by
            rw [spentValue, found]
            simp [output]
          have nonneg := valid.nonneg _ (listed _ member) txout (List.mem_of_getElem? output)
          dsimp only
          split_ifs
          · exact ⟨nonneg, value.ge⟩
          · exact ⟨le_rfl, spent_nonneg⟩

include unique valid recorded listed delivered in
private theorem isFromMe_succeeds : ∃ fFromMe, wallet.isFromMe crypto tx = .ok fFromMe := by
  have loop (vin : List CTxIn) (nDebit : Int) (start : 0 ≤ nDebit)
      (total : nDebit + (vin.map (spentValue crypto txs)).sum ≤ maxMoney) :
      ∃ result, wallet.getDebitLoop crypto nDebit vin = .ok result := by
    induction vin generalizing nDebit with
    | nil => exact ⟨nDebit, rfl⟩
    | cons txin vin induction =>
        obtain ⟨low, high⟩ := getDebitInput_le unique valid recorded listed txin
        have rest : 0 ≤ (vin.map (spentValue crypto txs)).sum := by
          refine List.sum_nonneg fun value member => ?_
          obtain ⟨input, -, rfl⟩ := List.mem_map.mp member
          obtain ⟨low, high⟩ := getDebitInput_le unique valid recorded listed input
          exact low.trans high
        rw [List.map_cons, List.sum_cons] at total
        have fits : int64 (nDebit + wallet.getDebitInput crypto txin) =
            .ok (nDebit + wallet.getDebitInput crypto txin) :=
          int64_of_mem (le_trans (by decide) (add_nonneg start low))
            (le_trans (show _ ≤ maxMoney by omega) (by decide))
        rw [CWallet.getDebitLoop, fits, except_ok_bind, if_pos ⟨by omega, by omega⟩]
        exact induction _ (by omega) (by omega)
  obtain ⟨nDebit, looped⟩ := loop tx.vin 0 le_rfl (by simpa using valid.total tx delivered)
  exact ⟨decide (0 < nDebit), by rw [CWallet.isFromMe, looped]; rfl⟩

omit recorded in
include valid listed delivered in
private theorem walletUpdateSpent_succeeds {after : CWallet}
    (marks : ∀ hash wtx, after.mapWallet hash = some wtx → wtx.tx.getHash crypto = hash ∧
      (wtx.tx = tx ∨ wtx.tx ∈ seen)) :
    ∃ last, CWallet.walletUpdateSpent crypto tx after = (.ok (), last) := by
  refine updateSpent_succeeds fun txin input wtx found => ?_
  obtain ⟨hash, known⟩ := marks _ wtx found
  refine valid.outputs tx delivered wtx.tx ?_ _ ⟨txin, input, hash.symm, rfl⟩
  rcases known with rfl | member
  · exact delivered
  · exact listed _ member

include recorded in
private theorem CWallet.Recorded.entry_put {new : CWalletTx} {hash : UInt256} (same : new.tx = tx)
    (hashed : new.tx.getHash crypto = hash) (other : UInt256) (wtx : CWalletTx)
    (found : (wallet.put hash new).mapWallet other = some wtx) :
    wtx.tx.getHash crypto = other ∧ (wtx.tx = tx ∨ wtx.tx ∈ seen) := by
  by_cases here : other = hash
  · subst here
    obtain rfl := Option.some.inj ((wallet.mapWallet_put_self ..).symm.trans found)
    exact ⟨hashed, .inl same⟩
  · rw [CWallet.mapWallet_put_of_ne here] at found
    obtain ⟨hashed, member⟩ := recorded.entry other wtx found
    exact ⟨hashed, .inr member⟩

include unique valid recorded listed delivered in
private theorem addToWallet_succeeds {wtxIn : CWalletTx} (same : wtxIn.tx = tx) :
    ∃ after, CWallet.addToWallet crypto wtxIn wallet = (.ok (), after) := by
  subst same
  unfold CWallet.addToWallet
  dsimp only
  cases found : wallet.mapWallet (wtxIn.tx.getHash crypto) with
  | none => exact walletUpdateSpent_succeeds valid listed delivered (recorded.entry_put rfl rfl)
  | some old =>
      obtain ⟨hashed, member⟩ := recorded.entry _ old found
      have merged : (wtxIn.merge old).tx = wtxIn.tx := unique (listed _ member) delivered hashed
      dsimp only
      rw [merged]
      exact walletUpdateSpent_succeeds valid listed delivered
        (recorded.entry_put merged (congrArg _ merged))

include unique valid recorded listed delivered in
private theorem receive_succeeds (pblock : Option CBlock) (fUpdate : Bool) :
    ∃ after, CWallet.receive crypto pblock fUpdate tx wallet = (.ok (), after) := by
  obtain ⟨same_tx, -⟩ := @received_unmarked crypto pblock tx
  have joined := addToWallet_succeeds unique valid recorded listed delivered same_tx
  unfold CWallet.receive
  dsimp only
  split_ifs with known involved
  · exact ⟨wallet, rfl⟩
  · exact joined
  · obtain ⟨fFromMe, asked⟩ := isFromMe_succeeds unique valid recorded listed delivered
    rw [asked]
    cases fFromMe with
    | true => exact joined
    | false =>
        refine walletUpdateSpent_succeeds valid listed delivered fun hash wtx found => ?_
        obtain ⟨hashed, member⟩ := recorded.entry hash wtx found
        exact ⟨hashed, .inr member⟩

include unique valid recorded listed delivered in
private theorem commitTransaction_succeeds (funds : wallet.Funds crypto tx) :
    ∃ after, CWallet.commitTransaction crypto tx wallet = (.ok (), after) := by
  obtain ⟨middle, added⟩ := @addToWallet_succeeds _ _ _ _ _ unique valid recorded listed delivered
    { CWalletTx.ofTransaction tx with fFromMe := true } rfl
  unfold CWallet.commitTransaction
  rw [added]
  refine markCoin_succeeds crypto fun txin input => ?_
  obtain ⟨old, found, inside⟩ := funds.inputs txin input
  obtain ⟨new, last, same⟩ := (keeps_addToWallet added).entry _ old found
  exact ⟨new, last, same ▸ inside⟩

end Succeeds

/-! ## Every run -/

section Run

variable {deliveries : List Delivery} {start : CWallet}

private theorem orderly_of_parentsFirst {earlier later : List Delivery} {delivery : Delivery}
    (unique : Set.InjOn (CTransaction.getHash crypto) {tx | tx ∈ deliveries.map Delivery.tx})
    (parents : ParentsFirst crypto deliveries)
    (split : deliveries = earlier ++ delivery :: later) :
    Orderly crypto (earlier.map Delivery.tx).reverse delivery.tx := by
  have listed : delivery.tx ∈ deliveries.map Delivery.tx := by simp [split]
  constructor
  · intro other member same
    refine unique ?_ listed same
    rw [split, List.map_append]
    exact List.mem_append_left _ (List.mem_reverse.mp member)
  · intro fresh other member i spends
    obtain ⟨spender, ran, rfl⟩ := List.mem_map.mp (List.mem_reverse.mp member)
    obtain ⟨front, back, rfl⟩ := List.append_of_mem ran
    have before := parents front spender (back ++ delivery :: later) (by simp [split]) _ listed i
      spends
    apply fresh
    rw [List.mem_reverse, List.map_append]
    exact List.mem_append_left _ before

private theorem funds_of_commitsCreated {earlier later : List Delivery} {tx : CTransaction}
    {wallet : CWallet} (created : CommitsCreated crypto start deliveries)
    (split : deliveries = earlier ++ .commit tx :: later)
    (ran : sequence (Delivery.run crypto) earlier start = (.ok (), wallet)) :
    wallet.Funds crypto tx := by
  obtain ⟨before, between, middle, rfl, made, creates⟩ := created earlier tx later split
  obtain ⟨state, first, second⟩ := sequence_append_eq_ok ran
  obtain ⟨-, rfl⟩ := Prod.mk.inj (made.symm.trans first)
  exact funds_of_creates creates (keeps_runs second)

variable (unique : Set.InjOn (CTransaction.getHash crypto) {tx | tx ∈ deliveries.map Delivery.tx})
  (parents : ParentsFirst crypto deliveries) (created : CommitsCreated crypto start deliveries)
  (fresh : start.Recorded crypto [] [])

include unique parents created fresh in
/-- After every prefix of a run, the wallet has recorded what was delivered so far. -/
private theorem recorded_prefix {earlier later : List Delivery} {wallet : CWallet}
    (split : deliveries = earlier ++ later)
    (ran : sequence (Delivery.run crypto) earlier start = (.ok (), wallet)) :
    wallet.Recorded crypto (earlier.map Delivery.tx).reverse (earlier.map Delivery.tx).reverse := by
  induction earlier using List.reverseRecOn generalizing wallet later with
  | nil =>
      obtain ⟨-, rfl⟩ := Prod.mk.inj ran
      exact fresh
  | append_singleton earlier delivery induction =>
      obtain ⟨before, first, last⟩ := sequence_append_eq_ok ran
      obtain ⟨after, step, ended⟩ := sequence_cons_eq_ok.mp last
      obtain ⟨-, rfl⟩ := Prod.mk.inj ended
      rw [List.append_assoc, List.singleton_append] at split
      have recorded := induction split first
      have orderly := orderly_of_parentsFirst unique parents split
      rw [List.map_append, List.reverse_append]
      cases delivery with
      | receive pblock fUpdate tx => exact recorded_receive recorded orderly step
      | commit tx =>
          exact recorded_commit recorded orderly (funds_of_commitsCreated created split first) step

include unique parents created fresh in
private theorem prefix_succeeds {earlier later : List Delivery}
    (valid : Deliverable crypto (deliveries.map Delivery.tx))
    (split : deliveries = earlier ++ later) :
    ∃ wallet, sequence (Delivery.run crypto) earlier start = (.ok (), wallet) := by
  induction earlier using List.reverseRecOn generalizing later with
  | nil => exact ⟨start, rfl⟩
  | append_singleton earlier delivery induction =>
      rw [List.append_assoc, List.singleton_append] at split
      obtain ⟨wallet, first⟩ := induction split
      have recorded := recorded_prefix unique parents created fresh split first
      have delivered : delivery.tx ∈ deliveries.map Delivery.tx := by simp [split]
      have listed : ∀ tx ∈ (earlier.map Delivery.tx).reverse, tx ∈ deliveries.map Delivery.tx := by
        intro tx member
        rw [split, List.map_append]
        exact List.mem_append_left _ (List.mem_reverse.mp member)
      have step : ∃ after, delivery.run crypto wallet = (.ok (), after) := by
        cases delivery with
        | receive pblock fUpdate tx =>
            exact receive_succeeds unique valid recorded listed delivered pblock fUpdate
        | commit tx =>
            exact commitTransaction_succeeds unique valid recorded listed delivered
              (funds_of_commitsCreated created split first)
      obtain ⟨after, step⟩ := step
      rw [sequence_append, first]
      exact ⟨after, sequence_cons_eq_ok.mpr ⟨after, step, rfl⟩⟩

end Run

private theorem recorded_empty (keystore : CKeyStore) (nMinimumInputValue : Int) :
    (CWallet.empty keystore nMinimumInputValue).Recorded crypto [] [] :=
  ⟨fun _ _ found => (nomatch found), fun _ member => (nomatch member),
    fun _ _ _ found => (nomatch found)⟩

/-- An order of deliveries that a wallet can receive. -/
structure Delivered (crypto : Crypto) (start : CWallet) (deliveries : List Delivery) : Prop where
  parents : ParentsFirst crypto deliveries
  created : CommitsCreated crypto start deliveries

private theorem isSpent_of_run {keystore : CKeyStore} {nMinimumInputValue : Int}
    {deliveries : List Delivery} {wallet : CWallet}
    (unique : Set.InjOn (CTransaction.getHash crypto) {tx | tx ∈ deliveries.map Delivery.tx})
    (delivered : Delivered crypto (.empty keystore nMinimumInputValue) deliveries)
    (ran : sequence (Delivery.run crypto) deliveries (.empty keystore nMinimumInputValue) =
      (.ok (), wallet)) {hash : UInt256} {wtx : CWalletTx} {i : Nat}
    (found : wallet.mapWallet hash = some wtx)
    (mine : (wtx.tx.vout[i]?).any (wallet.isMineOutput crypto) = true) :
    wtx.isSpent i = .ok true ↔ ∃ tx ∈ deliveries.map Delivery.tx, tx.Spends hash i := by
  have recorded := recorded_prefix unique delivered.parents delivered.created
    (recorded_empty keystore nMinimumInputValue) (List.append_nil deliveries).symm ran
  rw [recorded.spent hash wtx i found mine]
  simp only [List.mem_reverse]

/-- A payment to the key of `tagStore`. -/
def tagReceipt : CTransaction where
  nVersion := 1
  vin := []
  vout := [{ nValue := 7, scriptPubKey := tagPayment }]
  nLockTime := 0

/-- A transaction that spends it. -/
def tagSpend : CTransaction where
  nVersion := 1
  vin := [{
    prevout := { hash := tagReceipt.getHash tagCrypto, n := 0 }
    scriptSig := []
    nSequence := 0xffffffff }]
  vout := [{ nValue := 1, scriptPubKey := [] }]
  nLockTime := 0

private theorem parentsFirst_pair {first second : Delivery}
    (root : ∀ hash i, ¬first.tx.Spends hash i)
    (child : ∀ i, ¬second.tx.Spends (second.tx.getHash crypto) i) :
    ParentsFirst crypto [first, second] := by
  intro earlier delivery later split parent member i spends
  rcases earlier with - | ⟨head, - | ⟨next, earlier⟩⟩
  · obtain ⟨here, -⟩ := List.cons.inj split
    exact absurd (here ▸ spends) (root _ i)
  · simp only [List.cons_append, List.nil_append, List.cons.injEq] at split
    obtain ⟨rfl, rfl, -⟩ := split
    simp only [List.map_cons, List.map_nil, List.mem_cons, List.not_mem_nil, or_false] at member
    rcases member with rfl | rfl
    · exact List.mem_singleton.mpr rfl
    · exact absurd spends (child i)
  · simp at split

/-- Both transactions reach the wallet from the memory pool. -/
def tagDeliveries : List Delivery :=
  [.receive none false tagReceipt, .receive none false tagSpend]

end FooCoin

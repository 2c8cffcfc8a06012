import FooCoin.Wallet

/-!
# When synchronising leaves a wallet alone

Wallets only grow: entries stay, and spent flags stay set.  So transactions leave a wallet as it was
exactly when none of them joins it, none of them marks an output of it, and the places that they
give to recorded transactions lead back to the recorded places.
-/

namespace FooCoin

open Function Stateful

variable (crypto : Crypto)

/-- An output of the wallet that is not yet marked as spent. -/
def CWallet.Unmarked (wallet : CWallet) (prevout : COutPoint) : Prop :=
  ∃ wtx, wallet.mapWallet prevout.hash = some wtx ∧ wtx.isSpent prevout.n.toNat = .ok false ∧
    (wtx.tx.vout[prevout.n.toNat]?).any (wallet.isMineOutput crypto) = true

/-- The transaction is not recorded and pays to the wallet or spends from it. -/
def CWallet.Joins (wallet : CWallet) (tx : CTransaction) : Prop :=
  wallet.mapWallet (tx.getHash crypto) = none ∧
    (wallet.isMine crypto tx = true ∨ wallet.isFromMe crypto tx = .ok true)

/-- The transaction, in its recorded form, spends an output that is not yet marked. -/
def CWallet.Marks (wallet : CWallet) (tx : CTransaction) : Prop :=
  ∃ txin ∈ (((wallet.mapWallet (tx.getHash crypto)).map CWalletTx.tx).getD tx).vin,
    wallet.Unmarked crypto txin.prevout

/-- Give a recorded transaction its place in a block. -/
def CWalletTx.place (wtx : CWalletTx) (found : CBlock × CTransaction) : CWalletTx :=
  ((CWalletTx.ofTransaction found.2).setMerkleBranch crypto found.1).merge wtx

/-- Give the recorded transactions the places that transactions in blocks have, one after the
other. -/
def CWallet.placeAll (found : List (CBlock × CTransaction)) (wallet : CWallet) : CWallet :=
  { wallet with
    mapWallet := fun hash => (wallet.mapWallet hash).map fun wtx =>
      (found.filter fun item => item.2.getHash crypto = hash).foldl
        (fun wtx item => wtx.place crypto item) wtx }

/-- The wallet has nothing to learn from transactions in blocks. -/
structure CWallet.Settled (wallet : CWallet) (found : List (CBlock × CTransaction)) : Prop where
  /-- None of them is new to the wallet and involves it. -/
  joins : ∀ item ∈ found, ¬wallet.Joins crypto item.2
  /-- The outputs of the wallet that they spend are marked as spent. -/
  marks : ∀ item ∈ found, ¬wallet.Marks crypto item.2
  /-- The places of recorded transactions are the recorded ones in the end. -/
  places : wallet.placeAll crypto found = wallet

variable {crypto}

/-! ## Growing -/

/-- Entries stay, and spent flags stay set. -/
structure CWallet.Grows (before after : CWallet) : Prop where
  keystore : after.keystore = before.keystore
  minimum : after.nMinimumInputValue = before.nMinimumInputValue
  entries : ∀ hash wtx, before.mapWallet hash = some wtx → ∃ wtx', after.mapWallet hash = some wtx' ∧
    wtx'.tx = wtx.tx ∧ ∀ n, wtx.isSpent n = .ok true → wtx'.isSpent n = .ok true

theorem CWallet.Grows.refl (wallet : CWallet) : wallet.Grows wallet :=
  ⟨rfl, rfl, fun _ wtx found => ⟨wtx, found, rfl, fun _ spent => spent⟩⟩

theorem CWallet.Grows.trans {before middle after : CWallet} (first : before.Grows middle)
    (second : middle.Grows after) : before.Grows after := by
  refine ⟨second.keystore.trans first.keystore, second.minimum.trans first.minimum, ?_⟩
  intro hash wtx found
  obtain ⟨wtx', found', tx', spent'⟩ := first.entries hash wtx found
  obtain ⟨wtx'', found'', tx'', spent''⟩ := second.entries hash wtx' found'
  exact ⟨wtx'', found'', tx''.trans tx', fun n spent => spent'' n (spent' n spent)⟩

theorem isSpent_eq_ok {wtx : CWalletTx} {n : Nat} {fSpent : Bool} :
    wtx.isSpent n = .ok fSpent ↔ n < wtx.tx.vout.length ∧ (wtx.vfSpent[n]?).getD false = fSpent := by
  unfold CWalletTx.isSpent
  split
  · rename_i outside
    simp [Nat.not_lt.mpr outside]
  · rename_i inside
    simp [Nat.not_le.mp inside]

/-- Marking sets one flag. -/
theorem isSpent_markSpent {wtx : CWalletTx} {n m : Nat} (inside : m < wtx.tx.vout.length) :
    (wtx.markSpent n).isSpent m = .ok true ↔ n = m ∨ wtx.isSpent m = .ok true := by
  have length : ((List.range wtx.tx.vout.length).map fun n => (wtx.vfSpent[n]?).getD false).length =
      wtx.tx.vout.length := by simp
  simp only [isSpent_eq_ok, CWalletTx.markSpent, inside, true_and, List.getElem?_set, length]
  by_cases same : n = m
  · subst same
    simp [inside]
  · simp [same, inside]

/-- A changed entry that keeps its transaction and its spent flags is growth. -/
private theorem CWallet.grows_update {wallet : CWallet} {hash : UInt256} {wtx : CWalletTx}
    (keeps : ∀ old, wallet.mapWallet hash = some old →
      wtx.tx = old.tx ∧ ∀ n, old.isSpent n = .ok true → wtx.isSpent n = .ok true) :
    wallet.Grows { wallet with mapWallet := update wallet.mapWallet hash (some wtx) } := by
  refine ⟨rfl, rfl, fun other old found => ?_⟩
  by_cases same : other = hash
  · subst same
    exact ⟨wtx, update_self .., keeps old found⟩
  · exact ⟨old, (update_of_ne same ..).trans found, rfl, fun _ spent => spent⟩

private theorem CWallet.grows_updateSpentInput (txin : CTxIn) (wallet : CWallet) :
    wallet.Grows (CWallet.updateSpentInput crypto txin wallet).2 := by
  unfold CWallet.updateSpentInput
  split
  · exact .refl wallet
  · rename_i wtx found
    split
    · exact .refl wallet
    · split
      · refine CWallet.grows_update fun old present => ?_
        cases found.symm.trans present
        refine ⟨rfl, fun n spent => ?_⟩
        exact (isSpent_markSpent (isSpent_eq_ok.mp spent).1).mpr (.inr spent)
      · exact .refl wallet

private theorem CWallet.grows_walletUpdateSpent (crypto : Crypto) (tx : CTransaction) (wallet : CWallet) :
    wallet.Grows (CWallet.walletUpdateSpent crypto tx wallet).2 :=
  sequence_keeps (fun txin _ middle grown => grown.trans (grows_updateSpentInput txin middle))
    (.refl wallet)

/-- What a place changes. -/
private theorem place_keeps (crypto : Crypto) (wtx : CWalletTx) (item : CBlock × CTransaction) :
    (wtx.place crypto item).tx = wtx.tx ∧ (wtx.place crypto item).vfSpent = wtx.vfSpent := by
  refine ⟨rfl, ?_⟩
  have empty : ((CWalletTx.ofTransaction item.2).setMerkleBranch crypto item.1).vfSpent = [] := by
    unfold CWalletTx.setMerkleBranch
    split <;> rfl
  apply List.ext_getElem?
  simp [CWalletTx.place, CWalletTx.merge, empty]

/-- Synchronising with a transaction of a block only makes a wallet grow. -/
theorem CWallet.grows_addToWalletIfInvolvingMe (block : CBlock) (fUpdate : Bool)
    (tx : CTransaction) (wallet : CWallet) :
    wallet.Grows (CWallet.addToWalletIfInvolvingMe crypto block fUpdate tx wallet).2 := by
  simp only [CWallet.addToWalletIfInvolvingMe]
  split
  · exact .refl wallet
  · split
    · exact .refl wallet
    · refine (CWallet.grows_update fun old present => ?_).trans (grows_walletUpdateSpent crypto _ _)
      have placed : ((CWalletTx.ofTransaction tx).setMerkleBranch crypto block).tx = tx := by
        unfold CWalletTx.setMerkleBranch
        split <;> rfl
      rw [placed] at present
      simp only [placed, present]
      obtain ⟨same_tx, same_flags⟩ := place_keeps crypto old (block, tx)
      refine ⟨same_tx, fun n spent => ?_⟩
      rw [isSpent_eq_ok] at spent ⊢
      simp only [CWalletTx.place] at same_tx same_flags
      rwa [same_tx, same_flags]
    · exact grows_walletUpdateSpent crypto tx wallet

/-! ## Not growing -/

/-- Marking a spent input that does not make the wallet grow does nothing. -/
private theorem updateSpentInput_fixed {txin : CTxIn} {wallet after : CWallet}
    (updated : CWallet.updateSpentInput crypto txin wallet = (.ok (), after))
    (back : after.Grows wallet) : ¬wallet.Unmarked crypto txin.prevout ∧ after = wallet := by
  unfold CWallet.updateSpentInput at updated
  split at updated
  · rename_i absent
    cases updated
    refine ⟨?_, rfl⟩
    rintro ⟨wtx, found, _⟩
    simp [absent] at found
  · rename_i wtx found
    split at updated
    · simp at updated
    · rename_i fSpent isSpent
      split at updated
      · rename_i marks
        cases updated
        obtain ⟨wtx', found', tx', spent'⟩ := back.entries _ _ (update_self ..)
        cases found.symm.trans found'
        have inside := (isSpent_eq_ok.mp isSpent).1
        have still := spent' _ ((isSpent_markSpent inside).mpr (.inl rfl))
        rw [isSpent, Except.ok.injEq] at still
        simp [still] at marks
      · rename_i quiet
        cases updated
        refine ⟨?_, rfl⟩
        rintro ⟨wtx', found', unspent, mine⟩
        cases found.symm.trans found'
        rw [isSpent, Except.ok.injEq] at unspent
        subst unspent
        exact quiet ⟨by simp, mine⟩

private theorem walletUpdateSpent_fixed {vin : List CTxIn} {wallet after : CWallet}
    (updated : sequence (CWallet.updateSpentInput crypto) vin wallet = (.ok (), after))
    (back : after.Grows wallet) :
    (∀ txin ∈ vin, ¬wallet.Unmarked crypto txin.prevout) ∧ after = wallet := by
  induction vin with
  | nil =>
      cases updated
      exact ⟨by simp, rfl⟩
  | cons txin vin induction =>
      obtain ⟨middle, first, rest⟩ := sequence_cons_eq_ok.mp updated
      have later : middle.Grows after := by
        have grown := CWallet.grows_walletUpdateSpent crypto
          { nVersion := 0, vin, vout := [], nLockTime := 0 } middle
        rwa [CWallet.walletUpdateSpent, rest] at grown
      obtain ⟨quiet, rfl⟩ := updateSpentInput_fixed first (later.trans back)
      obtain ⟨others, same⟩ := induction rest
      exact ⟨List.forall_mem_cons.mpr ⟨quiet, others⟩, same⟩

/-- Inputs that spend no unmarked output are not marked. -/
private theorem walletUpdateSpent_quiet {vin : List CTxIn} {wallet after : CWallet}
    (updated : sequence (CWallet.updateSpentInput crypto) vin wallet = (.ok (), after))
    (quiet : ∀ txin ∈ vin, ¬wallet.Unmarked crypto txin.prevout) : after = wallet := by
  induction vin with
  | nil =>
      cases updated
      rfl
  | cons txin vin induction =>
      obtain ⟨middle, first, rest⟩ := sequence_cons_eq_ok.mp updated
      obtain ⟨own, others⟩ := List.forall_mem_cons.mp quiet
      have same : middle = wallet := by
        unfold CWallet.updateSpentInput at first
        split at first
        · cases first
          rfl
        · rename_i wtx found
          split at first
          · simp at first
          · rename_i fSpent isSpent
            split at first
            · rename_i marks
              refine absurd ⟨wtx, found, ?_, marks.2⟩ own
              rw [isSpent, Bool.eq_false_iff.mpr marks.1]
            · cases first
              rfl
      subst same
      exact induction rest others

/-! ## Places -/

/-- The wallets record the same transactions with the same spent flags. -/
structure CWallet.Agrees (left right : CWallet) : Prop where
  keystore : left.keystore = right.keystore
  minimum : left.nMinimumInputValue = right.nMinimumInputValue
  entries : ∀ hash, (left.mapWallet hash).map (fun wtx => (wtx.tx, wtx.vfSpent)) =
    (right.mapWallet hash).map fun wtx => (wtx.tx, wtx.vfSpent)

theorem CWallet.Agrees.symm {left right : CWallet} (agrees : left.Agrees right) :
    right.Agrees left :=
  ⟨agrees.keystore.symm, agrees.minimum.symm, fun hash => (agrees.entries hash).symm⟩

private theorem CWallet.Agrees.entry {left right : CWallet} (agrees : left.Agrees right)
    {hash : UInt256} {wtx : CWalletTx} (found : left.mapWallet hash = some wtx) :
    ∃ wtx', right.mapWallet hash = some wtx' ∧ wtx'.tx = wtx.tx ∧ wtx'.vfSpent = wtx.vfSpent := by
  have same := agrees.entries hash
  rw [found] at same
  obtain ⟨wtx', found', pair⟩ := Option.map_eq_some_iff.mp same.symm
  exact ⟨wtx', found', (Prod.mk.inj pair).1, (Prod.mk.inj pair).2⟩

private theorem CWallet.Agrees.tx {left right : CWallet} (agrees : left.Agrees right)
    (hash : UInt256) : (left.mapWallet hash).map CWalletTx.tx =
      (right.mapWallet hash).map CWalletTx.tx := by
  have same := congrArg (Option.map Prod.fst) (agrees.entries hash)
  rwa [Option.map_map, Option.map_map] at same

private theorem isSpent_congr {wtx wtx' : CWalletTx} (tx : wtx'.tx = wtx.tx)
    (vfSpent : wtx'.vfSpent = wtx.vfSpent) (n : Nat) : wtx'.isSpent n = wtx.isSpent n := by
  simp [CWalletTx.isSpent, tx, vfSpent]

theorem CWallet.Agrees.grows {left right : CWallet} (agrees : left.Agrees right) :
    left.Grows right := by
  refine ⟨agrees.keystore.symm, agrees.minimum.symm, fun hash wtx found => ?_⟩
  obtain ⟨wtx', found', tx', flags'⟩ := agrees.entry found
  exact ⟨wtx', found', tx', fun n spent => (isSpent_congr tx' flags' n).trans spent⟩

private theorem CWallet.Agrees.isMineOutput {left right : CWallet} (agrees : left.Agrees right) :
    left.isMineOutput crypto = right.isMineOutput crypto := by
  funext txout
  simp [CWallet.isMineOutput, agrees.keystore]

private theorem CWallet.Agrees.unmarked {left right : CWallet} (agrees : left.Agrees right)
    {prevout : COutPoint} (unmarked : left.Unmarked crypto prevout) :
    right.Unmarked crypto prevout := by
  obtain ⟨wtx, found, unspent, mine⟩ := unmarked
  obtain ⟨wtx', found', tx', flags'⟩ := agrees.entry found
  refine ⟨wtx', found', (isSpent_congr tx' flags' _).trans unspent, ?_⟩
  rwa [tx', ← agrees.isMineOutput]

private theorem CWallet.Agrees.marks {left right : CWallet} (agrees : left.Agrees right)
    {tx : CTransaction} (marks : left.Marks crypto tx) : right.Marks crypto tx := by
  obtain ⟨txin, member, unmarked⟩ := marks
  rw [agrees.tx] at member
  exact ⟨txin, member, agrees.unmarked unmarked⟩

private theorem CWallet.Agrees.getDebitInput {left right : CWallet} (agrees : left.Agrees right)
    (txin : CTxIn) : left.getDebitInput crypto txin = right.getDebitInput crypto txin := by
  have recorded (wallet : CWallet) : wallet.getDebitInput crypto txin =
      ((wallet.mapWallet txin.prevout.hash).map CWalletTx.tx).elim 0 fun prev =>
        prev.vout[txin.prevout.n.toNat]?.elim 0 fun txout =>
          if wallet.isMineOutput crypto txout then txout.nValue.toInt else 0 := by
    unfold CWallet.getDebitInput
    cases wallet.mapWallet txin.prevout.hash with
    | none => rfl
    | some prev =>
        simp only [Option.map_some, Option.elim_some]
        cases prev.tx.vout[txin.prevout.n.toNat]? <;> rfl
  rw [recorded, recorded, agrees.tx, agrees.isMineOutput]

private theorem CWallet.Agrees.isFromMe {left right : CWallet} (agrees : left.Agrees right)
    (tx : CTransaction) : left.isFromMe crypto tx = right.isFromMe crypto tx := by
  have loops (vin : List CTxIn) (nDebit : Int) :
      left.getDebitLoop crypto nDebit vin = right.getDebitLoop crypto nDebit vin := by
    induction vin generalizing nDebit with
    | nil => rfl
    | cons txin vin induction =>
        simp only [CWallet.getDebitLoop, agrees.getDebitInput, induction]
  simp only [CWallet.isFromMe, loops]

private theorem CWallet.Agrees.joins {left right : CWallet} (agrees : left.Agrees right)
    {tx : CTransaction} (joins : left.Joins crypto tx) : right.Joins crypto tx := by
  obtain ⟨absent, involved⟩ := joins
  have mine : left.isMine crypto tx = right.isMine crypto tx := by
    simp [CWallet.isMine, agrees.isMineOutput, agrees.minimum]
  refine ⟨?_, ?_⟩
  · have same := agrees.tx (tx.getHash crypto)
    rw [absent] at same
    simpa using same.symm
  · rwa [← mine, ← agrees.isFromMe]

private theorem foldl_place_keeps (crypto : Crypto) (found : List (CBlock × CTransaction)) (wtx : CWalletTx) :
    (found.foldl (fun wtx item => wtx.place crypto item) wtx).tx = wtx.tx ∧
      (found.foldl (fun wtx item => wtx.place crypto item) wtx).vfSpent = wtx.vfSpent := by
  induction found generalizing wtx with
  | nil => exact ⟨rfl, rfl⟩
  | cons item found induction =>
      obtain ⟨same_tx, same_flags⟩ := induction (wtx.place crypto item)
      obtain ⟨own_tx, own_flags⟩ := place_keeps crypto wtx item
      exact ⟨same_tx.trans own_tx, same_flags.trans own_flags⟩

/-- Places are all that `placeAll` changes. -/
theorem CWallet.agrees_placeAll (crypto : Crypto) (wallet : CWallet) (found : List (CBlock × CTransaction)) :
    wallet.Agrees (wallet.placeAll crypto found) := by
  refine ⟨rfl, rfl, fun hash => ?_⟩
  simp only [CWallet.placeAll, Option.map_map]
  congr 1
  funext wtx
  obtain ⟨same_tx, same_flags⟩ := foldl_place_keeps crypto
    (found.filter fun item => item.2.getHash crypto = hash) wtx
  simp [same_tx, same_flags]

private theorem placeAll_cons (item : CBlock × CTransaction)
    (found : List (CBlock × CTransaction)) (wallet : CWallet) :
    wallet.placeAll crypto (item :: found) =
      (wallet.placeAll crypto [item]).placeAll crypto found := by
  simp only [CWallet.placeAll, Option.map_map]
  congr 1
  funext hash
  congr 1
  funext wtx
  by_cases same : item.2.getHash crypto = hash <;> simp [same]

/-! ## Synchronising -/

private theorem setMerkleBranch_tx (crypto : Crypto) (block : CBlock) (tx : CTransaction) :
    ((CWalletTx.ofTransaction tx).setMerkleBranch crypto block).tx = tx := by
  unfold CWalletTx.setMerkleBranch
  split <;> rfl

/-- A recorded transaction gets its place, and its inputs are marked. -/
private theorem addToWallet_recorded {item : CBlock × CTransaction} {wallet : CWallet}
    {wtx : CWalletTx} (found : wallet.mapWallet (item.2.getHash crypto) = some wtx) :
    CWallet.addToWallet crypto
        ((CWalletTx.ofTransaction item.2).setMerkleBranch crypto item.1) wallet =
      sequence (CWallet.updateSpentInput crypto) wtx.tx.vin (wallet.placeAll crypto [item]) := by
  have placed : { wallet with
      mapWallet := update wallet.mapWallet (item.2.getHash crypto)
        (some (wtx.place crypto item)) } = wallet.placeAll crypto [item] := by
    simp only [CWallet.placeAll]
    congr 1
    funext hash
    by_cases same : item.2.getHash crypto = hash
    · subst same
      simp [found]
    · rw [update_of_ne (Ne.symm same)]
      cases wallet.mapWallet hash <;> simp [same]
  simp only [CWallet.addToWallet, setMerkleBranch_tx, found]
  rw [← placed]
  rfl

/-- A transaction of a block that neither joins the wallet nor marks an output gets its place. -/
private theorem addToWalletIfInvolvingMe_quiet {item : CBlock × CTransaction}
    {wallet after : CWallet}
    (added : CWallet.addToWalletIfInvolvingMe crypto item.1 true item.2 wallet = (.ok (), after))
    (joins : ¬wallet.Joins crypto item.2) (marks : ¬wallet.Marks crypto item.2) :
    after = wallet.placeAll crypto [item] := by
  have unmarked : ∀ txin ∈ (((wallet.mapWallet (item.2.getHash crypto)).map
      CWalletTx.tx).getD item.2).vin, ¬wallet.Unmarked crypto txin.prevout :=
    fun txin member unmarked => marks ⟨txin, member, unmarked⟩
  cases found : wallet.mapWallet (item.2.getHash crypto) with
  | some wtx =>
      simp only [CWallet.addToWalletIfInvolvingMe, found, Option.isSome_some, not_true_eq_false,
        and_false, if_false, Bool.true_or, if_true] at added
      rw [addToWallet_recorded found] at added
      refine walletUpdateSpent_quiet added fun txin member unmarked' => ?_
      rw [found] at unmarked
      exact unmarked txin member ((CWallet.agrees_placeAll crypto wallet [item]).symm.unmarked unmarked')
  | none =>
      have unplaced : wallet.placeAll crypto [item] = wallet := by
        simp only [CWallet.placeAll]
        congr 1
        funext hash
        by_cases same : item.2.getHash crypto = hash
        · rw [← same, found, Option.map_none]
        · cases wallet.mapWallet hash <;> simp [same]
      have stranger : wallet.isMine crypto item.2 = false := by
        rw [Bool.eq_false_iff]
        exact fun mine => joins ⟨found, .inl mine⟩
      simp only [CWallet.addToWalletIfInvolvingMe, found, Option.isSome_none, stranger,
        not_true_eq_false, and_false, if_false, Bool.or_self, Bool.false_eq_true] at added
      split at added
      · simp at added
      · rename_i fromMe
        exact absurd ⟨found, .inr fromMe⟩ joins
      · rw [unplaced]
        rw [found] at unmarked
        exact walletUpdateSpent_quiet added unmarked

/-- A transaction that does not make the wallet grow neither joins it nor marks an output. -/
private theorem addToWalletIfInvolvingMe_fixed {item : CBlock × CTransaction}
    {wallet after : CWallet}
    (added : CWallet.addToWalletIfInvolvingMe crypto item.1 true item.2 wallet = (.ok (), after))
    (back : after.Grows wallet) : ¬wallet.Joins crypto item.2 ∧ ¬wallet.Marks crypto item.2 := by
  cases found : wallet.mapWallet (item.2.getHash crypto) with
  | some wtx =>
      refine ⟨fun joins => by simp [joins.1] at found, ?_⟩
      simp only [CWallet.addToWalletIfInvolvingMe, found, Option.isSome_some, not_true_eq_false,
        and_false, if_false, Bool.true_or, if_true] at added
      rw [addToWallet_recorded found] at added
      have agrees := CWallet.agrees_placeAll crypto wallet [item]
      obtain ⟨unmarked, _⟩ := walletUpdateSpent_fixed added (back.trans agrees.grows)
      rintro ⟨txin, member, marks⟩
      rw [found] at member
      exact unmarked txin member (agrees.unmarked marks)
  | none =>
      have absent : after.mapWallet (item.2.getHash crypto) = none := by
        cases kept : after.mapWallet (item.2.getHash crypto) with
        | none => rfl
        | some wtx =>
            obtain ⟨wtx', found', _⟩ := back.entries _ wtx kept
            simp [found] at found'
      have joined (wtx : CWalletTx) (hash : wtx.tx = item.2) :
          ¬CWallet.addToWallet crypto wtx wallet = (.ok (), after) := by
        intro adds
        simp only [CWallet.addToWallet, hash, found] at adds
        have grown := CWallet.grows_walletUpdateSpent crypto wtx.tx
          { wallet with mapWallet := update wallet.mapWallet (item.2.getHash crypto) (some wtx) }
        simp only [hash, adds] at grown
        obtain ⟨wtx', found', _⟩ := grown.entries _ wtx (update_self ..)
        simp [absent] at found'
      have placed := setMerkleBranch_tx crypto item.1 item.2
      simp only [CWallet.addToWalletIfInvolvingMe, found, Option.isSome_none, not_true_eq_false,
        and_false, if_false, Bool.false_or] at added
      cases mine : wallet.isMine crypto item.2 with
      | true =>
          simp only [mine, if_true] at added
          exact absurd added (joined _ placed)
      | false =>
          simp only [mine, Bool.false_eq_true, if_false] at added
          split at added
          · simp at added
          · exact absurd added (joined _ placed)
          · rename_i other
            refine ⟨?_, ?_⟩
            · rintro ⟨_, involved⟩
              simp [mine, other] at involved
            · rintro ⟨txin, member, marks⟩
              rw [found] at member
              exact (walletUpdateSpent_fixed added back).1 txin member marks

/-- Synchronising one wallet with transactions of blocks. -/
def CWallet.syncAll (crypto : Crypto) (found : List (CBlock × CTransaction)) :
    Action Failure CWallet :=
  sequence (fun item => CWallet.addToWalletIfInvolvingMe crypto item.1 true item.2) found

private theorem CWallet.grows_syncAll (crypto : Crypto) (found : List (CBlock × CTransaction)) (wallet : CWallet) :
    wallet.Grows (CWallet.syncAll crypto found wallet).2 :=
  sequence_keeps
    (fun item _ middle grown =>
      grown.trans (grows_addToWalletIfInvolvingMe item.1 true item.2 middle))
    (.refl wallet)

/-- Transactions that neither join the wallet nor mark an output only give places. -/
private theorem syncAll_quiet {found : List (CBlock × CTransaction)} {wallet after : CWallet}
    (synced : CWallet.syncAll crypto found wallet = (.ok (), after))
    (joins : ∀ item ∈ found, ¬wallet.Joins crypto item.2)
    (marks : ∀ item ∈ found, ¬wallet.Marks crypto item.2) :
    after = wallet.placeAll crypto found := by
  induction found generalizing wallet with
  | nil =>
      cases synced
      simp [CWallet.placeAll]
  | cons item found induction =>
      obtain ⟨middle, first, rest⟩ := sequence_cons_eq_ok.mp synced
      obtain ⟨own_joins, other_joins⟩ := List.forall_mem_cons.mp joins
      obtain ⟨own_marks, other_marks⟩ := List.forall_mem_cons.mp marks
      obtain rfl := addToWalletIfInvolvingMe_quiet first own_joins own_marks
      have agrees := (CWallet.agrees_placeAll crypto wallet [item]).symm
      rw [placeAll_cons]
      exact induction rest (fun later member new => other_joins later member (agrees.joins new))
        fun later member new => other_marks later member (agrees.marks new)

/-- Transactions that do not make the wallet grow neither join it nor mark an output. -/
private theorem syncAll_fixed {found : List (CBlock × CTransaction)} {wallet after : CWallet}
    (synced : CWallet.syncAll crypto found wallet = (.ok (), after)) (back : after.Grows wallet) :
    ∀ item ∈ found, ¬wallet.Joins crypto item.2 ∧ ¬wallet.Marks crypto item.2 := by
  induction found generalizing wallet with
  | nil => simp
  | cons item found induction =>
      obtain ⟨middle, first, rest⟩ := sequence_cons_eq_ok.mp synced
      have later := CWallet.grows_syncAll crypto found middle
      rw [CWallet.syncAll, rest] at later
      have quiet := addToWalletIfInvolvingMe_fixed first (later.trans back)
      obtain rfl := addToWalletIfInvolvingMe_quiet first quiet.1 quiet.2
      have agrees := CWallet.agrees_placeAll crypto wallet [item]
      have others := induction rest (back.trans agrees.grows)
      refine List.forall_mem_cons.mpr ⟨quiet, fun other member => ?_⟩
      obtain ⟨joins, marks⟩ := others other member
      exact ⟨fun new => joins (agrees.joins new), fun new => marks (agrees.marks new)⟩

/-- Synchronising leaves a wallet as it was exactly when the wallet is settled. -/
theorem CWallet.syncAll_eq_self {found : List (CBlock × CTransaction)} {wallet after : CWallet}
    (synced : CWallet.syncAll crypto found wallet = (.ok (), after)) :
    after = wallet ↔ wallet.Settled crypto found := by
  constructor
  · rintro rfl
    have quiet := syncAll_fixed synced (.refl _)
    have joins := fun item member => (quiet item member).1
    have marks := fun item member => (quiet item member).2
    exact ⟨joins, marks, (syncAll_quiet synced joins marks).symm⟩
  · intro settled
    exact (syncAll_quiet synced settled.joins settled.marks).trans settled.places

/-! ## Lists of wallets -/

/-- The transactions of blocks, each with its block. -/
def blockTransactions (blocks : List CBlock) : List (CBlock × CTransaction) :=
  blocks.flatMap fun block => block.vtx.map fun tx => (block, tx)

/-- Synchronising with blocks synchronises every wallet with their transactions. -/
private theorem sync_each {blocks : List CBlock} {wallets after : List CWallet}
    (synced : sequence (syncBlock crypto) blocks wallets = (.ok (), after)) :
    List.Forall₂ (fun wallet after => wallet.syncAll crypto (blockTransactions blocks) =
      (.ok (), after)) wallets after := by
  apply sequence_onEach_eq_ok
  rw [blockTransactions, ← sequence_flatMap, ← synced]
  congr 1
  funext block state
  exact sequence_map _ _ _ _

/-- Synchronising with blocks leaves all wallets as they were exactly when all are settled. -/
theorem syncBlocks_eq_self {blocks : List CBlock} {wallets after : List CWallet}
    (synced : sequence (syncBlock crypto) blocks wallets = (.ok (), after)) :
    after = wallets ↔ ∀ wallet ∈ wallets, wallet.Settled crypto (blockTransactions blocks) := by
  have each := sync_each synced
  clear synced
  induction each with
  | nil => simp
  | cons first _ induction =>
      simp only [List.cons.injEq, List.forall_mem_cons, CWallet.syncAll_eq_self first, induction]

private theorem isSpent_error {wtx : CWalletTx} {n : Nat} {failure : Failure}
    (fails : wtx.isSpent n = .error failure) : failure = .thrown := by
  unfold CWalletTx.isSpent at fails
  split at fails
  · cases fails
    rfl
  · simp at fails

private theorem walletUpdateSpent_error {tx : CTransaction} {wallet : CWallet} {failure : Failure}
    (fails : (CWallet.walletUpdateSpent crypto tx wallet).1 = .error failure) :
    failure ≠ .rejected := by
  refine @sequence_error _ _ _ _ (· ≠ .rejected) _ (fun txin wallet failure fails => ?_) _ _ fails
  unfold CWallet.updateSpentInput at fails
  split at fails
  · simp at fails
  · split at fails
    · rename_i own isSpent
      cases fails
      simp [isSpent_error isSpent]
    · split at fails <;> simp at fails

private theorem isFromMe_error {wallet : CWallet} {tx : CTransaction} {failure : Failure}
    (fails : wallet.isFromMe crypto tx = .error failure) : failure ≠ .rejected := by
  have loops (vin : List CTxIn) (nDebit : Int)
      (fails : wallet.getDebitLoop crypto nDebit vin = .error failure) : failure ≠ .rejected := by
    induction vin generalizing nDebit with
    | nil => simp [CWallet.getDebitLoop, pure, Except.pure] at fails
    | cons txin vin induction =>
        simp only [CWallet.getDebitLoop, int64] at fails
        split at fails
        · change (if MoneyRange _ then _ else _) = _ at fails
          split at fails
          · exact induction _ fails
          · cases fails
            simp
        · cases fails
          simp
  unfold CWallet.isFromMe at fails
  cases debit : wallet.getDebitLoop crypto 0 tx.vin with
  | error own =>
      rw [debit] at fails
      cases fails
      exact loops tx.vin 0 debit
  | ok nDebit =>
      rw [debit] at fails
      cases fails

/-- No wallet fails in the way that a function returning `false` does. -/
theorem syncBlock_error {block : CBlock} {wallets : List CWallet} {failure : Failure}
    (fails : (syncBlock crypto block wallets).1 = .error failure) : failure ≠ .rejected := by
  refine @sequence_error _ _ _ _ (· ≠ .rejected) _ (fun tx wallets failure fails => ?_) _ _ fails
  refine @onEach_error _ _ _ (· ≠ .rejected) _ (fun wallet failure fails => ?_) _ fails
  simp only [CWallet.addToWalletIfInvolvingMe] at fails
  split at fails
  · simp at fails
  · split at fails
    · rename_i own involved
      cases fails
      split at involved
      · simp at involved
      · exact isFromMe_error involved
    · exact walletUpdateSpent_error fails
    · exact walletUpdateSpent_error fails

end FooCoin

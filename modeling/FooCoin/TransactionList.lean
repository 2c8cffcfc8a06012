import FooCoin.AccountEntries
import FooCoin.RawTransaction
import FooCoin.SampleChain

/-!
# Listing transactions

`listtransactions` collects the transactions and the accounting entries of a wallet by their time,
lists what they contribute from the newest on until there are enough entries, and cuts a page out of
the list.  The counts are added as 32-bit numbers.
-/

namespace FooCoin

/-- A wallet with what its transactions are listed with. -/
structure ListedWallet extends AccountWallet where
  nTimeReceived : UInt256 → UInt32
  mapValue : UInt256 → List (List UInt8 × List UInt8)

/-- The categories of entries. -/
inductive Category
  | immature
  | orphan
  | generate
  deriving DecidableEq

/-- The results of `WalletTxToJSON`. -/
structure TxDetails where
  confirmations : Int
  /-- `blockhash` and `blockindex` of a confirmed transaction. -/
  block : Option (UInt256 × Int)
  txid : UInt256
  time : Int
  mapValue : List (List UInt8 × List UInt8)
  deriving DecidableEq

/-- An entry of the result; amounts are not converted and addresses not rendered. -/
inductive ListEntry
  | generated (category : Category) (amount : Int) (details : Option TxDetails)
  | send (account : Account) (address : CTxDestination) (amount : Int64) (fee : Int)
      (details : Option TxDetails)
  | receive (account : Account) (address : CTxDestination) (amount : Int64)
      (details : Option TxDetails)
  | move (account : Account) (time amount : Int64) (otheraccount : Account) (comment : List UInt8)
  deriving DecidableEq

/-- `TxPair`. -/
inductive TxPair
  | wtx (hash : UInt256) (wtx : AccountTx)
  | acentry (entry : CAccountingEntry)

section Listing

variable (crypto : Crypto) (view : ChainView) (wallet : ListedWallet) (db : WalletDB)

/-- `CWalletTx::GetTxTime`. -/
def ListedWallet.getTxTime (hash : UInt256) : Int := (wallet.nTimeReceived hash).toNat

/-- `WalletTxToJSON`. -/
def walletTxToJSON (hash : UInt256) (wtx : AccountTx) : Outcome TxDetails := do
  let confirms ← wtx.getDepthInMainChain crypto view
  pure
    { confirmations := confirms
      block := if confirms = 0 then none else some (wtx.hashBlock, wtx.nIndex)
      txid := wtx.tx.getHash crypto
      time := wallet.getTxTime hash
      mapValue := wallet.mapValue hash }

/-- What is added to an entry if `fLong`. -/
def listDetails (fLong : Bool) (hash : UInt256) (wtx : AccountTx) : Outcome (Option TxDetails) :=
  if fLong then some <$> walletTxToJSON crypto view wallet hash wtx else pure none

/-- The generated amount in `ListTransactions`. -/
def listGenerated (strAccount : Account) (fLong : Bool) (hash : UInt256) (wtx : AccountTx)
    (amounts : Amounts) : Outcome (List ListEntry) :=
  if amounts.nGeneratedMature + amounts.nGeneratedImmature ≠ 0 ∧
      (strAccount = allAccounts ∨ strAccount = []) then
    if amounts.nGeneratedImmature ≠ 0 then do
      let nDepth ← wtx.getDepthInMainChain crypto view
      let details ← listDetails crypto view wallet fLong hash wtx
      let category : Category := if nDepth = 0 then .orphan else .immature
      pure [.generated category amounts.nGeneratedImmature details]
    else do
      let details ← listDetails crypto view wallet fLong hash wtx
      pure [.generated .generate amounts.nGeneratedMature details]
  else pure []

/-- The sent amounts in `ListTransactions`. -/
def listSent (strAccount : Account) (fLong : Bool) (hash : UInt256) (wtx : AccountTx)
    (amounts : Amounts) : Outcome (List ListEntry) :=
  if (amounts.listSent ≠ [] ∨ amounts.nFee ≠ 0) ∧
      (strAccount = allAccounts ∨ strAccount = amounts.strSentAccount) then
    amounts.listSent.mapM fun sent => do
      let details ← listDetails crypto view wallet fLong hash wtx
      pure (.send amounts.strSentAccount sent.1 (-sent.2) (-amounts.nFee) details)
  else pure []

/-- The received amounts in `ListTransactions`. -/
def listReceived (strAccount : Account) (fLong : Bool) (hash : UInt256) (wtx : AccountTx) :
    List (CTxDestination × Int64) → Outcome (List ListEntry)
  | [] => pure []
  | (address, amount) :: received => do
      let account := (wallet.mapAddressBook.lookup address).getD []
      let entry ←
        if strAccount = allAccounts ∨ account = strAccount then do
          let details ← listDetails crypto view wallet fLong hash wtx
          pure [ListEntry.receive account address amount details]
        else pure []
      pure (entry ++ (← listReceived strAccount fLong hash wtx received))

/-- `ListTransactions`: the entries that a transaction contributes. -/
def listTransactions (strAccount : Account) (nMinDepth : Int) (fLong : Bool) (hash : UInt256)
    (wtx : AccountTx) : Outcome (List ListEntry) := do
  let amounts ← wtx.getAmounts crypto view wallet.toAccountWallet
  let generated ← listGenerated crypto view wallet strAccount fLong hash wtx amounts
  let sent ← listSent crypto view wallet strAccount fLong hash wtx amounts
  let received ←
    if amounts.listReceived = [] then pure []
    else do
      let nDepth ← wtx.getDepthInMainChain crypto view
      if nMinDepth ≤ nDepth then
        listReceived crypto view wallet strAccount fLong hash wtx amounts.listReceived
      else pure []
  pure (generated ++ sent ++ received)

/-- `AcentryToJSON`. -/
def acentryToJSON (acentry : CAccountingEntry) (strAccount : Account) : List ListEntry :=
  if strAccount = allAccounts ∨ acentry.strAccount = strAccount then
    [.move acentry.strAccount acentry.nTime acentry.nCreditDebit acentry.strOtherAccount
      acentry.strComment]
  else []

/-- The loop body of `listtransactions`. -/
def listPair (strAccount : Account) : TxPair → Outcome (List ListEntry)
  | .wtx hash wtx => listTransactions crypto view wallet strAccount 0 true hash wtx
  | .acentry entry => pure (acentryToJSON entry strAccount)

/-- `insert` into a multimap: behind the elements with the same key. -/
def multimapInsert (item : Int × TxPair) : List (Int × TxPair) → List (Int × TxPair)
  | [] => [item]
  | other :: items =>
      if item.1 < other.1 then item :: other :: items else other :: multimapInsert item items

/-- The transactions in the order of `mapWallet`, then the accounting entries. -/
def walletItems (strAccount : Account) : List (Int × TxPair) :=
  ((wallet.mapWallet.entries.mergeSort fun left right => left.1.toNat ≤ right.1.toNat).map
    fun entry => (wallet.getTxTime entry.1, .wtx entry.1 entry.2)) ++
  (db.listAccountCreditDebit strAccount).map fun entry => (entry.nTime.toInt, .acentry entry)

/-- `txByTime`. -/
def txByTime (strAccount : Account) : List (Int × TxPair) :=
  (walletItems wallet db strAccount).foldl (fun items item => multimapInsert item items) []

/-! ## Cutting out a page -/

/-- Add entries from the newest item on until there are `nWanted`. -/
def listLoop (strAccount : Account) (nWanted : Int32) :
    List TxPair → List ListEntry → Outcome (List ListEntry)
  | [], ret => pure ret
  | item :: items, ret => do
      let ret := ret ++ (← listPair crypto view wallet strAccount item)
      if nWanted.toInt ≤ (Int32.ofNat ret.length).toInt then pure ret
      else listLoop strAccount nWanted items ret

/-- `std::advance` from the start of an array. -/
def advance (ret : List ListEntry) (distance : Int32) : Except RpcFailure Nat :=
  if 0 ≤ distance.toInt ∧ distance.toInt ≤ ret.length then pure distance.toInt.toNat
  else throw .outOfRange

/-- Clip the counts to the array and erase the other entries. -/
def cutPage (nCount nFrom : Int32) (ret : List ListEntry) : Except RpcFailure (List ListEntry) := do
  let nFrom :=
    if (Int32.ofNat ret.length).toInt < nFrom.toInt then Int32.ofNat ret.length else nFrom
  let nCount :=
    if (Int32.ofNat ret.length).toInt < (nFrom + nCount).toInt then
      Int32.ofInt (ret.length - nFrom.toInt)
    else nCount
  let first ← advance ret nFrom
  let last ← advance ret (nFrom + nCount)
  if last < first then throw .outOfRange
  else pure ((ret.take last).drop first).reverse

/-- A call within a command. -/
def callOutcome {α : Type} : Outcome α → Except RpcFailure α
  | .ok value => pure value
  | .error _ => throw .exception

/-- `listtransactions`. -/
def listtransactions (strAccount : Account) (nCount nFrom : Int32) :
    Except RpcFailure (List ListEntry) :=
  if nCount.toInt < 0 then throw (.error (-8) "Negative count")
  else if nFrom.toInt < 0 then throw (.error (-8) "Negative from")
  else do
    let items := ((txByTime wallet db strAccount).map Prod.snd).reverse
    let ret ← callOutcome (listLoop crypto view wallet strAccount (nCount + nFrom) items [])
    cutPage nCount nFrom ret

/-- The complete listing, from the newest item on. -/
def completeListing (strAccount : Account) : Outcome (List ListEntry) := do
  let entries ← ((txByTime wallet db strAccount).map Prod.snd).reverse.mapM
    (listPair crypto view wallet strAccount)
  pure entries.flatten

/-- The number of entries of the newest item. -/
def newestSize (strAccount : Account) : Nat :=
  match ((txByTime wallet db strAccount).map Prod.snd).reverse with
  | [] => 0
  | item :: _ =>
      match listPair crypto view wallet strAccount item with
      | .ok entries => entries.length
      | .error _ => 0

end Listing

/-- The counts do not overflow before the array is clipped, or the page is empty and its count does
not overflow after the position is clipped to the entries of the newest item. -/
def CountsFit (nCount nFrom : Int32) (total newest : Nat) : Prop :=
  nFrom.toInt + nCount.toInt < 2 ^ 31 ∨
    (total : Int) ≤ nFrom.toInt ∧ (newest : Int) + nCount.toInt < 2 ^ 31

/-! ## The order of the items -/

private theorem multimapInsert_perm (item : Int × TxPair) (items : List (Int × TxPair)) :
    (multimapInsert item items).Perm (item :: items) := by
  induction items with
  | nil => exact .refl _
  | cons other items induction =>
      rw [multimapInsert]
      split
      · exact .refl _
      · exact (induction.cons other).trans (.swap item other items)

private theorem multimapInsert_sorted {item : Int × TxPair} {items : List (Int × TxPair)}
    (sorted : items.Pairwise fun left right => left.1 ≤ right.1) :
    (multimapInsert item items).Pairwise fun left right => left.1 ≤ right.1 := by
  induction items with
  | nil => exact List.pairwise_singleton _ _
  | cons other items induction =>
      obtain ⟨first, later⟩ := List.pairwise_cons.mp sorted
      rw [multimapInsert]
      split
      · rename_i before
        refine List.pairwise_cons.mpr ⟨fun element member => ?_, sorted⟩
        rcases List.mem_cons.mp member with rfl | member
        · exact before.le
        · exact before.le.trans (first element member)
      · rename_i after
        refine List.pairwise_cons.mpr ⟨fun element member => ?_, induction later⟩
        rcases List.mem_cons.mp ((multimapInsert_perm item items).mem_iff.mp member) with
          rfl | member
        · exact Int.not_lt.mp after
        · exact first element member

/-- Every item of the wallet is in the multimap, and the multimap is in the order of the times. -/
theorem txByTime_sorted (wallet : ListedWallet) (db : WalletDB) (strAccount : Account) :
    (txByTime wallet db strAccount).Perm (walletItems wallet db strAccount) ∧
      (txByTime wallet db strAccount).Pairwise fun left right => left.1 ≤ right.1 := by
  have step : ∀ (items : List (Int × TxPair)) (start : List (Int × TxPair)),
      start.Pairwise (fun left right => left.1 ≤ right.1) →
      (items.foldl (fun items item => multimapInsert item items) start).Perm (start ++ items) ∧
        (items.foldl (fun items item => multimapInsert item items) start).Pairwise
          fun left right => left.1 ≤ right.1 := by
    intro items
    induction items with
    | nil => exact fun start sorted => ⟨by simp, sorted⟩
    | cons item items induction =>
        intro start sorted
        obtain ⟨perm, ordered⟩ := induction _ (multimapInsert_sorted sorted)
        refine ⟨perm.trans ?_, ordered⟩
        exact ((multimapInsert_perm item start).append_right items).trans
          List.perm_middle.symm
  exact step _ [] .nil

/-! ## Collecting entries -/

section Pages

variable {crypto : Crypto} {view : ChainView} {wallet : ListedWallet} {db : WalletDB}
  {strAccount : Account}

private theorem mapM_cons_ok {item : TxPair} {items : List TxPair} {entries : List (List ListEntry)}
    (listed : (item :: items).mapM (listPair crypto view wallet strAccount) = .ok entries) :
    ∃ first later, listPair crypto view wallet strAccount item = .ok first ∧
      items.mapM (listPair crypto view wallet strAccount) = .ok later ∧
        entries = first :: later := by
  rw [List.mapM_cons] at listed
  obtain ⟨first, here, listed⟩ := except_bind_eq_ok.mp listed
  obtain ⟨later, below, listed⟩ := except_bind_eq_ok.mp listed
  exact ⟨first, later, here, below, (pure_eq_ok.mp listed).symm⟩

private theorem listLoop_eq {nWanted : Int32} {items : List TxPair} {ret : List ListEntry}
    {entries : List (List ListEntry)}
    (listed : items.mapM (listPair crypto view wallet strAccount) = .ok entries)
    (fits : (ret ++ entries.flatten).length < 2 ^ 31) :
    ∃ size : Nat, listLoop crypto view wallet strAccount nWanted items ret =
        .ok ((ret ++ entries.flatten).take size) ∧
      ((ret ++ entries.flatten).length ≤ size ∨ nWanted.toInt ≤ size) := by
  induction items generalizing ret entries with
  | nil =>
      obtain rfl : [] = entries := pure_eq_ok.mp listed
      refine ⟨ret.length, ?_, .inl (by simp)⟩
      rw [List.flatten_nil, List.append_nil, List.take_length]
      rfl
  | cons item items induction =>
      obtain ⟨first, later, here, below, rfl⟩ := mapM_cons_ok listed
      rw [List.flatten_cons, ← List.append_assoc] at fits ⊢
      have short : (ret ++ first).length < 2 ^ 31 := by
        rw [List.length_append] at fits
        omega
      simp only [listLoop, here, except_ok_bind]
      by_cases enough : nWanted.toInt ≤ (Int32.ofNat (ret ++ first).length).toInt
      · rw [if_pos enough]
        refine ⟨(ret ++ first).length, ?_, .inr ?_⟩
        · rw [List.take_left]
          rfl
        · rwa [Int32.toInt_ofNat_of_lt short] at enough
      · rw [if_neg enough]
        exact induction below fits

private theorem listLoop_overflow {nWanted : Int32} {listing : List ListEntry}
    (listed : completeListing crypto view wallet db strAccount = .ok listing)
    (fits : listing.length < 2 ^ 31) (negative : nWanted.toInt < 0) :
    listLoop crypto view wallet strAccount nWanted
        ((txByTime wallet db strAccount).map Prod.snd).reverse [] =
        .ok (listing.take (newestSize crypto view wallet db strAccount)) ∧
      newestSize crypto view wallet db strAccount ≤ listing.length := by
  simp only [completeListing, newestSize] at listed ⊢
  generalize ((txByTime wallet db strAccount).map Prod.snd).reverse = items at listed ⊢
  obtain ⟨entries, pairs, rest⟩ := except_bind_eq_ok.mp listed
  obtain rfl := pure_eq_ok.mp rest
  cases items with
  | nil =>
      obtain rfl : [] = entries := pure_eq_ok.mp pairs
      exact ⟨rfl, by simp⟩
  | cons item items =>
      obtain ⟨first, later, here, below, rfl⟩ := mapM_cons_ok pairs
      rw [List.flatten_cons, List.length_append] at fits
      have enough : nWanted.toInt ≤ (Int32.ofNat first.length).toInt := by
        rw [Int32.toInt_ofNat_of_lt (by omega)]
        omega
      simp only [listLoop, here, except_ok_bind, List.nil_append, if_pos enough, List.flatten_cons,
        List.take_left, List.length_append, Nat.le_add_right, and_true]
      rfl

/-! ## The page -/

private theorem toInt_add_wraps {left right : Int32} (left_nonneg : 0 ≤ left.toInt)
    (right_nonneg : 0 ≤ right.toInt) :
    (left + right).toInt =
      if left.toInt + right.toInt < 2 ^ 31 then left.toInt + right.toInt
      else left.toInt + right.toInt - 2 ^ 32 := by
  have left_lt := left.toInt_lt
  have right_lt := right.toInt_lt
  rw [Int32.toInt_add, Int.bmod]
  split_ifs <;> omega

/-- The page is cut out, unless its end overflows after its start is clipped. -/
theorem cutPage_eq {nCount nFrom : Int32} {ret : List ListEntry} (fits : ret.length < 2 ^ 31)
    (count_nonneg : 0 ≤ nCount.toInt) (from_nonneg : 0 ≤ nFrom.toInt) :
    cutPage nCount nFrom ret =
      if min nFrom.toInt ret.length + nCount.toInt < 2 ^ 31 then
        .ok ((ret.drop nFrom.toInt.toNat).take nCount.toInt.toNat).reverse
      else .error .outOfRange := by
  have size := Int32.toInt_ofNat_of_lt fits
  simp only [cutPage, size]
  generalize start_eq :
    (if (ret.length : Int) < nFrom.toInt then Int32.ofNat ret.length else nFrom) = start
  have start_toInt : start.toInt = min nFrom.toInt ret.length := by
    rw [← start_eq]
    split_ifs <;> omega
  have started : advance ret start = .ok start.toInt.toNat := by
    rw [advance, if_pos (by omega)]
    rfl
  have dropped : ret.drop nFrom.toInt.toNat = ret.drop start.toInt.toNat := by
    rcases le_total nFrom.toInt ret.length with inside | outside
    · rw [start_toInt, min_eq_left inside]
    · rw [start_toInt, min_eq_right outside, List.drop_eq_nil_of_le (by omega), Int.toNat_natCast,
        List.drop_length]
  have total := @toInt_add_wraps start nCount (by omega) count_nonneg
  have start_le : start.toInt ≤ ret.length := by omega
  have start_nonneg : 0 ≤ start.toInt := by omega
  rw [started, except_ok_bind, ← start_toInt, dropped]
  by_cases sum_fits : start.toInt + nCount.toInt < 2 ^ 31
  · rw [if_pos sum_fits] at total ⊢
    by_cases past : (ret.length : Int) < (start + nCount).toInt
    · have clipped : (Int32.ofInt (ret.length - start.toInt)).toInt = ret.length - start.toInt :=
        Int32.toInt_ofInt_of_le (by omega) (by omega)
      have last := @toInt_add_wraps start (Int32.ofInt (ret.length - start.toInt)) start_nonneg
        (by omega)
      rw [clipped, if_pos (by omega)] at last
      have ended : advance ret (start + Int32.ofInt (ret.length - start.toInt)) =
          .ok ret.length := by
        rw [advance, if_pos (by omega), last]
        exact congrArg Except.ok (by omega)
      rw [if_pos past, ended, except_ok_bind, if_neg (by omega), List.take_length,
        List.take_of_length_le (by rw [List.length_drop]; omega)]
      rfl
    · have ended : advance ret (start + nCount) =
          .ok (start.toInt.toNat + nCount.toInt.toNat) := by
        rw [advance, if_pos (by omega), total]
        exact congrArg Except.ok (by omega)
      rw [if_neg past, ended, except_ok_bind, if_neg (by omega), List.drop_take,
        Nat.add_sub_cancel_left]
      rfl
  · rw [if_neg sum_fits] at total ⊢
    have count_lt := nCount.toInt_lt
    have inside : ¬(ret.length : Int) < (start + nCount).toInt := by omega
    have outside : advance ret (start + nCount) = .error .outOfRange := by
      rw [advance, if_neg (by omega)]
      rfl
    rw [if_neg inside, outside]
    rfl

private theorem take_drop_prefix {α : Type} {list : List α} {first count size : Nat}
    (enough : list.length ≤ size ∨ first + count ≤ size) :
    ((list.take size).drop first).take count = (list.drop first).take count := by
  rcases enough with whole | page
  · rw [List.take_of_length_le whole]
  · rw [List.drop_take, List.take_take, min_eq_left (by omega)]

private theorem listtransactions_eq {nCount nFrom : Int32} {ret : List ListEntry}
    (count_nonneg : 0 ≤ nCount.toInt) (from_nonneg : 0 ≤ nFrom.toInt)
    (collected : listLoop crypto view wallet strAccount (nCount + nFrom)
      ((txByTime wallet db strAccount).map Prod.snd).reverse [] = .ok ret) :
    listtransactions crypto view wallet db strAccount nCount nFrom = cutPage nCount nFrom ret := by
  simp only [listtransactions, if_neg (Int.not_lt.mpr count_nonneg),
    if_neg (Int.not_lt.mpr from_nonneg), collected]
  rfl

/-- The page of the complete listing is returned exactly if the counts fit. -/
private theorem page_iff {nCount nFrom : Int32} {listing : List ListEntry}
    (listed : completeListing crypto view wallet db strAccount = .ok listing)
    (fits : listing.length < 2 ^ 31) (count_nonneg : 0 ≤ nCount.toInt)
    (from_nonneg : 0 ≤ nFrom.toInt) :
    listtransactions crypto view wallet db strAccount nCount nFrom =
        .ok ((listing.drop nFrom.toInt.toNat).take nCount.toInt.toNat).reverse ↔
      CountsFit nCount nFrom listing.length (newestSize crypto view wallet db strAccount) := by
  have sum := toInt_add_wraps count_nonneg from_nonneg
  by_cases sum_fits : nCount.toInt + nFrom.toInt < 2 ^ 31
  · rw [if_pos sum_fits] at sum
    obtain ⟨entries, pairs, rest⟩ := except_bind_eq_ok.mp listed
    obtain rfl := pure_eq_ok.mp rest
    obtain ⟨size, collected, enough⟩ := @listLoop_eq crypto view wallet strAccount
      (nCount + nFrom) _ [] entries pairs fits
    rw [List.nil_append] at collected enough
    have short : (entries.flatten.take size).length < 2 ^ 31 :=
      (List.length_take_le' _ _).trans_lt fits
    rw [listtransactions_eq count_nonneg from_nonneg collected,
      cutPage_eq short count_nonneg from_nonneg, if_pos (by omega),
      take_drop_prefix (enough.imp id (by omega))]
    exact iff_of_true rfl (.inl (by omega))
  · rw [if_neg sum_fits] at sum
    have count_lt := nCount.toInt_lt
    have from_lt := nFrom.toInt_lt
    obtain ⟨collected, newest_le⟩ :=
      @listLoop_overflow _ _ _ _ _ (nCount + nFrom) _ listed fits (by omega)
    generalize newestSize crypto view wallet db strAccount = newest at collected newest_le ⊢
    have size : (listing.take newest).length = newest := List.length_take_of_le newest_le
    rw [listtransactions_eq count_nonneg from_nonneg collected,
      cutPage_eq (by omega) count_nonneg from_nonneg, size]
    constructor
    · intro page
      split_ifs at page with clipped
      have skipped : (newest : Int) ≤ nFrom.toInt := by omega
      rw [List.drop_eq_nil_of_le (by omega), List.take_nil] at page
      have empty := congrArg List.length (List.reverse_injective (Except.ok.inj page))
      rw [List.length_nil, List.length_take, List.length_drop] at empty
      exact .inr ⟨by omega, by omega⟩
    · rintro (total | ⟨past, clipped⟩)
      · omega
      · rw [if_pos (by omega), List.drop_eq_nil_of_le (by omega),
          List.drop_eq_nil_of_le (by omega)]

private theorem pages_flatten {α : Type} (list : List α) (count pages : Nat) :
    ((List.range pages).flatMap fun page => (list.drop (page * count)).take count) =
      list.take (pages * count) := by
  induction pages with
  | zero => simp
  | succ pages induction =>
      rw [List.range_succ, List.flatMap_append, induction, List.flatMap_singleton,
        ← List.take_add, Nat.succ_mul]

/-- `listtransactions` returns, oldest first, the page of the complete newest-first listing exactly
if the counts fit, and successive pages whose counts do not overflow make up the listing. -/
theorem listtransactions_pages {listing : List ListEntry}
    (listed : completeListing crypto view wallet db strAccount = .ok listing)
    (fits : listing.length < 2 ^ 31) :
    (∀ nCount nFrom : Int32, 0 ≤ nCount.toInt → 0 ≤ nFrom.toInt →
      (listtransactions crypto view wallet db strAccount nCount nFrom =
          .ok ((listing.drop nFrom.toInt.toNat).take nCount.toInt.toNat).reverse ↔
        CountsFit nCount nFrom listing.length (newestSize crypto view wallet db strAccount))) ∧
    ∀ count pages : Nat, pages * count < 2 ^ 31 → listing.length ≤ pages * count →
      ∃ results : Nat → List ListEntry,
        (∀ page < pages, listtransactions crypto view wallet db strAccount (Int32.ofNat count)
          (Int32.ofNat (page * count)) = .ok (results page)) ∧
        (List.range pages).flatMap (fun page => (results page).reverse) = listing := by
  refine ⟨fun _ _ count_nonneg from_nonneg => page_iff listed fits count_nonneg from_nonneg,
    fun count pages sum_fits covers => ?_⟩
  refine ⟨fun page => ((listing.drop (page * count)).take count).reverse, fun page inside => ?_, ?_⟩
  · have next_le : page * count + count ≤ pages * count := by
      rw [← Nat.succ_mul]
      exact Nat.mul_le_mul_right count inside
    have count_toInt := @Int32.toInt_ofNat_of_lt count (by omega)
    have from_toInt := @Int32.toInt_ofNat_of_lt (page * count) (by omega)
    have returned := (@page_iff _ _ _ _ _ (Int32.ofNat count) (Int32.ofNat (page * count)) listing
      listed fits (by omega) (by omega)).mpr (.inl (by omega))
    rwa [count_toInt, from_toInt, Int.toNat_natCast, Int.toNat_natCast] at returned
  · simp only [List.reverse_reverse]
    rw [pages_flatten, List.take_of_length_le covers]

end Pages

/-! ## A wallet with one entry -/

/-- A wallet without transactions. -/
def emptyWallet : ListedWallet where
  keystore := { haveKey := fun _ => false, mapScripts := [] }
  nMinimumInputValue := 0
  mapWallet := ∅
  mapAddressBook := ∅
  nTimeReceived _ := 0
  mapValue _ := []

/-- An empty block chain. -/
def emptyView : ChainView where
  mapBlockIndex _ := none
  pnext _ := []
  pindexBest := []
  nBestHeight := -1
  nAdjustedTime := 0

/-- A wallet file with one accounting entry. -/
def oneEntryDB : WalletDB where
  records := [.acentry 1 ⟨[], 5, 7, [], []⟩]
  sorted := List.pairwise_singleton _ _
  wellFormed := by
    intro record member
    obtain rfl := List.mem_singleton.mp member
    exact Nat.zero_le _

private theorem oneEntry_txByTime :
    txByTime emptyWallet oneEntryDB allAccounts = [(7, .acentry ⟨[], 5, 7, [], []⟩)] := by
  have scanned : oneEntryDB.listAccountCreditDebit allAccounts = [⟨[], 5, 7, [], []⟩] := by
    rfl
  have empty : emptyWallet.mapWallet.entries = [] := rfl
  simp only [txByTime, walletItems, scanned, empty, List.mergeSort_nil]
  rfl

private theorem oneEntry_listing :
    completeListing sampleCrypto emptyView emptyWallet oneEntryDB allAccounts =
      .ok [.move [] 7 5 [] []] := by
  rw [completeListing, oneEntry_txByTime]
  rfl

private theorem oneEntry_newestSize :
    newestSize sampleCrypto emptyView emptyWallet oneEntryDB allAccounts = 1 := by
  rw [newestSize, oneEntry_txByTime]
  rfl

theorem listtransactions_pages_oneEntry :
    listtransactions sampleCrypto emptyView emptyWallet oneEntryDB allAccounts 10 0 =
      .ok [.move [] 7 5 [] []] :=
  ((listtransactions_pages oneEntry_listing (by decide)).1 10 0 (by decide) (by decide)).mpr
    (.inl (by decide))

/-- Behind the first entry, the largest count ends outside the array. -/
theorem listtransactions_largest_count :
    completeListing sampleCrypto emptyView emptyWallet oneEntryDB allAccounts =
        .ok [.move [] 7 5 [] []] ∧
      listtransactions sampleCrypto emptyView emptyWallet oneEntryDB allAccounts 2147483647 1 =
        .error .outOfRange := by
  refine ⟨oneEntry_listing, ?_⟩
  rw [listtransactions, oneEntry_txByTime]
  rfl

end FooCoin

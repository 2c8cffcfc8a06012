import FooCoin.AccountEntries
import FooCoin.Library.Tally
import FooCoin.SampleChain

/-!
# The balances of accounts

`getbalance` of an account, `getbalance "*"` and `listaccounts` tally the transactions of a wallet.
The first two skip transactions that are not final and count mature generation at any depth.
-/

namespace FooCoin

open Tally

/-- Amounts of accounts, sums of an `int64`. -/
abbrev Balances := AList fun _ : Account => BitVec 64

section Commands

variable (crypto : Crypto) (view : ChainView) (wallet : AccountWallet) (db : WalletDB)
  (nMinDepth : Int)

/-- The transactions in `mapWallet`. -/
def AccountWallet.transactions : List AccountTx := wallet.mapWallet.entries.map Sigma.snd

/-- The account of a destination. -/
def AccountWallet.accountOf (address : CTxDestination) : Account :=
  (wallet.mapAddressBook.lookup address).getD []

/-- The loop body of `GetAccountBalance`. -/
def accountStep (strAccount : Account) (nBalance : BitVec 64) (wtx : AccountTx) :
    Outcome (BitVec 64) :=
  if wtx.isFinal view = false then pure nBalance
  else do
    let amounts ← wtx.getAccountAmounts crypto view wallet strAccount
    let nReceived ←
      if amounts.nReceived ≠ 0 then do
        let nDepth ← wtx.getDepthInMainChain crypto view
        pure (if nMinDepth ≤ nDepth then amounts.nReceived else 0)
      else pure 0
    pure (nBalance + nReceived + (amounts.nGenerated - amounts.nSent - amounts.nFee))

/-- `GetAccountBalance`. -/
def getAccountBalance (strAccount : Account) : Outcome (BitVec 64) := do
  let nBalance ← wallet.transactions.foldlM
    (accountStep crypto view wallet nMinDepth strAccount) 0
  pure (nBalance + db.getAccountCreditDebit strAccount)

/-- The loop body of `getbalance "*"`. -/
def totalStep (nBalance : BitVec 64) (wtx : AccountTx) : Outcome (BitVec 64) :=
  if wtx.isFinal view = false then pure nBalance
  else do
    let amounts ← wtx.getAmounts crypto view wallet
    let nDepth ← wtx.getDepthInMainChain crypto view
    let nReceived := if nMinDepth ≤ nDepth then sent amounts.listReceived else 0
    pure (nBalance + nReceived - sent amounts.listSent - .ofInt 64 amounts.nFee +
      .ofInt 64 amounts.nGeneratedMature)

/-- `getbalance "*"`. -/
def getTotalBalance : Outcome (BitVec 64) :=
  wallet.transactions.foldlM (totalStep crypto view wallet nMinDepth) 0

/-- The loop body of `listaccounts` over the transactions. -/
def listStep (mapAccountBalances : Balances) (wtx : AccountTx) : Outcome Balances := do
  let amounts ← wtx.getAmounts crypto view wallet
  let mapAccountBalances :=
    addTo amounts.strSentAccount (-BitVec.ofInt 64 amounts.nFee) mapAccountBalances
  let mapAccountBalances := addAll
    (amounts.listSent.map fun s => (amounts.strSentAccount, -s.2.toBitVec)) mapAccountBalances
  let nDepth ← wtx.getDepthInMainChain crypto view
  if nMinDepth ≤ nDepth then
    let mapAccountBalances := addTo [] (.ofInt 64 amounts.nGeneratedMature) mapAccountBalances
    pure (addAll (amounts.listReceived.map fun r => (wallet.accountOf r.1, r.2.toBitVec))
      mapAccountBalances)
  else pure mapAccountBalances

/-- The accounts of the addresses in the address book that belong to the wallet. -/
def AccountWallet.ownAccounts : Balances :=
  wallet.mapAddressBook.entries.foldl (fun mapAccountBalances entry =>
    if isMineDestination wallet.keystore entry.1 then mapAccountBalances.insert entry.2 0
    else mapAccountBalances) ∅

/-- `listaccounts`. -/
def listaccounts : Outcome Balances := do
  let mapAccountBalances ← wallet.transactions.foldlM (listStep crypto view wallet nMinDepth)
    wallet.ownAccounts
  pure (addAll ((db.listAccountCreditDebit allAccounts).map fun entry =>
    (entry.strAccount, entry.nCreditDebit.toBitVec)) mapAccountBalances)

/-! ## What a transaction contributes -/

/-- What a transaction with some amounts and some depth adds to `listaccounts`, over the chosen
accounts. -/
def AccountWallet.listShare (picks : Account → Bool) (amounts : Amounts) (nDepth : Int) :
    BitVec 64 :=
  chosen picks amounts.strSentAccount (-BitVec.ofInt 64 amounts.nFee - sent amounts.listSent) +
    if nMinDepth ≤ nDepth then
      chosen picks [] (.ofInt 64 amounts.nGeneratedMature) +
        (amounts.listReceived.map fun r => chosen picks (wallet.accountOf r.1) r.2.toBitVec).sum
    else 0

/-- A share of a transaction for its amounts and its depth, nothing where an exception is thrown. -/
def AccountTx.share (share : Amounts → Int → BitVec 64) (wtx : AccountTx) : BitVec 64 :=
  match wtx.getAmounts crypto view wallet, wtx.getDepthInMainChain crypto view with
  | .ok amounts, .ok nDepth => share amounts nDepth
  | _, _ => 0

/-- What transactions that are not final add to `listaccounts`, over the chosen accounts. -/
def nonFinalShare (picks : Account → Bool) : BitVec 64 :=
  ((wallet.transactions.filter fun wtx => wtx.isFinal view = false).map
    (AccountTx.share crypto view wallet (wallet.listShare nMinDepth picks))).sum

/-- What final transactions generated that is mature but not deep enough for `listaccounts`, over the
chosen accounts. -/
def missedGeneration (picks : Account → Bool) : BitVec 64 :=
  ((wallet.transactions.filter fun wtx => wtx.isFinal view = true).map
    (AccountTx.share crypto view wallet fun amounts nDepth =>
      if nMinDepth ≤ nDepth then 0 else chosen picks [] (.ofInt 64 amounts.nGeneratedMature))).sum

end Commands

section Tallies

variable {crypto : Crypto} {view : ChainView} {wallet : AccountWallet} {db : WalletDB}
  {nMinDepth : Int}

/-- The amounts and the depth of a transaction are known. -/
private def AccountTx.Known (crypto : Crypto) (view : ChainView) (wallet : AccountWallet)
    (wtx : AccountTx) (amounts : Amounts) (nDepth : Int) : Prop :=
  wtx.getAmounts crypto view wallet = .ok amounts ∧
    wtx.getDepthInMainChain crypto view = .ok nDepth

private theorem AccountTx.Known.share_eq {wtx : AccountTx} {amounts : Amounts} {nDepth : Int}
    (known : wtx.Known crypto view wallet amounts nDepth) (share : Amounts → Int → BitVec 64) :
    wtx.share crypto view wallet share = share amounts nDepth := by
  rw [AccountTx.share, known.1, known.2]

/-- What a final transaction adds to the balances of the chosen accounts. -/
private def AccountWallet.finalShare (wallet : AccountWallet) (nMinDepth : Int)
    (picks : Account → Bool) (amounts : Amounts) (nDepth : Int) : BitVec 64 :=
  chosen picks amounts.strSentAccount (-BitVec.ofInt 64 amounts.nFee - sent amounts.listSent) +
    chosen picks [] (.ofInt 64 amounts.nGeneratedMature) +
      if nMinDepth ≤ nDepth then
        (amounts.listReceived.map fun r => chosen picks (wallet.accountOf r.1) r.2.toBitVec).sum
      else 0

/-- The shares differ by generation that is mature but not deep enough. -/
private theorem listShare_eq (picks : Account → Bool) (amounts : Amounts) (nDepth : Int) :
    wallet.listShare nMinDepth picks amounts nDepth =
      wallet.finalShare nMinDepth picks amounts nDepth -
        if nMinDepth ≤ nDepth then 0 else chosen picks [] (.ofInt 64 amounts.nGeneratedMature) := by
  unfold AccountWallet.listShare AccountWallet.finalShare
  split <;> ring

private theorem received_eq (strAccount : Account) (listReceived : List (CTxDestination × Int64)) :
    wallet.received strAccount listReceived =
      (listReceived.map fun r =>
        chosen (fun other => other = strAccount) (wallet.accountOf r.1) r.2.toBitVec).sum := by
  induction listReceived with
  | nil => rfl
  | cons payment listReceived induction =>
      obtain ⟨address, nValue⟩ := payment
      rw [AccountWallet.received, List.map_cons, List.sum_cons, ← induction]
      cases found : wallet.mapAddressBook.lookup address with
      | none =>
          by_cases unnamed : strAccount = []
          · simp [AccountWallet.accountOf, found, chosen, unnamed]
          · simp [AccountWallet.accountOf, found, chosen, unnamed, Ne.symm unnamed]
      | some strName =>
          by_cases named : strName = strAccount
          · simp [AccountWallet.accountOf, found, chosen, named]
          · simp [AccountWallet.accountOf, found, chosen, named]

private theorem sum_chosen_neg (picks : Account → Bool) (strSentAccount : Account)
    (listSent : List (CTxDestination × Int64)) :
    ((listSent.map fun s => (strSentAccount, -s.2.toBitVec)).map fun entry =>
      chosen picks entry.1 entry.2).sum = chosen picks strSentAccount (-sent listSent) := by
  induction listSent with
  | nil =>
      change (0 : BitVec 64) = chosen picks strSentAccount (-0)
      rw [neg_zero, chosen_zero]
  | cons payment listSent induction =>
      simp only [List.map_cons, List.sum_cons, induction]
      rw [← chosen_add]
      simp only [sent, List.map_cons, List.sum_cons]
      rw [neg_add]

/-! ## One transaction -/

/-- A transaction in `listaccounts`. -/
private theorem listStep_eq {mapAccountBalances after : Balances} {wtx : AccountTx}
    (stepped : listStep crypto view wallet nMinDepth mapAccountBalances wtx = .ok after) :
    ∃ amounts nDepth, wtx.Known crypto view wallet amounts nDepth ∧
      ∀ picks, sumOf picks after =
        sumOf picks mapAccountBalances + wallet.listShare nMinDepth picks amounts nDepth := by
  obtain ⟨amounts, known, stepped⟩ := except_bind_eq_ok.mp stepped
  obtain ⟨nDepth, deep, stepped⟩ := except_bind_eq_ok.mp stepped
  refine ⟨amounts, nDepth, ⟨known, deep⟩, fun picks => ?_⟩
  unfold AccountWallet.listShare
  split at stepped
  · rename_i enough
    obtain rfl := pure_eq_ok.mp stepped
    rw [if_pos enough, sumOf_addAll, sumOf_addTo, sumOf_addAll, sumOf_addTo, sum_chosen_neg,
      List.map_map, sub_eq_add_neg, chosen_add]
    simp only [Function.comp_def]
    ring
  · rename_i shallow
    obtain rfl := pure_eq_ok.mp stepped
    rw [if_neg shallow, sumOf_addAll, sumOf_addTo, sum_chosen_neg, sub_eq_add_neg, chosen_add]
    ring

/-- A final transaction in `GetAccountBalance`. -/
private theorem accountStep_eq {wtx : AccountTx} {amounts : Amounts} {nDepth : Int}
    (known : wtx.Known crypto view wallet amounts nDepth) (strAccount : Account)
    (nBalance : BitVec 64) : accountStep crypto view wallet nMinDepth strAccount nBalance wtx =
      .ok (if wtx.isFinal view = true then
        nBalance + wallet.finalShare nMinDepth (fun other => other = strAccount) amounts nDepth
      else nBalance) := by
  rw [accountStep]
  cases final : wtx.isFinal view with
  | false => rfl
  | true =>
      have received : (if nMinDepth ≤ nDepth then wallet.received strAccount amounts.listReceived
          else 0) = if nMinDepth ≤ nDepth then (amounts.listReceived.map fun r =>
            chosen (fun other => other = strAccount) (wallet.accountOf r.1) r.2.toBitVec).sum
          else 0 := by
        rw [received_eq]
      have sender : (amounts.strSentAccount = strAccount) = (strAccount = amounts.strSentAccount) :=
        propext eq_comm
      have unnamed : (([] : Account) = strAccount) = (strAccount = []) := propext eq_comm
      rw [if_neg (by simp), AccountTx.getAccountAmounts, known.1, except_ok_bind, pure_bind,
        if_pos rfl, AccountWallet.finalShare, ← received]
      simp only [chosen, decide_eq_true_eq, sender, unnamed]
      by_cases zero : wallet.received strAccount amounts.listReceived = 0
      · rw [if_neg (not_not.mpr zero), zero, ite_self]
        refine congrArg Except.ok ?_
        split_ifs <;> ring
      · rw [if_pos zero, known.2]
        refine congrArg Except.ok ?_
        split_ifs <;> ring

/-- A final transaction in `getbalance "*"`. -/
private theorem totalStep_eq {wtx : AccountTx} {amounts : Amounts} {nDepth : Int}
    (known : wtx.Known crypto view wallet amounts nDepth) (nBalance : BitVec 64) :
    totalStep crypto view wallet nMinDepth nBalance wtx =
      .ok (if wtx.isFinal view = true then
        nBalance + wallet.finalShare nMinDepth (fun _ => true) amounts nDepth
      else nBalance) := by
  rw [totalStep]
  cases final : wtx.isFinal view with
  | false => rfl
  | true =>
      rw [if_neg (by simp), known.1, except_ok_bind, known.2, except_ok_bind, if_pos rfl]
      refine congrArg Except.ok ?_
      simp only [AccountWallet.finalShare, chosen, if_true, sent]
      ring

/-! ## All transactions -/

/-- What final transactions add to the balances of the chosen accounts. -/
private def finalSum (crypto : Crypto) (view : ChainView) (wallet : AccountWallet)
    (nMinDepth : Int) (picks : Account → Bool) (wtxs : List AccountTx) : BitVec 64 :=
  ((wtxs.filter fun wtx => wtx.isFinal view = true).map
    (AccountTx.share crypto view wallet (wallet.finalShare nMinDepth picks))).sum

/-- The transactions in `listaccounts`: all amounts are known. -/
private theorem listSteps_eq {wtxs : List AccountTx} {mapAccountBalances after : Balances}
    (stepped : wtxs.foldlM (listStep crypto view wallet nMinDepth) mapAccountBalances =
      .ok after) :
    (∀ wtx ∈ wtxs, ∃ amounts nDepth, wtx.Known crypto view wallet amounts nDepth) ∧
      ∀ picks, sumOf picks after = sumOf picks mapAccountBalances +
        (wtxs.map (AccountTx.share crypto view wallet (wallet.listShare nMinDepth picks))).sum := by
  induction wtxs generalizing mapAccountBalances with
  | nil =>
      obtain rfl := pure_eq_ok.mp stepped
      exact ⟨by simp, fun picks => by simp⟩
  | cons wtx wtxs induction =>
      rw [List.foldlM_cons] at stepped
      obtain ⟨middle, first, rest⟩ := except_bind_eq_ok.mp stepped
      obtain ⟨amounts, nDepth, known, first_sum⟩ := listStep_eq first
      obtain ⟨others, rest_sum⟩ := induction rest
      refine ⟨List.forall_mem_cons.mpr ⟨⟨amounts, nDepth, known⟩, others⟩, fun picks => ?_⟩
      rw [rest_sum, first_sum, List.map_cons, List.sum_cons, known.share_eq, add_assoc]

/-- A loop that adds what final transactions contribute. -/
private theorem finalSteps_eq {wtxs : List AccountTx}
    (all_known : ∀ wtx ∈ wtxs, ∃ amounts nDepth, wtx.Known crypto view wallet amounts nDepth)
    {step : BitVec 64 → AccountTx → Outcome (BitVec 64)} {picks : Account → Bool}
    (step_eq : ∀ wtx amounts nDepth, wtx.Known crypto view wallet amounts nDepth →
      ∀ nBalance, step nBalance wtx = .ok (if wtx.isFinal view = true then
        nBalance + wallet.finalShare nMinDepth picks amounts nDepth else nBalance))
    (nBalance : BitVec 64) : wtxs.foldlM step nBalance =
      .ok (nBalance + finalSum crypto view wallet nMinDepth picks wtxs) := by
  induction wtxs generalizing nBalance with
  | nil =>
      rw [finalSum, List.filter_nil, List.map_nil, List.sum_nil, add_zero]
      rfl
  | cons wtx wtxs induction =>
      obtain ⟨⟨amounts, nDepth, known⟩, others⟩ := List.forall_mem_cons.mp all_known
      rw [List.foldlM_cons, step_eq wtx amounts nDepth known, except_ok_bind, induction others]
      cases final : wtx.isFinal view with
      | false =>
          rw [finalSum, finalSum, List.filter_cons_of_neg (by simp [final])]
          rfl
      | true =>
          rw [finalSum, finalSum, List.filter_cons_of_pos (by simp [final]), List.map_cons,
            List.sum_cons, known.share_eq, if_pos rfl, add_assoc]

/-- The shares in `listaccounts` are those of final transactions and of the others, less what was
generated too late. -/
private theorem sum_listShare {wtxs : List AccountTx}
    (all_known : ∀ wtx ∈ wtxs, ∃ amounts nDepth, wtx.Known crypto view wallet amounts nDepth)
    (picks : Account → Bool) :
    (wtxs.map (AccountTx.share crypto view wallet (wallet.listShare nMinDepth picks))).sum =
      finalSum crypto view wallet nMinDepth picks wtxs +
        ((wtxs.filter fun wtx => wtx.isFinal view = false).map
          (AccountTx.share crypto view wallet (wallet.listShare nMinDepth picks))).sum -
        ((wtxs.filter fun wtx => wtx.isFinal view = true).map
          (AccountTx.share crypto view wallet fun amounts nDepth =>
            if nMinDepth ≤ nDepth then 0
            else chosen picks [] (.ofInt 64 amounts.nGeneratedMature))).sum := by
  induction wtxs with
  | nil => simp [finalSum]
  | cons wtx wtxs induction =>
      obtain ⟨⟨amounts, nDepth, known⟩, others⟩ := List.forall_mem_cons.mp all_known
      unfold finalSum at induction ⊢
      rw [List.map_cons, List.sum_cons, induction others, known.share_eq]
      cases final : wtx.isFinal view with
      | false =>
          simp only [final, List.filter_cons, decide_true, if_true, List.map_cons, List.sum_cons,
            Bool.false_eq_true, decide_false, if_false, known.share_eq]
          ring
      | true =>
          simp only [final, List.filter_cons, decide_true, if_true, List.map_cons, List.sum_cons,
            Bool.true_eq_false, decide_false, if_false, known.share_eq, listShare_eq,
            Bool.false_eq_true]
          ring

private theorem ownAccounts_zero : ∀ entry ∈ wallet.ownAccounts.entries, entry.2 = 0 := by
  have keeps : ∀ (entries : List (Sigma fun _ : CTxDestination => Account))
      (mapAccountBalances : Balances), (∀ entry ∈ mapAccountBalances.entries, entry.2 = 0) →
      ∀ entry ∈ (entries.foldl (fun mapAccountBalances entry =>
        if isMineDestination wallet.keystore entry.1 then mapAccountBalances.insert entry.2 0
        else mapAccountBalances) mapAccountBalances).entries, entry.2 = 0 := by
    intro entries
    induction entries with
    | nil => exact fun _ zero => zero
    | cons own entries induction =>
        intro mapAccountBalances zero
        refine induction _ fun entry member => ?_
        dsimp only at member
        split at member
        · rw [AList.entries_insert] at member
          rcases List.mem_cons.mp member with rfl | old
          · rfl
          · exact zero entry ((List.kerase_sublist _ _).subset old)
        · exact zero entry member
  exact keeps _ ∅ (by simp)

private theorem sumOf_ownAccounts (picks : Account → Bool) : sumOf picks wallet.ownAccounts = 0 := by
  refine List.sum_eq_zero fun value member => ?_
  obtain ⟨entry, inside, rfl⟩ := List.mem_map.mp member
  rw [ownAccounts_zero entry inside, chosen_zero]

private theorem sum_entries (picks : Account → Bool) (entries : List CAccountingEntry) :
    ((entries.map fun entry => (entry.strAccount, entry.nCreditDebit.toBitVec)).map fun entry =>
      chosen picks entry.1 entry.2).sum =
        creditDebit (entries.filter fun entry => picks entry.strAccount) := by
  induction entries with
  | nil => rfl
  | cons entry entries induction =>
      rw [List.map_cons, List.map_cons, List.sum_cons, induction, List.filter_cons]
      cases picked : picks entry.strAccount with
      | false => simp [chosen, picked]
      | true => simp [chosen, picked, creditDebit]

/-! ## The commands -/

/-- The sum over chosen accounts in `listaccounts`. -/
private theorem listaccounts_eq {balances : Balances}
    (listed : listaccounts crypto view wallet db nMinDepth = .ok balances) :
    (∀ wtx ∈ wallet.transactions, ∃ amounts nDepth,
        wtx.Known crypto view wallet amounts nDepth) ∧
      ∀ picks, sumOf picks balances =
        finalSum crypto view wallet nMinDepth picks wallet.transactions +
          creditDebit (db.acentries.filter fun entry => picks entry.strAccount) +
          (nonFinalShare crypto view wallet nMinDepth picks -
            missedGeneration crypto view wallet nMinDepth picks) := by
  obtain ⟨mapAccountBalances, stepped, rest⟩ := except_bind_eq_ok.mp listed
  obtain rfl := pure_eq_ok.mp rest
  obtain ⟨all_known, sums⟩ := listSteps_eq stepped
  refine ⟨all_known, fun picks => ?_⟩
  rw [sumOf_addAll, sums, sumOf_ownAccounts, sum_listShare all_known, listAccountCreditDebit_all,
    sum_entries, nonFinalShare, missedGeneration]
  ring

/-- The account balances that `listaccounts` lists are those of `getbalance`, and they add up to
`getbalance "*"` where accounting entries come from `move` only. -/
structure AccountsAgree (crypto : Crypto) (view : ChainView) (wallet : AccountWallet)
    (db : WalletDB) (nMinDepth : Int) (balances : Balances) : Prop where
  account : ∀ strAccount, strAccount ≠ allAccounts →
    getAccountBalance crypto view wallet db nMinDepth strAccount =
      .ok (amountOf balances strAccount)
  total : (∃ nAccountingEntryNumber, MovedOnly db nAccountingEntryNumber) →
    getTotalBalance crypto view wallet nMinDepth = .ok (sumOf (fun _ => true) balances)

/-- The balances agree exactly if, in every account and, where only `move` has written, in total,
the amounts of transactions that are not final are what was generated too late. -/
theorem accountsAgree_iff {balances : Balances}
    (listed : listaccounts crypto view wallet db nMinDepth = .ok balances) :
    AccountsAgree crypto view wallet db nMinDepth balances ↔
      (∀ strAccount, strAccount ≠ allAccounts →
        nonFinalShare crypto view wallet nMinDepth (fun other => other = strAccount) =
          missedGeneration crypto view wallet nMinDepth fun other => other = strAccount) ∧
      ((∃ nAccountingEntryNumber, MovedOnly db nAccountingEntryNumber) →
        nonFinalShare crypto view wallet nMinDepth (fun _ => true) =
          missedGeneration crypto view wallet nMinDepth fun _ => true) := by
  obtain ⟨all_known, sums⟩ := listaccounts_eq listed
  have account (strAccount : Account) (named : strAccount ≠ allAccounts) :
      getAccountBalance crypto view wallet db nMinDepth strAccount =
          .ok (amountOf balances strAccount) ↔
        nonFinalShare crypto view wallet nMinDepth (fun other => other = strAccount) =
          missedGeneration crypto view wallet nMinDepth fun other => other = strAccount := by
    have steps := @finalSteps_eq crypto view wallet nMinDepth _ all_known _ _
      (fun _ _ _ known => accountStep_eq known strAccount) 0
    rw [getAccountBalance, steps, except_ok_bind, WalletDB.getAccountCreditDebit,
      listAccountCreditDebit_eq db named, ← sumOf_single, sums, zero_add, pure_eq_ok]
    simp only [left_eq_add, sub_eq_zero]
  have total (moved : ∃ nAccountingEntryNumber, MovedOnly db nAccountingEntryNumber) :
      getTotalBalance crypto view wallet nMinDepth = .ok (sumOf (fun _ => true) balances) ↔
        nonFinalShare crypto view wallet nMinDepth (fun _ => true) =
          missedGeneration crypto view wallet nMinDepth fun _ => true := by
    obtain ⟨nAccountingEntryNumber, moved⟩ := moved
    have steps := @finalSteps_eq crypto view wallet nMinDepth _ all_known _ _
      (fun _ _ _ known => totalStep_eq known) 0
    rw [getTotalBalance, steps, sums, List.filter_true, moved.creditDebit_eq, add_zero, zero_add,
      Except.ok.injEq]
    simp only [left_eq_add, sub_eq_zero]
  constructor
  · intro agree
    exact ⟨fun strAccount named => (account strAccount named).mp (agree.account strAccount named),
      fun moved => (total moved).mp (agree.total moved)⟩
  · rintro ⟨accounts, all⟩
    exact ⟨fun strAccount named => (account strAccount named).mpr (accounts strAccount named),
      fun moved => (total moved).mpr (all moved)⟩

end Tallies

/-! ## Two wallets -/

/-- A wallet of the key with hash 7, whose address has no name. -/
def accountWallet (wtx : AccountTx) : AccountWallet where
  keystore := ⟨fun keyID => keyID = 7, []⟩
  nMinimumInputValue := 0
  mapWallet := (∅ : AList fun _ : UInt256 => AccountTx).insert 1 wtx
  mapAddressBook := ∅

/-- A transaction that pays 5 to the key and was not sent by the wallet. -/
def payment (nLockTime : UInt32) : AccountTx where
  tx :=
    { nVersion := 1
      vin := [{ prevout := ⟨2, 0⟩, scriptSig := [], nSequence := 0 }]
      vout := [{ nValue := 5, scriptPubKey := [0x76, 0xa9, 20, 7] ++ List.replicate 19 0 ++ [0x88, 0xac] }]
      nLockTime }
  hashBlock := 0
  nIndex := -1
  vMerkleBranch := []
  fFromMe := false
  vfSpent := []
  strFromAccount := []
  fMerkleVerified := false
  nDebitCached := none
  nCreditCached := none

/-- A chain of two entries at heights 0 and 40. -/
def tallChain : ChainView where
  mapBlockIndex hash := if hash = 3 then some [⟨3, 0, 0, 0, 0, 1, 0, 0, 0, 0⟩] else none
  pnext hash := if hash = 3 then [⟨4, 0, 0, 40, 0, 1, 0, 0, 0, 0⟩] else []
  pindexBest := [⟨4, 0, 0, 40, 0, 1, 0, 0, 0, 0⟩]
  nBestHeight := 40
  nAdjustedTime := 0

/-- A coinbase of the first entry that pays 5 to the key. -/
def generated : AccountTx :=
  { payment 0 with
    tx := { (payment 0).tx with
      vin := [{ prevout := ⟨0, 0xffffffff⟩, scriptSig := [0, 0], nSequence := 0 }] }
    hashBlock := 3
    nIndex := 0
    fMerkleVerified := true }

/-- A wallet file without records. -/
def emptyDB : WalletDB := ⟨[], .nil, by simp⟩

private theorem listed_of_isOk {wallet : AccountWallet} {nMinDepth : Int}
    (succeeds : (listaccounts sampleCrypto tallChain wallet emptyDB nMinDepth).isOk = true) :
    ∃ balances, listaccounts sampleCrypto tallChain wallet emptyDB nMinDepth = .ok balances :=
  exists_of_isOk succeeds

theorem accountsAgree_payment : ∃ balances,
    listaccounts sampleCrypto tallChain (accountWallet (payment 0)) emptyDB 0 = .ok balances ∧
      AccountsAgree sampleCrypto tallChain (accountWallet (payment 0)) emptyDB 0 balances := by
  obtain ⟨balances, listed⟩ := @listed_of_isOk (accountWallet (payment 0)) 0 (by decide +kernel)
  have shares (picks : Account → Bool) :
      nonFinalShare sampleCrypto tallChain (accountWallet (payment 0)) 0 picks =
        missedGeneration sampleCrypto tallChain (accountWallet (payment 0)) 0 picks := by
    have final : (accountWallet (payment 0)).transactions = [payment 0] := rfl
    have deep : (payment 0).getDepthInMainChain sampleCrypto tallChain = .ok 0 := rfl
    have now : (payment 0).isFinal tallChain = true := rfl
    simp only [nonFinalShare, missedGeneration, final, List.filter_cons, now, decide_true, if_true,
      Bool.true_eq_false, decide_false, Bool.false_eq_true, if_false, List.filter_nil,
      List.map_nil, List.sum_nil, List.map_cons, List.sum_cons, AccountTx.share, deep]
    split <;> simp_all
  exact ⟨balances, listed, (accountsAgree_iff listed).mpr
    ⟨fun _ _ => shares _, fun _ => shares _⟩⟩

private theorem not_agree {wallet : AccountWallet} {nMinDepth : Int}
    (succeeds : (listaccounts sampleCrypto tallChain wallet emptyDB nMinDepth).isOk = true)
    (differ : (listaccounts sampleCrypto tallChain wallet emptyDB nMinDepth).map
        (fun balances => amountOf balances []) ≠
      getAccountBalance sampleCrypto tallChain wallet emptyDB nMinDepth []) :
    ∃ balances, listaccounts sampleCrypto tallChain wallet emptyDB nMinDepth = .ok balances ∧
      ¬AccountsAgree sampleCrypto tallChain wallet emptyDB nMinDepth balances := by
  obtain ⟨balances, listed⟩ := listed_of_isOk succeeds
  refine ⟨balances, listed, fun agree => differ ?_⟩
  rw [listed]
  exact (agree.account [] (by decide)).symm

/-- A payment that is not final is in `listaccounts` only, and generation that is mature at a depth
of 41 is missing there for a depth of 100. -/
theorem not_accountsAgree :
    (∃ balances, listaccounts sampleCrypto tallChain (accountWallet (payment 100)) emptyDB 0 =
        .ok balances ∧
      ¬AccountsAgree sampleCrypto tallChain (accountWallet (payment 100)) emptyDB 0 balances) ∧
    ∃ balances, listaccounts sampleCrypto tallChain (accountWallet generated) emptyDB 100 =
        .ok balances ∧
      ¬AccountsAgree sampleCrypto tallChain (accountWallet generated) emptyDB 100 balances :=
  ⟨not_agree (by decide +kernel) (by decide +kernel),
    not_agree (by decide +kernel) (by decide +kernel)⟩

end FooCoin

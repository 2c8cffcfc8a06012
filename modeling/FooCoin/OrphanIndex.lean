import FooCoin.Orphans

/-!
# The index of orphans by previous transaction

In every run `mapOrphanTransactionsByPrev` leads to the stored orphans that wait for a transaction,
and evictions end with the number asked for.  Its keys are the transactions waited for as long as the
tx handler looks up no other.
-/

namespace FooCoin

open Function

/-- The transaction spends an output of the transaction with this hash. -/
def CTransaction.SpendsFrom (tx : CTransaction) (hash : UInt256) : Prop :=
  ∃ txin ∈ tx.vin, txin.prevout.hash = hash

namespace Orphans

variable {crypto : Crypto} {orphans : Orphans}

/-- The orphan of the entry has an input from the transaction with this hash. -/
def EntrySpends (orphans : Orphans) (entry : OrphanEntry) (hash : UInt256) : Prop :=
  ∃ tx, orphans.readTx entry.pvMsg = .ok tx ∧ tx.SpendsFrom hash

/-- A stored orphan has an input from the transaction with this hash. -/
def Awaited (orphans : Orphans) (hash : UInt256) : Prop :=
  ∃ entry ∈ orphans.mapOrphanTransactions.elements, orphans.EntrySpends entry hash

/-- The index is that of the stored orphans. -/
structure Indexed (orphans : Orphans) : Prop where
  /-- Its keys are the transactions that stored orphans wait for. -/
  key : ∀ hash, (orphans.mapOrphanTransactionsByPrev hash).isSome ↔ orphans.Awaited hash
  /-- Its inner maps hold exactly these orphans. -/
  inner : ∀ hash inner, orphans.mapOrphanTransactionsByPrev hash = some inner → ∀ entry,
    entry ∈ inner.elements ↔
      entry ∈ orphans.mapOrphanTransactions.elements ∧ orphans.EntrySpends entry hash

/-- What every call keeps. -/
structure Owned (crypto : Crypto) (orphans : Orphans) : Prop where
  /-- Every stream is there and holds the orphan. -/
  stored : ∀ entry ∈ orphans.mapOrphanTransactions.elements,
    ∃ tx, orphans.readTx entry.pvMsg = .ok tx ∧ tx.getHash crypto = entry.hash
  address_lt : ∀ entry ∈ orphans.mapOrphanTransactions.elements,
    entry.pvMsg < orphans.nextAddress
  /-- The inner maps hold the orphans that wait for their key. -/
  inner : ∀ hash entry,
    entry ∈ (innerMap orphans.mapOrphanTransactionsByPrev hash).elements ↔
      entry ∈ orphans.mapOrphanTransactions.elements ∧ orphans.EntrySpends entry hash

/-- No inner map is empty. -/
def Tight (orphans : Orphans) : Prop :=
  ∀ hash inner, orphans.mapOrphanTransactionsByPrev hash = some inner → inner.elements ≠ []

theorem innerMap_of_eq_some {byPrev : UInt256 → Option OrphanMap} {hash : UInt256}
    {inner : OrphanMap} (found : byPrev hash = some inner) : innerMap byPrev hash = inner := by
  rw [innerMap, found, Option.getD_some]

theorem Owned.indexed (owned : orphans.Owned crypto) (tight : orphans.Tight) :
    orphans.Indexed where
  key hash := by
    constructor
    · intro present
      obtain ⟨inner, found⟩ := Option.isSome_iff_exists.mp present
      obtain ⟨entry, member⟩ := List.exists_mem_of_ne_nil _ (tight hash inner found)
      rw [← innerMap_of_eq_some found] at member
      exact ⟨entry, (owned.inner hash entry).mp member⟩
    · rintro ⟨entry, stored⟩
      have member := (owned.inner hash entry).mpr stored
      by_contra absent
      rw [Option.not_isSome_iff_eq_none] at absent
      rw [innerMap, absent] at member
      simp [SortedSet.empty] at member
  inner hash inner found entry := by
    rw [← innerMap_of_eq_some found]
    exact owned.inner hash entry

/-! ## The loops -/

section Loops

variable {entry : OrphanEntry} {byPrev : UInt256 → Option OrphanMap}

private theorem innerMap_update (byPrev : UInt256 → Option OrphanMap) (hash other : UInt256)
    (inner : Option OrphanMap) :
    innerMap (update byPrev hash inner) other =
      if other = hash then inner.getD .empty else innerMap byPrev other := by
  by_cases same : other = hash
  · subst same
    simp [innerMap]
  · simp [innerMap, same]

/-- The entry is new to the inner maps, or there already. -/
private def Compatible (entry : OrphanEntry) (byPrev : UInt256 → Option OrphanMap) : Prop :=
  ∀ hash, ∀ old ∈ (innerMap byPrev hash).elements, old.key = entry.key → old = entry

private theorem mem_addByPrev {vin : List CTxIn} (compatible : Compatible entry byPrev)
    (hash : UInt256) (other : OrphanEntry) :
    (other ∈ (innerMap (addByPrev entry vin byPrev) hash).elements ↔
      (other = entry ∧ ∃ txin ∈ vin, txin.prevout.hash = hash) ∨
        other ∈ (innerMap byPrev hash).elements) ∧
    ((addByPrev entry vin byPrev hash).isSome ↔
      (∃ txin ∈ vin, txin.prevout.hash = hash) ∨ (byPrev hash).isSome) := by
  induction vin generalizing byPrev with
  | nil => simp [addByPrev]
  | cons txin vin induction =>
      have inserted (old : OrphanEntry) := @SortedSet.mem_insert _ _ _ OrphanEntry.key
        (innerMap byPrev txin.prevout.hash) entry old (compatible txin.prevout.hash)
      have step : addByPrev entry (txin :: vin) byPrev = addByPrev entry vin
          (update byPrev txin.prevout.hash
            (some ((innerMap byPrev txin.prevout.hash).insert entry))) := rfl
      have still : Compatible entry (update byPrev txin.prevout.hash
          (some ((innerMap byPrev txin.prevout.hash).insert entry))) := by
        intro hash old member same
        rw [innerMap_update] at member
        split_ifs at member with here
        · rcases (inserted old).mp member with rfl | earlier
          · rfl
          · exact compatible _ old earlier same
        · exact compatible hash old member same
      obtain ⟨members, keys⟩ := induction still
      rw [step, members, keys, innerMap_update]
      by_cases here : hash = txin.prevout.hash
      · subst here
        simp only [if_true, Option.getD_some, inserted, List.exists_mem_cons_iff, true_or, and_true,
          update_self, Option.isSome_some, or_true, iff_self]
        constructor
        · rintro (⟨rfl, -⟩ | either)
          · exact .inl rfl
          · exact either
        · exact .inr
      · rw [if_neg here, update_of_ne here]
        simp [Ne.symm here]

/-- The loop of `EraseOrphanTx` removes the entry from the inner maps of the inputs, and those of
them that it leaves empty. -/
private theorem eraseByPrev_eq (vin : List CTxIn) (byPrev : UInt256 → Option OrphanMap)
    (hash : UInt256) :
    eraseByPrev entry vin byPrev hash =
      if ∃ txin ∈ vin, txin.prevout.hash = hash then
        if ((innerMap byPrev hash).erase entry).size = 0 then none
        else some ((innerMap byPrev hash).erase entry)
      else byPrev hash := by
  induction vin generalizing byPrev with
  | nil => simp [eraseByPrev]
  | cons txin vin induction =>
      have step : eraseByPrev entry (txin :: vin) byPrev = eraseByPrev entry vin
          (update byPrev txin.prevout.hash
            (if ((innerMap byPrev txin.prevout.hash).erase entry).size = 0 then none
              else some ((innerMap byPrev txin.prevout.hash).erase entry))) := rfl
      rw [step, induction, innerMap_update]
      by_cases here : hash = txin.prevout.hash
      · subst here
        have spends : ∃ other ∈ txin :: vin, other.prevout.hash = txin.prevout.hash :=
          ⟨txin, List.mem_cons_self, rfl⟩
        rw [if_pos rfl, update_self, if_pos spends]
        by_cases last : ((innerMap byPrev txin.prevout.hash).erase entry).size = 0
        · have gone : ((SortedSet.empty : OrphanMap).erase entry).size = 0 := rfl
          rw [if_pos last, Option.getD_none, if_pos gone, ite_self]
        · rw [if_neg last, Option.getD_some, SortedSet.erase_erase, if_neg last, ite_self]
      · rw [if_neg here, update_of_ne here]
        simp only [List.exists_mem_cons_iff, Ne.symm here, false_or]

private theorem mem_eraseByPrev (vin : List CTxIn) (hash : UInt256) (other : OrphanEntry) :
    other ∈ (innerMap (eraseByPrev entry vin byPrev) hash).elements ↔
      other ∈ (innerMap byPrev hash).elements ∧
        ((∃ txin ∈ vin, txin.prevout.hash = hash) → other.key ≠ entry.key) := by
  rw [innerMap, eraseByPrev_eq]
  by_cases spends : ∃ txin ∈ vin, txin.prevout.hash = hash
  · rw [if_pos spends]
    have kept := @SortedSet.mem_erase _ _ _ OrphanEntry.key (innerMap byPrev hash) entry other
    by_cases last : ((innerMap byPrev hash).erase entry).size = 0
    · rw [SortedSet.size_eq_zero.mp last] at kept
      simpa [last, spends, SortedSet.empty] using kept
    · simpa [last, spends] using kept
  · rw [if_neg spends]
    simp [spends, innerMap]

end Loops

/-! ## The calls -/

theorem readTx_congr {after : Orphans} {pvMsg : Nat} (same : after.heap pvMsg = orphans.heap pvMsg) :
    after.readTx pvMsg = orphans.readTx pvMsg := by
  rw [readTx, readTx, same]

private theorem entrySpends_congr {after : Orphans} {entry : OrphanEntry} {hash : UInt256}
    (same : after.heap entry.pvMsg = orphans.heap entry.pvMsg) :
    after.EntrySpends entry hash ↔ orphans.EntrySpends entry hash := by
  rw [EntrySpends, EntrySpends, readTx_congr same]

/-- Distinct orphans have distinct streams. -/
private theorem Owned.address_ne (owned : orphans.Owned crypto) {left right : OrphanEntry}
    (left_mem : left ∈ orphans.mapOrphanTransactions.elements)
    (right_mem : right ∈ orphans.mapOrphanTransactions.elements) (differ : left.key ≠ right.key) :
    left.pvMsg ≠ right.pvMsg := by
  intro same
  obtain ⟨tx, read, hash⟩ := owned.stored left left_mem
  obtain ⟨tx', read', hash'⟩ := owned.stored right right_mem
  rw [same, read'] at read
  cases read
  exact differ (congrArg BitVec.toNat (hash.symm.trans hash'))

/-- What a call leaves. -/
structure Kept (crypto : Crypto) (orphans after : Orphans) : Prop where
  owned : after.Owned crypto
  tight : orphans.Tight → after.Tight

/-- The orphans with one more, whose stream is at the next free address. -/
private theorem Owned.store (owned : orphans.Owned crypto) {vMsg rest : List UInt8}
    {tx : CTransaction} (parsed : CTransaction.read.run vMsg = some (tx, rest))
    (fresh : ∀ old ∈ orphans.mapOrphanTransactions.elements,
      old.key ≠ (tx.getHash crypto).toNat) :
    Kept crypto orphans
      { mapOrphanTransactions :=
          orphans.mapOrphanTransactions.insert ⟨tx.getHash crypto, orphans.nextAddress⟩
        mapOrphanTransactionsByPrev := addByPrev ⟨tx.getHash crypto, orphans.nextAddress⟩ tx.vin
          orphans.mapOrphanTransactionsByPrev
        heap := update orphans.heap orphans.nextAddress (some vMsg)
        nextAddress := orphans.nextAddress + 1 } := by
  generalize entry_eq : OrphanEntry.mk (tx.getHash crypto) orphans.nextAddress = entry
  generalize after_eq : Orphans.mk _ _ _ _ = after
  have hash : entry.hash = tx.getHash crypto := by rw [← entry_eq]
  have pvMsg : entry.pvMsg = orphans.nextAddress := by rw [← entry_eq]
  have members (other : OrphanEntry) : other ∈ after.mapOrphanTransactions.elements ↔
      other = entry ∨ other ∈ orphans.mapOrphanTransactions.elements := by
    rw [← after_eq]
    exact SortedSet.mem_insert fun old member same =>
      absurd (same.trans (congrArg BitVec.toNat hash)) (fresh old member)
  have new_read : after.readTx entry.pvMsg = .ok tx := by
    rw [← after_eq, readTx, pvMsg]
    simp only [update_self, parsed]
    rfl
  have old_read : ∀ old ∈ orphans.mapOrphanTransactions.elements,
      after.heap old.pvMsg = orphans.heap old.pvMsg := by
    intro old member
    rw [← after_eq]
    exact update_of_ne (Nat.ne_of_lt (owned.address_lt old member)) _ _
  have compatible : Compatible entry orphans.mapOrphanTransactionsByPrev := by
    intro key old member same
    have stored := ((owned.inner key old).mp member).1
    exact absurd (same.trans (congrArg BitVec.toNat hash)) (fresh old stored)
  have index : after.mapOrphanTransactionsByPrev =
      addByPrev entry tx.vin orphans.mapOrphanTransactionsByPrev := by rw [← after_eq]
  have next : after.nextAddress = orphans.nextAddress + 1 := by rw [← after_eq]
  refine ⟨⟨?_, ?_, ?_⟩, ?_⟩
  · intro other member
    rcases (members other).mp member with rfl | old
    · exact ⟨tx, new_read, hash.symm⟩
    · rw [readTx_congr (old_read other old)]
      exact owned.stored other old
  · intro other member
    rcases (members other).mp member with rfl | old
    · omega
    · have := owned.address_lt other old
      omega
  · intro key other
    rw [index, (mem_addByPrev compatible key other).1, members, owned.inner]
    constructor
    · rintro (⟨rfl, spends⟩ | ⟨old, spends⟩)
      · exact ⟨.inl rfl, tx, new_read, spends⟩
      · exact ⟨.inr old, (entrySpends_congr (old_read other old)).mpr spends⟩
    · rintro ⟨rfl | old, spends⟩
      · obtain ⟨tx', read, spends⟩ := spends
        rw [new_read] at read
        cases read
        exact .inl ⟨rfl, spends⟩
      · exact .inr ⟨old, (entrySpends_congr (old_read other old)).mp spends⟩
  · intro tight key inner found
    rw [index] at found
    rw [← innerMap_of_eq_some found]
    have added (other : OrphanEntry) := @mem_addByPrev entry _ tx.vin compatible key other
    have present := (added entry).2.mp (by rw [found]; rfl)
    by_cases spends : ∃ txin ∈ tx.vin, txin.prevout.hash = key
    · exact List.ne_nil_of_mem ((added entry).1.mpr (.inl ⟨rfl, spends⟩))
    · obtain ⟨old, old_found⟩ := Option.isSome_iff_exists.mp (present.resolve_left spends)
      obtain ⟨other, member⟩ := List.exists_mem_of_ne_nil _ (tight key old old_found)
      rw [← innerMap_of_eq_some old_found] at member
      exact List.ne_nil_of_mem ((added other).1.mpr (.inr member))

private theorem Owned.addOrphanTx (owned : orphans.Owned crypto) (vMsg : List UInt8) :
    orphans.addOrphanTx crypto vMsg = .error .thrown ∨
      ∃ added after, orphans.addOrphanTx crypto vMsg = .ok (added, after) ∧
        Kept crypto orphans after := by
  simp only [Orphans.addOrphanTx]
  split
  · exact .inl rfl
  rename_i tx rest parsed
  right
  split_ifs with present large
  · exact ⟨false, orphans, rfl, owned, id⟩
  · exact ⟨false, orphans, rfl, owned, id⟩
  · rw [Option.not_isSome_iff_eq_none, SortedSet.lookup_eq_none] at present
    exact ⟨true, _, rfl, owned.store parsed present⟩

/-- The orphans without one of them. -/
private theorem Owned.remove (owned : orphans.Owned crypto) {entry : OrphanEntry}
    (stored : entry ∈ orphans.mapOrphanTransactions.elements) {tx : CTransaction}
    (read : orphans.readTx entry.pvMsg = .ok tx) :
    Kept crypto orphans
      { orphans with
        mapOrphanTransactionsByPrev := eraseByPrev entry tx.vin orphans.mapOrphanTransactionsByPrev
        heap := update orphans.heap entry.pvMsg none
        mapOrphanTransactions := orphans.mapOrphanTransactions.erase entry } := by
  generalize after_eq : Orphans.mk _ _ _ _ = after
  have members (other : OrphanEntry) : other ∈ after.mapOrphanTransactions.elements ↔
      other ∈ orphans.mapOrphanTransactions.elements ∧ other.key ≠ entry.key := by
    rw [← after_eq]
    exact SortedSet.mem_erase
  have old_read : ∀ old ∈ orphans.mapOrphanTransactions.elements, old.key ≠ entry.key →
      after.heap old.pvMsg = orphans.heap old.pvMsg := by
    intro old member differ
    rw [← after_eq]
    exact update_of_ne (owned.address_ne member stored differ) _ _
  have index : after.mapOrphanTransactionsByPrev =
      eraseByPrev entry tx.vin orphans.mapOrphanTransactionsByPrev := by rw [← after_eq]
  have next : after.nextAddress = orphans.nextAddress := by rw [← after_eq]
  refine ⟨⟨?_, ?_, ?_⟩, ?_⟩
  · intro other member
    obtain ⟨old, differ⟩ := (members other).mp member
    rw [readTx_congr (old_read other old differ)]
    exact owned.stored other old
  · intro other member
    rw [next]
    exact owned.address_lt other ((members other).mp member).1
  · intro key other
    rw [index, mem_eraseByPrev, members, owned.inner]
    constructor
    · rintro ⟨⟨old, spends⟩, kept⟩
      have differ : other.key ≠ entry.key := by
        intro same
        obtain rfl := SortedSet.eq_of_key old stored same
        obtain ⟨tx', read', spends'⟩ := spends
        rw [read] at read'
        cases read'
        exact kept spends' rfl
      exact ⟨⟨old, differ⟩, (entrySpends_congr (old_read other old differ)).mpr spends⟩
    · rintro ⟨⟨old, differ⟩, spends⟩
      exact ⟨⟨old, (entrySpends_congr (old_read other old differ)).mp spends⟩, fun _ => differ⟩
  · intro tight key inner found
    rw [index, eraseByPrev_eq] at found
    split_ifs at found with spends last
    · cases found
      exact fun none_left => last (SortedSet.size_eq_zero.mpr none_left)
    · exact tight key inner found

private theorem Owned.eraseOrphanTx (owned : orphans.Owned crypto) (hash : UInt256) :
    ∃ after, orphans.eraseOrphanTx hash = .ok after ∧ Kept crypto orphans after := by
  cases found : orphans.mapOrphanTransactions.lookup hash.toNat with
  | none =>
      refine ⟨orphans, ?_, owned, id⟩
      rw [Orphans.eraseOrphanTx, found]
      rfl
  | some entry =>
      obtain ⟨member, key⟩ := SortedSet.lookup_eq_some.mp found
      obtain ⟨tx, read, _⟩ := owned.stored entry member
      refine ⟨_, ?_, owned.remove member read⟩
      rw [Orphans.eraseOrphanTx, found]
      simp only [read]
      rfl

private theorem exists_victim (orphans : Orphans) (randomHash : UInt256)
    (nonempty : 0 < orphans.mapOrphanTransactions.size) :
    ∃ entry, orphans.victim randomHash = some entry := by
  simp only [victim]
  split
  · exact ⟨_, rfl⟩
  · cases elements : orphans.mapOrphanTransactions.elements with
    | nil => simp [SortedSet.size, elements] at nonempty
    | cons entry entries => exact ⟨entry, rfl⟩

private theorem limitOrphanTxSize_of_erase {randomHash : Nat → UInt256} {nMaxOrphans : Nat}
    {entry : OrphanEntry} {after : Orphans}
    (more : nMaxOrphans < orphans.mapOrphanTransactions.size)
    (chosen : orphans.victim (randomHash orphans.mapOrphanTransactions.size) = some entry)
    (erased : orphans.eraseOrphanTx entry.hash = .ok after) :
    orphans.limitOrphanTxSize randomHash nMaxOrphans =
      (after.limitOrphanTxSize randomHash nMaxOrphans >>= fun result =>
        pure (result.1 + 1, result.2)) := by
  rw [Orphans.limitOrphanTxSize, if_pos more]
  split
  · simp_all
  · split <;> simp_all

/-- `LimitOrphanTxSize` returns the number of orphans over the limit, which are gone then. -/
private theorem Owned.limitOrphanTxSize (owned : orphans.Owned crypto)
    (randomHash : Nat → UInt256) (nMaxOrphans : Nat) :
    ∃ after, orphans.limitOrphanTxSize randomHash nMaxOrphans =
        .ok (orphans.mapOrphanTransactions.size - nMaxOrphans, after) ∧
      after.mapOrphanTransactions.size = min orphans.mapOrphanTransactions.size nMaxOrphans ∧
      Kept crypto orphans after := by
  induction count : orphans.mapOrphanTransactions.size using Nat.strongRecOn
    generalizing orphans with
  | ind size induction =>
      by_cases more : nMaxOrphans < orphans.mapOrphanTransactions.size
      · obtain ⟨entry, chosen⟩ := orphans.exists_victim
          (randomHash orphans.mapOrphanTransactions.size) (by omega)
        obtain ⟨middle, erased, kept⟩ := owned.eraseOrphanTx entry.hash
        have fewer := size_of_eraseOrphanTx (mem_of_victim chosen) erased
        obtain ⟨after, limited, left, later⟩ :=
          induction middle.mapOrphanTransactions.size (by omega) kept.owned rfl
        refine ⟨after, ?_, by omega, later.owned, fun tight => later.tight (kept.tight tight)⟩
        rw [limitOrphanTxSize_of_erase more chosen erased, limited]
        have evicted : middle.mapOrphanTransactions.size - nMaxOrphans + 1 = size - nMaxOrphans := by
          omega
        rw [← evicted]
        rfl
      · refine ⟨orphans, ?_, by omega, owned, id⟩
        have none_over : size - nMaxOrphans = 0 := by omega
        rw [Orphans.limitOrphanTxSize, if_neg more, none_over]
        rfl

end Orphans

/-! ## Runs -/

open Orphans

section Run

variable {crypto : Crypto}

private theorem offerOrphans_ok {verdict : UInt256 → Verdict} {orphans : Orphans}
    {entries : List OrphanEntry} (readable : ∀ entry ∈ entries,
      ∃ tx, orphans.readTx entry.pvMsg = .ok tx) (handler : TxHandler) :
    ∃ after, offerOrphans crypto verdict orphans entries handler = .ok after := by
  induction entries generalizing handler with
  | nil => exact ⟨handler, rfl⟩
  | cons entry entries induction =>
      obtain ⟨tx, read⟩ := readable entry List.mem_cons_self
      obtain ⟨after, offered⟩ := induction
        (fun next member => readable next (List.mem_cons_of_mem _ member))
        (handler.offer verdict (tx.getHash crypto))
      refine ⟨after, ?_⟩
      simp only [offerOrphans, read]
      exact offered

private theorem eraseQueue_ok {orphans : Orphans} (owned : orphans.Owned crypto)
    (vEraseQueue : List UInt256) :
    ∃ after, vEraseQueue.foldlM (fun orphans hash => orphans.eraseOrphanTx hash) orphans =
        .ok after ∧ Kept crypto orphans after := by
  induction vEraseQueue generalizing orphans with
  | nil => exact ⟨orphans, rfl, owned, id⟩
  | cons hash vEraseQueue induction =>
      obtain ⟨middle, erased, kept⟩ := owned.eraseOrphanTx hash
      obtain ⟨after, later, rest⟩ := induction kept.owned
      refine ⟨after, ?_, rest.owned, fun tight => rest.tight (kept.tight tight)⟩
      rw [List.foldlM_cons, erased]
      exact later

/-- If the call is a round of the work queue, then a stored orphan waits for the accepted transaction
that it looks up. -/
def OrphanCall.LooksUpAwaited : OrphanCall → OrphanNode → Prop
  | .resume _, ⟨orphans, some handler⟩ =>
      ∀ hashPrev ∈ handler.vWorkQueue.head?, orphans.Awaited hashPrev
  | _, _ => True

/-- `operator[]` changes no inner map. -/
private theorem innerMap_lookup (byPrev : UInt256 → Option OrphanMap) (hashPrev : UInt256) :
    innerMap (update byPrev hashPrev (some (innerMap byPrev hashPrev))) = innerMap byPrev := by
  funext hash
  rw [innerMap_update]
  split_ifs with same
  · rw [same, Option.getD_some]
  · rfl

/-- A look-up keeps the maps, and leaves an empty one exactly if no stored orphan waits for the
transaction. -/
private theorem Orphans.Owned.lookup {orphans : Orphans} (owned : orphans.Owned crypto)
    (hashPrev : UInt256) :
    let after : Orphans :=
      { orphans with
        mapOrphanTransactionsByPrev := update orphans.mapOrphanTransactionsByPrev hashPrev
          (some (innerMap orphans.mapOrphanTransactionsByPrev hashPrev)) }
    after.Owned crypto ∧ (orphans.Tight → (after.Indexed ↔ orphans.Awaited hashPrev)) := by
  intro after
  have after_owned : after.Owned crypto := by
    refine ⟨owned.stored, owned.address_lt, fun hash entry => ?_⟩
    simp only [after, innerMap_lookup]
    exact owned.inner hash entry
  refine ⟨after_owned, fun tight => ?_⟩
  constructor
  · intro indexed
    exact (indexed.key hashPrev).mp (by simp [after])
  · rintro ⟨entry, stored⟩
    refine after_owned.indexed fun hash inner found => ?_
    by_cases same : hash = hashPrev
    · subst same
      rw [← innerMap_of_eq_some found]
      exact List.ne_nil_of_mem ((after_owned.inner hash entry).mpr stored)
    · exact tight hash inner (by simpa [after, same] using found)

private theorem Orphans.Indexed.tight {orphans : Orphans} (indexed : orphans.Indexed) : orphans.Tight := by
  intro hash inner found
  obtain ⟨entry, stored⟩ := (indexed.key hash).mp (by rw [found]; rfl)
  exact List.ne_nil_of_mem ((indexed.inner hash inner found entry).mpr stored)

/-- The handler goes on. -/
private theorem resumeTx_ok {orphans : Orphans} (owned : orphans.Owned crypto)
    (verdict : UInt256 → Verdict) (handler : TxHandler) :
    ∃ after, resumeTx crypto verdict handler orphans = .ok after ∧ after.orphans.Owned crypto ∧
      (orphans.Tight → (after.orphans.Indexed ↔
        ∀ hashPrev ∈ handler.vWorkQueue.head?, orphans.Awaited hashPrev)) := by
  obtain ⟨vWorkQueue, vEraseQueue⟩ := handler
  cases vWorkQueue with
  | nil =>
      obtain ⟨after, erased, kept⟩ := eraseQueue_ok owned vEraseQueue
      refine ⟨⟨after, none⟩, ?_, kept.owned, fun tight => ?_⟩
      · simp only [resumeTx, erased]
        rfl
      · simpa using kept.owned.indexed (kept.tight tight)
  | cons hashPrev vWorkQueue =>
      obtain ⟨after_owned, indexed⟩ := owned.lookup hashPrev
      let looked : Orphans :=
        { orphans with
          mapOrphanTransactionsByPrev := update orphans.mapOrphanTransactionsByPrev hashPrev
            (some (innerMap orphans.mapOrphanTransactionsByPrev hashPrev)) }
      have readable : ∀ entry ∈ (innerMap orphans.mapOrphanTransactionsByPrev hashPrev).elements,
          ∃ tx, looked.readTx entry.pvMsg = .ok tx := by
        intro entry member
        obtain ⟨tx, read, _⟩ := owned.stored entry ((owned.inner hashPrev entry).mp member).1
        exact ⟨tx, read⟩
      obtain ⟨handler, offered⟩ :=
        @offerOrphans_ok crypto verdict looked _ readable { vWorkQueue, vEraseQueue }
      refine ⟨⟨looked, some handler⟩, ?_, after_owned, fun tight => ?_⟩
      · simp only [resumeTx]
        exact congrArg (· >>= _) offered
      · simpa using indexed tight

/-- A call either throws or keeps the orphans, and then their index if it looks up a transaction
that is waited for. -/
private def Sound (crypto : Crypto) (node : OrphanNode) (outcome : Outcome OrphanNode)
    (awaited : Prop) : Prop :=
  outcome = .error .thrown ∨ ∃ after, outcome = .ok after ∧ after.orphans.Owned crypto ∧
    (node.orphans.Tight → (after.orphans.Indexed ↔ awaited))

private theorem sound_of_kept {node : OrphanNode} {outcome : Outcome OrphanNode}
    (after : OrphanNode) (done : outcome = .ok after) (kept : Kept crypto node.orphans after.orphans) :
    Sound crypto node outcome True :=
  .inr ⟨after, done, kept.owned, fun tight =>
    iff_true_intro (kept.owned.indexed (kept.tight tight))⟩

private theorem receiveTx_sound {orphans : Orphans} (owned : orphans.Owned crypto)
    (verdict : UInt256 → Verdict) (randomHash : Nat → UInt256) (vMsg : List UInt8) :
    Sound crypto ⟨orphans, none⟩ (receiveTx crypto verdict randomHash vMsg orphans) True := by
  simp only [receiveTx]
  split
  · exact .inl rfl
  rename_i tx rest parsed
  cases verdict (tx.getHash crypto) with
  | accepted => exact sound_of_kept _ rfl ⟨owned, id⟩
  | invalid => exact sound_of_kept _ rfl ⟨owned, id⟩
  | missing =>
      rcases owned.addOrphanTx vMsg with thrown | ⟨added, middle, adds, kept⟩
      · left
        simp only [thrown]
        rfl
      · obtain ⟨after, limited, _, later⟩ :=
          kept.owned.limitOrphanTxSize randomHash maxOrphanTransactions
        refine sound_of_kept ⟨after, none⟩ ?_
          ⟨later.owned, fun tight => later.tight (kept.tight tight)⟩
        simp only [except_bind_eq_ok, pure_eq_ok]
        exact ⟨_, adds, _, limited, rfl⟩

/-- The step lemma. -/
private theorem OrphanCall.run_sound (call : OrphanCall) {node : OrphanNode}
    (owned : node.orphans.Owned crypto) :
    Sound crypto node (call.run crypto node) (call.LooksUpAwaited node) := by
  obtain ⟨orphans, handler⟩ := node
  cases handler with
  | none =>
      cases call with
      | tx verdict randomHash vMsg => exact receiveTx_sound owned verdict randomHash vMsg
      | resume verdict => exact sound_of_kept _ rfl ⟨owned, id⟩
      | abandon => exact sound_of_kept _ rfl ⟨owned, id⟩
      | addOrphanTx vMsg =>
          rcases owned.addOrphanTx vMsg with thrown | ⟨added, after, adds, kept⟩
          · left
            simp only [OrphanCall.run, thrown]
            rfl
          · exact sound_of_kept ⟨after, none⟩ (congrArg (· >>= _) adds) kept
      | eraseOrphanTx hash =>
          obtain ⟨after, erased, kept⟩ := owned.eraseOrphanTx hash
          exact sound_of_kept ⟨after, none⟩ (congrArg (· >>= _) erased) kept
      | limitOrphanTxSize randomHash nMaxOrphans =>
          obtain ⟨after, limited, _, kept⟩ := owned.limitOrphanTxSize randomHash nMaxOrphans
          exact sound_of_kept ⟨after, none⟩ (congrArg (· >>= _) limited) kept
  | some handler =>
      cases call with
      | resume verdict => exact .inr (resumeTx_ok owned verdict handler)
      | _ => exact sound_of_kept _ rfl ⟨owned, id⟩

private theorem OrphanRun.sound {allowed : OrphanCall → OrphanNode → Prop} {node : OrphanNode}
    (run : OrphanRun crypto allowed node) :
    node.orphans.Owned crypto ∧
      ((∀ call node, allowed call node → call.LooksUpAwaited node) → node.orphans.Indexed) := by
  induction run with
  | start =>
      have owned : Orphans.empty.Owned crypto :=
        ⟨by simp [empty, SortedSet.empty], by simp [empty, SortedSet.empty],
          by simp [empty, innerMap, SortedSet.empty]⟩
      exact ⟨owned, fun _ => owned.indexed (by simp [Tight, empty])⟩
  | call call run permitted done induction =>
      rcases call.run_sound induction.1 with thrown | ⟨after, done', owned, indexed⟩
      · rw [thrown] at done
        cases done
      · rw [done] at done'
        cases done'
        refine ⟨owned, fun awaited => ?_⟩
        exact (indexed (induction.2 awaited).tight).mpr (awaited call _ permitted)

end Run

/-- In every run no freed stream is read, the inner maps hold the orphans that wait for their key, and
`LimitOrphanTxSize` evicts as many orphans as there are over the limit.  A call keeps the index of the
stored orphans exactly if it looks up no transaction other than those waited for, so that a run of such
calls keeps it throughout. -/
theorem orphans_indexed_of_run {crypto : Crypto} {allowed : OrphanCall → OrphanNode → Prop}
    {node : OrphanNode} (run : OrphanRun crypto allowed node) :
    (∀ call : OrphanCall, call.run crypto node ≠ .error .nullPointer) ∧
    (∀ hash entry,
      entry ∈ (innerMap node.orphans.mapOrphanTransactionsByPrev hash).elements ↔
        entry ∈ node.orphans.mapOrphanTransactions.elements ∧
          node.orphans.EntrySpends entry hash) ∧
    (∀ randomHash nMaxOrphans, ∃ after,
      node.orphans.limitOrphanTxSize randomHash nMaxOrphans =
          .ok (node.orphans.mapOrphanTransactions.size - nMaxOrphans, after) ∧
        after.mapOrphanTransactions.size =
          min node.orphans.mapOrphanTransactions.size nMaxOrphans) ∧
    (node.orphans.Indexed → ∀ call after, OrphanCall.run crypto call node = .ok after →
      (after.orphans.Indexed ↔ call.LooksUpAwaited node)) ∧
    ((∀ call node, allowed call node → OrphanCall.LooksUpAwaited call node) →
      node.orphans.Indexed) := by
  obtain ⟨owned, indexed⟩ := run.sound
  refine ⟨?_, owned.inner, ?_, ?_, indexed⟩
  · intro call null
    rcases call.run_sound owned with thrown | ⟨after, done, _⟩
    · rw [thrown] at null
      cases null
    · rw [done] at null
      cases null
  · intro randomHash nMaxOrphans
    obtain ⟨after, limited, size, _⟩ := owned.limitOrphanTxSize randomHash nMaxOrphans
    exact ⟨after, limited, size⟩
  · intro before call after done
    rcases call.run_sound owned with thrown | ⟨other, done', _, step⟩
    · rw [thrown] at done
      cases done
    · rw [done] at done'
      cases done'
      exact step before.tight

/-! ## Sample messages -/

/-- The parent of the sample orphan. -/
def sampleParent : CTransaction := sampleSpend 1 [⟨1, 0⟩] [100]

/-- An orphan with one more parent. -/
def sampleOrphan : CTransaction := sampleSpend 2 [sampleParent.outpoint 0, ⟨2, 0⟩] [200]

/-- The call that receives the parent. -/
def sampleAccepted : OrphanCall := .tx (fun _ => .accepted) (fun _ => 0) sampleParent.write

/-- The entry of the sample orphan. -/
def sampleEntryOfOrphan : OrphanEntry := ⟨sampleOrphan.getHash sampleCrypto, 0⟩

/-- The sample orphan alone. -/
def sampleOrphans : Orphans where
  mapOrphanTransactions := SortedSet.empty.insert sampleEntryOfOrphan
  mapOrphanTransactionsByPrev := addByPrev sampleEntryOfOrphan sampleOrphan.vin fun _ => none
  heap := update (fun _ => none) 0 (some sampleOrphan.write)
  nextAddress := 1

/-- The index after the look-up of the parent. -/
def sampleLookedUp : Orphans :=
  { sampleOrphans with
    mapOrphanTransactionsByPrev :=
      update sampleOrphans.mapOrphanTransactionsByPrev (sampleParent.getHash sampleCrypto)
        (some (innerMap sampleOrphans.mapOrphanTransactionsByPrev
          (sampleParent.getHash sampleCrypto))) }

/-- What the sample calls compute from the messages and from the index. -/
private theorem sample_computed :
    sampleParent.Sized ∧ sampleOrphan.Sized ∧ ¬5000 < sampleOrphan.write.length ∧
      (innerMap sampleOrphans.mapOrphanTransactionsByPrev
        (sampleParent.getHash sampleCrypto)).elements = [sampleEntryOfOrphan] ∧
      sampleLookedUp.mapOrphanTransactions.lookup (sampleParent.getHash sampleCrypto).toNat =
        none :=
  ⟨CTransaction.sized (by decide +kernel), CTransaction.sized (by decide +kernel),
    by decide +kernel, by decide +kernel, by decide +kernel⟩

private theorem sampleParent_read :
    CTransaction.read.run sampleParent.write = some (sampleParent, []) := by
  simpa using CTransaction.reads_read sample_computed.1 []

private theorem sampleOrphan_read :
    CTransaction.read.run sampleOrphan.write = some (sampleOrphan, []) := by
  simpa using CTransaction.reads_read sample_computed.2.1 []

private theorem run_sampleAccepted (orphans : Orphans) :
    sampleAccepted.run sampleCrypto ⟨orphans, none⟩ = .ok ⟨orphans,
      some ⟨[sampleParent.getHash sampleCrypto], [sampleParent.getHash sampleCrypto]⟩⟩ := by
  simp only [sampleAccepted, OrphanCall.run, receiveTx, sampleParent_read]
  rfl

private theorem addOrphanTx_sampleOrphan :
    Orphans.empty.addOrphanTx sampleCrypto sampleOrphan.write = .ok (true, sampleOrphans) := by
  simp only [Orphans.addOrphanTx, sampleOrphan_read, if_neg sample_computed.2.2.1]
  rfl

private theorem run_addOrphanTx_sampleOrphan :
    (OrphanCall.addOrphanTx sampleOrphan.write).run sampleCrypto ⟨.empty, none⟩ =
      .ok ⟨sampleOrphans, none⟩ := by
  simp only [OrphanCall.run, addOrphanTx_sampleOrphan]
  rfl

private theorem sampleOrphans_readTx : sampleOrphans.readTx 0 = .ok sampleOrphan := by
  simp only [readTx, sampleOrphans, update_self, sampleOrphan_read]
  rfl

private theorem sampleOrphans_awaited :
    sampleOrphans.Awaited (sampleParent.getHash sampleCrypto) :=
  ⟨sampleEntryOfOrphan, List.mem_cons_self, sampleOrphan, sampleOrphans_readTx, _,
    List.mem_cons_self, rfl⟩

private theorem run_offer_sampleOrphan :
    (OrphanCall.resume fun _ => .missing).run sampleCrypto
        ⟨sampleOrphans, some ⟨[sampleParent.getHash sampleCrypto],
          [sampleParent.getHash sampleCrypto]⟩⟩ =
      .ok ⟨sampleLookedUp, some ⟨[], [sampleParent.getHash sampleCrypto]⟩⟩ := by
  obtain ⟨-, -, -, entries, -⟩ := sample_computed
  have heap : sampleLookedUp.heap = sampleOrphans.heap := by rw [sampleLookedUp]
  have read : sampleLookedUp.readTx sampleEntryOfOrphan.pvMsg = .ok sampleOrphan := by
    rw [readTx_congr (congrFun heap _)]
    exact sampleOrphans_readTx
  simp only [OrphanCall.run, resumeTx, entries]
  change (offerOrphans sampleCrypto _ sampleLookedUp _ _ >>= _) = _
  simp only [offerOrphans, read]
  rfl

private theorem run_erase_sampleParent :
    (OrphanCall.resume fun _ => .missing).run sampleCrypto
        ⟨sampleLookedUp, some ⟨[], [sampleParent.getHash sampleCrypto]⟩⟩ =
      .ok ⟨sampleLookedUp, none⟩ := by
  obtain ⟨-, -, -, -, absent⟩ := sample_computed
  simp only [OrphanCall.run, resumeTx, List.foldlM_cons, eraseOrphanTx, absent]
  rfl

/-- An orphan with two parents is stored, and is offered to the memory pool when one of them comes. -/
theorem orphans_indexed_of_run_sampleOrphan :
    ∃ node, OrphanRun sampleCrypto OrphanCall.LooksUpAwaited node ∧ node.handler = none ∧
      node.orphans.mapOrphanTransactions.size = 1 ∧ node.orphans.Indexed := by
  have initial : OrphanRun sampleCrypto OrphanCall.LooksUpAwaited ⟨.empty, none⟩ := .start
  have stored :=
    initial.call (.addOrphanTx sampleOrphan.write) trivial run_addOrphanTx_sampleOrphan
  have received := stored.call sampleAccepted trivial (run_sampleAccepted _)
  have offered := received.call (.resume fun _ => .missing)
    (by simpa [OrphanCall.LooksUpAwaited] using sampleOrphans_awaited) run_offer_sampleOrphan
  have done := offered.call (.resume fun _ => .missing)
    (by simp [OrphanCall.LooksUpAwaited]) run_erase_sampleParent
  exact ⟨_, done, rfl, rfl, (orphans_indexed_of_run done).2.2.2.2 fun _ _ => id⟩

/-- An accepted transaction that no orphan waits for leaves an empty inner map. -/
theorem not_orphans_indexed_of_run :
    ∃ node, OrphanRun sampleCrypto (fun _ _ => True) node ∧ node.handler = none ∧
      node.orphans.mapOrphanTransactions.size = 0 ∧ ¬ node.orphans.Indexed := by
  have initial : OrphanRun sampleCrypto (fun _ _ => True) ⟨.empty, none⟩ := .start
  have received := initial.call sampleAccepted trivial (run_sampleAccepted _)
  have looked := received.call (.resume fun _ => .accepted) trivial rfl
  have done := looked.call (.resume fun _ => .accepted) trivial rfl
  refine ⟨_, done, rfl, rfl, fun indexed => ?_⟩
  obtain ⟨entry, stored, _⟩ := (indexed.key (sampleParent.getHash sampleCrypto)).mp (by simp)
  simp [empty, SortedSet.empty] at stored

end FooCoin

import FooCoin.BlockEffect
import FooCoin.SampleChain

/-!
# Disconnecting undoes connecting

Disconnecting a block takes its transactions back last to first.  On the index that connecting the
block produced it restores the index exactly, provided that the transaction ids were new.  On any
other index it at least stays below what was there before: `Below` compares two indexes by their
entries and unspent slots.
-/

namespace FooCoin

open Function

variable {env : Env} {mempool : MapTx}

/-! ## Exact undo -/

private theorem markSpent_null_markSpent {view : TxIndexMap} {prevouts : List COutPoint}
    {pos : CDiskTxPos} (free : ∀ prevout ∈ prevouts, slot view prevout = some .null) :
    markSpent (markSpent view prevouts pos) prevouts .null = view := by
  funext hash
  cases present : view hash with
  | none => simp [markSpent, present]
  | some txindex =>
      simp only [markSpent, present, Option.map_some, Option.some.injEq]
      apply CTxIndex.ext_slots
      · rfl
      · intro n
        by_cases named : Names prevouts hash n
        · obtain ⟨prevout, member, rfl, rfl⟩ := id named
          have unspent := free prevout member
          simp only [slot, present, Option.bind_some] at unspent
          simp [named, unspent]
        · simp [named]

/-- Spent outputs belong to transactions in the index. -/
private theorem TransactionConnected.hash_ne {pos : CDiskTxPos} {tx : CTransaction}
    {before after : TxIndexMap} {nTxFee : Int} {hash : UInt256}
    (connected : TransactionConnected env mempool pos tx before after nTxFee)
    (absent : before hash = none) : ∀ prevout ∈ tx.spends, prevout.hash ≠ hash := by
  rintro prevout member rfl
  have unspent := connected.free prevout member
  simp [slot, absent] at unspent

/-- Disconnecting a transaction with a new id restores the view. -/
theorem TransactionConnected.disconnectInputs_eq {pos : CDiskTxPos} {tx : CTransaction}
    {before after : TxIndexMap} {nTxFee : Int}
    (connected : TransactionConnected env mempool pos tx before after nTxFee)
    (fresh : before (tx.getHash env.crypto) = none) :
    tx.disconnectInputs env.crypto after = .ok before := by
  have others := connected.hash_ne fresh
  rw [disconnectInputs_eq_ok, connected.effect]
  constructor
  · intro prevout member
    have marked : (slot (markSpent before tx.spends pos) prevout).isSome := by
      rw [slot_isSome_markSpent, connected.free prevout member]
      rfl
    simpa [slot, update_of_ne (others prevout member)] using marked
  · funext hash
    by_cases same : hash = tx.getHash env.crypto
    · subst same
      simp [fresh]
    · have restored : markSpent (markSpent before tx.spends pos) tx.spends .null = before :=
        markSpent_null_markSpent connected.free
      simpa [markSpent, update_of_ne same] using (congrFun restored hash).symm

/-- Connecting a transaction makes no other id present. -/
private theorem TransactionConnected.absent {pos : CDiskTxPos} {tx : CTransaction}
    {before after : TxIndexMap} {nTxFee : Int} {hash : UInt256}
    (connected : TransactionConnected env mempool pos tx before after nTxFee)
    (other : hash ≠ tx.getHash env.crypto) (absent : before hash = none) : after hash = none := by
  rw [connected.effect, update_of_ne other]
  simp [markSpent, absent]

/-- Disconnecting the transactions of a block with new ids restores the view. -/
theorem BlockConnected.disconnectTransactions_eq {pindex : CBlockIndex} {nTxPos : Nat}
    {vtx : List CTransaction} {before after : TxIndexMap} {nFees : Int}
    (connected : BlockConnected env mempool pindex nTxPos vtx before after nFees)
    (nodup : (vtx.map (CTransaction.getHash env.crypto)).Nodup)
    (fresh : ∀ tx ∈ vtx, before (tx.getHash env.crypto) = none) :
    disconnectTransactions env.crypto vtx after = .ok before := by
  induction connected with
  | nil => rfl
  | @cons nTxPos tx vtx before middle after nTxFee nFees first rest induction =>
      rw [List.map_cons, List.nodup_cons] at nodup
      have rest_fresh : ∀ later ∈ vtx, middle (later.getHash env.crypto) = none := by
        intro later member
        have other : later.getHash env.crypto ≠ tx.getHash env.crypto := fun same =>
          nodup.1 (same ▸ List.mem_map_of_mem member)
        exact first.absent other (fresh later (List.mem_cons_of_mem tx member))
      rw [disconnectTransactions, induction nodup.2 rest_fresh]
      exact first.disconnectInputs_eq (fresh tx List.mem_cons_self)

/-- A block whose transaction ids are new is undone exactly. -/
theorem disconnectBlock_connectBlock {context : CallContext} {pindex : CBlockIndex}
    {pprev : BlockChain} {block : CBlock} {txdb after : CTxDB}
    (connected : block.connectBlock env context pindex pprev txdb = .ok after)
    (fresh : ∀ tx ∈ block.vtx, txdb.txindex (tx.getHash env.crypto) = none) :
    ∃ restored, block.disconnectBlock env pprev after = .ok restored ∧
      restored.txindex = txdb.txindex := by
  obtain ⟨nFees, done⟩ := connectBlock_ok connected
  have restores := done.index.disconnectTransactions_eq done.checked.nodup fresh
  refine ⟨{ after with txindex := txdb.txindex }.writeBlockIndex pprev 0, ?_, ?_⟩
  · simp only [CBlock.disconnectBlock, restores]
    rfl
  · exact writeBlockIndex_txindex _ _ _

/-- A transaction with two outputs. -/
def undoParent : CTransaction :=
  sampleSpend 7 [{ hash := 5, n := 0 }] [60000000, 40000000]

/-- It spends both outputs of `undoParent`. -/
def undoSpend : CTransaction :=
  sampleSpend 8 [undoParent.outpoint 1, undoParent.outpoint 0] [50000000, 30000000]

/-- The block that holds `undoParent`. -/
def undoFirst : CBlock := sampleBlock 1 1400000000 [sampleCoinBase 1 [100000000], undoParent]

/-- A block whose third transaction spends from its second one. -/
def undoSecond : CBlock :=
  sampleBlock (undoFirst.getHash sampleCrypto) 1400000100
    [sampleCoinBase 2 [120000000], undoSpend, sampleSpend 9 [undoSpend.outpoint 0] [50000000]]

/-- The chain that ends in `undoFirst`. -/
def undoChain : BlockChain := [sampleEntry 0 undoFirst []]

/-- An index that holds `undoParent`, unspent. -/
def undoDB : CTxDB where
  txindex hash :=
    if hash = undoParent.getHash sampleCrypto then
      some (.ofOutputs
        (.mk 1 8 (8 + undoFirst.vtxOffset + (sampleCoinBase 1 [100000000]).size)) 2)
    else none
  blockindex _ := none
  hashBestChain := none

/-- The block files that hold the two blocks. -/
def undoEnv : Env := sampleEnv (fun i => if i = 0 then undoFirst else undoSecond) 0

theorem disconnectBlock_connectBlock_undoSecond :
    ∃ after, undoSecond.connectBlock undoEnv sampleContext (sampleEntry 1 undoSecond undoChain)
        undoChain undoDB = .ok after ∧
      ∃ restored, undoSecond.disconnectBlock undoEnv undoChain after = .ok restored ∧
        restored.txindex = undoDB.txindex := by
  obtain ⟨after, connected⟩ := exists_of_isOk (show (undoSecond.connectBlock undoEnv sampleContext
    (sampleEntry 1 undoSecond undoChain) undoChain undoDB).isOk = true by decide +kernel)
  exact ⟨after, connected, disconnectBlock_connectBlock connected (by decide +kernel)⟩

/-! ## Undo from below -/

/-- Every entry is also in the other index, at the same place and with at least the same unspent
slots. -/
def Below (low high : TxIndexMap) : Prop :=
  ∀ hash entry, low hash = some entry → ∃ above, high hash = some above ∧
    entry.pos = above.pos ∧ entry.vSpent.length = above.vSpent.length ∧
    ∀ n : Nat, entry.vSpent[n]? = some .null → above.vSpent[n]? = some .null

theorem Below.refl (view : TxIndexMap) : Below view view :=
  fun _ entry present => ⟨entry, present, rfl, rfl, fun _ unspent => unspent⟩

theorem Below.trans {low middle high : TxIndexMap} (lower : Below low middle)
    (upper : Below middle high) : Below low high := by
  intro hash entry present
  obtain ⟨between, present', pos, length, slots⟩ := lower hash entry present
  obtain ⟨above, present'', pos', length', slots'⟩ := upper hash between present'
  exact ⟨above, present'', pos.trans pos', length.trans length', fun n unspent =>
    slots' n (slots n unspent)⟩

/-- Disconnecting a transaction below where it was connected to lands below where it was connected
from. -/
theorem TransactionConnected.undo_below {pos : CDiskTxPos} {tx : CTransaction}
    {before after low undone : TxIndexMap} {nTxFee : Int}
    (connected : TransactionConnected env mempool pos tx before after nTxFee)
    (low_below : Below low after) (undo : tx.disconnectInputs env.crypto low = .ok undone) :
    Below undone before := by
  obtain ⟨_, rfl⟩ := disconnectInputs_eq_ok.mp undo
  intro hash entry present
  have other : hash ≠ tx.getHash env.crypto := by
    rintro rfl
    simp at present
  rw [update_of_ne other] at present
  obtain ⟨lowEntry, lowPresent, rfl⟩ := Option.map_eq_some_iff.mp present
  obtain ⟨above, abovePresent, samePos, sameLength, slots⟩ := low_below hash lowEntry lowPresent
  rw [connected.effect, update_of_ne other] at abovePresent
  obtain ⟨original, originalPresent, rfl⟩ := Option.map_eq_some_iff.mp abovePresent
  refine ⟨original, originalPresent, samePos, by simpa using sameLength, fun n unspent => ?_⟩
  by_cases named : Names tx.spends hash n
  · obtain ⟨prevout, member, rfl, rfl⟩ := named
    simpa [slot, originalPresent] using connected.free prevout member
  · have low_unspent : lowEntry.vSpent[n]? = some .null := by simpa [named] using unspent
    simpa [named] using slots n low_unspent

/-- Disconnecting the transactions of a block below where it was connected to lands below where it
was connected from. -/
theorem BlockConnected.undo_below {pindex : CBlockIndex} {nTxPos : Nat} {vtx : List CTransaction}
    {before after low undone : TxIndexMap} {nFees : Int}
    (connected : BlockConnected env mempool pindex nTxPos vtx before after nFees)
    (low_below : Below low after)
    (undo : disconnectTransactions env.crypto vtx low = .ok undone) : Below undone before := by
  induction connected generalizing undone with
  | nil =>
      cases undo
      exact low_below
  | cons first rest induction =>
      simp only [disconnectTransactions, except_bind_eq_ok] at undo
      obtain ⟨between, undo_rest, undo_first⟩ := undo
      exact first.undo_below (induction low_below undo_rest) undo_first

end FooCoin

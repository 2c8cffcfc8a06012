import FooCoin.SampleRun

/-!
# When the tip can be disconnected

Disconnecting a block needs the index entry of every transaction that it spends from.  An entry is
lost when a later transaction repeats the id: the repeat takes the entry over, and disconnecting the
repeat erases it.  An outpoint is live while the id of its transaction has not been taken over since
it was spent; live outpoints keep their slots.
-/

namespace FooCoin

open Function Journal

variable {env : Env} {mempool : MapTx} {crypto : Crypto}

/-- The outpoints that transactions spend. -/
def spendsOf (vtx : List CTransaction) : List COutPoint := vtx.flatMap CTransaction.spends

/-- The ids of transactions. -/
def idsOf (crypto : Crypto) (vtx : List CTransaction) : List UInt256 :=
  vtx.map (CTransaction.getHash crypto)

/-- No transaction has an id that an earlier one of the list, or itself, spends from. -/
def KeepsSpent (crypto : Crypto) : List CTransaction → Prop
  | [] => True
  | tx :: vtx => (∀ prevout ∈ tx.spends, prevout.hash ∉ idsOf crypto (tx :: vtx)) ∧
      KeepsSpent crypto vtx

instance instDecidableKeepsSpent (crypto : Crypto) (vtx : List CTransaction) :
    Decidable (KeepsSpent crypto vtx) :=
  match vtx with
  | [] => inferInstanceAs (Decidable True)
  | tx :: vtx =>
      have := instDecidableKeepsSpent crypto vtx
      inferInstanceAs (Decidable ((∀ prevout ∈ tx.spends, prevout.hash ∉ idsOf crypto (tx :: vtx)) ∧
        KeepsSpent crypto vtx))

/-- No connected block spends from an id of the given block. -/
def UnspentBelow (crypto : Crypto) (journal : List ChainBlock) (block : CBlock) : Prop :=
  ∀ earlier ∈ journal, ∀ prevout ∈ spendsOf earlier.block.vtx,
    prevout.hash ∉ idsOf crypto block.vtx

/-- Runs in which no connected block takes over an id that it spends from, and no disconnected block
has an id that a block below it spends from. -/
def keepingMachine (env : Env) (base : BlockChain) : Machine CTxDB ChainBlock where
  apply journal next before after := (chainMachine env base).apply journal next before after ∧
    KeepsSpent env.crypto next.block.vtx
  undo journal tip before after := (chainMachine env base).undo journal tip before after ∧
    UnspentBelow env.crypto journal tip.block

/-- The outpoint is spent by a connected block, and its id is not in a block above that one. -/
def Live (crypto : Crypto) : List ChainBlock → COutPoint → Prop
  | [], _ => False
  | next :: journal, prevout => prevout ∈ spendsOf next.block.vtx ∨
      (Live crypto journal prevout ∧ prevout.hash ∉ idsOf crypto next.block.vtx)

theorem Live.exists_spends {journal : List ChainBlock} {prevout : COutPoint}
    (live : Live crypto journal prevout) :
    ∃ earlier ∈ journal, prevout ∈ spendsOf earlier.block.vtx := by
  induction journal with
  | nil => exact live.elim
  | cons next journal induction =>
      rcases live with spent | ⟨below, _⟩
      · exact ⟨next, List.mem_cons_self, spent⟩
      · obtain ⟨earlier, member, spent⟩ := induction below
        exact ⟨earlier, List.mem_cons_of_mem next member, spent⟩

/-! ## Slots while connecting -/

/-- Connecting a transaction keeps the slots of other ids. -/
private theorem TransactionConnected.slot_isSome {pos : CDiskTxPos} {tx : CTransaction}
    {before after : TxIndexMap} {nTxFee : Int} {prevout : COutPoint}
    (connected : TransactionConnected env mempool pos tx before after nTxFee)
    (other : prevout.hash ≠ tx.getHash env.crypto) :
    (slot after prevout).isSome = (slot before prevout).isSome := by
  have marked : (slot (markSpent before tx.spends pos) prevout).isSome =
      (slot before prevout).isSome := slot_isSome_markSpent
  rw [connected.effect, ← marked]
  simp [slot, update_of_ne other]

/-- Connecting a block keeps the slots of other ids. -/
private theorem BlockConnected.slot_isSome {pindex : CBlockIndex} {nTxPos : Nat}
    {vtx : List CTransaction} {before after : TxIndexMap} {nFees : Int} {prevout : COutPoint}
    (connected : BlockConnected env mempool pindex nTxPos vtx before after nFees)
    (other : prevout.hash ∉ idsOf env.crypto vtx) :
    (slot after prevout).isSome = (slot before prevout).isSome := by
  induction connected with
  | nil => rfl
  | cons first _ induction =>
      simp only [idsOf, List.map_cons, List.mem_cons, not_or] at other
      rw [induction other.2, first.slot_isSome other.1]

/-- After connecting a block that keeps what it spends, every outpoint it spends has a slot. -/
private theorem BlockConnected.spent_isSome {pindex : CBlockIndex} {nTxPos : Nat}
    {vtx : List CTransaction} {before after : TxIndexMap} {nFees : Int}
    (connected : BlockConnected env mempool pindex nTxPos vtx before after nFees)
    (keeps : KeepsSpent env.crypto vtx) :
    ∀ prevout ∈ spendsOf vtx, (slot after prevout).isSome := by
  induction connected with
  | nil => simp [spendsOf]
  | cons first rest induction =>
      intro prevout member
      rcases List.mem_append.mp member with here | later
      · have other := keeps.1 prevout here
        simp only [idsOf, List.map_cons, List.mem_cons, not_or] at other
        rw [rest.slot_isSome other.2, first.slot_isSome other.1, first.free prevout here]
        rfl
      · exact induction keeps.2 prevout later

/-! ## Slots while disconnecting -/

/-- Disconnecting transactions keeps the slots of other ids. -/
private theorem disconnectTransactions_slot {vtx : List CTransaction} {view after : TxIndexMap}
    {prevout : COutPoint} (undone : disconnectTransactions crypto vtx view = .ok after)
    (other : prevout.hash ∉ idsOf crypto vtx) :
    (slot after prevout).isSome = (slot view prevout).isSome := by
  induction vtx generalizing after with
  | nil =>
      cases undone
      rfl
  | cons tx vtx induction =>
      simp only [idsOf, List.map_cons, List.mem_cons, not_or] at other
      simp only [disconnectTransactions, except_bind_eq_ok] at undone
      obtain ⟨middle, undo_rest, undo_first⟩ := undone
      obtain ⟨_, rfl⟩ := disconnectInputs_eq_ok.mp undo_first
      have marked : (slot (markSpent middle tx.spends .null) prevout).isSome =
          (slot middle prevout).isSome := slot_isSome_markSpent
      rw [← induction undo_rest other.2, ← marked]
      simp [slot, update_of_ne other.1]

/-- Transactions that keep what they spend can be disconnected while every outpoint they spend has
a slot. -/
private theorem exists_disconnectTransactions {vtx : List CTransaction} {view : TxIndexMap}
    (keeps : KeepsSpent crypto vtx)
    (slots : ∀ prevout ∈ spendsOf vtx, (slot view prevout).isSome) :
    ∃ after, disconnectTransactions crypto vtx view = .ok after := by
  induction vtx with
  | nil => exact ⟨view, rfl⟩
  | cons tx vtx induction =>
      have rest_slots : ∀ prevout ∈ spendsOf vtx, (slot view prevout).isSome :=
        fun prevout member => slots prevout (List.mem_append_right tx.spends member)
      obtain ⟨middle, undo_rest⟩ := induction keeps.2 rest_slots
      have first_slots : ∀ prevout ∈ tx.spends, (slot middle prevout).isSome := by
        intro prevout member
        have other := keeps.1 prevout member
        simp only [idsOf, List.map_cons, List.mem_cons, not_or] at other
        rw [disconnectTransactions_slot undo_rest other.2]
        exact slots prevout (List.mem_append_left _ member)
      have undo_first : ∃ after, tx.disconnectInputs crypto middle = .ok after :=
        ⟨_, disconnectInputs_eq_ok.mpr ⟨first_slots, rfl⟩⟩
      obtain ⟨after, undo_first⟩ := undo_first
      refine ⟨after, ?_⟩
      rw [disconnectTransactions, undo_rest]
      exact undo_first

/-! ## Runs -/

/-- What a run keeps: live outpoints have slots, and so do the blocks keep what they spend. -/
structure Keeping (crypto : Crypto) (journal : List ChainBlock) (txdb : CTxDB) : Prop where
  slots : ∀ prevout, Live crypto journal prevout → (slot txdb.txindex prevout).isSome
  keeps : ∀ next ∈ journal, KeepsSpent crypto next.block.vtx

theorem keeping_of_run {base : BlockChain} {blockindex : UInt256 → Option CDiskBlockIndex}
    {hashBestChain : Option UInt256} {journal : List ChainBlock} {txdb : CTxDB}
    (run : Run (keepingMachine env base) (emptyIndex blockindex hashBestChain) journal txdb) :
    Keeping env.crypto journal txdb := by
  induction run with
  | start => exact ⟨fun prevout live => live.elim, by simp⟩
  | push _ applied induction =>
      obtain ⟨⟨_, context, connected⟩, keeps⟩ := applied
      obtain ⟨nFees, effect⟩ := connectBlock_ok connected
      refine ⟨fun prevout live => ?_, List.forall_mem_cons.mpr ⟨keeps, induction.keeps⟩⟩
      rcases live with spent | ⟨below, other⟩
      · exact effect.index.spent_isSome keeps prevout spent
      · rw [effect.index.slot_isSome other]
        exact induction.slots prevout below
  | pop _ undone induction =>
      obtain ⟨undone, unspent⟩ := undone
      refine ⟨fun prevout live => ?_, (List.forall_mem_cons.mp induction.keeps).2⟩
      obtain ⟨earlier, member, spent⟩ := live.exists_spends
      have other := unspent earlier member prevout spent
      rw [disconnectTransactions_slot (disconnectBlock_ok undone).1 other]
      exact induction.slots prevout (.inr ⟨live, other⟩)

/-- In every state of a run in which no connected block takes over an id that it spends from, and
no disconnected block has an id that a block below it spends from, the tip can be disconnected. -/
theorem disconnectBlock_of_run {base : BlockChain}
    {blockindex : UInt256 → Option CDiskBlockIndex} {hashBestChain : Option UInt256}
    {tip : ChainBlock} {journal : List ChainBlock} {txdb : CTxDB}
    (run : Run (keepingMachine env base) (emptyIndex blockindex hashBestChain) (tip :: journal)
      txdb) :
    ∃ after, tip.block.disconnectBlock env (chainOf base journal) txdb = .ok after := by
  have keeping := keeping_of_run run
  have slots : ∀ prevout ∈ spendsOf tip.block.vtx, (slot txdb.txindex prevout).isSome :=
    fun prevout member => keeping.slots prevout (.inl member)
  obtain ⟨txindex, undone⟩ :=
    exists_disconnectTransactions (keeping.keeps tip List.mem_cons_self) slots
  refine ⟨{ txdb with txindex }.writeBlockIndex (chainOf base journal) 0, ?_⟩
  simp only [CBlock.disconnectBlock, undone]
  rfl

/-- A coinbase that is repeated once it is spent: block 15 spends the coinbase of block 0, and
block 16 has the same coinbase again. -/
def repeatTransactions (i : Nat) : List CTransaction :=
  if i = 15 then
    [sampleCoinBase 15 [100000000], sampleSpend 0
      [(sampleCoinBase 0 [100000000]).outpoint 0] [100000000]]
  else if i = 16 then [sampleCoinBase 0 [100000000]]
  else [sampleCoinBase (UInt32.ofNat i) [100000000]]

theorem disconnectBlock_of_run_repeat :
    ∃ txdb, Run (keepingMachine (sampleFiles repeatTransactions) []) sampleStart
        (sampleTip repeatTransactions 15 :: sampleJournal repeatTransactions 15) txdb ∧
      ∃ after, (sampleTip repeatTransactions 15).block.disconnectBlock
        (sampleFiles repeatTransactions) (chainOf [] (sampleJournal repeatTransactions 15)) txdb =
          .ok after := by
  obtain ⟨txdb, connected⟩ :=
    exists_of_isOk (show (sampleConnect repeatTransactions 16).isOk = true by decide +kernel)
  have keeps : ∀ i < 16, KeepsSpent sampleCrypto (sampleTip repeatTransactions i).block.vtx := by
    decide +kernel
  have run : Run (keepingMachine (sampleFiles repeatTransactions) []) sampleStart
      (sampleJournal repeatTransactions 16) txdb :=
    sampleConnect_run (by decide) connected fun i small _ _ applied => ⟨applied, keeps i small⟩
  exact ⟨txdb, run, disconnectBlock_of_run run⟩

/-- Connect all blocks, disconnect block 16, and see whether block 15 can be disconnected. -/
def repeatUndo : Outcome Bool := do
  let txdb ← sampleConnect repeatTransactions 17
  let txdb ← (sampleTip repeatTransactions 16).block.disconnectBlock
    (sampleFiles repeatTransactions) (chainOf [] (sampleJournal repeatTransactions 16)) txdb
  pure ((sampleTip repeatTransactions 15).block.disconnectBlock
    (sampleFiles repeatTransactions) (chainOf [] (sampleJournal repeatTransactions 15)) txdb).isOk

/-- After the repeated coinbase was disconnected, the block below, which spends the first one,
cannot be. -/
theorem not_disconnectBlock_repeat :
    ∃ txdb, Run (chainMachine (sampleFiles repeatTransactions) []) sampleStart
        (sampleTip repeatTransactions 15 :: sampleJournal repeatTransactions 15) txdb ∧
      ¬∃ after, (sampleTip repeatTransactions 15).block.disconnectBlock
        (sampleFiles repeatTransactions) (chainOf [] (sampleJournal repeatTransactions 15)) txdb =
          .ok after := by
  have outcome : repeatUndo = .ok false := by decide +kernel
  simp only [repeatUndo, except_bind_eq_ok, pure_eq_ok] at outcome
  obtain ⟨connected, done, txdb, undone, failed⟩ := outcome
  have run := sampleConnect_run (by decide) done fun _ _ _ _ applied => applied
  refine ⟨txdb, run.pop undone, ?_⟩
  rintro ⟨after, succeeds⟩
  simp [succeeds, Except.isOk, Except.toBool] at failed

end FooCoin

import FooCoin.ConnectBlock

/-!
# What connecting a block does to the index

`connectBlock` queues changes and writes them at its end.  On the view of the index, queued changes
over the database, it acts transaction by transaction: `TransactionConnected` says what one
transaction does to the view and `BlockConnected` chains them.
-/

namespace FooCoin

open Function

variable {env : Env} {mempool : MapTx}

/-- One transaction, connected at a position, takes the view `before` to `after` and pays a fee. -/
structure TransactionConnected (env : Env) (mempool : MapTx) (pos : CDiskTxPos) (tx : CTransaction)
    (before after : TxIndexMap) (nTxFee : Int) : Prop where
  /-- The position is one in a block file. -/
  real : pos ≠ .null
  /-- Every output it spends was unspent. -/
  free : ∀ prevout ∈ tx.spends, slot before prevout = some .null
  /-- It spends no output twice. -/
  nodup : tx.spends.Nodup
  /-- It sets the slots of these outputs and enters its own outputs as unspent. -/
  effect : after = update (markSpent before tx.spends pos) (tx.getHash env.crypto)
    (some (.ofOutputs pos tx.vout.length))
  /-- The coinbase pays no fee. -/
  coinBase : tx.isCoinBase → nTxFee = 0
  /-- Any other transaction pays what its inputs exceed its outputs by. -/
  ordinary : ¬tx.isCoinBase → ∃ inputs nValueIn nValueOut,
    (∀ hash prev, inputs hash = some prev → Fetched env mempool before hash prev) ∧
      tx.getValueIn inputs = .ok nValueIn ∧ tx.getValueOut = .ok nValueOut ∧
      MoneyRange nValueIn ∧ nValueOut ≤ nValueIn ∧ nTxFee = nValueIn - nValueOut

/-- Transactions of one block, the first at `nTxPos`, take the view `before` to `after` and pay
fees. -/
inductive BlockConnected (env : Env) (mempool : MapTx) (pindex : CBlockIndex) :
    Nat → List CTransaction → TxIndexMap → TxIndexMap → Int → Prop
  | nil {nTxPos : Nat} {view : TxIndexMap} : BlockConnected env mempool pindex nTxPos [] view view 0
  | cons {nTxPos : Nat} {tx : CTransaction} {vtx : List CTransaction}
      {before middle after : TxIndexMap} {nTxFee nFees : Int} :
      TransactionConnected env mempool (.mk pindex.nFile pindex.nBlockPos nTxPos) tx before middle
        nTxFee →
      BlockConnected env mempool pindex (nTxPos + tx.size) vtx middle after nFees →
      BlockConnected env mempool pindex nTxPos (tx :: vtx) before after (nTxFee + nFees)

section Connect

variable {context : CallContext} {txdb : TxIndexMap} {pindex : CBlockIndex} {pprev : BlockChain}

/-- What a block's transaction fetches comes from the view. -/
theorem fetchBlockInputs_ok {mapQueuedChanges : TxIndexMap} {tx : CTransaction}
    {inputs : MapPrevTx}
    (fetched : fetchBlockInputs env context txdb mapQueuedChanges tx = .ok inputs) :
    ∀ hash prev, inputs hash = some prev →
      Fetched env context.mempool (overlay mapQueuedChanges txdb) hash prev := by
  unfold fetchBlockInputs at fetched
  split at fetched
  · simp at fetched
  · rename_i result
    cases fetched
    exact fetchInputs_ok rfl result

private theorem connectOrdinary_ok {posThisTx : CDiskTxPos} {state after : ConnectState}
    {tx : CTransaction} (real : posThisTx ≠ .null)
    (connected : connectOrdinary env context txdb pindex pprev posThisTx state tx = .ok after) :
    ∃ inputs nTxFee, InputsConnected inputs (overlay state.mapQueuedChanges txdb)
        (overlay after.mapQueuedChanges txdb) posThisTx tx ∧
      (∀ hash prev, inputs hash = some prev →
        Fetched env context.mempool (overlay state.mapQueuedChanges txdb) hash prev) ∧
      (∃ nValueIn nValueOut, tx.getValueIn inputs = .ok nValueIn ∧
        tx.getValueOut = .ok nValueOut ∧ nTxFee = nValueIn - nValueOut) ∧
      after.nFees = state.nFees + nTxFee ∧ after.nTxPos = state.nTxPos := by
  simp only [connectOrdinary, except_bind_eq_ok, int64_eq_ok] at connected
  obtain ⟨inputs, fetched, _, _, nValueIn, valueIn, nValueOut, valueOut, _, ⟨_, rfl⟩, _, ⟨_, rfl⟩,
    queue, spent, last⟩ := connected
  cases last
  have prevs := fetchBlockInputs_ok fetched
  exact ⟨inputs, nValueIn - nValueOut, connectInputs_ok rfl real prevs spent, prevs,
    ⟨nValueIn, nValueOut, valueIn, valueOut, rfl⟩, rfl, rfl⟩

/-- The loop body of `ConnectBlock`, seen on the view. -/
theorem connectTransaction_ok {state after : ConnectState} {tx : CTransaction}
    (connected : connectTransaction env context txdb pindex pprev state tx = .ok after) :
    ∃ nTxFee, TransactionConnected env context.mempool
        (.mk pindex.nFile pindex.nBlockPos state.nTxPos) tx (overlay state.mapQueuedChanges txdb)
        (overlay after.mapQueuedChanges txdb) nTxFee ∧
      after.nFees = state.nFees + nTxFee ∧ after.nTxPos = state.nTxPos + tx.size := by
  simp only [connectTransaction, except_bind_eq_ok, require_eq_ok, exists_const] at connected
  obtain ⟨_, _, middle, body, last⟩ := connected
  cases last
  split at body
  · rename_i coinBase
    cases body
    have none_spent : tx.spends = [] := by simp [CTransaction.spends, coinBase]
    refine ⟨0, ?_, by simp, rfl⟩
    exact
      { real := by simp
        free := by simp [none_spent]
        nodup := by simp [none_spent]
        effect := by rw [none_spent, markSpent_nil, overlay_update]
        coinBase := fun _ => rfl
        ordinary := fun ordinary => absurd coinBase ordinary }
  · rename_i ordinary
    obtain ⟨inputs, nTxFee, done, prevs, ⟨nValueIn, nValueOut, valueIn, valueOut, fee⟩, fees,
      nTxPos⟩ := connectOrdinary_ok (by simp) body
    refine ⟨nTxFee, ?_, fees, nTxPos⟩
    refine
      { real := by simp
        free := done.free
        nodup := done.nodup
        effect := by rw [overlay_update, done.effect]
        coinBase := fun coinBase => absurd coinBase ordinary
        ordinary := fun _ => ⟨inputs, nValueIn, nValueOut, prevs, valueIn, valueOut, ?_⟩ }
    obtain ⟨_, _, valueIn', valueOut', range, enough⟩ := done.value ordinary
    cases valueIn.symm.trans valueIn'
    cases valueOut.symm.trans valueOut'
    exact ⟨range, enough, fee⟩

/-- The loop of `ConnectBlock`, seen on the view. -/
theorem connectTransactions_ok {vtx : List CTransaction} {state after : ConnectState}
    (connected : connectTransactions env context txdb pindex pprev vtx state = .ok after) :
    ∃ nFees, BlockConnected env context.mempool pindex state.nTxPos vtx
        (overlay state.mapQueuedChanges txdb) (overlay after.mapQueuedChanges txdb) nFees ∧
      after.nFees = state.nFees + nFees := by
  induction vtx generalizing state with
  | nil =>
      cases connected
      exact ⟨0, .nil, by simp⟩
  | cons tx vtx induction =>
      simp only [connectTransactions, except_bind_eq_ok] at connected
      obtain ⟨middle, body, later⟩ := connected
      obtain ⟨nTxFee, first, fees, nTxPos⟩ := connectTransaction_ok body
      obtain ⟨nFees, rest, total⟩ := induction later
      rw [nTxPos] at rest
      exact ⟨nTxFee + nFees, .cons first rest, by rw [total, fees, add_assoc]⟩

end Connect

/-- What a successful `ConnectBlock` does to the database. -/
structure ConnectedBlock (env : Env) (context : CallContext) (pindex : CBlockIndex)
    (pprev : BlockChain) (block : CBlock) (txdb after : CTxDB) (nFees : Int) : Prop where
  /-- The block passed `CheckBlock`. -/
  checked : block.Checked env.crypto
  /-- The index is what connecting the transactions one by one makes of it. -/
  index : BlockConnected env context.mempool pindex (pindex.nBlockPos + block.vtxOffset) block.vtx
    txdb.txindex after.txindex nFees
  /-- The coinbase takes at most the subsidy and the fees. -/
  subsidy : ∀ coinBase ∈ block.vtx.head?, ∃ nValueOut,
    coinBase.getValueOut = .ok nValueOut ∧ nValueOut ≤ coin + nFees
  /-- The record of the previous block now points to this one. -/
  records : after = { txdb with txindex := after.txindex }.writeBlockIndex pprev pindex.hashBlock

theorem writeBlockIndex_txindex (txdb : CTxDB) (pindex : BlockChain) (hashNext : UInt256) :
    (txdb.writeBlockIndex pindex hashNext).txindex = txdb.txindex := by
  cases pindex <;> rfl

theorem connectBlock_ok {context : CallContext} {pindex : CBlockIndex} {pprev : BlockChain}
    {block : CBlock} {txdb after : CTxDB}
    (connected : block.connectBlock env context pindex pprev txdb = .ok after) :
    ∃ nFees, ConnectedBlock env context pindex pprev block txdb after nFees := by
  simp only [CBlock.connectBlock, except_bind_eq_ok, require_eq_ok, exists_const] at connected
  obtain ⟨_, checkBlock, state, loop, nValueOut, valueOut, bound, blockValue, enough, last⟩ :=
    connected
  cases last
  have checked := CBlock.checked_of_checkBlock checkBlock
  obtain ⟨nFees, index, fees⟩ := connectTransactions_ok loop
  have start : pindex.nBlockPos + 81 - 1 + (writeCompactSize block.vtx.length).length =
      pindex.nBlockPos + block.vtxOffset := by
    simp only [CBlock.vtxOffset]
    omega
  refine ⟨nFees, checked, ?_, ?_, ?_⟩
  · rw [writeBlockIndex_txindex, ← start]
    exact index
  · intro coinBase head
    cases vtx : block.vtx with
    | nil => simp [vtx] at head
    | cons first rest =>
        simp only [vtx, List.head?_cons, Option.mem_def, Option.some.injEq] at head
        subst head
        rw [vtx] at valueOut
        refine ⟨nValueOut, valueOut, enough.trans ?_⟩
        simp only [getBlockValue, int64_eq_ok] at blockValue
        rw [← blockValue.2, fees]
        simp
  · rw [writeBlockIndex_txindex]

end FooCoin

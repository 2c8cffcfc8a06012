import FooCoin.Cover
import FooCoin.Miner

/-!
# Miner and validator agree

What `CreateNewBlock` collects from the memory pool, `ConnectBlock` connects on the same index, for
every order in which the candidates are tried.
-/

namespace FooCoin

open Function

/-! ## Collecting -/

section Collect

variable {env : Env} {context : MinerContext}

/-- The transaction passes the checks of the collection loop with these inputs. -/
private structure Taken (env : Env) (context : MinerContext) (assembly : Assembly)
    (tx : CTransaction) (inputs : MapPrevTx) (nTxFees : Int) (nP2SHSigOps : Nat)
    (mapTestPool : TxIndexMap) : Prop where
  size : assembly.nBlockSize + tx.size < maxBlockSizeGen
  sigOps : assembly.nBlockSigOps + (tx.getLegacySigOpCount + nP2SHSigOps) < maxBlockSigops
  fetched : tx.fetchInputs env context.mempool.lookup context.txdb assembly.mapTestPool false true =
    .ok inputs
  fees : ∃ nValueIn nValueOut, tx.getValueIn inputs = .ok nValueIn ∧
    tx.getValueOut = .ok nValueOut ∧ int64 (nValueIn - nValueOut) = .ok nTxFees
  p2sh : tx.getP2SHSigOpCount inputs = .ok nP2SHSigOps
  connected : tx.connectInputs env context.nBestHeight inputs assembly.mapTestPool .pool
    context.pindexBest { fBlock := false, fMiner := true, fStrictPayToScriptHash := true } =
      .ok mapTestPool

private theorem tryTransaction_eq_some {assembly after : Assembly} {tx : CTransaction}
    (tried : tryTransaction env context assembly tx = .ok (some after)) :
    ∃ inputs nTxFees nP2SHSigOps mapTestPool,
      Taken env context assembly tx inputs nTxFees nP2SHSigOps mapTestPool ∧
      int64 (assembly.nFees + nTxFees) = .ok after.nFees ∧
      after.mapTestPool = update mapTestPool (tx.getHash env.crypto)
        (some (.ofOutputs .pool tx.vout.length)) ∧
      after.vtx = assembly.vtx ++ [tx] ∧
      after.nBlockSize = assembly.nBlockSize + tx.size ∧
      after.nBlockSigOps = assembly.nBlockSigOps + (tx.getLegacySigOpCount + nP2SHSigOps) := by
  simp only [tryTransaction] at tried
  split_ifs at tried with large many
  · simp at tried
  · simp at tried
  split at tried
  · simp at tried
  rename_i inputs fetched
  simp only [except_bind_eq_ok] at tried
  obtain ⟨nValueIn, valueIn, nValueOut, valueOut, nTxFees, fee, tried⟩ := tried
  split_ifs at tried with cheap
  · simp at tried
  simp only [except_bind_eq_ok] at tried
  obtain ⟨nP2SHSigOps, p2sh, tried⟩ := tried
  split_ifs at tried with many'
  · simp at tried
  split at tried
  · simp at tried
  · simp at tried
  rename_i mapTestPool connected
  simp only [except_bind_eq_ok, pure_eq_ok, Option.some.injEq] at tried
  obtain ⟨nFees, sum, rfl⟩ := tried
  exact ⟨inputs, nTxFees, nP2SHSigOps, mapTestPool,
    { size := by omega
      sigOps := by omega
      fetched
      fees := ⟨nValueIn, nValueOut, valueIn, valueOut, fee⟩
      p2sh
      connected }, sum, rfl, rfl, rfl, rfl⟩

/-- The collection loop takes these transactions, in this order. -/
inductive Assembled (env : Env) (context : MinerContext) :
    Assembly → List CTransaction → Assembly → Prop
  | nil {assembly : Assembly} : Assembled env context assembly [] assembly
  | cons {assembly middle after : Assembly} {tx : CTransaction} {vtx : List CTransaction} :
      tryTransaction env context assembly tx = .ok (some middle) →
      Assembled env context middle vtx after → Assembled env context assembly (tx :: vtx) after

/-- Every candidate is taken at most once. -/
theorem assembled_of_collectTransactions {candidates : Candidates} {assembly after : Assembly}
    (collected : collectTransactions env context candidates assembly = .ok after) :
    ∃ vtx, Assembled env context assembly vtx after ∧ List.Subperm vtx candidates.untried := by
  induction count : candidates.untried.length using Nat.strongRecOn
    generalizing candidates assembly with
  | ind size induction =>
      rw [collectTransactions] at collected
      split at collected
      · cases collected
        exact ⟨[], .nil, List.nil_subperm⟩
      rename_i tx rest taken
      have order := Candidates.perm_of_take taken
      have fewer := order.length_eq
      rw [count, List.length_cons] at fewer
      split at collected
      · simp at collected
      · obtain ⟨vtx, assembled, chosen⟩ := induction _ (by omega) collected rfl
        exact ⟨vtx, assembled, (chosen.trans (List.sublist_cons_self tx _).subperm).trans
          order.symm.subperm⟩
      · rename_i middle tried
        have released := rest.perm_release (tx.getHash env.crypto)
        obtain ⟨vtx, assembled, chosen⟩ :=
          induction _ (by rw [released.length_eq]; omega) collected rfl
        have first : List.Subperm (tx :: vtx) (tx :: rest.untried) :=
          (List.subperm_cons tx).mpr (chosen.trans released.subperm)
        exact ⟨tx :: vtx, .cons tried assembled, first.trans order.symm.subperm⟩

end Collect

/-! ## The candidates -/

namespace Candidates

variable {env : Env} {context : MinerContext}

private theorem perm_add (tx : CTransaction) (waiting : List UInt256) (candidates : Candidates) :
    List.Perm (candidates.add tx waiting).untried (tx :: candidates.untried) := by
  rw [add]
  split_ifs with ready
  · exact .refl _
  · have waits : waiting.toFinset ≠ ∅ := by simpa [List.toFinset_eq_empty_iff] using ready
    simp only [untried, Candidates.waiting, List.filter_append, List.map_append]
    rw [List.filter_cons_of_pos (by simpa using waits)]
    rw [List.filter_nil, List.map_singleton, ← List.append_assoc]
    exact List.perm_append_singleton tx _

private theorem untried_consider (candidates : Candidates) (tx : CTransaction) :
    List.Subperm (candidates.consider env context tx).untried
      ([tx].filter (fun tx => ¬tx.isCoinBase) ++ candidates.untried) := by
  rw [consider]
  split_ifs with skipped
  · exact (List.sublist_append_right _ _).subperm
  · rw [List.filter_cons_of_pos (by simpa using fun coinBase => skipped (.inl coinBase))]
    exact (perm_add tx _ candidates).subperm

private theorem untried_foldl (txs : List CTransaction) (candidates : Candidates) :
    List.Subperm (txs.foldl (consider env context) candidates).untried
      (txs.filter (fun tx => ¬tx.isCoinBase) ++ candidates.untried) := by
  induction txs generalizing candidates with
  | nil => exact .refl _
  | cons tx txs induction =>
      have later := induction (candidates.consider env context tx)
      have first := (List.subperm_append_left (txs.filter fun tx => ¬tx.isCoinBase)).mpr
        (@untried_consider env context candidates tx)
      have swap := (@List.perm_append_comm _ (txs.filter fun tx => ¬tx.isCoinBase)
        ([tx].filter fun tx => ¬tx.isCoinBase)).append_right candidates.untried
      rw [← List.append_assoc] at first
      have whole := (later.trans first).trans swap.subperm
      rwa [← List.filter_append] at whole

end Candidates

/-- The pool holds every transaction under its id. -/
def CTxMemPool.Keyed (crypto : Crypto) (pool : CTxMemPool) : Prop :=
  ∀ entry ∈ pool.mapTx.entries, entry.2.tx.getHash crypto = entry.1

instance (crypto : Crypto) (pool : CTxMemPool) : Decidable (pool.Keyed crypto) :=
  inferInstanceAs (Decidable (∀ entry ∈ pool.mapTx.entries, entry.2.tx.getHash crypto = entry.1))

/-- What can be said of the collected transactions before they are checked. -/
structure Distinct (env : Env) (context : MinerContext) (vtx : List CTransaction) : Prop where
  nodup : (vtx.map (CTransaction.getHash env.crypto)).Nodup
  pooled : ∀ tx ∈ vtx, context.mempool.lookup (tx.getHash env.crypto) = some tx
  ordinary : ∀ tx ∈ vtx, ¬tx.isCoinBase

private theorem distinct_of_subperm {env : Env} {context : MinerContext} {vtx : List CTransaction}
    (keyed : context.mempool.Keyed env.crypto)
    (chosen : List.Subperm vtx (Candidates.gather env context).untried) :
    Distinct env context vtx := by
  have gathered := chosen.trans (Candidates.untried_foldl _ _)
  simp only [Candidates.untried, Candidates.waiting, Candidates.empty, List.filter_nil,
    List.map_nil, List.append_nil] at gathered
  have pooled := gathered.trans List.filter_sublist.subperm
  have ids : (context.mempool.mapTx.entries.map fun entry => entry.2.tx).map
      (CTransaction.getHash env.crypto) = context.mempool.mapTx.keys := by
    rw [List.map_map]
    exact List.map_congr_left keyed
  refine ⟨?_, fun tx member => ?_, fun tx member => ?_⟩
  · obtain ⟨ordered, same, within⟩ := pooled
    have keys := within.map (CTransaction.getHash env.crypto)
    rw [ids] at keys
    exact (same.map _).nodup (keys.nodup context.mempool.mapTx.nodupKeys)
  · obtain ⟨entry, stored, rfl⟩ := List.mem_map.mp (pooled.subset member)
    rw [CTxMemPool.lookup, keyed entry stored, AList.mem_lookup_iff.mpr stored]
    rfl
  · simpa using List.of_mem_filter (gathered.subset member)

/-! ## Counters and order -/

section Assembled

variable {env : Env} {context : MinerContext}

theorem Assembled.vtx_eq {assembly after : Assembly} {vtx : List CTransaction}
    (assembled : Assembled env context assembly vtx after) : after.vtx = assembly.vtx ++ vtx := by
  induction assembled with
  | nil => simp
  | cons tried _ induction =>
      obtain ⟨_, _, _, _, _, _, _, taken, _⟩ := tryTransaction_eq_some tried
      rw [induction, taken, List.append_assoc, List.singleton_append]

/-- The counters stay below the limits. -/
structure Assembly.Limited (assembly : Assembly) : Prop where
  size : assembly.nBlockSize < maxBlockSizeGen
  sigOps : assembly.nBlockSigOps < maxBlockSigops

theorem Assembled.counted {assembly after : Assembly} {vtx : List CTransaction}
    (assembled : Assembled env context assembly vtx after) (limited : assembly.Limited) :
    after.Limited ∧
      after.nBlockSize = assembly.nBlockSize + (vtx.map CTransaction.size).sum ∧
      assembly.nBlockSigOps + (vtx.map CTransaction.getLegacySigOpCount).sum ≤
        after.nBlockSigOps := by
  induction assembled with
  | nil => exact ⟨limited, by simp, by simp⟩
  | cons tried _ induction =>
      obtain ⟨_, _, _, _, taken, _, _, _, size, sigOps⟩ := tryTransaction_eq_some tried
      obtain ⟨limits, sizes, counts⟩ :=
        induction ⟨size ▸ taken.size, sigOps ▸ taken.sigOps⟩
      refine ⟨limits, ?_, ?_⟩
      · rw [sizes, size, List.map_cons, List.sum_cons, Nat.add_assoc]
      · rw [List.map_cons, List.sum_cons]
        omega

/-- The inputs of a transaction that `FetchInputs` accepts are in the view. -/
private theorem isSome_of_fetchInputs {mempool : MapTx} {txdb mapTestPool : TxIndexMap}
    {tx : CTransaction} {inputs : MapPrevTx} (ordinary : ¬tx.isCoinBase)
    (fetched : tx.fetchInputs env mempool txdb mapTestPool false true = .ok inputs) :
    ∀ txin ∈ tx.vin, (overlay mapTestPool txdb txin.prevout.hash).isSome := by
  intro txin member
  have prevs := fetchInputs_ok rfl fetched
  simp only [CTransaction.fetchInputs, if_neg ordinary, except_bind_eq_ok] at fetched
  obtain ⟨found, _, last⟩ := fetched
  split_ifs at last with ranges
  cases last
  have range := List.all_eq_true.mp ranges txin member
  cases present : inputs txin.prevout.hash with
  | none => simp [present] at range
  | some prev => exact Option.isSome_of_eq_some (prevs _ prev present).entry

/-- What the miner's view has is in the index or was collected. -/
private theorem view_after {assembly after : Assembly} {tx : CTransaction}
    (tried : tryTransaction env context assembly tx = .ok (some after)) (hash : UInt256) :
    (overlay after.mapTestPool context.txdb hash).isSome ↔
      hash = tx.getHash env.crypto ∨ (overlay assembly.mapTestPool context.txdb hash).isSome := by
  obtain ⟨inputs, _, _, mapTestPool, taken, _, pool, _⟩ := tryTransaction_eq_some tried
  have connected := connectInputs_ok rfl (by decide) (fetchInputs_ok rfl taken.fetched)
    taken.connected
  rw [pool, overlay_update, connected.effect]
  by_cases same : hash = tx.getHash env.crypto
  · simp [same]
  · rw [update_of_ne same, markSpent, Option.isSome_map]
    simp [same]

/-- Every parent that is not in the index comes before its children. -/
theorem Assembled.parents {assembly after : Assembly} {vtx : List CTransaction}
    (assembled : Assembled env context assembly vtx after)
    (ordinary : ∀ tx ∈ vtx, ¬tx.isCoinBase) {front back : List CTransaction} {tx : CTransaction}
    (split : vtx = front ++ tx :: back) :
    ∀ txin ∈ tx.vin, (overlay assembly.mapTestPool context.txdb txin.prevout.hash).isSome ∨
      ∃ parent ∈ front, parent.getHash env.crypto = txin.prevout.hash := by
  induction assembled generalizing front with
  | nil => simp at split
  | cons tried later induction =>
      rename_i before middle final first vtx
      cases front with
      | nil =>
          obtain ⟨rfl, rfl⟩ := List.cons.inj split
          obtain ⟨_, _, _, _, taken, _⟩ := tryTransaction_eq_some tried
          intro txin member
          exact .inl (isSome_of_fetchInputs (ordinary _ List.mem_cons_self) taken.fetched txin member)
      | cons head front =>
          obtain ⟨rfl, rfl⟩ := List.cons.inj split
          intro txin member
          have known := induction (fun tx member => ordinary tx (List.mem_cons_of_mem _ member)) rfl
            txin member
          rw [view_after tried, or_assoc] at known
          rcases known with own | view | ⟨parent, earlier, hash⟩
          · exact .inr ⟨first, List.mem_cons_self, own.symm⟩
          · exact .inl view
          · exact .inr ⟨parent, List.mem_cons_of_mem _ earlier, hash⟩

end Assembled

/-! ## The validator -/

section Validate

variable {env : Env} {context : MinerContext} {validator : CallContext} {pindex : CBlockIndex}

/-- The variables of `ConnectBlock` follow those of `CreateNewBlock`. -/
structure Follows (env : Env) (context : MinerContext) (validator : CallContext)
    (pindex : CBlockIndex) (assembly : Assembly) (state : ConnectState) : Prop where
  views : ViewCovers env context.mempool.lookup validator.mempool pindex
    (overlay assembly.mapTestPool context.txdb) (overlay state.mapQueuedChanges context.txdb)
  nFees : state.nFees = assembly.nFees
  nSigOps : state.nSigOps ≤ assembly.nBlockSigOps

/-- The pay-to-script-hash operations stay within what the miner counted. -/
private theorem addP2SHSigOps_ok {inputs : MapPrevTx} {nSigOps nP2SHSigOps bound : Nat}
    {tx : CTransaction} (counted : tx.getP2SHSigOpCount inputs = .ok nP2SHSigOps)
    (fits : nSigOps + nP2SHSigOps ≤ bound) (limited : bound ≤ maxBlockSigops) :
    ∃ total, addP2SHSigOps pindex inputs nSigOps tx = .ok total ∧ total ≤ bound := by
  rw [addP2SHSigOps]
  split_ifs
  · refine ⟨nSigOps + nP2SHSigOps, ?_, fits⟩
    simp only [except_bind_eq_ok, require_eq_ok, pure_eq_ok]
    exact ⟨nP2SHSigOps, counted, (), fits.trans limited, rfl⟩
  · exact ⟨nSigOps, rfl, (Nat.le_add_right _ _).trans fits⟩

/-- The new entry of a transaction that both sides have taken. -/
private theorem entryCovers_taken {tx : CTransaction} {nTxPos : Nat}
    (ordinary : ¬tx.isCoinBase) (place : 8 ≤ pindex.nBlockPos)
    (pooled : context.mempool.lookup (tx.getHash env.crypto) = some tx)
    (stored : env.readTx pindex.nFile nTxPos = some tx) :
    EntryCovers env context.mempool.lookup validator.mempool pindex (tx.getHash env.crypto)
      (.ofOutputs .pool tx.vout.length)
      (.ofOutputs (.mk pindex.nFile pindex.nBlockPos nTxPos) tx.vout.length) where
  slots := by simp [CTxIndex.ofOutputs]
  transaction := by
    intro txPrev located
    have own : tx = txPrev := by simpa [txAt, CTxIndex.ofOutputs, pooled] using located
    subst own
    have elsewhere : CDiskTxPos.mk pindex.nFile pindex.nBlockPos nTxPos ≠ .pool := by
      simp only [CDiskTxPos.pool, ne_eq, CDiskTxPos.mk.injEq]
      omega
    refine ⟨?_, fun coinBase => absurd coinBase ordinary⟩
    simpa [txAt, CTxIndex.ofOutputs, elsewhere, Env.readTxAt] using stored

/-- The validator's part of the loop body for what the miner has taken. -/
private theorem connectOrdinary_follows {assembly after : Assembly} {state : ConnectState}
    {tx : CTransaction} {posThisTx : CDiskTxPos} {inputs : MapPrevTx} {nTxFees : Int}
    {nP2SHSigOps : Nat} {mapTestPool : TxIndexMap}
    (taken : Taken env context assembly tx inputs nTxFees nP2SHSigOps mapTestPool)
    (sum : int64 (assembly.nFees + nTxFees) = .ok after.nFees) (real : posThisTx ≠ .null)
    (height : ∀ tip ∈ context.pindexBest.head?, tip.nHeight ≤ pindex.nHeight)
    (views : ViewCovers env context.mempool.lookup validator.mempool pindex
      (overlay assembly.mapTestPool context.txdb) (overlay state.mapQueuedChanges context.txdb))
    (nFees : state.nFees = assembly.nFees)
    (nSigOps : state.nSigOps ≤ assembly.nBlockSigOps + tx.getLegacySigOpCount) :
    ∃ queue total,
      connectOrdinary env validator context.txdb pindex context.pindexBest posThisTx state tx =
        .ok { state with mapQueuedChanges := queue, nFees := after.nFees, nSigOps := total } ∧
      total ≤ assembly.nBlockSigOps + (tx.getLegacySigOpCount + nP2SHSigOps) ∧
      ViewCovers env context.mempool.lookup validator.mempool pindex
        (overlay mapTestPool context.txdb) (overlay queue context.txdb) := by
  have limit := taken.sigOps
  obtain ⟨inputsV, fetched, covers⟩ := fetchInputs_covered views taken.fetched
  obtain ⟨total, added, total_le⟩ := @addP2SHSigOps_ok pindex inputsV state.nSigOps nP2SHSigOps
    (assembly.nBlockSigOps + (tx.getLegacySigOpCount + nP2SHSigOps)) tx
    (getP2SHSigOpCount_covered covers taken.p2sh) (by omega) (by omega)
  obtain ⟨nValueIn, nValueOut, valueIn, valueOut, fee⟩ := taken.fees
  obtain ⟨queue, connected, views_after⟩ := @connectInputs_covered env _ _ pindex _ _ _ _ _ _
    validator.nBestHeight (strictPayToScriptHash pindex) _ _ (by decide) real tx _ height _ covers
    views taken.connected
  refine ⟨queue, total, ?_, total_le, views_after⟩
  have fetchedV : fetchBlockInputs env validator context.txdb state.mapQueuedChanges tx =
      .ok inputsV := by
    rw [fetchBlockInputs, fetched]
    rfl
  simp only [connectOrdinary, except_bind_eq_ok, pure_eq_ok]
  exact ⟨inputsV, fetchedV, total, added, nValueIn, getValueIn_covered covers valueIn, nValueOut,
    valueOut, nTxFees, fee, after.nFees, nFees ▸ sum, queue, connected, rfl⟩

/-- The validator finds the collected transaction in the pool of the miner and at its place in the
block, one above the best chain. -/
private structure Ready (env : Env) (context : MinerContext) (pindex : CBlockIndex) (nTxPos : Nat)
    (tx : CTransaction) : Prop where
  ordinary : ¬tx.isCoinBase
  pooled : context.mempool.lookup (tx.getHash env.crypto) = some tx
  stored : env.readTx pindex.nFile nTxPos = some tx
  fresh : ¬overwrites env context.txdb pindex tx

/-- The step lemma: what the miner takes, the validator connects. -/
private theorem connectTransaction_follows {assembly after : Assembly} {state : ConnectState}
    {tx : CTransaction} (follows : Follows env context validator pindex assembly state)
    (tried : tryTransaction env context assembly tx = .ok (some after))
    (ready : Ready env context pindex state.nTxPos tx) (place : 8 ≤ pindex.nBlockPos)
    (height : ∀ tip ∈ context.pindexBest.head?, tip.nHeight ≤ pindex.nHeight) :
    ∃ next, connectTransaction env validator context.txdb pindex context.pindexBest state tx =
        .ok next ∧
      Follows env context validator pindex after next ∧ next.nTxPos = state.nTxPos + tx.size := by
  obtain ⟨inputs, nTxFees, nP2SHSigOps, mapTestPool, taken, sum, pool, _, _, sigOps⟩ :=
    tryTransaction_eq_some tried
  have few := follows.nSigOps
  have limit := taken.sigOps
  have some_room : state.nSigOps + tx.getLegacySigOpCount ≤ maxBlockSigops := by omega
  obtain ⟨queue, total, connected, total_le, views⟩ := @connectOrdinary_follows env context
    validator pindex assembly after
    { state with
      nSigOps := state.nSigOps + tx.getLegacySigOpCount, nTxPos := state.nTxPos + tx.size }
    tx (.mk pindex.nFile pindex.nBlockPos state.nTxPos) inputs nTxFees nP2SHSigOps mapTestPool taken
    sum (by simp) height follows.views follows.nFees (Nat.add_le_add_right few _)
  have entry := @entryCovers_taken env context validator pindex tx state.nTxPos ready.ordinary place
    ready.pooled ready.stored
  refine ⟨{ mapQueuedChanges := update queue (tx.getHash env.crypto)
              (some (.ofOutputs (.mk pindex.nFile pindex.nBlockPos state.nTxPos) tx.vout.length))
            nFees := after.nFees
            nSigOps := total
            nTxPos := state.nTxPos + tx.size }, ?_, ⟨?_, rfl, sigOps ▸ total_le⟩, rfl⟩
  · simp only [connectTransaction, except_bind_eq_ok, require_eq_ok, exists_const, pure_eq_ok,
      if_neg ready.ordinary]
    exact ⟨ready.fresh, some_room, _, connected, rfl⟩
  · rw [pool, overlay_update, overlay_update]
    exact views.update entry

/-- The run lemma. -/
private theorem connectTransactions_follows {assembly after : Assembly} {state : ConnectState}
    {vtx : List CTransaction} (assembled : Assembled env context assembly vtx after)
    (follows : Follows env context validator pindex assembly state)
    (ready : ∀ front tx back, vtx = front ++ tx :: back →
      Ready env context pindex (state.nTxPos + (front.map CTransaction.size).sum) tx)
    (place : 8 ≤ pindex.nBlockPos)
    (height : ∀ tip ∈ context.pindexBest.head?, tip.nHeight ≤ pindex.nHeight) :
    ∃ next, connectTransactions env validator context.txdb pindex context.pindexBest vtx state =
        .ok next ∧
      Follows env context validator pindex after next := by
  induction assembled generalizing state with
  | nil => exact ⟨state, rfl, follows⟩
  | cons tried _ induction =>
      obtain ⟨middle, first, follows_middle, nTxPos⟩ := connectTransaction_follows follows tried
        (by simpa using ready [] _ _ rfl) place height
      obtain ⟨next, later, follows_next⟩ := induction follows_middle (by
        rintro front tx back rfl
        have there := ready (_ :: front) tx back rfl
        rw [List.map_cons, List.sum_cons, ← Nat.add_assoc] at there
        rwa [nTxPos])
      refine ⟨next, ?_, follows_next⟩
      simp only [connectTransactions, first]
      exact later

private theorem not_overwrites_of_connectTransactions {txdb : TxIndexMap} {pprev : BlockChain}
    {vtx : List CTransaction} {state after : ConnectState}
    (connected : connectTransactions env validator txdb pindex pprev vtx state = .ok after) :
    ∀ tx ∈ vtx, ¬overwrites env txdb pindex tx := by
  induction vtx generalizing state with
  | nil => simp
  | cons tx vtx induction =>
      simp only [connectTransactions, except_bind_eq_ok] at connected
      obtain ⟨middle, first, later⟩ := connected
      simp only [connectTransaction, except_bind_eq_ok, require_eq_ok, exists_const] at first
      exact List.forall_mem_cons.mpr ⟨first.1, induction later⟩

/-- A block of the collected transactions and any coinbase, written to a new place one block above
the best chain. -/
structure NextBlock (env : Env) (context : MinerContext) (vtx : List CTransaction)
    (pindex : CBlockIndex) (mined : CBlock) : Prop where
  vtx : ∃ coinBase, mined.vtx = coinBase :: vtx
  stored : env.Stored pindex.nFile pindex.nBlockPos mined
  height : ∀ tip ∈ context.pindexBest.head?, pindex.nHeight = tip.nHeight + 1
  /-- The index does not refer to the place of the block. -/
  unused : ∀ hash txindex, context.txdb hash = some txindex → ¬txindex.pos.inBlock pindex

/-- Where the index itself refers to the pool, the pools of both sides agree. -/
def PoolsAgree (context : MinerContext) (validator : CallContext) : Prop :=
  ∀ hash txindex, context.txdb hash = some txindex → txindex.pos = .pool →
    validator.mempool hash = context.mempool.lookup hash

/-- `ConnectBlock` past the coinbase, which takes the operations that are set aside for it. -/
structure PastCoinBase (context : MinerContext) (pindex : CBlockIndex) (mined : CBlock)
    (state : ConnectState) : Prop where
  /-- Nothing is queued for entries of the index. -/
  queued : ∀ hash, (state.mapQueuedChanges hash).isSome → context.txdb hash = none
  nFees : state.nFees = 0
  nSigOps : state.nSigOps ≤ 100
  nTxPos : ∀ coinBase ∈ mined.vtx.head?,
    state.nTxPos = pindex.nBlockPos + mined.vtxOffset + coinBase.size

/-- A coinbase with a new id and few operations takes `ConnectBlock` there. -/
theorem pastCoinBase_of_connectTransaction {mined : CBlock} {coinBase : CTransaction}
    {state : ConnectState} (head : mined.vtx.head? = some coinBase) (isCoinBase : coinBase.isCoinBase)
    (few : coinBase.getLegacySigOpCount ≤ 100)
    (new : context.txdb (coinBase.getHash env.crypto) = none)
    (connected : connectTransaction env validator context.txdb pindex context.pindexBest
      { mapQueuedChanges := fun _ => none
        nFees := 0
        nSigOps := 0
        nTxPos := pindex.nBlockPos + 81 - 1 + (writeCompactSize mined.vtx.length).length }
      coinBase = .ok state) : PastCoinBase context pindex mined state := by
  simp only [connectTransaction, except_bind_eq_ok, require_eq_ok, exists_const, pure_eq_ok,
    if_pos isCoinBase] at connected
  obtain ⟨_, _, _, rfl, rfl⟩ := connected
  refine ⟨fun hash present => ?_, rfl, by simpa using few, ?_⟩
  · by_cases same : hash = coinBase.getHash env.crypto
    · exact same ▸ new
    · simp [same] at present
  · intro first first_mem
    obtain rfl : coinBase = first := by simpa [head] using first_mem
    simp only [CBlock.vtxOffset]
    omega

private theorem follows_initial {mined : CBlock} {state : ConnectState} {vtx : List CTransaction}
    (next : NextBlock env context vtx pindex mined) (agree : PoolsAgree context validator)
    (past : PastCoinBase context pindex mined state) :
    Follows env context validator pindex .initial state where
  views := by
    intro hash left present
    have indexed : context.txdb hash = some left := present
    have unqueued : state.mapQueuedChanges hash = none := by
      rw [← Option.not_isSome_iff_eq_none]
      intro queued
      rw [past.queued hash queued] at indexed
      cases indexed
    refine ⟨left, by rw [overlay, unqueued]; exact indexed, rfl, fun txPrev located => ?_⟩
    refine ⟨?_, fun _ => ⟨rfl, next.unused hash left indexed⟩⟩
    rw [txAt] at located ⊢
    split_ifs at located ⊢ with pool
    · rw [agree hash left indexed pool]
      exact located
    · exact located
  nFees := past.nFees
  nSigOps := past.nSigOps

end Validate

/-! ## The block -/

/-- What a new block and the variables of the collection loop satisfy. -/
structure NewBlock (env : Env) (context : MinerContext) (block : CBlock) (assembly : Assembly) :
    Prop where
  collected : collectTransactions env context (Candidates.gather env context) .initial = .ok assembly
  /-- The coinbase takes the subsidy and the collected fees. -/
  coinBase : ∃ coinBase, block.vtx = coinBase :: assembly.vtx ∧
    coinBase.vout.map (fun txout => txout.nValue.toInt) = [coin + assembly.nFees]
  /-- No transaction is in it twice. -/
  nodup : (assembly.vtx.map (CTransaction.getHash env.crypto)).Nodup
  /-- Every parent that is not in the index comes before its children. -/
  parents : ∀ front tx back, assembly.vtx = front ++ tx :: back → ∀ txin ∈ tx.vin,
    (context.txdb txin.prevout.hash).isSome ∨
      ∃ parent ∈ front, parent.getHash env.crypto = txin.prevout.hash
  /-- The counted size and the counted operations are below the limits. -/
  limited : assembly.Limited
  size : assembly.nBlockSize = 1000 + (assembly.vtx.map CTransaction.size).sum
  sigOps : 100 + (assembly.vtx.map CTransaction.getLegacySigOpCount).sum ≤ assembly.nBlockSigOps
  /-- `ConnectBlock` connects the transactions with the same fees exactly if none of them overwrites
  an unspent one. -/
  connects : ∀ {validator pindex mined state}, NextBlock env context assembly.vtx pindex mined →
    PoolsAgree context validator → PastCoinBase context pindex mined state →
      ((∃ after, connectTransactions env validator context.txdb pindex context.pindexBest assembly.vtx
          state = .ok after ∧ after.nFees = assembly.nFees) ↔
        ∀ tx ∈ assembly.vtx, ¬overwrites env context.txdb pindex tx)

theorem miner_validator_agree {env : Env} {context : MinerContext} {block : CBlock}
    (keyed : context.mempool.Keyed env.crypto) (created : createNewBlock env context = .ok block) :
    ∃ assembly, NewBlock env context block assembly := by
  simp only [createNewBlock] at created
  split at created
  · simp at created
  rename_i pindexPrev pprev best
  simp only [except_bind_eq_ok, pure_eq_ok] at created
  obtain ⟨assembly, collected, nValue, value, nBits, _, rfl⟩ := created
  obtain ⟨vtx, assembled, chosen⟩ := assembled_of_collectTransactions collected
  have distinct := distinct_of_subperm keyed chosen
  have taken : assembly.vtx = vtx := assembled.vtx_eq
  subst taken
  obtain ⟨limited, size, sigOps⟩ := assembled.counted ⟨by decide, by decide⟩
  refine ⟨assembly, collected, ⟨_, rfl, ?_⟩, distinct.nodup, ?_, limited, size, sigOps, ?_⟩
  · simp only [getBlockValue, one_mul, int64_eq_ok] at value
    obtain ⟨⟨lower, upper⟩, rfl⟩ := value
    have exact : (Int64.ofInt (coin + assembly.nFees)).toInt = coin + assembly.nFees :=
      Int64.toInt_ofInt_of_le lower (Int.lt_add_one_of_le upper)
    simp only [coinBaseOf, List.map_cons, List.map_nil, exact]
  · intro front tx back split
    exact assembled.parents distinct.ordinary split
  · intro validator pindex mined state next agree past
    constructor
    · rintro ⟨after, connected, _⟩
      exact not_overwrites_of_connectTransactions connected
    · intro fresh
      obtain ⟨coinBase, vtx_eq⟩ := next.vtx
      have ready : ∀ front tx back, assembly.vtx = front ++ tx :: back →
          Ready env context pindex (state.nTxPos + (front.map CTransaction.size).sum) tx := by
        intro front tx back split
        have member : tx ∈ assembly.vtx := by simp [split]
        have small : tx.size ≤ maxSize := by
          have whole := limited.size
          rw [size, split, List.map_append, List.sum_append, List.map_cons, List.sum_cons] at whole
          have bound : maxBlockSizeGen ≤ maxSize := by decide
          omega
        have stored := @Env.Stored.readTx_eq env _ _ mined next.stored (coinBase :: front) back tx
          (by rw [vtx_eq, split]; rfl) small
        refine ⟨distinct.ordinary tx member, distinct.pooled tx member, ?_, fresh tx member⟩
        rw [past.nTxPos coinBase (by rw [vtx_eq]; rfl)]
        rw [List.map_cons, List.sum_cons, ← Nat.add_assoc] at stored
        exact stored
      obtain ⟨after, connected, follows⟩ := connectTransactions_follows assembled
        (follows_initial next agree past) ready next.stored.1
        (fun tip member => by have := next.height tip member; omega)
      exact ⟨after, connected, follows.nFees⟩

/-! ## Sample blocks -/

/-- An indexed transaction. -/
def minedParent : CTransaction := sampleSpend 9 [⟨7, 0⟩] [300000000]

/-- A transaction of the pool that spends it. -/
def pooledChild : CTransaction := sampleSpend 1 [minedParent.outpoint 0] [200000000]

/-- A child of that one. -/
def pooledGrandchild : CTransaction := sampleSpend 2 [pooledChild.outpoint 0] [100000000]

/-- The block of the indexed transaction, and the mined one. -/
def minerBlocks (vtx : List CTransaction) : Nat → CBlock
  | 0 => sampleBlock 0 1400000000 [minedParent]
  | _ => sampleBlock 0 1400000240 (sampleCoinBase 3 [500000000] :: vtx)

/-- The files of these blocks. -/
def minerEnv (vtx : List CTransaction) : Env := sampleEnv (minerBlocks vtx) 0

/-- An index that refers to the first file, with an unspent output for each transaction. -/
def minerIndex (txs : List CTransaction) : TxIndexMap := fun hash =>
  if txs.any fun tx => tx.getHash sampleCrypto = hash then
    some (.ofOutputs (.mk 1 8 (8 + (minerBlocks [] 0).vtxOffset)) 1)
  else none

/-- A miner with transactions in the pool and in the index. -/
def sampleMiner (pooled indexed : List CTransaction) : MinerContext where
  mempool := pooled.foldl (fun pool tx => pool.addUnchecked (tx.getHash sampleCrypto) tx) .empty
  txdb := minerIndex indexed
  pindexBest := [sampleEntry 6 (minerBlocks [] 0) []]
  nBestHeight := 0
  nAdjustedTime := 1400000120
  choose _ := 0
  allowFree _ := false
  scriptPubKey := []

private theorem txdb_sampleMiner (pooled indexed : List CTransaction) :
    (sampleMiner pooled indexed).txdb = minerIndex indexed := by
  rw [sampleMiner]

/-- The entry of the mined block. -/
def minedEntry (pooled indexed : List CTransaction) : CBlockIndex :=
  sampleEntry 1 (minerBlocks pooled 1) (sampleMiner pooled indexed).pindexBest

private theorem eq_of_minerIndex {txs : List CTransaction} {hash : UInt256} {txindex : CTxIndex}
    (found : minerIndex txs hash = some txindex) :
    txindex = .ofOutputs (.mk 1 8 (8 + (minerBlocks [] 0).vtxOffset)) 1 := by
  simp only [minerIndex] at found
  split_ifs at found
  exact (Option.some.inj found).symm

private theorem nextBlock_minedEntry (pooled indexed : List CTransaction) :
    NextBlock (minerEnv pooled) (sampleMiner pooled indexed) pooled (minedEntry pooled indexed)
      (minerBlocks pooled 1) where
  vtx := ⟨_, rfl⟩
  stored := @sampleEnv_stored (minerBlocks pooled) 0 1 (by decide)
  height := by
    simp [minedEntry, sampleMiner, sampleEntry, CBlockIndex.ofBlock]
  unused := by
    intro hash txindex found
    rw [eq_of_minerIndex found]
    simp [CDiskTxPos.inBlock, CTxIndex.ofOutputs, minedEntry, sampleEntry, CBlockIndex.ofBlock]

private theorem poolsAgree_sampleMiner (pooled indexed : List CTransaction) :
    PoolsAgree (sampleMiner pooled indexed) sampleContext := by
  intro hash txindex found pool
  rw [eq_of_minerIndex found] at pool
  cases pool

private theorem exists_pastCoinBase {pooled indexed : List CTransaction}
    (new : (sampleMiner pooled indexed).txdb
      ((sampleCoinBase 3 [500000000]).getHash (minerEnv pooled).crypto) = none)
    (connects : (connectTransaction (minerEnv pooled) sampleContext
      (sampleMiner pooled indexed).txdb (minedEntry pooled indexed)
      (sampleMiner pooled indexed).pindexBest
      { mapQueuedChanges := fun _ => none
        nFees := 0
        nSigOps := 0
        nTxPos := (minedEntry pooled indexed).nBlockPos + 81 - 1 +
          (writeCompactSize (minerBlocks pooled 1).vtx.length).length }
      (sampleCoinBase 3 [500000000])).isOk = true) :
    ∃ state, PastCoinBase (sampleMiner pooled indexed) (minedEntry pooled indexed)
      (minerBlocks pooled 1) state := by
  obtain ⟨state, connected⟩ := exists_of_isOk connects
  have head : (minerBlocks pooled 1).vtx.head? = some (sampleCoinBase 3 [500000000]) := by
    simp [minerBlocks, sampleBlock]
  exact ⟨state, pastCoinBase_of_connectTransaction head (by decide +kernel) (by decide +kernel) new
    connected⟩

/-- A transaction and its child are collected and connected. -/
theorem miner_validator_agree_pooledChild :
    ∃ block assembly state after,
      NewBlock (minerEnv [pooledChild, pooledGrandchild])
        (sampleMiner [pooledChild, pooledGrandchild] [minedParent]) block assembly ∧
      assembly.vtx = [pooledChild, pooledGrandchild] ∧
      connectTransactions (minerEnv [pooledChild, pooledGrandchild]) sampleContext
        (minerIndex [minedParent]) (minedEntry [pooledChild, pooledGrandchild] [minedParent])
        [sampleEntry 6 (minerBlocks [] 0) []] assembly.vtx state = .ok after ∧
      after.nFees = assembly.nFees := by
  obtain ⟨block, created⟩ : ∃ block, createNewBlock (minerEnv [pooledChild, pooledGrandchild])
      (sampleMiner [pooledChild, pooledGrandchild] [minedParent]) = .ok block :=
    exists_of_isOk (by decide +kernel)
  obtain ⟨assembly, new⟩ := miner_validator_agree (by decide +kernel) created
  have vtx : (collectTransactions (minerEnv [pooledChild, pooledGrandchild])
      (sampleMiner [pooledChild, pooledGrandchild] [minedParent])
      (Candidates.gather (minerEnv [pooledChild, pooledGrandchild])
        (sampleMiner [pooledChild, pooledGrandchild] [minedParent])) .initial).map Assembly.vtx =
          .ok [pooledChild, pooledGrandchild] := by decide +kernel
  rw [new.collected] at vtx
  have vtx_eq : assembly.vtx = [pooledChild, pooledGrandchild] := by simpa [Except.map] using vtx
  obtain ⟨state, past⟩ := @exists_pastCoinBase [pooledChild, pooledGrandchild] [minedParent]
    (by decide +kernel) (by decide +kernel)
  have next : NextBlock (minerEnv [pooledChild, pooledGrandchild])
      (sampleMiner [pooledChild, pooledGrandchild] [minedParent]) assembly.vtx
      (minedEntry [pooledChild, pooledGrandchild] [minedParent])
      (minerBlocks [pooledChild, pooledGrandchild] 1) := by
    rw [vtx_eq]
    exact nextBlock_minedEntry _ _
  have fresh : ∀ tx ∈ assembly.vtx, ¬overwrites (minerEnv [pooledChild, pooledGrandchild])
      (sampleMiner [pooledChild, pooledGrandchild] [minedParent]).txdb
      (minedEntry [pooledChild, pooledGrandchild] [minedParent]) tx := by
    rw [vtx_eq]
    decide +kernel
  obtain ⟨after, connected, nFees⟩ := (new.connects next (poolsAgree_sampleMiner _ _) past).mpr fresh
  rw [txdb_sampleMiner] at connected
  exact ⟨block, assembly, state, after, new, vtx_eq, connected, nFees⟩

/-- A collected transaction whose id is in the index with an unspent output is refused. -/
theorem not_miner_validator_agree :
    ∃ block state,
      (sampleMiner [pooledChild] [minedParent, pooledChild]).mempool.Keyed sampleCrypto ∧
      createNewBlock (minerEnv [pooledChild])
        (sampleMiner [pooledChild] [minedParent, pooledChild]) = .ok block ∧
      NextBlock (minerEnv [pooledChild]) (sampleMiner [pooledChild] [minedParent, pooledChild])
        block.vtx.tail (minedEntry [pooledChild] [minedParent, pooledChild])
        (minerBlocks [pooledChild] 1) ∧
      PastCoinBase (sampleMiner [pooledChild] [minedParent, pooledChild])
        (minedEntry [pooledChild] [minedParent, pooledChild]) (minerBlocks [pooledChild] 1) state ∧
      connectTransactions (minerEnv [pooledChild]) sampleContext
        (minerIndex [minedParent, pooledChild]) (minedEntry [pooledChild] [minedParent, pooledChild])
        [sampleEntry 6 (minerBlocks [] 0) []] block.vtx.tail state = .error .rejected := by
  obtain ⟨block, created⟩ : ∃ block, createNewBlock (minerEnv [pooledChild])
      (sampleMiner [pooledChild] [minedParent, pooledChild]) = .ok block :=
    exists_of_isOk (by decide +kernel)
  have vtx : (createNewBlock (minerEnv [pooledChild])
      (sampleMiner [pooledChild] [minedParent, pooledChild])).map (fun block => block.vtx.tail) =
        .ok [pooledChild] := by decide +kernel
  rw [created] at vtx
  have vtx_eq : block.vtx.tail = [pooledChild] := by simpa [Except.map] using vtx
  obtain ⟨state, past⟩ := @exists_pastCoinBase [pooledChild] [minedParent, pooledChild]
    (by decide +kernel) (by decide +kernel)
  have refused : overwrites (minerEnv [pooledChild]) (minerIndex [minedParent, pooledChild])
      (minedEntry [pooledChild] [minedParent, pooledChild]) pooledChild = true := by decide +kernel
  refine ⟨block, state, by decide +kernel, created, ?_, past, ?_⟩
  · rw [vtx_eq]
    exact nextBlock_minedEntry _ _
  · rw [vtx_eq]
    simp only [connectTransactions, connectTransaction, refused]
    rfl

end FooCoin

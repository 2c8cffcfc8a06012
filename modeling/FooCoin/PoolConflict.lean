import FooCoin.Ledger
import FooCoin.MempoolIndex
import FooCoin.SampleNode
import FooCoin.SampleRun

/-!
# The memory pool against the chain

Connecting a block removes the block's own transactions from the memory pool, and nothing else.  A
transaction in the pool may therefore have an input that a block has spent, but then the spender on
record is a different transaction: whatever the chain has confirmed is not in the pool.
-/

namespace FooCoin

open Function Stateful Relation

variable {env : Env}

/-- Wherever the index has an input of the transaction as spent, the transaction at the recorded
position is a different one and spends the same output. -/
def Apart (env : Env) (txindex : TxIndexMap) (tx : CTransaction) : Prop :=
  ∀ txin ∈ tx.vin, ∀ pos, slot txindex txin.prevout = some pos → pos ≠ .null →
    ∃ spender, env.readTxAt pos = some spender ∧ txin.prevout ∈ spender.spends ∧
      spender.getHash env.crypto ≠ tx.getHash env.crypto

/-- The index has no input of the transaction as spent. -/
def Unspent (txindex : TxIndexMap) (tx : CTransaction) : Prop :=
  ∀ txin ∈ tx.vin, ∀ pos, slot txindex txin.prevout = some pos → pos = .null

theorem Unspent.apart {txindex : TxIndexMap} {tx : CTransaction} (unspent : Unspent txindex tx) :
    Apart env txindex tx :=
  fun txin member pos found real => absurd (unspent txin member pos found) real

/-- The pool's keys are ids, and its transactions are apart from the chain. -/
structure PoolApart (env : Env) (txindex : TxIndexMap) (pool : CTxMemPool) : Prop where
  key : ∀ {hash pooled}, pool.mapTx.lookup hash = some pooled →
    pooled.tx.getHash env.crypto = hash
  apart : ∀ {hash pooled}, pool.mapTx.lookup hash = some pooled → Apart env txindex pooled.tx

/-! ## The index -/

/-- A connected transaction is the spender on record of what it spends. -/
private theorem TransactionConnected.apart {mempool : MapTx} {pos : CDiskTxPos}
    {spender tx : CTransaction} {before after : TxIndexMap} {nTxFee : Int}
    (connected : TransactionConnected env mempool pos spender before after nTxFee)
    (placed : Placed env pos spender)
    (other : tx.getHash env.crypto ≠ spender.getHash env.crypto)
    (apart : Apart env before tx) : Apart env after tx := by
  intro txin member pos' found real
  rw [connected.effect] at found
  by_cases own : txin.prevout.hash = spender.getHash env.crypto
  · have entered : (List.replicate spender.vout.length CDiskTxPos.null)[txin.prevout.n.toNat]? =
        some pos' := by
      simpa [slot, own, CTxIndex.ofOutputs] using found
    exact absurd (List.eq_of_mem_replicate (List.mem_of_getElem? entered)) real
  · have marked : slot (markSpent before spender.spends pos) txin.prevout = some pos' := by
      simpa [slot, update_of_ne own] using found
    rw [slot_markSpent, Option.map_eq_some_iff] at marked
    obtain ⟨old, present, rfl⟩ := marked
    split at real
    · rename_i spends
      rw [if_pos spends]
      exact ⟨spender, placed.read, spends, Ne.symm other⟩
    · rename_i spares
      rw [if_neg spares]
      exact apart txin member old present real

private theorem BlockConnected.apart {mempool : MapTx} {pindex : CBlockIndex} {nTxPos : Nat}
    {vtx : List CTransaction} {before after : TxIndexMap} {nFees : Int} {tx : CTransaction}
    (connected : BlockConnected env mempool pindex nTxPos vtx before after nFees)
    (placed : AllPlaced env pindex nTxPos vtx)
    (others : tx.getHash env.crypto ∉ vtx.map (CTransaction.getHash env.crypto))
    (apart : Apart env before tx) : Apart env after tx := by
  induction connected with
  | nil => exact apart
  | cons first _ induction =>
      rw [List.map_cons, List.mem_cons, not_or] at others
      exact induction placed.2 others.2 (first.apart placed.1 others.1 apart)

/-- Connecting a block keeps every transaction apart that is not in it. -/
theorem Apart.connectBlock {context : CallContext} {pindex : CBlockIndex} {pprev : BlockChain}
    {block : CBlock} {txdb after : CTxDB} {tx : CTransaction}
    (stacked : Stacked env pindex pprev block)
    (connected : block.connectBlock env context pindex pprev txdb = .ok after)
    (others : tx.getHash env.crypto ∉ block.vtx.map (CTransaction.getHash env.crypto))
    (apart : Apart env txdb.txindex tx) : Apart env after.txindex tx := by
  obtain ⟨nFees, done⟩ := connectBlock_ok connected
  exact done.index.apart (allPlaced_of_stored stacked.stored stacked.checked) others apart

/-- Disconnecting a transaction changes slots to null only. -/
private theorem slot_of_disconnectInputs {tx : CTransaction} {before after : TxIndexMap}
    (disconnected : tx.disconnectInputs env.crypto before = .ok after) {prevout : COutPoint}
    {pos : CDiskTxPos} (found : slot after prevout = some pos) (real : pos ≠ .null) :
    slot before prevout = some pos ∧ prevout ∉ tx.spends := by
  obtain ⟨_, rfl⟩ := disconnectInputs_eq_ok.mp disconnected
  by_cases own : prevout.hash = tx.getHash env.crypto
  · simp [slot, own] at found
  · have marked : slot (markSpent before tx.spends .null) prevout = some pos := by
      simpa [slot, update_of_ne own] using found
    rw [slot_markSpent, Option.map_eq_some_iff] at marked
    obtain ⟨old, present, rfl⟩ := marked
    split at real
    · exact absurd rfl real
    · rename_i spares
      rw [if_neg spares]
      exact ⟨present, spares⟩

private theorem slot_of_disconnectTransactions {vtx : List CTransaction}
    {before after : TxIndexMap}
    (disconnected : disconnectTransactions env.crypto vtx before = .ok after)
    {prevout : COutPoint} {pos : CDiskTxPos} (found : slot after prevout = some pos)
    (real : pos ≠ .null) : slot before prevout = some pos ∧ ∀ tx ∈ vtx, prevout ∉ tx.spends := by
  induction vtx generalizing after with
  | nil =>
      cases disconnected
      exact ⟨found, by simp⟩
  | cons tx vtx induction =>
      simp only [disconnectTransactions, except_bind_eq_ok] at disconnected
      obtain ⟨middle, rest, first⟩ := disconnected
      obtain ⟨present, spares⟩ := slot_of_disconnectInputs first found real
      obtain ⟨earlier, others⟩ := induction rest present
      exact ⟨earlier, List.forall_mem_cons.mpr ⟨spares, others⟩⟩

/-- What disconnecting a branch leaves in the index, and which transactions it resurrects. -/
private theorem slot_of_disconnectBranch {pointers : List BlockChain} {txdb after : CTxDB}
    {vResurrect resurrected : List CTransaction}
    (disconnected : disconnectBranch env pointers txdb vResurrect = .ok (after, resurrected)) :
    (∀ prevout pos, slot after.txindex prevout = some pos → pos ≠ .null →
        slot txdb.txindex prevout = some pos) ∧
      ∀ tx ∈ resurrected, tx ∈ vResurrect ∨ Unspent after.txindex tx := by
  induction pointers generalizing txdb vResurrect with
  | nil =>
      cases disconnected
      exact ⟨fun _ _ found _ => found, fun _ member => .inl member⟩
  | cons pointer pointers induction =>
      cases pointer with
      | nil => simp [disconnectBranch] at disconnected
      | cons pindex pprev =>
          simp only [disconnectBranch, except_bind_eq_ok] at disconnected
          obtain ⟨block, _, middle, undone, rest⟩ := disconnected
          obtain ⟨undo, _⟩ := disconnectBlock_ok undone
          obtain ⟨slots, members⟩ := induction rest
          refine ⟨fun prevout pos found real => ?_, fun tx member => ?_⟩
          · exact (slot_of_disconnectTransactions undo (slots prevout pos found real) real).1
          · obtain earlier | unspent := members tx member
            · rw [List.mem_append, List.mem_filter] at earlier
              obtain earlier | ⟨own, ordinary⟩ := earlier
              · exact .inl earlier
              · refine .inr fun txin input pos found => ?_
                by_contra real
                have spares := (slot_of_disconnectTransactions undo
                  (slots _ pos found real) real).2 tx own
                simp only [decide_eq_true_eq] at ordinary
                simp only [CTransaction.spends, ordinary] at spares
                exact spares (List.mem_map_of_mem input)
            · exact .inr unspent

/-! ## The pool -/

/-- What is left after transactions were removed. -/
private theorem lookup_removeAll {vDelete : List CTransaction} {pool : CTxMemPool}
    {hash : UInt256} {pooled : PoolNode}
    (found : (removeAll env vDelete pool).mapTx.lookup hash = some pooled) :
    pool.mapTx.lookup hash = some pooled ∧
      hash ∉ vDelete.map (CTransaction.getHash env.crypto) := by
  induction vDelete generalizing pool with
  | nil => exact ⟨found, by simp⟩
  | cons tx vDelete induction =>
      obtain ⟨earlier, others⟩ := @induction (pool.remove env.crypto tx) found
      unfold CTxMemPool.remove at earlier
      split at earlier
      · obtain ⟨other, present⟩ := lookup_erase_eq_some.mp earlier
        exact ⟨present, by simp [other, others]⟩
      · rename_i absent
        refine ⟨earlier, ?_⟩
        rw [List.map_cons, List.mem_cons, not_or]
        refine ⟨?_, others⟩
        rintro rfl
        simp [earlier] at absent

/-- What is in the pool after a transaction was accepted. -/
private theorem lookup_of_accept {context : AcceptContext} {fCheckInputs : Bool}
    {tx : CTransaction} {pool after : CTxMemPool}
    (accepted : pool.accept env context fCheckInputs tx = .ok after) {hash : UInt256}
    {pooled : PoolNode} (found : after.mapTx.lookup hash = some pooled) :
    (hash = tx.getHash env.crypto ∧ pooled.tx = tx) ∨ pool.mapTx.lookup hash = some pooled := by
  obtain ⟨acceptable, rfl⟩ := accept_ok accepted
  simp only [CTxMemPool.addUnchecked, acceptable.absent] at found
  obtain ⟨rfl, rfl⟩ | ⟨_, present⟩ := lookup_insert_cases found
  · exact .inl ⟨rfl, rfl⟩
  · exact .inr present

/-- Accepting a transaction that is apart. -/
private theorem PoolApart.accept {txindex : TxIndexMap} {context : AcceptContext}
    {fCheckInputs : Bool} {tx : CTransaction} {pool after : CTxMemPool}
    (separate : PoolApart env txindex pool)
    (accepted : pool.accept env context fCheckInputs tx = .ok after)
    (apart : Apart env txindex tx) : PoolApart env txindex after where
  key found := by
    obtain ⟨rfl, same⟩ | present := lookup_of_accept accepted found
    · rw [same]
    · exact separate.key present
  apart found := by
    obtain ⟨_, same⟩ | present := lookup_of_accept accepted found
    · rwa [same]
    · exact separate.apart present

/-- Inputs that connect outside of a block are unspent in the index. -/
private theorem unspent_of_connectInputs {nBestHeight : Int} {mempool : MapTx}
    {txdb mapUnused : TxIndexMap} {inputs : MapPrevTx} {pindexBlock : BlockChain}
    {mode : ConnectMode} {tx : CTransaction} (ordinary : ¬tx.isCoinBase)
    (fetched : tx.fetchInputs env mempool txdb (fun _ => none) false false = .ok inputs)
    (connected : tx.connectInputs env nBestHeight inputs (fun _ => none) .pool pindexBlock mode =
      .ok mapUnused) : Unspent txdb tx := by
  simp only [CTransaction.connectInputs, ordinary, Bool.false_eq_true, if_false,
    except_bind_eq_ok] at connected
  obtain ⟨_, _, _, spent, _⟩ := connected
  intro txin member pos found
  obtain ⟨prev, present, free⟩ := spendLoop_free (by simp [CDiskTxPos.pool]) spent txin member
  have fetch := fetchPrev_of_fetchInputs fetched _ prev present
  cases entry : txdb txin.prevout.hash with
  | none => simp [slot, entry] at found
  | some txindex =>
      simp only [fetchPrev, Bool.or_self, Bool.false_eq_true, if_false, entry,
        Option.map_eq_some_iff] at fetch
      obtain ⟨_, _, rfl⟩ := fetch
      simp only [slot, entry, Option.bind_some] at found
      exact Option.some.inj (found.symm.trans free)

/-- Checked inputs are unspent in the index. -/
private theorem unspent_of_accept {context : AcceptContext} {tx : CTransaction}
    {pool after : CTxMemPool} (accepted : pool.accept env context true tx = .ok after) :
    Unspent context.txdb tx := by
  have ordinary := (accept_ok accepted).1.ordinary
  simp only [CTxMemPool.accept, CTxMemPool.checkInputs, except_bind_eq_ok, if_true] at accepted
  obtain ⟨_, _, _, _, _, _, _, _, _, _, _, _, _, _, _, ⟨inputs, fetched, _, _, _, _, _, _, _, _, _, _,
    _, _, _, _, mapUnused, connected, _⟩, _⟩ := accepted
  cases found : tx.fetchInputs env pool.lookup context.txdb (fun _ => none) false false with
  | error failure => simp [found] at fetched
  | ok prevs =>
      simp only [found] at fetched
      cases fetched
      exact unspent_of_connectInputs (by simpa using ordinary) found connected

/-! ## Moving the chain -/

/-- Connecting the tip keeps the pool apart. -/
private theorem PoolApart.connectTip {node : Node} {context : CallContext} {pindex : CBlockIndex}
    {pprev : BlockChain} {block : CBlock} {txdb : CTxDB} {wallets : List CWallet}
    (stacked : Stacked env pindex pprev block)
    (connected : block.connectBlock env context pindex pprev node.txdb = .ok txdb)
    (separate : PoolApart env node.txdb.txindex node.mempool) :
    PoolApart env (node.connectTip env block (pindex :: pprev) txdb wallets).txdb.txindex
      (node.connectTip env block (pindex :: pprev) txdb wallets).mempool where
  key found := separate.key (lookup_removeAll found).1
  apart found := by
    obtain ⟨present, others⟩ := lookup_removeAll found
    rw [← separate.key present] at others
    have kept := (separate.apart present).connectBlock stacked connected others
    exact kept

/-- Connecting a branch keeps every transaction apart that is not in it. -/
private theorem Apart.connectBranch {node : Node} {clock : UInt256 → Int}
    {vConnect : List BlockChain} {progress after : ConnectProgress} {tx : CTransaction}
    (stacked : ∀ pindex ∈ vConnect, ∃ entry pprev block, pindex = entry :: pprev ∧
      Stacked env entry pprev block)
    (connected : connectBranch env clock node vConnect progress = (.ok (), after))
    (others : tx.getHash env.crypto ∉
      (branchTransactions env vConnect).map (CTransaction.getHash env.crypto))
    (apart : Apart env progress.txdb.txindex tx) : Apart env after.txdb.txindex tx := by
  induction vConnect generalizing progress with
  | nil =>
      cases connected
      exact apart
  | cons pindex vConnect induction =>
      obtain ⟨⟨entry, pprev, block, rfl, first⟩, rest⟩ := List.forall_mem_cons.mp stacked
      obtain ⟨middle, step, later⟩ := sequence_cons_eq_ok.mp connected
      simp only [connectPointer, first.readBlockAt_eq] at step
      obtain ⟨⟨context, connects⟩, _⟩ := connectAndSync_ok step
      simp only [branchTransactions, List.flatMap_cons, List.head?_cons, Option.bind_some,
        first.readBlockAt_eq, Option.map_some, Option.getD_some, List.map_append, List.mem_append,
        not_or] at others
      exact induction rest later others.2 (apart.connectBlock first connects others.1)

/-- The blocks above a fork are on disk. -/
private theorem stacked_of_branchAbove {genesis : CBlockIndex} {front pfork : BlockChain}
    (pfork_ne : pfork ≠ []) (rooted : Rooted env genesis (front ++ pfork)) :
    ∀ pindex ∈ branchAbove pfork (front ++ pfork), ∃ entry pprev block, pindex = entry :: pprev ∧
      Stacked env entry pprev block := by
  induction front with
  | nil => simp
  | cons entry front induction =>
      have above : front ++ pfork ≠ [] := by simp [pfork_ne]
      obtain ⟨lower, block, stacked⟩ := Rooted.placed rooted above
      rw [List.cons_append, branchAbove_cons]
      exact List.forall_mem_cons.mpr ⟨⟨entry, _, block, rfl, stacked⟩, induction lower⟩

/-- Resurrecting transactions that are apart keeps the pool apart. -/
private theorem PoolApart.resurrect (node : Node) {txindex : TxIndexMap}
    {vResurrect : List CTransaction} {pool : CTxMemPool} (separate : PoolApart env txindex pool)
    (apart : ∀ tx ∈ vResurrect, Apart env txindex tx) :
    PoolApart env txindex (vResurrect.foldl (resurrect env node) pool) := by
  induction vResurrect generalizing pool with
  | nil => exact separate
  | cons tx vResurrect induction =>
      obtain ⟨own, others⟩ := List.forall_mem_cons.mp apart
      refine induction ?_ others
      simp only [FooCoin.resurrect]
      split
      · exact separate
      · rename_i accepted
        exact separate.accept accepted own

/-- A reorganisation keeps the pool apart. -/
private theorem PoolApart.reorganize {genesis : CBlockIndex} {clock : UInt256 → Int}
    {node after : Node} {pindexNew : BlockChain} (rooted : Rooted env genesis pindexNew)
    (separate : PoolApart env node.txdb.txindex node.mempool)
    (moved : reorganize env clock pindexNew node = (.ok (), after)) :
    PoolApart env after.txdb.txindex after.mempool := by
  obtain ⟨_, _, fails, _⟩ | ⟨pfork, txdb, vResurrect, progress, fork, disconnects, connects,
    outcome⟩ := reorganize_cases env clock pindexNew node
  · simp [moved] at fails
  · obtain ⟨_, ⟨front, parts⟩, pfork_ne⟩ := findFork_suffix fork
    obtain ⟨_, rfl⟩ := Prod.mk.inj (moved.symm.trans outcome)
    obtain ⟨slots, members⟩ := slot_of_disconnectBranch disconnects
    have lower : PoolApart env txdb.txindex node.mempool :=
      ⟨separate.key, fun found txin member pos spent real =>
        separate.apart found txin member pos (slots _ pos spent real) real⟩
    have resurrected (own : Node) := lower.resurrect own fun tx member =>
      (members tx member).elim (by simp) Unspent.apart
    have stacked : ∀ pindex ∈ (branchAbove pfork pindexNew).reverse, ∃ entry pprev block,
        pindex = entry :: pprev ∧ Stacked env entry pprev block := by
      intro pindex member
      rw [List.mem_reverse] at member
      rw [← parts] at rooted member
      exact stacked_of_branchAbove pfork_ne rooted pindex member
    refine ⟨fun found => ?_, fun found => ?_⟩
    · exact (resurrected _).key (lookup_removeAll found).1
    · obtain ⟨present, others⟩ := lookup_removeAll found
      rw [← (resurrected _).key present] at others
      exact Apart.connectBranch stacked connects others ((resurrected _).apart present)

/-! ## Runs -/

/-- Every event keeps the pool apart. -/
theorem PoolApart.handle {genesis : CBlockIndex} {node : Node} (tree : Tree env genesis node)
    (separate : PoolApart env node.txdb.txindex node.mempool) {event : NodeEvent}
    (admissible : event.Admissible env node) :
    PoolApart env (node.handle env event).txdb.txindex (node.handle env event).mempool := by
  cases event with
  | block clock nFile nBlockPos block =>
      simp only [Node.handle]
      obtain same | ⟨pindex, pprev, _, _, stacked, above, rooted, entered, known, outcome⟩ :=
        tree.addToBlockIndex_cases admissible clock
      · rwa [same]
      · have kept : PoolApart env (node.enter (pindex :: pprev)).txdb.txindex
            (node.enter (pindex :: pprev)).mempool := separate
        rw [outcome]
        split
        · refine @setBestChain_keeps env clock
            (fun node => PoolApart env node.txdb.txindex node.mempool) genesis ?_ ?_ pindex pprev
            block (node.enter (pindex :: pprev)) ?_ ?_ ?_ rooted above stacked kept
          · rintro before after same holds
            rw [same]
            exact holds
          · intro before context entry below other txdb wallets _ lower connects holds
            exact holds.connectTip lower connects
          · intro after moved
            obtain ⟨front, parts, _⟩ := postpone_spec
              (getChainWork (node.enter (pindex :: pprev)).pindexBest) (pindex :: pprev)
            refine PoolApart.reorganize (rooted.suffix ⟨front, parts.symm⟩ ?_) kept moved
            exact postpone_ne_nil _ (List.cons_ne_nil pindex pprev)
          · exact fun holds => holds
          · simp [entered.start]
        · exact kept
  | transaction rateLimited tx =>
      simp only [Node.handle]
      split
      · exact separate
      · rename_i accepted
        exact separate.accept accepted (unspent_of_accept accepted).apart
  | wallets wallets => exact separate

/-- In every run, an input of a pool transaction that the index has as spent was spent by a different
transaction, which is at the recorded position. -/
theorem apart_of_run {condition : NodeEvent → Node → Prop} {start node : Node}
    (started : Started env start) (run : NodeRun env condition start node) {hash : UInt256}
    {pooled : PoolNode} (found : node.mempool.mapTx.lookup hash = some pooled) :
    Apart env node.txdb.txindex pooled.tx := by
  obtain ⟨genesis, wallets, rfl⟩ := started.eq
  have separate : PoolApart env node.txdb.txindex node.mempool := by
    clear found
    induction run with
    | refl => exact ⟨by simp [genesisNode, CTxMemPool.empty], by simp [genesisNode, CTxMemPool.empty]⟩
    | tail earlier step induction =>
        obtain ⟨event, admissible, _, rfl⟩ := step
        exact induction.handle ((genesisNode_tree wallets).of_run earlier) admissible
  exact separate.apart found

/-! ## A conflict with a block -/

/-- An old coinbase output is spent in the last block. -/
def conflictSpend (nLockTime : UInt32) : CTransaction :=
  sampleSpend nLockTime [(sampleCoinBase 2 [100000000]).outpoint 0] [50000000]

/-- The transactions of a chain whose last block spends the output. -/
def conflictTransactions (i : Nat) : List CTransaction :=
  if i = 17 then [sampleCoinBase 18 [100000000], conflictSpend 0]
  else [sampleCoinBase (UInt32.ofNat (i + 1)) [100000000]]

/-- The blocks of the chain, the first of them the genesis block. -/
def conflictBlocks : Nat → CBlock := sampleBlocks conflictTransactions

/-- The blocks before the last one arrive in order. -/
def conflictArrivals : List ((UInt256 → Int) × Nat) :=
  (List.range 16).map fun i => (sampleClock, i + 1)

/-- The node before the last block. -/
def conflictBefore : Node :=
  sampleNode conflictBlocks [] (sampleArrivals conflictBlocks conflictArrivals)

/-- It takes another transaction that spends the output. -/
def conflictPooled : Node :=
  conflictBefore.handle (sampleNodeEnv conflictBlocks) (.transaction false (conflictSpend 1))

/-- The last block arrives. -/
def conflictNode : Node :=
  conflictPooled.handle (sampleNodeEnv conflictBlocks) (sampleArrival conflictBlocks sampleClock 17)

private theorem conflictNode_run : NodeRun (sampleNodeEnv conflictBlocks) (fun _ _ => True)
    (sampleStartNode conflictBlocks []) conflictNode := by
  have before : NodeRun (sampleNodeEnv conflictBlocks) (fun _ _ => True)
      (sampleStartNode conflictBlocks []) conflictBefore :=
    sampleArrivals_run (by decide +kernel) fun _ _ => trivial
  have arrives : Arrives (sampleNodeEnv conflictBlocks) conflictPooled 18 8 (conflictBlocks 17) :=
    sampleArrives (by decide) (by decide +kernel) (by decide +kernel)
  have pooled : NodeStep (sampleNodeEnv conflictBlocks) (fun _ _ => True) conflictBefore
      conflictPooled := ⟨.transaction false (conflictSpend 1), trivial, trivial, rfl⟩
  have last : NodeStep (sampleNodeEnv conflictBlocks) (fun _ _ => True) conflictPooled
      conflictNode := ⟨sampleArrival conflictBlocks sampleClock 17, arrives, trivial, rfl⟩
  exact (before.tail pooled).tail last

private theorem conflictNode_pooled : ∃ pooled, conflictNode.mempool.mapTx.lookup
    ((conflictSpend 1).getHash sampleCrypto) = some pooled ∧ pooled.tx = conflictSpend 1 :=
  Option.map_eq_some_iff.mp (by decide +kernel)

theorem apart_of_run_conflictNode :
    ∃ pooled, conflictNode.mempool.mapTx.lookup ((conflictSpend 1).getHash sampleCrypto) =
      some pooled ∧
        Apart (sampleNodeEnv conflictBlocks) conflictNode.txdb.txindex pooled.tx := by
  obtain ⟨pooled, found, _⟩ := conflictNode_pooled
  exact ⟨pooled, found, apart_of_run (sampleStartNode_started (by decide +kernel)) conflictNode_run
    found⟩

/-- The transaction is still in the pool, with an input that the index has as spent. -/
theorem not_unspent_conflictNode :
    Started (sampleNodeEnv conflictBlocks) (sampleStartNode conflictBlocks []) ∧
      NodeRun (sampleNodeEnv conflictBlocks) (fun _ _ => True) (sampleStartNode conflictBlocks [])
        conflictNode ∧
      ∃ pooled, conflictNode.mempool.mapTx.lookup ((conflictSpend 1).getHash sampleCrypto) =
        some pooled ∧ ¬Unspent conflictNode.txdb.txindex pooled.tx := by
  obtain ⟨pooled, found, same⟩ := conflictNode_pooled
  refine ⟨sampleStartNode_started (by decide +kernel), conflictNode_run, pooled, found, ?_⟩
  intro unspent
  have spent : ((conflictSpend 1).vin.any fun txin =>
      (slot conflictNode.txdb.txindex txin.prevout).any fun pos => decide (pos ≠ .null)) = true := by
    decide +kernel
  rw [same] at unspent
  obtain ⟨txin, member, marked⟩ := List.any_eq_true.mp spent
  obtain ⟨pos, recorded, real⟩ := (Option.any_eq_true _ _).mp marked
  exact of_decide_eq_true real (unspent txin member pos recorded)

end FooCoin

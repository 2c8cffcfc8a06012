import FooCoin.ChainRun
import FooCoin.SampleNode

/-!
# Coherence of the best chain

What the globals, the links, the `hashBestChain` record and the transaction index of a node have to
say about one chain.  Two things can break it: a postponed block that does not connect leaves the
database behind the globals, and a disconnected block that repeats a transaction id takes the entry
of the earlier transaction with it.
-/

namespace FooCoin

open Function Stateful Relation Journal

/-- One step along the `pnext` links. -/
def NextLink (pnext : UInt256 → BlockChain) (pindex next : BlockChain) : Prop :=
  pnext (getBlockHash pindex) = next ∧ next ≠ []

/-- The index is what connecting the blocks of a chain above the genesis block makes of the empty
index. -/
def Connected (env : Env) (base chain : BlockChain) (txindex : TxIndexMap) : Prop :=
  ∃ journal txdb, chain = chainOf base journal ∧
    Replay (chainMachine env base) (emptyIndex (fun _ => none) none) journal txdb ∧
    txdb.txindex = txindex

/-- Globals, links, record and index all describe the chain of `pindexBest`. -/
structure Coherent (env : Env) (node : Node) : Prop where
  record : node.txdb.hashBestChain = some node.hashBestChain
  hash : node.hashBestChain = getBlockHash node.pindexBest
  height : node.nBestHeight = ((node.pindexBest.head?.map CBlockIndex.nHeight).getD 0 : Nat)
  work : node.bnBestChainWork = getChainWork node.pindexBest
  path : ReflTransGen (NextLink node.pnext) node.pindexGenesisBlock node.pindexBest
  ends : node.pnext (getBlockHash node.pindexBest) = []
  index : Connected env node.pindexGenesisBlock node.pindexBest node.txdb.txindex

/-! ## The condition on a step -/

section Condition

variable (env : Env)

/-- The transactions of the block that an entry names. -/
def blockVtx (pindex : CBlockIndex) : List CTransaction :=
  ((env.readBlockAt pindex).map CBlock.vtx).getD []

/-- The ids of the transactions in the blocks of a chain above the genesis block. -/
def chainIds : BlockChain → List UInt256
  | pindex :: entry :: pprev =>
      (blockVtx env pindex).map (CTransaction.getHash env.crypto) ++ chainIds (entry :: pprev)
  | _ => []

/-- The block that a pointer names repeats no transaction id of the blocks below it. -/
def NewIds : BlockChain → Prop
  | [] => True
  | pindex :: pprev => ∀ tx ∈ blockVtx env pindex, tx.getHash env.crypto ∉ chainIds env pprev

instance : DecidablePred (NewIds env)
  | [] => .isTrue trivial
  | pindex :: pprev => inferInstanceAs
      (Decidable (∀ tx ∈ blockVtx env pindex, tx.getHash env.crypto ∉ chainIds env pprev))

/-- No block that a reorganisation disconnects repeats a transaction id of the blocks below it. -/
def DisconnectsNewIds (node : Node) (pindexNew : BlockChain) : Prop :=
  ∀ pfork ∈ findFork node.pindexBest pindexNew,
    ∀ pindex ∈ branchAbove pfork node.pindexBest, NewIds env pindex

instance (node : Node) (pindexNew : BlockChain) : Decidable (DisconnectsNewIds env node pindexNew) :=
  inferInstanceAs (Decidable (∀ pfork ∈ findFork node.pindexBest pindexNew,
    ∀ pindex ∈ branchAbove pfork node.pindexBest, NewIds env pindex))

variable (clock : UInt256 → Int)

/-- Every postponed block is read and connects. -/
def PostponedConnect : List BlockChain → Node → Prop
  | [], _ => True
  | pindex :: vpindexSecondary, node => ∃ block after,
      pindex.head?.bind env.readBlockAt = some block ∧
        setBestChainInner env clock block pindex node = (.ok (), after) ∧
        PostponedConnect vpindexSecondary after

/-- Should the candidate make the node reorganise, then no block that is disconnected repeats a
transaction id, and every postponed block connects. -/
def CalmCandidate (node : Node) (block : CBlock) (pindexNew : BlockChain) : Prop :=
  node.bnBestChainWork < getChainWork pindexNew → block.hashPrevBlock ≠ node.hashBestChain →
    DisconnectsNewIds env node (postpone (getChainWork node.pindexBest) pindexNew).2 ∧
      ∀ after, reorganize env clock (postpone (getChainWork node.pindexBest) pindexNew).2
          (node.enter pindexNew) = (.ok (), after) →
        PostponedConnect env clock (postpone (getChainWork node.pindexBest) pindexNew).1.reverse after

end Condition

/-- The condition on an event. -/
def Calm (env : Env) : NodeEvent → Node → Prop
  | .block clock nFile nBlockPos pblock, node =>
      let pprev := (node.mapBlockIndex pblock.hashPrevBlock).getD []
      CalmCandidate env clock node pblock (.ofBlock env.crypto nFile nBlockPos pblock pprev :: pprev)
  | _, _ => True

variable {env : Env} {clock : UInt256 → Int} {genesis : CBlockIndex}

/-! ## The index of a chain -/

/-- What connecting a block makes of the index depends on nothing else in the database. -/
private theorem connectBlock_congr {context : CallContext} {pindex : CBlockIndex}
    {pprev : BlockChain} {block : CBlock} {left right after : CTxDB}
    (same : left.txindex = right.txindex)
    (connected : block.connectBlock env context pindex pprev left = .ok after) :
    ∃ other, block.connectBlock env context pindex pprev right = .ok other ∧
      other.txindex = after.txindex := by
  simp only [CBlock.connectBlock, except_bind_eq_ok] at connected
  obtain ⟨_, checked, state, loop, nValueOut, valueOut, blockValue, value, _, enough, last⟩ :=
    connected
  cases last
  refine ⟨({ right with
    txindex := overlay state.mapQueuedChanges right.txindex }).writeBlockIndex pprev
      pindex.hashBlock, ?_, ?_⟩
  · simp only [CBlock.connectBlock, except_bind_eq_ok]
    rw [same] at loop
    exact ⟨(), checked, state, loop, nValueOut, valueOut, blockValue, value, (), enough, rfl⟩
  · rw [writeBlockIndex_txindex, writeBlockIndex_txindex, same]

/-- Connecting a block on top of a connected chain. -/
private theorem Connected.push {context : CallContext} {pindex : CBlockIndex}
    {chain base : BlockChain} {block : CBlock} {txdb after : CTxDB}
    (connected : Connected env base chain txdb.txindex)
    (stacked : Stacked env pindex chain block)
    (connects : block.connectBlock env context pindex chain txdb = .ok after) :
    Connected env base (pindex :: chain) after.txindex := by
  obtain ⟨journal, db, rfl, replay, same⟩ := connected
  obtain ⟨other, connects', same'⟩ := connectBlock_congr same.symm connects
  refine ⟨{ pindex, block } :: journal, other, rfl, replay.push ⟨?_, context, connects'⟩, same'⟩
  exact ⟨stacked.stored, stacked.link, stacked.entry⟩

/-- Every id in the index is one of the chain. -/
private theorem BlockConnected.mem_ids {mempool : MapTx} {pindex : CBlockIndex} {nTxPos : Nat}
    {vtx : List CTransaction} {before after : TxIndexMap} {nFees : Int}
    (connected : BlockConnected env mempool pindex nTxPos vtx before after nFees)
    {hash : UInt256} (present : after hash ≠ none) :
    hash ∈ vtx.map (CTransaction.getHash env.crypto) ∨ before hash ≠ none := by
  induction connected with
  | nil => exact .inr present
  | @cons nTxPos tx vtx before middle after nTxFee nFees first _ induction =>
      obtain member | middle_present := induction present
      · exact .inl (List.mem_cons_of_mem _ member)
      · rw [first.effect] at middle_present
        by_cases own : hash = tx.getHash env.crypto
        · exact .inl (own ▸ List.mem_cons_self)
        · rw [update_of_ne own] at middle_present
          refine .inr fun absent => middle_present ?_
          simp [markSpent, absent]

private theorem chainOf_ne_nil (genesis : CBlockIndex) (journal : List ChainBlock) :
    chainOf [genesis] journal ≠ [] := by
  simp [chainOf]

private theorem chainIds_cons {pindex : CBlockIndex} {chain : BlockChain} (above : chain ≠ []) :
    chainIds env (pindex :: chain) =
      (blockVtx env pindex).map (CTransaction.getHash env.crypto) ++ chainIds env chain := by
  cases chain with
  | nil => exact absurd rfl above
  | cons entry pprev => rfl

/-- A connected block is the one that its entry names. -/
private theorem blockVtx_of_apply {journal : List ChainBlock} {next : ChainBlock}
    {base : BlockChain} {before after : CTxDB}
    (applied : (chainMachine env base).apply journal next before after) :
    env.readBlockAt next.pindex = some next.block ∧
      blockVtx env next.pindex = next.block.vtx := by
  obtain ⟨grown, context, connected⟩ := applied
  obtain ⟨nFees, done⟩ := connectBlock_ok connected
  have read := Stacked.readBlockAt_eq ⟨grown.stored, done.checked, grown.link, grown.entry⟩
  exact ⟨read, by simp [blockVtx, read]⟩

private theorem mem_chainIds_of_replay {journal : List ChainBlock} {txdb : CTxDB}
    (replay : Replay (chainMachine env [genesis]) (emptyIndex (fun _ => none) none) journal txdb)
    {hash : UInt256} (present : txdb.txindex hash ≠ none) :
    hash ∈ chainIds env (chainOf [genesis] journal) := by
  induction replay with
  | start => exact absurd rfl present
  | @push journal next before after _ applied induction =>
      obtain ⟨_, context, connected⟩ := id applied
      obtain ⟨nFees, done⟩ := connectBlock_ok connected
      have ids : chainIds env (chainOf [genesis] (next :: journal)) =
          next.block.vtx.map (CTransaction.getHash env.crypto) ++
            chainIds env (chainOf [genesis] journal) := by
        rw [← (blockVtx_of_apply applied).2]
        exact chainIds_cons (chainOf_ne_nil genesis journal)
      rw [ids, List.mem_append]
      exact (done.index.mem_ids present).imp_right induction

/-- Disconnecting the tip of a connected chain, if it repeats no transaction id. -/
private theorem Connected.pop {pindex : CBlockIndex} {chain : BlockChain} {block : CBlock}
    {txdb after : CTxDB} (connected : Connected env [genesis] (pindex :: chain) txdb.txindex)
    (above : chain ≠ []) (fresh : NewIds env (pindex :: chain))
    (read : env.readBlockAt pindex = some block)
    (disconnects : block.disconnectBlock env chain txdb = .ok after) :
    Connected env [genesis] chain after.txindex := by
  obtain ⟨journal, db, parts, replay, same⟩ := connected
  cases replay with
  | start =>
      cases parts
      exact absurd rfl above
  | @push journal next before _ lower applied =>
      obtain ⟨rfl, rfl⟩ := List.cons.inj parts
      obtain ⟨read', vtx⟩ := blockVtx_of_apply applied
      cases read.symm.trans read'
      obtain ⟨_, context, connects⟩ := applied
      obtain ⟨nFees, done⟩ := connectBlock_ok connects
      have new : ∀ tx ∈ next.block.vtx, before.txindex (tx.getHash env.crypto) = none := by
        intro tx member
        by_contra present
        rw [NewIds, vtx] at fresh
        exact fresh tx member (mem_chainIds_of_replay lower present)
      have undone := (disconnectBlock_ok disconnects).1
      rw [← same, done.index.disconnectTransactions_eq done.checked.nodup new] at undone
      exact ⟨journal, before, rfl, lower, Except.ok.inj undone⟩

/-! ## Branches -/

/-- Disconnecting the blocks above a fork. -/
private theorem Connected.disconnectBranch {front pfork : BlockChain} {txdb after : CTxDB}
    {vResurrect resurrected : List CTransaction} (pfork_ne : pfork ≠ [])
    (connected : Connected env [genesis] (front ++ pfork) txdb.txindex)
    (fresh : ∀ pindex ∈ branchAbove pfork (front ++ pfork), NewIds env pindex)
    (disconnects : disconnectBranch env (branchAbove pfork (front ++ pfork)) txdb vResurrect =
      .ok (after, resurrected)) : Connected env [genesis] pfork after.txindex := by
  induction front generalizing txdb vResurrect with
  | nil =>
      rw [List.nil_append, branchAbove_self] at disconnects
      cases disconnects
      exact connected
  | cons pindex front induction =>
      rw [List.cons_append, branchAbove_cons] at disconnects fresh
      obtain ⟨own, others⟩ := List.forall_mem_cons.mp fresh
      have above : front ++ pfork ≠ [] := by simp [pfork_ne]
      simp only [FooCoin.disconnectBranch, except_bind_eq_ok] at disconnects
      obtain ⟨block, read, middle, undone, rest⟩ := disconnects
      have found : env.readBlockAt pindex = some block := by
        cases opened : env.readBlockAt pindex with
        | none => simp [opened] at read
        | some other =>
            rw [opened] at read
            exact congrArg some (Except.ok.inj read)
      exact induction (connected.pop above own found undone) others rest

/-- Connecting the blocks above a fork. -/
private theorem Connected.connectBranch {node : Node} {front pfork : BlockChain}
    {progress after : ConnectProgress} (pfork_ne : pfork ≠ [])
    (connected : Connected env [genesis] pfork progress.txdb.txindex)
    (rooted : Rooted env genesis (front ++ pfork))
    (connects : connectBranch env clock node (branchAbove pfork (front ++ pfork)).reverse
      progress = (.ok (), after)) : Connected env [genesis] (front ++ pfork) after.txdb.txindex := by
  induction front generalizing after with
  | nil =>
      rw [List.nil_append, branchAbove_self] at connects
      cases connects
      exact connected
  | cons pindex front induction =>
      rw [List.cons_append, branchAbove_cons, List.reverse_cons, FooCoin.connectBranch] at connects
      obtain ⟨middle, lower, last⟩ := sequence_append_eq_ok connects
      have above : front ++ pfork ≠ [] := by simp [pfork_ne]
      obtain ⟨rooted_lower, block, stacked⟩ := Rooted.placed rooted above
      obtain ⟨_, top, done⟩ := sequence_cons_eq_ok.mp last
      cases done
      simp only [connectPointer, stacked.readBlockAt_eq] at top
      obtain ⟨⟨context, step⟩, _⟩ := connectAndSync_ok top
      exact (induction rooted_lower lower).push stacked step

/-! ## The database and the links -/

/-- Record, links and index describe a chain, which the globals need not name yet. -/
structure Aligned (env : Env) (genesis : CBlockIndex) (tip : BlockChain) (node : Node) : Prop where
  record : node.txdb.hashBestChain = some (getBlockHash tip)
  pnext : node.pnext = nextOn tip
  index : Connected env [genesis] tip node.txdb.txindex

theorem Aligned.congr {tip : BlockChain} {before after : Node}
    (aligned : Aligned env genesis tip before)
    (record : after.txdb.hashBestChain = before.txdb.hashBestChain)
    (pnext : after.pnext = before.pnext)
    (index : after.txdb.txindex = before.txdb.txindex) : Aligned env genesis tip after where
  record := record.trans aligned.record
  pnext := pnext.trans aligned.pnext
  index := index ▸ aligned.index

private theorem Aligned.connectTip {context : CallContext} {tip : BlockChain}
    {pindex : CBlockIndex} {block : CBlock} {node : Node} {txdb : CTxDB} {wallets : List CWallet}
    (aligned : Aligned env genesis tip node) (above : tip ≠ [])
    (stacked : Stacked env pindex tip block)
    (connects : block.connectBlock env context pindex tip node.txdb = .ok txdb) :
    Aligned env genesis (pindex :: tip)
      (node.connectTip env block (pindex :: tip) txdb wallets) where
  record := by
    simp only [Node.connectTip]
    rw [stacked.entry]
    rfl
  pnext := by
    obtain ⟨entry, pprev, rfl⟩ := List.exists_cons_of_ne_nil above
    simp only [Node.connectTip, aligned.pnext]
    exact link_nextOn pindex entry pprev
  index := by
    have pushed := aligned.index.push stacked connects
    exact pushed

private theorem Aligned.reorganize {pindexNew : BlockChain} {node after : Node}
    (aligned : Aligned env genesis node.pindexBest node) (tree : Tree env genesis node)
    (rooted : Rooted env genesis pindexNew) (fresh : DisconnectsNewIds env node pindexNew)
    (moved : reorganize env clock pindexNew node = (.ok (), after)) :
    Aligned env genesis pindexNew after := by
  obtain ⟨_, _, fails, _⟩ | ⟨pfork, txdb, vResurrect, progress, fork, disconnects, connects,
    outcome⟩ := reorganize_cases env clock pindexNew node
  · simp [moved] at fails
  · obtain ⟨⟨front, parts⟩, ⟨branch, branch_parts⟩, pfork_ne⟩ := findFork_suffix fork
    obtain ⟨_, rfl⟩ := Prod.mk.inj (moved.symm.trans outcome)
    have index := aligned.index
    have best := tree.best
    have new_ids := fresh pfork fork
    rw [← parts] at disconnects index best new_ids
    rw [← branch_parts] at connects rooted
    have lower := index.disconnectBranch pfork_ne new_ids disconnects
    refine ⟨rfl, ?_, ?_⟩
    · simp only [Node.afterReorganize, aligned.pnext]
      rw [← parts, tree.closed.foldl_unlink best pfork_ne, ← branch_parts, foldl_link pfork_ne]
    · rw [← branch_parts]
      exact lower.connectBranch pfork_ne rooted connects

private theorem Aligned.postponed {pointers : List BlockChain} {tip chain : BlockChain}
    {node : Node} (aligned : Aligned env genesis tip node) (above : tip ≠ [])
    (ascends : Ascends tip pointers chain) (rooted : Rooted env genesis chain)
    (connect : PostponedConnect env clock pointers node) :
    ∃ after, connectPostponed env clock pointers node = (.ok (), after) ∧
      Aligned env genesis chain after := by
  induction pointers generalizing tip node with
  | nil =>
      cases ascends
      exact ⟨node, rfl, aligned⟩
  | cons pindex pointers induction =>
      obtain ⟨⟨entry, rfl⟩, rest⟩ := ascends
      obtain ⟨block, middle, read, inner, others⟩ := connect
      obtain ⟨_, own, stacked⟩ := (rooted.suffix rest.suffix (by simp)).placed above
      cases read.symm.trans stacked.readBlockAt_eq
      obtain ⟨_, _, fails, _⟩ | ⟨context, txdb, wallets, connects, outcome⟩ :=
        setBestChainInner_cases env clock block entry node above
      · simp [inner] at fails
      · obtain ⟨_, rfl⟩ := Prod.mk.inj (inner.symm.trans outcome)
        obtain ⟨after, finished, done⟩ := induction (aligned.connectTip above stacked connects)
          (by simp) rest others
        refine ⟨after, ?_, done⟩
        simp only [connectPostponed, read, inner, finished]

/-! ## Steps and runs -/

/-- What every calm event keeps. -/
structure InStep (env : Env) (genesis : CBlockIndex) (node : Node) : Prop where
  tree : Tree env genesis node
  aligned : Aligned env genesis node.pindexBest node
  height : node.nBestHeight = ((node.pindexBest.head?.map CBlockIndex.nHeight).getD 0 : Nat)
  work : node.bnBestChainWork = getChainWork node.pindexBest

private theorem InStep.congr {before after : Node} (inStep : InStep env genesis before)
    (tree : Tree env genesis after)
    (record : after.txdb.hashBestChain = before.txdb.hashBestChain)
    (pnext : after.pnext = before.pnext)
    (index : after.txdb.txindex = before.txdb.txindex)
    (best : after.pindexBest = before.pindexBest) (height : after.nBestHeight = before.nBestHeight)
    (work : after.bnBestChainWork = before.bnBestChainWork) : InStep env genesis after where
  tree := tree
  aligned := by
    rw [best]
    exact inStep.aligned.congr record pnext index
  height := by
    rw [height, best]
    exact inStep.height
  work := by
    rw [work, best]
    exact inStep.work

/-- A candidate that wins over a node in step. -/
private theorem InStep.candidate {node : Node} {pindex : CBlockIndex} {pprev : BlockChain}
    {block : CBlock} (inStep : InStep env genesis node) (above : pprev ≠ [])
    (stacked : Stacked env pindex pprev block) (rooted : Rooted env genesis (pindex :: pprev))
    (known : Known node.mapBlockIndex (pindex :: pprev))
    (fresh : block.hashPrevBlock ≠ node.hashBestChain →
      DisconnectsNewIds env node (postpone (getChainWork node.pindexBest) (pindex :: pprev)).2)
    (postponed : block.hashPrevBlock ≠ node.hashBestChain → ∀ after, reorganize env clock
      (postpone (getChainWork node.pindexBest) (pindex :: pprev)).2 node = (.ok (), after) →
        PostponedConnect env clock
          (postpone (getChainWork node.pindexBest) (pindex :: pprev)).1.reverse after) :
    InStep env genesis (setBestChain env clock block (pindex :: pprev) node).2 := by
  have tree := inStep.tree.setBestChain clock above stacked rooted known
  have started : node.pindexGenesisBlock ≠ [] := by simp [inStep.tree.start]
  have won (after : Node) (aligned : Aligned env genesis (pindex :: pprev) after)
      (outcome : (setBestChain env clock block (pindex :: pprev) node).2 =
        after.newBest (block.getHash env.crypto) (pindex :: pprev)) :
      InStep env genesis (setBestChain env clock block (pindex :: pprev) node).2 := by
    rw [outcome] at tree ⊢
    exact ⟨tree, aligned.congr rfl rfl rfl, rfl, rfl⟩
  obtain ⟨failure, after, kept, outcome⟩ | ⟨context, txdb, wallets, extends_best, connects,
    outcome⟩ | ⟨middle, elsewhere, moved, outcome⟩ :=
      setBestChain_cases env clock block pindex above started
  · rw [outcome] at tree ⊢
    simp only at tree ⊢
    rw [kept] at tree ⊢
    exact inStep.congr tree rfl rfl rfl rfl rfl rfl
  · have pprev_known := inStep.tree.closed.known_suffix known (List.suffix_cons pindex pprev) above
    have same : pprev = node.pindexBest :=
      pprev_known.eq inStep.tree.best (by rw [← stacked.link, extends_best, inStep.tree.hash])
    have aligned : Aligned env genesis pprev node := by
      rw [same]
      exact inStep.aligned
    exact won _ (aligned.connectTip above stacked connects) (by rw [outcome])
  · obtain ⟨front, parts, pointers⟩ :=
      postpone_spec (getChainWork node.pindexBest) (pindex :: pprev)
    have target_ne := postpone_ne_nil (getChainWork node.pindexBest)
      (List.cons_ne_nil pindex pprev)
    have rooted_target := rooted.suffix ⟨front, parts.symm⟩ target_ne
    have aligned := inStep.aligned.reorganize inStep.tree rooted_target (fresh elsewhere) moved
    have ascends := ascends_branchAbove front
      (postpone (getChainWork node.pindexBest) (pindex :: pprev)).2
    rw [← parts, ← pointers] at ascends
    obtain ⟨final, connected, done⟩ := aligned.postponed target_ne ascends rooted
      (postponed elsewhere middle moved)
    exact won final done (by rw [outcome, connected])

/-- Every calm event keeps the node in step. -/
theorem InStep.handle {node : Node} (inStep : InStep env genesis node) {event : NodeEvent}
    (admissible : event.Admissible env node) (calm : Calm env event node) :
    InStep env genesis (node.handle env event) := by
  have tree := inStep.tree.handle admissible
  cases event with
  | block clock nFile nBlockPos block =>
      simp only [Node.handle] at tree ⊢
      obtain same | ⟨pindex, pprev, found, entry, stacked, above, rooted, entered, known, outcome⟩ :=
        inStep.tree.addToBlockIndex_cases admissible clock
      · rwa [same]
      · have calm_candidate : CalmCandidate env clock node block (pindex :: pprev) := by
          simp only [Calm, found, ← entry] at calm
          exact calm
        have inStep_entered : InStep env genesis (node.enter (pindex :: pprev)) :=
          inStep.congr entered rfl rfl rfl rfl rfl rfl
        rw [outcome]
        split
        · rename_i heavier
          exact inStep_entered.candidate above stacked rooted known
            (fun elsewhere => (calm_candidate heavier elsewhere).1)
            (fun elsewhere => (calm_candidate heavier elsewhere).2)
        · exact inStep_entered
  | transaction rateLimited tx =>
      simp only [Node.handle] at tree ⊢
      split
      · exact inStep
      · rename_i mempool accepted
        rw [accepted] at tree
        exact inStep.congr tree rfl rfl rfl rfl rfl rfl
  | wallets wallets => exact inStep.congr tree rfl rfl rfl rfl rfl rfl

private theorem genesisNode_inStep (wallets : List CWallet) :
    InStep env genesis (genesisNode genesis wallets) where
  tree := genesisNode_tree wallets
  aligned := ⟨rfl, rfl, [], emptyIndex (fun _ => none) none, rfl, .start, rfl⟩
  height := rfl
  work := by simp [genesisNode, getChainWork]

/-- The links of a known chain lead from the genesis block to its tip. -/
private theorem links_of_known {mapBlockIndex : UInt256 → Option BlockChain} {chain : BlockChain}
    (closed : Closed mapBlockIndex) (rooted : Rooted env genesis chain)
    (known : Known mapBlockIndex chain) :
    ReflTransGen (NextLink (nextOn chain)) [genesis] chain := by
  have parts (part : BlockChain) (rooted_part : Rooted env genesis part) (suffix : part <:+ chain) :
      ReflTransGen (NextLink (nextOn chain)) [genesis] part := by
    induction rooted_part with
    | genesis => exact .refl
    | @block pindex pprev block lower _ induction =>
        obtain ⟨entry, rest, rfl⟩ := List.exists_cons_of_ne_nil lower.ne_nil
        refine (induction ((List.suffix_cons pindex _).trans suffix)).tail ⟨?_, by simp⟩
        exact closed.nextOn_suffix known suffix
  exact parts chain rooted List.suffix_rfl

/-- A node in step is coherent. -/
theorem InStep.coherent {node : Node} (inStep : InStep env genesis node) : Coherent env node where
  record := by
    rw [inStep.tree.hash]
    exact inStep.aligned.record
  hash := inStep.tree.hash
  height := inStep.height
  work := inStep.work
  path := by
    rw [inStep.aligned.pnext, inStep.tree.start]
    exact links_of_known inStep.tree.closed (inStep.tree.rooted _ _ inStep.tree.best)
      inStep.tree.best
  ends := by
    rw [inStep.aligned.pnext]
    exact inStep.tree.closed.nextOn_tip inStep.tree.best
  index := by
    rw [inStep.tree.start]
    exact inStep.aligned.index

/-- In every run of calm events from the genesis block on, the node stays coherent. -/
theorem coherent_of_run {start node : Node} (started : Started env start)
    (run : NodeRun env (Calm env) start node) : Coherent env node := by
  obtain ⟨genesis, wallets, rfl⟩ := started.eq
  have inStep : InStep env genesis node := by
    induction run with
    | refl => exact genesisNode_inStep wallets
    | tail _ step induction =>
        obtain ⟨event, admissible, calm, rfl⟩ := step
        exact induction.handle admissible calm
  exact inStep.coherent

/-! ## A reorganisation -/

/-- A check that the arrival of a sample block is calm: the block does not win, or extends the best
block, or makes the node reorganise with nothing postponed. -/
def sampleCalm (blocks : Nat → CBlock) (node : Node) (i : Nat) : Bool :=
  let pprev := (node.mapBlockIndex (blocks i).hashPrevBlock).getD []
  let pindexNew := sampleEntry i (blocks i) pprev :: pprev
  let postponed := postpone (getChainWork node.pindexBest) pindexNew
  decide (getChainWork pindexNew ≤ node.bnBestChainWork) ||
    decide ((blocks i).hashPrevBlock = node.hashBestChain) ||
      (decide (DisconnectsNewIds (sampleNodeEnv blocks) node postponed.2) &&
        decide (postponed.1 = []))

theorem calm_of_sampleCalm {blocks : Nat → CBlock} {node : Node} {i : Nat}
    (clock : UInt256 → Int) (checked : sampleCalm blocks node i = true) :
    Calm (sampleNodeEnv blocks) (sampleArrival blocks clock i) node := by
  intro heavier elsewhere
  simp only [sampleCalm, Bool.or_eq_true, Bool.and_eq_true, decide_eq_true_eq] at checked
  obtain (light | extends_best) | ⟨fresh, none_postponed⟩ := checked
  · exact absurd heavier (not_lt.mpr light)
  · exact absurd extends_best elsewhere
  · refine ⟨fresh, fun after _ => ?_⟩
    have connect : PostponedConnect (sampleNodeEnv blocks) clock [] after := trivial
    rwa [← List.reverse_nil, ← none_postponed] at connect

/-- The genesis block. -/
def coherentGenesis : CBlock := sampleBlock 0 1400000000 [sampleCoinBase 1 [100000000]]

/-- A block on top of it. -/
def coherentFirst : CBlock :=
  sampleBlock (coherentGenesis.getHash sampleCrypto) 1400000120 [sampleCoinBase 2 [100000000]]

/-- The genesis block, a block on top of it, and a longer branch. -/
def coherentBlocks : Nat → CBlock
  | 0 => coherentGenesis
  | 1 => sampleBlock (coherentGenesis.getHash sampleCrypto) 1400000360
      [sampleCoinBase 3 [100000000]]
  | 2 => coherentFirst
  | _ => sampleBlock (coherentFirst.getHash sampleCrypto) 1400000240 [sampleCoinBase 4 [100000000]]

/-- The blocks arrive in order. -/
def coherentArrivals : List ((UInt256 → Int) × Nat) :=
  [(sampleClock, 1), (sampleClock, 2), (sampleClock, 3)]

theorem coherent_of_run_coherentArrivals : Coherent (sampleNodeEnv coherentBlocks)
    (sampleNode coherentBlocks [] (sampleArrivals coherentBlocks coherentArrivals)) := by
  have calm : ∀ i (small : i < coherentArrivals.length), sampleCalm coherentBlocks
      (sampleNode coherentBlocks [] (sampleArrivals coherentBlocks (coherentArrivals.take i)))
      coherentArrivals[i].2 = true := by
    decide +kernel
  exact coherent_of_run (sampleStartNode_started (by decide +kernel))
    (sampleArrivals_run (by decide +kernel) fun i small => calm_of_sampleCalm _ (calm i small))

/-! ## A postponed block that does not connect -/

/-- A chain of four blocks, the last of which takes too much. -/
def postponedBlocks : Nat → CBlock
  | 0 => coherentGenesis
  | 1 => coherentFirst
  | 2 => sampleBlock (coherentFirst.getHash sampleCrypto) 1400000240
      [sampleCoinBase 3 [100000000]]
  | _ => sampleBlock ((sampleBlock (coherentFirst.getHash sampleCrypto) 1400000240
      [sampleCoinBase 3 [100000000]]).getHash sampleCrypto) 1400000360
      [sampleCoinBase 4 [200000000]]

/-- The second block lies in the future when it arrives, but no longer when the third one does. -/
def postponedArrivals : List ((UInt256 → Int) × Nat) :=
  [(sampleClock, 1), (fun _ => 0, 2), (sampleClock, 3)]

/-- The node ends with globals that name the third block and a database at the second. -/
theorem not_coherent_postponedArrivals :
    Started (sampleNodeEnv postponedBlocks) (sampleStartNode postponedBlocks []) ∧
      NodeRun (sampleNodeEnv postponedBlocks) (fun _ _ => True) (sampleStartNode postponedBlocks [])
        (sampleNode postponedBlocks [] (sampleArrivals postponedBlocks postponedArrivals)) ∧
      ¬Coherent (sampleNodeEnv postponedBlocks)
        (sampleNode postponedBlocks [] (sampleArrivals postponedBlocks postponedArrivals)) := by
  refine ⟨sampleStartNode_started (by decide +kernel),
    sampleArrivals_run (by decide +kernel) fun _ _ => trivial, fun coherent => ?_⟩
  have behind :
      (sampleNode postponedBlocks [] (sampleArrivals postponedBlocks postponedArrivals)).txdb.hashBestChain ≠
        some (sampleNode postponedBlocks []
          (sampleArrivals postponedBlocks postponedArrivals)).hashBestChain := by
    decide +kernel
  exact behind coherent.record

end FooCoin

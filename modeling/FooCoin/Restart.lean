import FooCoin.Coherence
import FooCoin.LoadBlockIndex

/-!
# Restarting a node

Between the writes of `AddToBlockIndex`, `ConnectBlock` and `DisconnectBlock` every record of the
block index stays what `CDiskBlockIndex(pindex)` would write now, so that `LoadBlockIndex` finds the
entries as they were in memory.  The `hashBestChain` record falls behind the globals where a
postponed block does not connect.
-/

namespace FooCoin

open Function Stateful Relation

/-! ## The records -/

/-- `CDiskBlockIndex(pindex)`. -/
def diskRecord (pnext : UInt256 → BlockChain) : BlockChain → Option CDiskBlockIndex
  | [] => none
  | entry :: pprev =>
      some
        { entry
          hashPrev := getBlockHash pprev
          hashNext := getBlockHash (pnext entry.hashBlock) }

/-- Every entry has an up-to-date record, and the links lead from entries to entries. -/
structure Written (mapBlockIndex : UInt256 → Option BlockChain) (pnext : UInt256 → BlockChain)
    (blockindex : UInt256 → Option CDiskBlockIndex) : Prop where
  record : ∀ hash, blockindex hash = (mapBlockIndex hash).bind (diskRecord pnext)
  target : ∀ hash, pnext hash ≠ [] → Known mapBlockIndex (pnext hash)
  origin : ∀ hash, pnext hash ≠ [] → (mapBlockIndex hash).isSome

section Written

variable {env : Env} {clock : UInt256 → Int} {mapBlockIndex : UInt256 → Option BlockChain}
  {pnext : UInt256 → BlockChain}

/-- Writing the record of an entry with the link that it is about to get. -/
theorem Written.write (closed : Closed mapBlockIndex) {txdb : CTxDB}
    (written : Written mapBlockIndex pnext txdb.blockindex) {entry : CBlockIndex}
    {pprev next : BlockChain} (known : Known mapBlockIndex (entry :: pprev))
    (next_known : next ≠ [] → Known mapBlockIndex next) :
    Written mapBlockIndex (update pnext entry.hashBlock next)
      (txdb.writeBlockIndex (entry :: pprev) (getBlockHash next)).blockindex where
  record := by
    intro hash
    by_cases own : hash = entry.hashBlock
    · subst own
      have found : mapBlockIndex entry.hashBlock = some (entry :: pprev) := known
      simp [CTxDB.writeBlockIndex, found, diskRecord]
    · simp only [CTxDB.writeBlockIndex, update_of_ne own, written.record hash]
      cases found : mapBlockIndex hash with
      | none => rfl
      | some chain =>
          have key := closed.hash hash chain found
          cases chain with
          | nil => rfl
          | cons other rest =>
              have other_ne : other.hashBlock ≠ entry.hashBlock := by
                intro same
                exact own (key.symm.trans same)
              simp [diskRecord, update_of_ne other_ne]
  target := by
    intro hash next_ne
    by_cases own : hash = entry.hashBlock
    · subst own
      rw [update_self] at next_ne ⊢
      exact next_known next_ne
    · rw [update_of_ne own] at next_ne ⊢
      exact written.target hash next_ne
  origin := by
    intro hash next_ne
    by_cases own : hash = entry.hashBlock
    · subst own
      have found : mapBlockIndex entry.hashBlock = some (entry :: pprev) := known
      simp [found]
    · rw [update_of_ne own] at next_ne
      exact written.origin hash next_ne

/-- `DisconnectBlock` writes what the unlinking then does in memory. -/
private theorem Written.disconnectBlock (closed : Closed mapBlockIndex) {txdb after : CTxDB}
    (written : Written mapBlockIndex pnext txdb.blockindex) {pindex : CBlockIndex}
    {pprev : BlockChain} {block : CBlock} (above : pprev ≠ []) (known : Known mapBlockIndex pprev)
    (disconnects : block.disconnectBlock env pprev txdb = .ok after) :
    Written mapBlockIndex (unlink pnext (pindex :: pprev)) after.blockindex := by
  obtain ⟨entry, rest, rfl⟩ := List.exists_cons_of_ne_nil above
  have records := (disconnectBlock_ok disconnects).2
  rw [records]
  exact written.write closed known fun next_ne => absurd rfl next_ne

/-- `ConnectBlock` writes what the linking then does in memory. -/
private theorem Written.connectBlock (closed : Closed mapBlockIndex) {txdb after : CTxDB}
    (written : Written mapBlockIndex pnext txdb.blockindex) {context : CallContext}
    {pindex : CBlockIndex} {pprev : BlockChain} {block : CBlock} (above : pprev ≠ [])
    (known : Known mapBlockIndex (pindex :: pprev))
    (connects : block.connectBlock env context pindex pprev txdb = .ok after) :
    Written mapBlockIndex (link pnext (pindex :: pprev)) after.blockindex := by
  have pprev_known := closed.known_suffix known (List.suffix_cons pindex pprev) above
  obtain ⟨entry, rest, rfl⟩ := List.exists_cons_of_ne_nil above
  obtain ⟨nFees, done⟩ := connectBlock_ok connects
  rw [done.records]
  exact written.write closed pprev_known fun _ => known

/-- Disconnecting a branch. -/
private theorem Written.disconnectBranch (closed : Closed mapBlockIndex) {txdb after : CTxDB}
    {front pfork : BlockChain} {vResurrect resurrected : List CTransaction}
    (written : Written mapBlockIndex pnext txdb.blockindex) (pfork_ne : pfork ≠ [])
    (known : Known mapBlockIndex (front ++ pfork))
    (disconnects : disconnectBranch env (branchAbove pfork (front ++ pfork)) txdb vResurrect =
      .ok (after, resurrected)) :
    Written mapBlockIndex ((branchAbove pfork (front ++ pfork)).foldl unlink pnext)
      after.blockindex := by
  induction front generalizing txdb vResurrect pnext with
  | nil =>
      rw [List.nil_append, branchAbove_self] at disconnects ⊢
      cases disconnects
      exact written
  | cons pindex front induction =>
      rw [List.cons_append, branchAbove_cons] at disconnects ⊢
      have above : front ++ pfork ≠ [] := by simp [pfork_ne]
      have lower := closed.known_suffix known (List.suffix_cons pindex _) above
      simp only [FooCoin.disconnectBranch, except_bind_eq_ok] at disconnects
      obtain ⟨block, _, middle, undone, rest⟩ := disconnects
      exact induction (written.disconnectBlock closed above lower undone) lower rest

/-- Connecting a branch. -/
private theorem Written.connectBranch (closed : Closed mapBlockIndex) {node : Node}
    {progress after : ConnectProgress} {front pfork : BlockChain}
    (written : Written mapBlockIndex pnext progress.txdb.blockindex) (pfork_ne : pfork ≠ [])
    (known : Known mapBlockIndex (front ++ pfork))
    (connects : connectBranch env clock node (branchAbove pfork (front ++ pfork)).reverse
      progress = (.ok (), after)) :
    Written mapBlockIndex ((branchAbove pfork (front ++ pfork)).reverse.foldl link pnext)
      after.txdb.blockindex := by
  induction front generalizing after with
  | nil =>
      rw [List.nil_append, branchAbove_self] at connects ⊢
      cases connects
      exact written
  | cons pindex front induction =>
      rw [List.cons_append, branchAbove_cons, List.reverse_cons] at connects ⊢
      rw [FooCoin.connectBranch] at connects
      obtain ⟨middle, lower, last⟩ := sequence_append_eq_ok connects
      have above : front ++ pfork ≠ [] := by simp [pfork_ne]
      have lower_known := closed.known_suffix known (List.suffix_cons pindex _) above
      obtain ⟨_, top, done⟩ := sequence_cons_eq_ok.mp last
      cases done
      rw [List.foldl_append]
      simp only [connectPointer] at top
      split at top
      · simp at top
      · obtain ⟨⟨context, step⟩, _⟩ := connectAndSync_ok top
        exact (induction lower_known lower).connectBlock closed above known step

/-- A new entry is written before anything links to it. -/
private theorem Written.enter {node : Node} {pindex : CBlockIndex} {pprev : BlockChain}
    (written : Written node.mapBlockIndex node.pnext node.txdb.blockindex)
    (new : node.mapBlockIndex pindex.hashBlock = none) :
    Written (node.enter (pindex :: pprev)).mapBlockIndex (node.enter (pindex :: pprev)).pnext
      (node.enter (pindex :: pprev)).txdb.blockindex := by
  have unlinked : node.pnext pindex.hashBlock = [] := by
    by_contra next_ne
    simpa [new] using written.origin pindex.hashBlock next_ne
  have older (hash : UInt256) (chain : BlockChain)
      (found : node.mapBlockIndex hash = some chain) :
      (node.enter (pindex :: pprev)).mapBlockIndex hash = some chain := by
    have other : hash ≠ pindex.hashBlock := by
      rintro rfl
      simp [new] at found
    exact (update_of_ne other _ _).trans found
  refine ⟨?_, ?_, ?_⟩
  · intro hash
    by_cases own : hash = pindex.hashBlock
    · subst own
      simp [Node.enter, CTxDB.writeBlockIndex, getBlockHash, diskRecord, unlinked]
    · have other : hash ≠ getBlockHash (pindex :: pprev) := own
      simp only [Node.enter, CTxDB.writeBlockIndex, update_of_ne own, update_of_ne other]
      exact written.record hash
  · intro hash next_ne
    exact older _ _ (written.target hash next_ne)
  · intro hash next_ne
    obtain ⟨chain, found⟩ := Option.isSome_iff_exists.mp (written.origin hash next_ne)
    simp [older hash chain found]

end Written

/-! ## The condition on a step -/

/-- The block's hash is not 0, and should the block make the node reorganise, then every postponed
block connects. -/
def Restartable (env : Env) : NodeEvent → Node → Prop
  | .block clock nFile nBlockPos pblock, node =>
      let pprev := (node.mapBlockIndex pblock.hashPrevBlock).getD []
      let pindexNew := .ofBlock env.crypto nFile nBlockPos pblock pprev :: pprev
      pblock.getHash env.crypto ≠ 0 ∧
        (node.bnBestChainWork < getChainWork pindexNew →
          pblock.hashPrevBlock ≠ node.hashBestChain →
          ∀ after, reorganize env clock (postpone (getChainWork node.pindexBest) pindexNew).2
              (node.enter pindexNew) = (.ok (), after) →
            PostponedConnect env clock
              (postpone (getChainWork node.pindexBest) pindexNew).1.reverse after)
  | _, _ => True

/-- The node that has added the genesis block, which has no predecessor. -/
def Begun (env : Env) (node : Node) : Prop :=
  ∃ clock nFile nBlockPos genesis wallets, genesis.hashPrevBlock = 0 ∧
    genesis.getHash env.crypto = env.hashGenesisBlock ∧ env.hashGenesisBlock ≠ 0 ∧
    0 < getBlockWork genesis.nBits ∧
    addToBlockIndex env clock nFile nBlockPos genesis (.initial wallets) = (.ok (), node)

/-! ## Steps and runs -/

/-- Records and links fit an index, and the database is at a tip. -/
structure Persisted (mapBlockIndex : UInt256 → Option BlockChain) (tip : BlockChain) (node : Node) :
    Prop where
  index : node.mapBlockIndex = mapBlockIndex
  written : Written mapBlockIndex node.pnext node.txdb.blockindex
  record : node.txdb.hashBestChain = some (getBlockHash tip)

section Step

variable {env : Env} {clock : UInt256 → Int} {genesis : CBlockIndex}
  {mapBlockIndex : UInt256 → Option BlockChain}

private theorem Persisted.connectTip (closed : Closed mapBlockIndex) {context : CallContext}
    {pindex : CBlockIndex} {tip : BlockChain} {block : CBlock} {node : Node} {txdb : CTxDB}
    {wallets : List CWallet} (persisted : Persisted mapBlockIndex tip node) (above : tip ≠ [])
    (stacked : Stacked env pindex tip block) (known : Known mapBlockIndex (pindex :: tip))
    (connects : block.connectBlock env context pindex tip node.txdb = .ok txdb) :
    Persisted mapBlockIndex (pindex :: tip)
      (node.connectTip env block (pindex :: tip) txdb wallets) where
  index := persisted.index
  written := by
    have connected := persisted.written.connectBlock closed above known connects
    exact connected
  record := by
    simp only [Node.connectTip]
    rw [stacked.entry]
    rfl

private theorem Persisted.reorganize (closed : Closed mapBlockIndex) {pindexNew : BlockChain}
    {node after : Node} (persisted : Persisted mapBlockIndex node.pindexBest node)
    (best : Known mapBlockIndex node.pindexBest) (known : Known mapBlockIndex pindexNew)
    (moved : reorganize env clock pindexNew node = (.ok (), after)) :
    Persisted mapBlockIndex pindexNew after := by
  obtain ⟨_, _, fails, _⟩ | ⟨pfork, txdb, vResurrect, progress, fork, disconnects, connects,
    outcome⟩ := reorganize_cases env clock pindexNew node
  · simp [moved] at fails
  · obtain ⟨⟨front, parts⟩, ⟨branch, branch_parts⟩, pfork_ne⟩ := findFork_suffix fork
    obtain ⟨_, rfl⟩ := Prod.mk.inj (moved.symm.trans outcome)
    refine ⟨persisted.index, ?_, rfl⟩
    rw [← parts] at best disconnects
    rw [← branch_parts] at known connects
    have lower := persisted.written.disconnectBranch closed pfork_ne best disconnects
    have upper := @Written.connectBranch env clock _ _ closed _ _ _ _ _ lower pfork_ne known
      connects
    simp only [Node.afterReorganize]
    rw [← parts, ← branch_parts]
    exact upper

private theorem Persisted.postponed (closed : Closed mapBlockIndex) {pointers : List BlockChain}
    {tip chain : BlockChain} {node : Node} (persisted : Persisted mapBlockIndex tip node)
    (above : tip ≠ []) (ascends : Ascends tip pointers chain) (rooted : Rooted env genesis chain)
    (known : Known mapBlockIndex chain) (connect : PostponedConnect env clock pointers node) :
    ∃ after, connectPostponed env clock pointers node = (.ok (), after) ∧
      Persisted mapBlockIndex chain after := by
  induction pointers generalizing tip node with
  | nil =>
      cases ascends
      exact ⟨node, rfl, persisted⟩
  | cons pindex pointers induction =>
      obtain ⟨⟨entry, rfl⟩, rest⟩ := ascends
      obtain ⟨block, middle, read, inner, others⟩ := connect
      obtain ⟨_, own, stacked⟩ := (rooted.suffix rest.suffix (by simp)).placed above
      cases read.symm.trans stacked.readBlockAt_eq
      have entry_known := closed.known_suffix known rest.suffix (by simp)
      obtain ⟨_, _, fails, _⟩ | ⟨context, txdb, wallets, connects, outcome⟩ :=
        setBestChainInner_cases env clock block entry node above
      · simp [inner] at fails
      · obtain ⟨_, rfl⟩ := Prod.mk.inj (inner.symm.trans outcome)
        obtain ⟨after, finished, done⟩ := induction
          (persisted.connectTip closed above stacked entry_known connects) (by simp) rest others
        refine ⟨after, ?_, done⟩
        simp only [connectPostponed, read, inner, finished]

/-- What every restartable event keeps. -/
structure Restorable (env : Env) (genesis : CBlockIndex) (node : Node) : Prop where
  tree : Tree env genesis node
  written : Written node.mapBlockIndex node.pnext node.txdb.blockindex
  record : node.txdb.hashBestChain = some (getBlockHash node.pindexBest)
  height : node.nBestHeight = ((node.pindexBest.head?.map CBlockIndex.nHeight).getD 0 : Nat)
  work : node.bnBestChainWork = getChainWork node.pindexBest
  nonzero : ∀ hash, (node.mapBlockIndex hash).isSome → hash ≠ 0
  finite : {hash | (node.mapBlockIndex hash).isSome}.Finite

private theorem Restorable.congr {before after : Node} (restorable : Restorable env genesis before)
    (tree : Tree env genesis after) (index : after.mapBlockIndex = before.mapBlockIndex)
    (pnext : after.pnext = before.pnext) (txdb : after.txdb = before.txdb)
    (best : after.pindexBest = before.pindexBest) (height : after.nBestHeight = before.nBestHeight)
    (work : after.bnBestChainWork = before.bnBestChainWork) : Restorable env genesis after where
  tree := tree
  written := by
    rw [index, pnext, txdb]
    exact restorable.written
  record := by
    rw [txdb, best]
    exact restorable.record
  height := by
    rw [height, best]
    exact restorable.height
  work := by
    rw [work, best]
    exact restorable.work
  nonzero := by
    rw [index]
    exact restorable.nonzero
  finite := by
    rw [index]
    exact restorable.finite

/-- A new entry keeps everything. -/
private theorem Restorable.enter {node : Node} {pindex : CBlockIndex} {pprev : BlockChain}
    (restorable : Restorable env genesis node)
    (tree : Tree env genesis (node.enter (pindex :: pprev)))
    (new : node.mapBlockIndex pindex.hashBlock = none) (hash_ne : pindex.hashBlock ≠ 0) :
    Restorable env genesis (node.enter (pindex :: pprev)) := by
  have cases_of (hash : UInt256)
      (present : ((node.enter (pindex :: pprev)).mapBlockIndex hash).isSome) :
      hash = pindex.hashBlock ∨ (node.mapBlockIndex hash).isSome := by
    by_cases own : hash = pindex.hashBlock
    · exact .inl own
    · have other : hash ≠ getBlockHash (pindex :: pprev) := own
      simp only [Node.enter, update_of_ne other] at present
      exact .inr present
  refine ⟨tree, restorable.written.enter new, restorable.record, restorable.height,
    restorable.work, ?_, ?_⟩
  · intro hash present
    obtain rfl | older := cases_of hash present
    · exact hash_ne
    · exact restorable.nonzero hash older
  · exact (restorable.finite.insert pindex.hashBlock).subset cases_of

/-- A candidate that wins over a restorable node. -/
private theorem Restorable.candidate {node : Node} {pindex : CBlockIndex} {pprev : BlockChain}
    {block : CBlock} (restorable : Restorable env genesis node) (above : pprev ≠ [])
    (stacked : Stacked env pindex pprev block) (rooted : Rooted env genesis (pindex :: pprev))
    (known : Known node.mapBlockIndex (pindex :: pprev))
    (postponed : block.hashPrevBlock ≠ node.hashBestChain → ∀ after, reorganize env clock
      (postpone (getChainWork node.pindexBest) (pindex :: pprev)).2 node = (.ok (), after) →
        PostponedConnect env clock
          (postpone (getChainWork node.pindexBest) (pindex :: pprev)).1.reverse after) :
    Restorable env genesis (setBestChain env clock block (pindex :: pprev) node).2 := by
  have tree := restorable.tree.setBestChain clock above stacked rooted known
  have closed := restorable.tree.closed
  have best := restorable.tree.best
  have start : Persisted node.mapBlockIndex node.pindexBest node :=
    ⟨rfl, restorable.written, restorable.record⟩
  have started : node.pindexGenesisBlock ≠ [] := by simp [restorable.tree.start]
  have won (after : Node) (persisted : Persisted node.mapBlockIndex (pindex :: pprev) after)
      (outcome : (setBestChain env clock block (pindex :: pprev) node).2 =
        after.newBest (block.getHash env.crypto) (pindex :: pprev)) :
      Restorable env genesis (setBestChain env clock block (pindex :: pprev) node).2 := by
    rw [outcome] at tree ⊢
    refine ⟨tree, ?_, persisted.record, rfl, rfl, ?_, ?_⟩
    · simp only [Node.newBest, persisted.index]
      exact persisted.written
    · simp only [Node.newBest, persisted.index]
      exact restorable.nonzero
    · simp only [Node.newBest, persisted.index]
      exact restorable.finite
  obtain ⟨failure, after, kept, outcome⟩ | ⟨context, txdb, wallets, extends_best, connects,
    outcome⟩ | ⟨middle, elsewhere, moved, outcome⟩ :=
      setBestChain_cases env clock block pindex above started
  · rw [outcome] at tree ⊢
    simp only at tree ⊢
    rw [kept] at tree ⊢
    exact restorable.congr tree rfl rfl rfl rfl rfl rfl
  · have pprev_known := closed.known_suffix known (List.suffix_cons pindex pprev) above
    have same : pprev = node.pindexBest :=
      pprev_known.eq best (by rw [← stacked.link, extends_best, restorable.tree.hash])
    have persisted : Persisted node.mapBlockIndex pprev node := by
      rw [same]
      exact start
    exact won _ (persisted.connectTip closed above stacked known connects) (by rw [outcome])
  · obtain ⟨front, parts, pointers⟩ :=
      postpone_spec (getChainWork node.pindexBest) (pindex :: pprev)
    have target_ne := postpone_ne_nil (getChainWork node.pindexBest)
      (List.cons_ne_nil pindex pprev)
    have target_known := closed.known_suffix known ⟨front, parts.symm⟩ target_ne
    have persisted := start.reorganize closed best target_known moved
    have ascends := ascends_branchAbove front
      (postpone (getChainWork node.pindexBest) (pindex :: pprev)).2
    rw [← parts, ← pointers] at ascends
    obtain ⟨final, connected, done⟩ := persisted.postponed closed target_ne ascends rooted known
      (postponed elsewhere middle moved)
    exact won final done (by rw [outcome, connected])

/-- Every restartable event keeps the node restorable. -/
theorem Restorable.handle {node : Node} (restorable : Restorable env genesis node)
    {event : NodeEvent} (admissible : event.Admissible env node)
    (restartable : Restartable env event node) :
    Restorable env genesis (node.handle env event) := by
  have tree := restorable.tree.handle admissible
  cases event with
  | block clock nFile nBlockPos block =>
      simp only [Node.handle] at tree ⊢
      cases new : node.mapBlockIndex (block.getHash env.crypto) with
      | some chain =>
          have same : (addToBlockIndex env clock nFile nBlockPos block node).2 = node := by
            simp [addToBlockIndex, new]
          rwa [same]
      | none =>
          obtain same | ⟨pindex, pprev, found, entry, stacked, above, rooted, entered, known,
            outcome⟩ := restorable.tree.addToBlockIndex_cases admissible clock
          · rwa [same]
          · have hash : pindex.hashBlock = block.getHash env.crypto := by rw [entry]; rfl
            obtain ⟨hash_ne, calm⟩ := restartable
            simp only [found, ← entry] at calm
            have restorable_entered := restorable.enter entered (hash ▸ new) (hash ▸ hash_ne)
            rw [outcome]
            split
            · rename_i heavier
              exact restorable_entered.candidate above stacked rooted known (calm heavier)
            · exact restorable_entered
  | transaction rateLimited tx =>
      simp only [Node.handle] at tree ⊢
      split
      · exact restorable
      · rename_i mempool accepted
        rw [accepted] at tree
        exact restorable.congr tree rfl rfl rfl rfl rfl rfl
  | wallets wallets => exact restorable.congr tree rfl rfl rfl rfl rfl rfl

end Step

/-! ## The entries -/

/-- The entry is made for a block on top of a chain that ends in the block's predecessor. -/
def MadeFor (crypto : Crypto) (entry : CBlockIndex) (pprev : BlockChain) : Prop :=
  ∃ block, entry = .ofBlock crypto entry.nFile entry.nBlockPos block pprev ∧
    block.hashPrevBlock = getBlockHash pprev

/-- The pointer to the entry at the head of a chain. -/
def blockPointer (pindex : BlockChain) : Option UInt256 := pindex.head?.map CBlockIndex.hashBlock

/-- The entry of a hash, with its links. -/
def Node.indexObject (node : Node) (hash : UInt256) : Option IndexObject :=
  (node.mapBlockIndex hash).bind fun
    | [] => none
    | entry :: pprev =>
        some
          { pprev := blockPointer pprev
            pnext := blockPointer (node.pnext hash)
            nFile := entry.nFile
            nBlockPos := entry.nBlockPos
            nHeight := entry.nHeight
            bnChainWork := entry.bnChainWork
            nVersion := entry.nVersion
            hashMerkleRoot := entry.hashMerkleRoot
            nTime := entry.nTime
            nBits := entry.nBits
            nNonce := entry.nNonce }

/-- What a restart has to restore. -/
structure Restored (node : Node) (loaded : Startup) : Prop where
  entries : ∀ hash, loaded.mapBlockIndex.lookup hash = node.indexObject hash
  hashBestChain : loaded.hashBestChain = node.hashBestChain
  pindexBest : loaded.pindexBest = blockPointer node.pindexBest
  nBestHeight : loaded.nBestHeight = node.nBestHeight
  bnBestChainWork : loaded.bnBestChainWork = node.bnBestChainWork

section Load

variable {env : Env} {genesis : CBlockIndex} {node : Node}

theorem Rooted.madeFor (first : MadeFor env.crypto genesis []) {entry : CBlockIndex}
    {pprev : BlockChain} (rooted : Rooted env genesis (entry :: pprev)) :
    MadeFor env.crypto entry pprev := by
  cases rooted with
  | genesis => exact first
  | block _ stacked => exact ⟨_, stacked.entry, stacked.link⟩

/-- The record of an entry hashes to the entry's hash. -/
theorem MadeFor.getBlockHash {crypto : Crypto} {entry : CBlockIndex} {pprev : BlockChain}
    (made : MadeFor crypto entry pprev) (hashNext : UInt256) :
    CDiskBlockIndex.getBlockHash crypto
      { entry, hashPrev := FooCoin.getBlockHash pprev, hashNext } = entry.hashBlock := by
  obtain ⟨block, parts, link⟩ := made
  rw [parts, ← link]
  rfl

/-- The chain work of an entry. -/
theorem MadeFor.work {crypto : Crypto} {entry : CBlockIndex} {pprev : BlockChain}
    (made : MadeFor crypto entry pprev) :
    entry.bnChainWork = getChainWork pprev + getBlockWork entry.nBits := by
  obtain ⟨block, parts, _⟩ := made
  rw [parts]
  rfl

/-- An entry is one higher than the one below it. -/
theorem MadeFor.height {crypto : Crypto} {entry below : CBlockIndex} {rest : BlockChain}
    (made : MadeFor crypto entry (below :: rest)) : entry.nHeight = below.nHeight + 1 := by
  obtain ⟨block, parts, _⟩ := made
  rw [parts]
  rfl

/-- Where no entry has the hash 0, the hash of a chain in a record stands for its pointer. -/
private theorem pointerTo_getBlockHash {mapBlockIndex : UInt256 → Option BlockChain}
    (nonzero : ∀ hash, (mapBlockIndex hash).isSome → hash ≠ 0) {chain : BlockChain}
    (known : chain ≠ [] → Known mapBlockIndex chain) :
    pointerTo (getBlockHash chain) = blockPointer chain := by
  cases chain with
  | nil => rfl
  | cons entry pprev =>
      have found : mapBlockIndex entry.hashBlock = some (entry :: pprev) := known (by simp)
      exact if_neg (nonzero entry.hashBlock (by simp [found]))

/-- The part of a known chain below its tip is known. -/
private theorem known_below {mapBlockIndex : UInt256 → Option BlockChain}
    (closed : Closed mapBlockIndex) {hash : UInt256} {entry : CBlockIndex} {pprev : BlockChain}
    (found : mapBlockIndex hash = some (entry :: pprev)) (above : pprev ≠ []) :
    Known mapBlockIndex pprev := closed.tail hash entry pprev found above

private theorem Restorable.linked (restorable : Restorable env genesis node)
    (first : MadeFor env.crypto genesis []) : Linked env.crypto node.txdb.blockindex := by
  have closed := restorable.tree.closed
  have record_of (hash : UInt256) (diskindex : CDiskBlockIndex)
      (stored : node.txdb.blockindex hash = some diskindex) :
      ∃ entry pprev, node.mapBlockIndex hash = some (entry :: pprev) ∧ entry.hashBlock = hash ∧
        diskindex =
          { entry
            hashPrev := getBlockHash pprev
            hashNext := getBlockHash (node.pnext hash) } := by
    rw [restorable.written.record hash] at stored
    obtain ⟨chain, found, record⟩ := Option.bind_eq_some_iff.mp stored
    cases chain with
    | nil => simp [diskRecord] at record
    | cons entry pprev =>
        have own : entry.hashBlock = hash := closed.hash hash _ found
        refine ⟨entry, pprev, found, own, ?_⟩
        rw [← own]
        exact (Option.some.inj record).symm
  have stored_of (chain : BlockChain) (known : Known node.mapBlockIndex chain)
      (chain_ne : chain ≠ []) : (node.txdb.blockindex (getBlockHash chain)).isSome := by
    obtain ⟨entry, pprev, rfl⟩ := List.exists_cons_of_ne_nil chain_ne
    rw [restorable.written.record, known]
    rfl
  refine ⟨?_, ?_, ?_⟩
  · intro hash diskindex stored
    obtain ⟨entry, pprev, found, own, rfl⟩ := record_of hash diskindex stored
    have made := (restorable.tree.rooted hash _ found).madeFor first
    exact ⟨(made.getBlockHash _).trans own, restorable.nonzero hash (by simp [found])⟩
  · intro hash diskindex stored linked
    obtain ⟨entry, pprev, found, own, rfl⟩ := record_of hash diskindex stored
    have above : pprev ≠ [] := by
      rintro rfl
      exact linked rfl
    exact stored_of pprev (known_below closed found above) above
  · intro hash diskindex stored linked
    obtain ⟨entry, pprev, found, own, rfl⟩ := record_of hash diskindex stored
    have next_ne : node.pnext hash ≠ [] := by
      intro null
      exact linked (by simp [null, getBlockHash])
    exact stored_of _ (restorable.written.target hash next_ne) next_ne

/-- The chain work of the entry of a hash. -/
private def Node.workOf (node : Node) (hash : UInt256) : Int :=
  getChainWork ((node.mapBlockIndex hash).getD [])

/-- The entries that the records become, with their chain work, are those in memory. -/
private theorem Restorable.object_eq (restorable : Restorable env genesis node) (hash : UInt256) :
    ((node.txdb.blockindex hash).map CDiskBlockIndex.object).map
        (IndexObject.withWork (node.workOf hash)) = node.indexObject hash := by
  have closed := restorable.tree.closed
  rw [restorable.written.record hash, Node.indexObject]
  cases found : node.mapBlockIndex hash with
  | none => rfl
  | some chain =>
      cases chain with
      | nil => rfl
      | cons entry pprev =>
          have own : entry.hashBlock = hash := closed.hash hash _ found
          have prev := pointerTo_getBlockHash restorable.nonzero (known_below closed found)
          have next := pointerTo_getBlockHash restorable.nonzero (restorable.written.target hash)
          have work : node.workOf hash = entry.bnChainWork := by
            rw [Node.workOf, found]
            rfl
          simp only [Option.bind_some, diskRecord, Option.map_some, CDiskBlockIndex.object, prev,
            own, next, work]
          rfl

private theorem Restorable.workOf_spec (restorable : Restorable env genesis node)
    (first : MadeFor env.crypto genesis []) {mapBlockIndex : IndexMap}
    (entries : ∀ hash, mapBlockIndex.lookup hash =
      (node.txdb.blockindex hash).map CDiskBlockIndex.object) :
    WorkOf mapBlockIndex node.workOf := by
  have closed := restorable.tree.closed
  have height_of (hash : UInt256) (entry : CBlockIndex) (pprev : BlockChain)
      (found : node.mapBlockIndex hash = some (entry :: pprev)) :
      hash ∈ mapBlockIndex ∧ mapBlockIndex.height hash = entry.nHeight := by
    have lookup := entries hash
    rw [restorable.written.record hash, found] at lookup
    refine ⟨AList.lookup_isSome.mp (by simp [lookup, diskRecord]), ?_⟩
    simp only [IndexMap.height, lookup]
    rfl
  have entry_of (hash : UInt256) (pindex : IndexObject)
      (lookup : mapBlockIndex.lookup hash = some pindex) :
      ∃ entry pprev, node.mapBlockIndex hash = some (entry :: pprev) ∧
        pindex.nBits = entry.nBits ∧ pindex.pprev = blockPointer pprev := by
    rw [entries hash, restorable.written.record hash] at lookup
    cases found : node.mapBlockIndex hash with
    | none => simp [found] at lookup
    | some chain =>
        cases chain with
        | nil => simp [found, diskRecord] at lookup
        | cons entry pprev =>
            rw [found] at lookup
            cases lookup
            exact ⟨entry, pprev, rfl, rfl,
              pointerTo_getBlockHash restorable.nonzero (known_below closed found)⟩
  refine ⟨?_, ?_⟩
  · intro hash pindex lookup
    obtain ⟨entry, pprev, found, bits, pointer⟩ := entry_of hash pindex lookup
    have made := (restorable.tree.rooted hash _ found).madeFor first
    have own : node.workOf hash = entry.bnChainWork := by
      rw [Node.workOf, found]
      rfl
    rw [own, made.work, bits, pointer]
    cases pprev with
    | nil => rfl
    | cons below rest =>
        have below_found : node.mapBlockIndex below.hashBlock = some (below :: rest) :=
          known_below closed found (by simp)
        simp [blockPointer, Node.workOf, below_found]
  · intro hash pindex pprev lookup pointer
    obtain ⟨entry, chain, found, _, own⟩ := entry_of hash pindex lookup
    rw [own] at pointer
    cases chain with
    | nil => simp [blockPointer] at pointer
    | cons below rest =>
        cases pointer
        obtain ⟨member, lower⟩ := height_of below.hashBlock below rest
          (known_below closed found (by simp))
        obtain ⟨_, upper⟩ := height_of hash entry (below :: rest) found
        have made := (restorable.tree.rooted hash _ found).madeFor first
        rw [lower, upper, made.height]
        exact ⟨member, Nat.lt_succ_self _⟩

/-! ## The verification -/

/-- A known chain has no entry twice. -/
private theorem Closed.nodup_hashes {mapBlockIndex : UInt256 → Option BlockChain}
    (closed : Closed mapBlockIndex) {chain : BlockChain}
    (known : chain ≠ [] → Known mapBlockIndex chain) : (chain.map CBlockIndex.hashBlock).Nodup := by
  induction chain with
  | nil => simp
  | cons entry pprev induction =>
      have entry_known := known (by simp)
      have below_known (above : pprev ≠ []) : Known mapBlockIndex pprev :=
        closed.known_suffix entry_known (List.suffix_cons entry pprev) above
      rw [List.map_cons, List.nodup_cons]
      refine ⟨?_, induction below_known⟩
      intro repeated
      obtain ⟨other, member, same⟩ := List.mem_map.mp repeated
      obtain ⟨front, rest, parts⟩ := List.append_of_mem member
      have suffix : other :: rest <:+ pprev := ⟨front, parts.symm⟩
      have other_known := closed.known_suffix entry_known
        (suffix.trans (List.suffix_cons entry pprev)) (by simp)
      have equal : other :: rest = entry :: pprev := other_known.eq entry_known same
      have longer := suffix.length_le
      rw [equal] at longer
      simp at longer

/-- The entries of a known chain are found in the loaded map. -/
private theorem indexObject_of_known {entry : CBlockIndex} {pprev : BlockChain}
    (known : Known node.mapBlockIndex (entry :: pprev)) :
    ∃ pindex, node.indexObject entry.hashBlock = some pindex ∧ pindex.pprev = blockPointer pprev ∧
      pindex.nHeight = entry.nHeight ∧ pindex.bnChainWork = entry.bnChainWork ∧
      env.readBlockOf entry.hashBlock pindex = env.readBlockAt entry := by
  have found : node.mapBlockIndex entry.hashBlock = some (entry :: pprev) := known
  simp only [Node.indexObject, found, Option.bind_some]
  exact ⟨_, rfl, rfl, rfl, rfl, rfl⟩

private theorem Restorable.verified (restorable : Restorable env genesis node)
    {verification : Verification} {mapBlockIndex : IndexMap}
    (entries : ∀ hash, mapBlockIndex.lookup hash = node.indexObject hash) (nBestHeight : Int)
    {chain : BlockChain} (chain_ne : chain ≠ []) (known : Known node.mapBlockIndex chain)
    (sound : ∀ pindex ∈ chain, ∀ block, env.readBlockAt pindex = some block →
      verification.bad env.crypto pindex.hashBlock block = .ok false)
    {fuel : Nat} (enough : chain.length ≤ fuel) :
    verifyBlocks env verification mapBlockIndex nBestHeight fuel (getBlockHash chain) none =
      some (.ok none) := by
  induction chain generalizing fuel with
  | nil => exact absurd rfl chain_ne
  | cons entry pprev induction =>
      obtain ⟨fuel, rfl⟩ : ∃ less, fuel = less + 1 := ⟨fuel - 1, by
        simp only [List.length_cons] at enough
        omega⟩
      obtain ⟨pindex, found, pointer, _, _, read⟩ := @indexObject_of_known env _ _ _ known
      have lookup : mapBlockIndex.lookup (getBlockHash (entry :: pprev)) = some pindex :=
        (entries entry.hashBlock).trans found
      simp only [verifyBlocks, lookup, pointer]
      cases pprev with
      | nil => rfl
      | cons below rest =>
          have below_known := restorable.tree.closed.known_suffix known
            (List.suffix_cons entry _) (by simp)
          obtain ⟨_, block, stacked⟩ := (restorable.tree.rooted _ _ known).placed (by simp)
          have opened : env.readBlockOf (getBlockHash (entry :: below :: rest)) pindex =
              some block := read.trans stacked.readBlockAt_eq
          have good := sound entry List.mem_cons_self block stacked.readBlockAt_eq
          have good_hash : verification.bad env.crypto (getBlockHash (entry :: below :: rest))
              block = .ok false := good
          simp only [blockPointer, List.head?_cons, Option.map_some]
          split
          · rfl
          · simp only [opened, good_hash]
            refine induction (by simp) below_known
              (fun pindex member => sound pindex (List.mem_cons_of_mem _ member)) ?_
            simpa using enough

/-! ## The restart -/

/-- A restorable node is restored from its records, in whatever order they come. -/
theorem Restorable.restored (restorable : Restorable env genesis node)
    (first : MadeFor env.crypto genesis []) (address : UInt256 → Nat)
    {verification : Verification} {records : List CDiskBlockIndex}
    (delivers : CursorDelivers node.txdb.blockindex records)
    (sound : ∀ pindex ∈ node.pindexBest, ∀ block, env.readBlockAt pindex = some block →
      verification.bad env.crypto pindex.hashBlock block = .ok false) :
    ∃ loaded, loadBlockIndex env address verification records node.txdb.hashBestChain =
        some (.ok loaded) ∧ Restored node loaded ∧ loaded.pindexFork = none := by
  obtain ⟨guts, read, objects⟩ := loadBlockIndexGuts_ok (restorable.linked first) delivers
  obtain ⟨index, index_eq⟩ : ∃ index : IndexMap, (guts.mapBlockIndex.sortedByHeight address).foldl
      IndexMap.addChainWork guts.mapBlockIndex = index := ⟨_, rfl⟩
  have entries (hash : UInt256) : index.lookup hash = node.indexObject hash := by
    rw [← index_eq, lookup_foldl_addChainWork (restorable.workOf_spec first objects), objects hash,
      restorable.object_eq]
  have best := restorable.tree.best
  have best_ne := (restorable.tree.rooted _ _ best).ne_nil
  have enough : node.pindexBest.length ≤ index.keys.length := by
    rw [← List.length_map CBlockIndex.hashBlock]
    refine (List.subperm_of_subset (restorable.tree.closed.nodup_hashes fun _ => best) ?_).length_le
    intro hash member
    obtain ⟨entry, inside, rfl⟩ := List.mem_map.mp member
    obtain ⟨front, rest, parts⟩ := List.append_of_mem inside
    have known := restorable.tree.closed.known_suffix best ⟨front, parts.symm⟩ (by simp)
    obtain ⟨pindex, found, _⟩ := @indexObject_of_known env _ _ _ known
    exact AList.lookup_isSome.mp (by rw [entries, found]; rfl)
  have checked := restorable.verified entries node.nBestHeight best_ne best sound enough
  have own_hash := restorable.tree.hash
  have height := restorable.height
  have work := restorable.work
  obtain ⟨entry, pprev, parts⟩ := List.exists_cons_of_ne_nil best_ne
  rw [parts] at best checked own_hash height work
  obtain ⟨pindex, found, _, own_height, own_work, _⟩ := @indexObject_of_known env _ _ _ best
  have lookup : index.lookup entry.hashBlock = some pindex := (entries _).trans found
  have same_height : (pindex.nHeight : Int) = node.nBestHeight := by
    rw [height, own_height]
    rfl
  have record : node.txdb.hashBestChain = some entry.hashBlock := by
    rw [restorable.record, parts]
    rfl
  have passed : verifyBlocks env verification index node.nBestHeight index.keys.length
      entry.hashBlock none = some (.ok none) := checked
  refine ⟨{ mapBlockIndex := index, pindexGenesisBlock := guts.pindexGenesisBlock,
            hashBestChain := entry.hashBlock, pindexBest := some entry.hashBlock,
            nBestHeight := node.nBestHeight, bnBestChainWork := pindex.bnChainWork,
            pindexFork := none }, ?_, ⟨entries, own_hash.symm, ?_, rfl, ?_⟩, rfl⟩
  · simp only [loadBlockIndex, read, record, index_eq, lookup, same_height, passed]
    rfl
  · rw [parts]
    rfl
  · rw [work, own_work]
    rfl

end Load

/-! ## Runs -/

section Run

variable {env : Env}

/-- The node that has added the genesis block is restorable. -/
private theorem Begun.restorable {node : Node} (begun : Begun env node) :
    ∃ genesis, MadeFor env.crypto genesis [] ∧ Restorable env genesis node := by
  obtain ⟨clock, nFile, nBlockPos, block, wallets, first, hash, hash_ne, work, added⟩ := begun
  rw [addToBlockIndex_initial clock nFile nBlockPos wallets hash work] at added
  obtain ⟨_, rfl⟩ := Prod.mk.inj added
  refine ⟨_, ⟨block, rfl, first⟩, genesisNode_tree wallets, ⟨?_, ?_, ?_⟩, rfl, rfl, ?_, ?_, ?_⟩
  · intro other
    by_cases own : other = block.getHash env.crypto
    · subst own
      simp [genesisNode, CBlockIndex.ofBlock, diskRecord, getBlockHash]
    · simp [genesisNode, CBlockIndex.ofBlock, update_of_ne own]
  · intro other next
    exact absurd rfl next
  · intro other next
    exact absurd rfl next
  · simp [genesisNode, getChainWork]
  · intro other present
    by_cases own : other = block.getHash env.crypto
    · rw [own, hash]
      exact hash_ne
    · simp [genesisNode, CBlockIndex.ofBlock, update_of_ne own] at present
  · refine (Set.finite_singleton (block.getHash env.crypto)).subset fun other present => ?_
    by_contra own
    have other_ne : other ≠ block.getHash env.crypto := own
    simp [genesisNode, CBlockIndex.ofBlock, update_of_ne other_ne] at present

private theorem Restorable.of_run {start node : Node} {genesis : CBlockIndex}
    (restorable : Restorable env genesis start)
    (run : NodeRun env (Restartable env) start node) : Restorable env genesis node := by
  induction run with
  | refl => exact restorable
  | tail _ step induction =>
      obtain ⟨event, admissible, restartable, rfl⟩ := step
      exact induction.handle admissible restartable

/-- Finitely many records can be delivered. -/
theorem exists_cursorDelivers {stored : UInt256 → Option CDiskBlockIndex}
    (finite : {hash | (stored hash).isSome}.Finite) :
    ∃ records, CursorDelivers stored records := by
  have listed (keys : List UInt256) (present : ∀ hash ∈ keys, (stored hash).isSome) :
      ∃ records, List.Forall₂ (fun hash diskindex => stored hash = some diskindex) keys
        records := by
    induction keys with
    | nil => exact ⟨[], .nil⟩
    | cons hash keys induction =>
        obtain ⟨own, others⟩ := List.forall_mem_cons.mp present
        obtain ⟨diskindex, found⟩ := Option.isSome_iff_exists.mp own
        obtain ⟨records, rest⟩ := induction others
        exact ⟨diskindex :: records, .cons found rest⟩
  obtain ⟨records, all⟩ := listed finite.toFinset.toList fun hash member => by simpa using member
  refine ⟨records, finite.toFinset.toList, Finset.nodup_toList _, fun hash present => ?_, all⟩
  simpa using present

/-- In every run of restartable events the records can be delivered to a cursor. -/
theorem exists_cursorDelivers_of_run {start node : Node} (begun : Begun env start)
    (run : NodeRun env (Restartable env) start node) :
    ∃ records, CursorDelivers node.txdb.blockindex records := by
  obtain ⟨genesis, _, restorable⟩ := begun.restorable
  have final := restorable.of_run run
  refine exists_cursorDelivers (final.finite.subset fun hash present => ?_)
  have stored : (node.txdb.blockindex hash).isSome := present
  rw [final.written.record hash] at stored
  have known : (node.mapBlockIndex hash).isSome := by
    cases found : node.mapBlockIndex hash with
    | none => simp [found] at stored
    | some chain => rfl
  exact known

/-- In every run of restartable events from the genesis block on, a restart that finds no bad block
restores the block index and the best chain. -/
theorem restored_of_restartable {start node : Node} (begun : Begun env start)
    (run : NodeRun env (Restartable env) start node) (address : UInt256 → Nat)
    {verification : Verification} {records : List CDiskBlockIndex}
    (delivers : CursorDelivers node.txdb.blockindex records)
    (sound : ∀ pindex ∈ node.pindexBest, ∀ block, env.readBlockAt pindex = some block →
      verification.bad env.crypto pindex.hashBlock block = .ok false) :
    ∃ loaded, loadBlockIndex env address verification records node.txdb.hashBestChain =
        some (.ok loaded) ∧ Restored node loaded ∧ loaded.pindexFork = none := by
  obtain ⟨genesis, first, restorable⟩ := begun.restorable
  exact (restorable.of_run run).restored first address delivers sound

/-! ## Runs without a failing `SetBestChain` -/

/-- The block's hash is not 0, and unless the block is known already, `AddToBlockIndex` succeeds. -/
def Succeeds (env : Env) : NodeEvent → Node → Prop
  | .block clock nFile nBlockPos block, node =>
      block.getHash env.crypto ≠ 0 ∧
        (node.mapBlockIndex (block.getHash env.crypto) = none →
          (addToBlockIndex env clock nFile nBlockPos block node).1 = .ok ())
  | _, _ => True

/-- No known chain has more work than the best one. -/
def Heaviest (node : Node) : Prop :=
  ∀ hash chain, node.mapBlockIndex hash = some chain → getChainWork chain ≤ node.bnBestChainWork

variable {genesis : CBlockIndex}

/-- With the best chain the heaviest, nothing is postponed. -/
private theorem Restorable.postpone_eq {node : Node} (restorable : Restorable env genesis node)
    (heaviest : Heaviest node) (pindex : CBlockIndex) (hashPrevBlock : UInt256) :
    postpone (getChainWork node.pindexBest)
        (pindex :: (node.mapBlockIndex hashPrevBlock).getD []) =
      ([], pindex :: (node.mapBlockIndex hashPrevBlock).getD []) := by
  cases found : node.mapBlockIndex hashPrevBlock with
  | none => simp [postpone]
  | some pprev =>
      have light := heaviest hashPrevBlock pprev found
      rw [restorable.work] at light
      simp [postpone, not_lt.mpr light]

/-- A `SetBestChain` that succeeds with nothing postponed ends at the candidate, over the same
index. -/
private theorem setBestChain_ok {clock : UInt256 → Int} {node after : Node} {pindex : CBlockIndex}
    {pprev : BlockChain} {block : CBlock} (above : pprev ≠ [])
    (started : node.pindexGenesisBlock ≠ [])
    (none_postponed : postpone (getChainWork node.pindexBest) (pindex :: pprev) =
      ([], pindex :: pprev))
    (succeeds : setBestChain env clock block (pindex :: pprev) node = (.ok (), after)) :
    after.mapBlockIndex = node.mapBlockIndex ∧
      after.bnBestChainWork = getChainWork (pindex :: pprev) := by
  obtain ⟨failure, _, _, outcome⟩ | ⟨context, txdb, wallets, _, _, outcome⟩ |
    ⟨middle, _, moved, outcome⟩ := setBestChain_cases env clock block pindex above started
  · simp [succeeds] at outcome
  · obtain ⟨_, rfl⟩ := Prod.mk.inj (succeeds.symm.trans outcome)
    exact ⟨rfl, rfl⟩
  · rw [none_postponed] at outcome moved
    obtain ⟨_, rfl⟩ := Prod.mk.inj (succeeds.symm.trans outcome)
    obtain ⟨_, _, fails, _⟩ | ⟨pfork, txdb, vResurrect, progress, _, _, _, reorganized⟩ :=
      reorganize_cases env clock (pindex :: pprev) node
    · simp [moved] at fails
    · obtain ⟨_, rfl⟩ := Prod.mk.inj (moved.symm.trans reorganized)
      exact ⟨rfl, rfl⟩

/-- An event that succeeds is restartable, and keeps the best chain the heaviest. -/
private theorem Restorable.succeeds {node : Node} (restorable : Restorable env genesis node)
    (heaviest : Heaviest node) {event : NodeEvent} (admissible : event.Admissible env node)
    (succeeds : Succeeds env event node) :
    Restartable env event node ∧ Heaviest (node.handle env event) := by
  cases event with
  | block clock nFile nBlockPos block =>
      obtain ⟨hash_ne, added⟩ := succeeds
      refine ⟨⟨hash_ne, fun _ _ after _ => ?_⟩, ?_⟩
      · rw [restorable.postpone_eq heaviest]
        trivial
      · simp only [Node.handle]
        cases new : node.mapBlockIndex (block.getHash env.crypto) with
        | some chain =>
            have same : (addToBlockIndex env clock nFile nBlockPos block node).2 = node := by
              simp [addToBlockIndex, new]
            rwa [same]
        | none =>
            have result := added new
            obtain same | ⟨pindex, pprev, found, entry, stacked, above, rooted, entered, known,
              outcome⟩ := restorable.tree.addToBlockIndex_cases admissible clock
            · rwa [same]
            · have older (hash : UInt256) (chain : BlockChain)
                  (present : (node.enter (pindex :: pprev)).mapBlockIndex hash = some chain) :
                  chain = pindex :: pprev ∨ getChainWork chain ≤ node.bnBestChainWork := by
                by_cases own : hash = getBlockHash (pindex :: pprev)
                · subst own
                  exact .inl (Option.some.inj (present.symm.trans known))
                · simp only [Node.enter, update_of_ne own] at present
                  exact .inr (heaviest hash chain present)
              have none_postponed := restorable.postpone_eq heaviest pindex block.hashPrevBlock
              rw [found] at none_postponed
              rw [outcome] at result ⊢
              split at result
              · rename_i heavier
                rw [if_pos heavier]
                have started : (node.enter (pindex :: pprev)).pindexGenesisBlock ≠ [] := by
                  simp [entered.start]
                have done : setBestChain env clock block (pindex :: pprev)
                    (node.enter (pindex :: pprev)) = (.ok (), (setBestChain env clock block
                      (pindex :: pprev) (node.enter (pindex :: pprev))).2) := Prod.ext result rfl
                obtain ⟨index, work⟩ := setBestChain_ok above started none_postponed done
                intro hash chain present
                rw [work]
                rw [index] at present
                obtain rfl | light := older hash chain present
                · exact le_rfl
                · exact light.trans heavier.le
              · rename_i light
                rw [if_neg light]
                intro hash chain present
                obtain rfl | lighter := older hash chain present
                · exact not_lt.mp light
                · exact lighter
  | transaction rateLimited tx =>
      refine ⟨trivial, ?_⟩
      simp only [Node.handle]
      split <;> exact heaviest
  | wallets wallets => exact ⟨trivial, heaviest⟩

/-- A run without failures is one of restartable events. -/
private theorem Begun.restartable_run {start node : Node} (begun : Begun env start)
    (run : NodeRun env (Succeeds env) start node) : NodeRun env (Restartable env) start node := by
  obtain ⟨genesis, first, restorable⟩ := begun.restorable
  have heaviest : Heaviest start := by
    obtain ⟨clock, nFile, nBlockPos, block, wallets, _, hash, _, work, added⟩ := begun
    rw [addToBlockIndex_initial clock nFile nBlockPos wallets hash work] at added
    obtain ⟨_, rfl⟩ := Prod.mk.inj added
    intro other chain present
    by_cases own : other = block.getHash env.crypto
    · subst own
      simp only [genesisNode, CBlockIndex.ofBlock, update_self, Option.some.injEq] at present
      subst present
      exact le_rfl
    · simp [genesisNode, CBlockIndex.ofBlock, update_of_ne own] at present
  have both : NodeRun env (Restartable env) start node ∧ Heaviest node := by
    induction run with
    | refl => exact ⟨.refl, heaviest⟩
    | tail _ step induction =>
        obtain ⟨earlier, heaviest_before⟩ := induction
        obtain ⟨event, admissible, succeeds, rfl⟩ := step
        obtain ⟨restartable, heaviest_after⟩ :=
          (restorable.of_run earlier).succeeds heaviest_before admissible succeeds
        exact ⟨earlier.tail ⟨event, admissible, restartable, rfl⟩, heaviest_after⟩
  exact both.1

/-- In every run from the genesis block on in which no `SetBestChain` fails, a restart that finds no
bad block restores the block index and the best chain. -/
theorem restored_of_run {start node : Node} (begun : Begun env start)
    (run : NodeRun env (Succeeds env) start node) (address : UInt256 → Nat)
    {verification : Verification} {records : List CDiskBlockIndex}
    (delivers : CursorDelivers node.txdb.blockindex records)
    (sound : ∀ pindex ∈ node.pindexBest, ∀ block, env.readBlockAt pindex = some block →
      verification.bad env.crypto pindex.hashBlock block = .ok false) :
    ∃ loaded, loadBlockIndex env address verification records node.txdb.hashBestChain =
        some (.ok loaded) ∧ Restored node loaded ∧ loaded.pindexFork = none :=
  restored_of_restartable begun (begun.restartable_run run) address delivers sound

end Run

/-! ## A reorganisation -/

/-- The default verification, at the late time of the sample clock. -/
def sampleVerification : Verification where
  nCheckLevel := 1
  nCheckDepth := 2500
  nAdjustedTime := 2000000000
  findsBad _ _ := false

/-- The arrival of a sample block succeeds. -/
def sampleSucceeds (blocks : Nat → CBlock) (node : Node) (clock : UInt256 → Int) (i : Nat) : Bool :=
  decide ((blocks i).getHash sampleCrypto ≠ 0) &&
    (addToBlockIndex (sampleNodeEnv blocks) clock (i + 1) 8 (blocks i) node).1.isOk

private theorem succeeds_of_sampleSucceeds {blocks : Nat → CBlock} {node : Node}
    {clock : UInt256 → Int} {i : Nat} (checked : sampleSucceeds blocks node clock i = true) :
    Succeeds (sampleNodeEnv blocks) (sampleArrival blocks clock i) node := by
  simp only [sampleSucceeds, Bool.and_eq_true, decide_eq_true_eq] at checked
  refine ⟨checked.1, fun _ => ?_⟩
  obtain ⟨value, accepted⟩ := exists_of_isOk checked.2
  exact accepted

/-- The verification of the blocks of a chain finds none bad. -/
def sampleSound (blocks : Nat → CBlock) (chain : BlockChain) : Bool :=
  chain.all fun pindex => ((sampleNodeEnv blocks).readBlockAt pindex).all fun block =>
    match sampleVerification.bad sampleCrypto pindex.hashBlock block with
    | .ok bad => !bad
    | .error _ => false

private theorem sound_of_sampleSound {blocks : Nat → CBlock} {chain : BlockChain}
    (checked : sampleSound blocks chain = true) :
    ∀ pindex ∈ chain, ∀ block, (sampleNodeEnv blocks).readBlockAt pindex = some block →
      sampleVerification.bad sampleCrypto pindex.hashBlock block = .ok false := by
  intro pindex member block read
  have one := List.all_eq_true.mp checked pindex member
  simp only [read, Option.all_some] at one
  split at one
  · rename_i bad result
    rw [result]
    simpa using one
  · simp at one

theorem restored_of_run_coherentArrivals : ∃ records loaded,
    CursorDelivers (sampleNode coherentBlocks []
      (sampleArrivals coherentBlocks coherentArrivals)).txdb.blockindex records ∧
    loadBlockIndex (sampleNodeEnv coherentBlocks) BitVec.toNat sampleVerification records
        (sampleNode coherentBlocks []
          (sampleArrivals coherentBlocks coherentArrivals)).txdb.hashBestChain =
      some (.ok loaded) ∧
    Restored (sampleNode coherentBlocks [] (sampleArrivals coherentBlocks coherentArrivals))
      loaded := by
  have begun : Begun (sampleNodeEnv coherentBlocks) (sampleStartNode coherentBlocks []) := by
    have work : (0 : Int) < getBlockWork (coherentBlocks 0).nBits := by decide +kernel
    refine ⟨sampleClock, 1, 8, coherentBlocks 0, [], rfl, rfl, by decide +kernel, work, ?_⟩
    rw [sampleStartNode, addToBlockIndex_initial sampleClock 1 8 [] rfl work]
  have succeeds : ∀ i (small : i < coherentArrivals.length), sampleSucceeds coherentBlocks
      (sampleNode coherentBlocks [] (sampleArrivals coherentBlocks (coherentArrivals.take i)))
      coherentArrivals[i].1 coherentArrivals[i].2 = true := by
    decide +kernel
  have run : NodeRun (sampleNodeEnv coherentBlocks) (Succeeds (sampleNodeEnv coherentBlocks))
      (sampleStartNode coherentBlocks [])
      (sampleNode coherentBlocks [] (sampleArrivals coherentBlocks coherentArrivals)) :=
    sampleArrivals_run (by decide +kernel) fun i small =>
      succeeds_of_sampleSucceeds (succeeds i small)
  have sound : sampleSound coherentBlocks (sampleNode coherentBlocks []
      (sampleArrivals coherentBlocks coherentArrivals)).pindexBest = true := by
    decide +kernel
  obtain ⟨records, delivers⟩ := exists_cursorDelivers_of_run begun (begun.restartable_run run)
  obtain ⟨loaded, result, restored, _⟩ :=
    restored_of_run begun run BitVec.toNat delivers (sound_of_sampleSound sound)
  exact ⟨records, loaded, delivers, result, restored⟩

end FooCoin

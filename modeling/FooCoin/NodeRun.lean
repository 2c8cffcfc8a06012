import FooCoin.NodeEffect

/-!
# Runs of a node

A node starts with the genesis block in its index.  From then on it takes blocks that `AcceptBlock`
wrote to disk, in any order and over any tree, takes transactions into its memory pool, and its
wallets may change by themselves.  A run may ask a condition of every step.
-/

namespace FooCoin

open Function Stateful Relation

/-- What a node may be asked to do. -/
inductive NodeEvent
  /-- `AddToBlockIndex`, with the adjusted time at each `ConnectBlock` that it leads to. -/
  | block (clock : UInt256 → Int) (nFile nBlockPos : Nat) (block : CBlock)
  /-- `CTxMemPool::accept` with `fCheckInputs`. -/
  | transaction (rateLimited : Bool) (tx : CTransaction)
  /-- The wallets change for a reason of their own. -/
  | wallets (wallets : List CWallet)

/-- What `accept` sees of the chain. -/
def Node.acceptContext (rateLimited : Bool) (node : Node) : AcceptContext where
  txdb := node.txdb.txindex
  pindexBest := node.pindexBest
  nBestHeight := node.nBestHeight
  rateLimited

/-- The node after an event, whatever the call returned. -/
def Node.handle (env : Env) (node : Node) : NodeEvent → Node
  | .block clock nFile nBlockPos block => (addToBlockIndex env clock nFile nBlockPos block node).2
  | .transaction rateLimited tx =>
      match node.mempool.accept env (node.acceptContext rateLimited) true tx with
      | .error _ => node
      | .ok mempool => { node with mempool }
  | .wallets wallets => { node with wallets }

/-- What `ProcessBlock` and `AcceptBlock` make sure of before `AddToBlockIndex`. -/
structure Arrives (env : Env) (node : Node) (nFile nBlockPos : Nat) (block : CBlock) : Prop where
  stored : env.Stored nFile nBlockPos block
  checked : ∃ nAdjustedTime, block.checkBlock env.crypto nAdjustedTime = .ok ()
  previous : (node.mapBlockIndex block.hashPrevBlock).isSome

/-- The event is one that the callers let happen. -/
def NodeEvent.Admissible (env : Env) (node : Node) : NodeEvent → Prop
  | .block _ nFile nBlockPos pblock => Arrives env node nFile nBlockPos pblock
  | _ => True

/-- One event that the callers let happen and that meets a condition. -/
def NodeStep (env : Env) (condition : NodeEvent → Node → Prop) (before after : Node) : Prop :=
  ∃ event : NodeEvent, event.Admissible env before ∧ condition event before ∧
    after = before.handle env event

/-- Any number of such events. -/
abbrev NodeRun (env : Env) (condition : NodeEvent → Node → Prop) : Node → Node → Prop :=
  ReflTransGen (NodeStep env condition)

/-- The globals before any block. -/
def Node.initial (wallets : List CWallet) : Node where
  txdb := { txindex := fun _ => none, blockindex := fun _ => none, hashBestChain := none }
  mapBlockIndex _ := none
  pnext _ := []
  pindexGenesisBlock := []
  hashBestChain := 0
  pindexBest := []
  nBestHeight := -1
  bnBestChainWork := 0
  bnBestInvalidWork := 0
  mempool := .empty
  wallets

/-- The node that has added the genesis block. -/
def Started (env : Env) (node : Node) : Prop :=
  ∃ clock nFile nBlockPos genesis wallets,
    genesis.getHash env.crypto = env.hashGenesisBlock ∧ 0 < getBlockWork genesis.nBits ∧
      addToBlockIndex env clock nFile nBlockPos genesis (.initial wallets) = (.ok (), node)

/-- The block index is a tree over the genesis block, and the best block is in it. -/
structure Tree (env : Env) (genesis : CBlockIndex) (node : Node) : Prop where
  start : node.pindexGenesisBlock = [genesis]
  closed : Closed node.mapBlockIndex
  rooted : ∀ hash chain, node.mapBlockIndex hash = some chain → Rooted env genesis chain
  best : Known node.mapBlockIndex node.pindexBest
  hash : node.hashBestChain = getBlockHash node.pindexBest

variable {env : Env} {genesis : CBlockIndex}

/-- The node that has nothing but the genesis block. -/
def genesisNode (genesis : CBlockIndex) (wallets : List CWallet) : Node where
  txdb :=
    { txindex := fun _ => none
      blockindex := update (fun _ => none) genesis.hashBlock
        (some { entry := genesis, hashPrev := 0, hashNext := 0 })
      hashBestChain := some genesis.hashBlock }
  mapBlockIndex := update (fun _ => none) genesis.hashBlock (some [genesis])
  pnext _ := []
  pindexGenesisBlock := [genesis]
  hashBestChain := genesis.hashBlock
  pindexBest := [genesis]
  nBestHeight := (genesis.nHeight : Nat)
  bnBestChainWork := genesis.bnChainWork
  bnBestInvalidWork := 0
  mempool := .empty
  wallets

/-- Adding the genesis block. -/
theorem addToBlockIndex_initial (clock : UInt256 → Int) (nFile nBlockPos : Nat) {block : CBlock}
    (wallets : List CWallet) (hash : block.getHash env.crypto = env.hashGenesisBlock)
    (work : 0 < getBlockWork block.nBits) :
    addToBlockIndex env clock nFile nBlockPos block (.initial wallets) =
      (.ok (), genesisNode (.ofBlock env.crypto nFile nBlockPos block []) wallets) := by
  have heavier : (0 : Int) < getChainWork [.ofBlock env.crypto nFile nBlockPos block []] := by
    simpa [getChainWork, CBlockIndex.ofBlock] using work
  simp only [addToBlockIndex, Node.initial, Option.isSome_none, Bool.false_eq_true, if_false,
    Option.getD_none, heavier, if_true, setBestChain, hash, and_self]
  rw [← hash]
  rfl

theorem Started.eq {node : Node} (started : Started env node) :
    ∃ genesis wallets, node = genesisNode genesis wallets := by
  obtain ⟨clock, nFile, nBlockPos, block, wallets, hash, work, added⟩ := started
  rw [addToBlockIndex_initial clock nFile nBlockPos wallets hash work] at added
  exact ⟨_, wallets, (Prod.mk.inj added).2.symm⟩

theorem genesisNode_tree (wallets : List CWallet) :
    Tree env genesis (genesisNode genesis wallets) := by
  have found : ∀ hash chain, (genesisNode genesis wallets).mapBlockIndex hash = some chain →
      hash = genesis.hashBlock ∧ chain = [genesis] := by
    intro hash chain found
    by_cases own : hash = genesis.hashBlock
    · subst own
      simp only [genesisNode, update_self, Option.some.injEq] at found
      exact ⟨rfl, found.symm⟩
    · simp [genesisNode, update_of_ne own] at found
  refine ⟨rfl, ⟨?_, ?_⟩, ?_, ?_, rfl⟩
  · intro hash chain present
    obtain ⟨rfl, rfl⟩ := found hash chain present
    rfl
  · intro hash entry pprev present above
    obtain ⟨_, same⟩ := found hash _ present
    cases same
    exact absurd rfl above
  · intro hash chain present
    obtain ⟨_, rfl⟩ := found hash chain present
    exact .genesis
  · simp [Known, genesisNode, getBlockHash]

/-- The node with a new block index entry on top of a chain. -/
def Node.enter (pindexNew : BlockChain) (node : Node) : Node :=
  { node with
    mapBlockIndex := update node.mapBlockIndex (getBlockHash pindexNew) (some pindexNew)
    txdb := node.txdb.writeBlockIndex pindexNew 0 }

/-- A block that arrives extends the tree. -/
private theorem Tree.enter {node : Node} {pindex : CBlockIndex} {pprev : BlockChain}
    {block : CBlock} (tree : Tree env genesis node)
    (new : node.mapBlockIndex pindex.hashBlock = none)
    (previous : node.mapBlockIndex block.hashPrevBlock = some pprev)
    (stacked : Stacked env pindex pprev block) :
    Tree env genesis (node.enter (pindex :: pprev)) ∧
      Rooted env genesis (pindex :: pprev) ∧
      Known (node.enter (pindex :: pprev)).mapBlockIndex (pindex :: pprev) := by
  have rooted := Rooted.block (tree.rooted _ _ previous) stacked
  have known : Known (node.enter (pindex :: pprev)).mapBlockIndex (pindex :: pprev) :=
    update_self ..
  have older (hash : UInt256) (chain : BlockChain)
      (found : node.mapBlockIndex hash = some chain) :
      (node.enter (pindex :: pprev)).mapBlockIndex hash = some chain := by
    refine (update_of_ne ?_ _ _).trans found
    rintro rfl
    exact absurd (new.symm.trans found) (by simp)
  have cases_of (hash : UInt256) (chain : BlockChain)
      (found : (node.enter (pindex :: pprev)).mapBlockIndex hash = some chain) :
      node.mapBlockIndex hash = some chain ∨
        hash = pindex.hashBlock ∧ chain = pindex :: pprev := by
    by_cases own : hash = pindex.hashBlock
    · subst own
      exact .inr ⟨rfl, Option.some.inj (found.symm.trans known)⟩
    · exact .inl ((update_of_ne own _ _).symm.trans found)
  refine ⟨⟨tree.start, ⟨?_, ?_⟩, ?_, older _ _ tree.best, tree.hash⟩, rooted, known⟩
  · intro hash chain found
    obtain old | ⟨rfl, rfl⟩ := cases_of hash chain found
    · exact tree.closed.hash hash chain old
    · rfl
  · intro hash entry rest found rest_ne
    obtain old | ⟨_, own⟩ := cases_of hash _ found
    · exact older _ _ (tree.closed.tail hash entry rest old rest_ne)
    · cases own
      rw [← stacked.link]
      exact older _ _ previous
  · intro hash chain found
    obtain old | ⟨rfl, rfl⟩ := cases_of hash chain found
    · exact tree.rooted hash chain old
    · exact rooted

/-- What `AddToBlockIndex` does with a new block. -/
theorem addToBlockIndex_eq {node : Node} {nFile nBlockPos : Nat} {block : CBlock}
    {pprev : BlockChain} (clock : UInt256 → Int)
    (new : node.mapBlockIndex (block.getHash env.crypto) = none)
    (previous : (node.mapBlockIndex block.hashPrevBlock).getD [] = pprev) {pindex : CBlockIndex}
    (entry : pindex = .ofBlock env.crypto nFile nBlockPos block pprev) :
    addToBlockIndex env clock nFile nBlockPos block node =
      if node.bnBestChainWork < getChainWork (pindex :: pprev) then
        setBestChain env clock block (pindex :: pprev) (node.enter (pindex :: pprev))
      else (.ok (), node.enter (pindex :: pprev)) := by
  subst entry
  simp only [addToBlockIndex, new, previous, Option.isSome_none, Bool.false_eq_true, if_false]
  rfl

/-- What `AddToBlockIndex` does with a block that arrives. -/
theorem Tree.addToBlockIndex_cases {node : Node} {nFile nBlockPos : Nat} {block : CBlock}
    (tree : Tree env genesis node) (arrives : Arrives env node nFile nBlockPos block)
    (clock : UInt256 → Int) :
    addToBlockIndex env clock nFile nBlockPos block node = (.error .rejected, node) ∨
      ∃ pindex pprev, (node.mapBlockIndex block.hashPrevBlock).getD [] = pprev ∧
        pindex = .ofBlock env.crypto nFile nBlockPos block pprev ∧
        Stacked env pindex pprev block ∧ pprev ≠ [] ∧ Rooted env genesis (pindex :: pprev) ∧
        Tree env genesis (node.enter (pindex :: pprev)) ∧
        Known (node.enter (pindex :: pprev)).mapBlockIndex (pindex :: pprev) ∧
        addToBlockIndex env clock nFile nBlockPos block node =
          if node.bnBestChainWork < getChainWork (pindex :: pprev) then
            setBestChain env clock block (pindex :: pprev) (node.enter (pindex :: pprev))
          else (.ok (), node.enter (pindex :: pprev)) := by
  obtain ⟨nAdjustedTime, accepted⟩ := arrives.checked
  obtain ⟨pprev, previous⟩ := Option.isSome_iff_exists.mp arrives.previous
  cases new : node.mapBlockIndex (block.getHash env.crypto) with
  | some chain =>
      left
      simp [addToBlockIndex, new]
  | none =>
      right
      have stacked : Stacked env (.ofBlock env.crypto nFile nBlockPos block pprev) pprev block :=
        ⟨arrives.stored, CBlock.checked_of_checkBlock accepted,
          (tree.closed.hash _ _ previous).symm, rfl⟩
      obtain ⟨entered, rooted, known⟩ := tree.enter new previous stacked
      have found : (node.mapBlockIndex block.hashPrevBlock).getD [] = pprev := by
        rw [previous, Option.getD_some]
      exact ⟨_, pprev, found, rfl, stacked, (tree.rooted _ _ previous).ne_nil, rooted, entered,
        known, addToBlockIndex_eq clock new found rfl⟩

/-- The tree is seen through four of the globals. -/
theorem Tree.congr {before after : Node} (tree : Tree env genesis before)
    (start : after.pindexGenesisBlock = before.pindexGenesisBlock)
    (index : after.mapBlockIndex = before.mapBlockIndex)
    (best : after.pindexBest = before.pindexBest)
    (hash : after.hashBestChain = before.hashBestChain) : Tree env genesis after where
  start := start.trans tree.start
  closed := index ▸ tree.closed
  rooted := index ▸ tree.rooted
  best := by
    rw [index, best]
    exact tree.best
  hash := by
    rw [hash, best]
    exact tree.hash

/-- Moving the best chain keeps the tree. -/
theorem Tree.setBestChain (clock : UInt256 → Int) {node : Node} {pindex : CBlockIndex}
    {pprev : BlockChain} {block : CBlock} (tree : Tree env genesis node) (above : pprev ≠ [])
    (stacked : Stacked env pindex pprev block) (rooted : Rooted env genesis (pindex :: pprev))
    (known : Known node.mapBlockIndex (pindex :: pprev)) :
    Tree env genesis (setBestChain env clock block (pindex :: pprev) node).2 := by
  refine (@setBestChain_keeps env clock
    (fun node => Tree env genesis node ∧ Known node.mapBlockIndex (pindex :: pprev)) genesis
    ?_ ?_ pindex pprev block node ?_ ?_ (by simp [tree.start]) rooted above stacked
    ⟨tree, known⟩).1
  · rintro before after same ⟨holds, listed⟩
    rw [same]
    exact ⟨holds.congr rfl rfl rfl rfl, listed⟩
  · rintro before context entry below other txdb wallets _ _ _ ⟨holds, listed⟩
    exact ⟨holds.congr rfl rfl rfl rfl, listed⟩
  · intro after outcome
    obtain ⟨_, _, fails, _⟩ | ⟨pfork, txdb, vResurrect, progress, _, _, _, moved⟩ :=
      reorganize_cases env clock
        (postpone (getChainWork node.pindexBest) (pindex :: pprev)).2 node
    · simp [outcome] at fails
    · obtain ⟨_, rfl⟩ := Prod.mk.inj (outcome.symm.trans moved)
      exact ⟨tree.congr rfl rfl rfl rfl, known⟩
  · rintro after ⟨holds, listed⟩
    refine ⟨⟨holds.start, holds.closed, holds.rooted, listed, ?_⟩, listed⟩
    simp only [Node.newBest]
    rw [stacked.entry]
    rfl

/-- Every event keeps the tree. -/
theorem Tree.handle {node : Node} (tree : Tree env genesis node) {event : NodeEvent}
    (admissible : event.Admissible env node) : Tree env genesis (node.handle env event) := by
  cases event with
  | block clock nFile nBlockPos block =>
      simp only [Node.handle]
      obtain same | ⟨pindex, pprev, _, _, stacked, above, rooted, entered, known, outcome⟩ :=
        tree.addToBlockIndex_cases admissible clock
      · rwa [same]
      · rw [outcome]
        split
        · exact entered.setBestChain clock above stacked rooted known
        · exact entered
  | transaction rateLimited tx =>
      simp only [Node.handle]
      split
      · exact tree
      · exact tree.congr rfl rfl rfl rfl
  | wallets wallets => exact tree.congr rfl rfl rfl rfl

/-- Every run keeps the tree. -/
theorem Tree.of_run {condition : NodeEvent → Node → Prop} {start node : Node}
    (tree : Tree env genesis start) (run : NodeRun env condition start node) :
    Tree env genesis node := by
  induction run with
  | refl => exact tree
  | tail _ step induction =>
      obtain ⟨event, admissible, _, rfl⟩ := step
      exact induction.handle admissible

end FooCoin

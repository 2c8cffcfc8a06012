import FooCoin.BlockTree

/-!
# What moving the best chain does

One description of each function of the node model, which later arguments use instead of the
definition.  A call that fails has changed nothing but the wallets and `bnBestInvalidWork`; only the
blocks that `SetBestChain` connects after a reorganisation can fail later than that.
-/

namespace FooCoin

open Function Stateful

variable {env : Env} {clock : UInt256 → Int}

/-- Nothing but the wallets and `bnBestInvalidWork` differs. -/
def Node.Kept (before after : Node) : Prop :=
  after = { before with wallets := after.wallets, bnBestInvalidWork := after.bnBestInvalidWork }

theorem Node.Kept.refl (node : Node) : node.Kept node := rfl

/-- The node after a block was connected to the tip of its database. -/
def Node.connectTip (env : Env) (block : CBlock) (pindexNew : BlockChain) (txdb : CTxDB)
    (wallets : List CWallet) (node : Node) : Node :=
  { node with
    txdb := { txdb with hashBestChain := some (block.getHash env.crypto) }
    wallets
    pnext := link node.pnext pindexNew
    mempool := removeAll env block.vtx node.mempool }

/-! ## Connecting a block -/

/-- Connecting a block either fails on the database, or ends as the wallets do. -/
theorem connectAndSync_cases (env : Env) (clock : UInt256 → Int) (node : Node)
    (pindex : CBlockIndex) (pprev : BlockChain) (block : CBlock) (progress : ConnectProgress) :
    (∃ failure, connectAndSync env clock node pindex pprev block progress =
        (.error failure, progress)) ∨
      ∃ context txdb, block.connectBlock env context pindex pprev progress.txdb = .ok txdb ∧
        connectAndSync env clock node pindex pprev block progress =
          ((syncBlock env.crypto block progress.wallets).1,
            { txdb, wallets := (syncBlock env.crypto block progress.wallets).2 }) := by
  simp only [connectAndSync]
  split
  · rename_i failure _
    exact .inl ⟨failure, rfl⟩
  · rename_i txdb connected
    exact .inr ⟨_, txdb, connected, rfl⟩

theorem connectAndSync_ok {node : Node} {pindex : CBlockIndex} {pprev : BlockChain}
    {block : CBlock} {progress after : ConnectProgress}
    (connected : connectAndSync env clock node pindex pprev block progress = (.ok (), after)) :
    (∃ context, block.connectBlock env context pindex pprev progress.txdb = .ok after.txdb) ∧
      syncBlock env.crypto block progress.wallets = (.ok (), after.wallets) := by
  obtain ⟨failure, fails⟩ | ⟨context, txdb, done, outcome⟩ :=
    connectAndSync_cases env clock node pindex pprev block progress
  · simp [fails] at connected
  · rw [outcome] at connected
    obtain ⟨synced, rfl⟩ := Prod.mk.inj connected
    exact ⟨⟨context, done⟩, Prod.ext synced rfl⟩

/-- `SetBestChainInner` connects the block or leaves the chain alone. -/
theorem setBestChainInner_cases (env : Env) (clock : UInt256 → Int) (block : CBlock)
    (pindex : CBlockIndex) {pprev : BlockChain} (node : Node) (previous : pprev ≠ []) :
    (∃ failure after, setBestChainInner env clock block (pindex :: pprev) node =
        (.error failure, after) ∧ node.Kept after) ∨
      ∃ context txdb wallets, block.connectBlock env context pindex pprev node.txdb = .ok txdb ∧
        setBestChainInner env clock block (pindex :: pprev) node =
          (.ok (), node.connectTip env block (pindex :: pprev) txdb wallets) := by
  simp only [setBestChainInner]
  split
  · exact .inl ⟨_, _, rfl, rfl⟩
  · exact .inl ⟨_, _, rfl, rfl⟩
  · rename_i progress connected
    obtain ⟨⟨context, done⟩, _⟩ := connectAndSync_ok connected
    refine .inr ⟨context, progress.txdb, progress.wallets, done, ?_⟩
    cases pprev with
    | nil => exact absurd rfl previous
    | cons entry pprev => rfl

/-- `Reorganize` moves the chain or leaves it alone. -/
theorem reorganize_cases (env : Env) (clock : UInt256 → Int) (pindexNew : BlockChain)
    (node : Node) :
    (∃ failure after, reorganize env clock pindexNew node = (.error failure, after) ∧
        node.Kept after) ∨
      ∃ pfork txdb vResurrect progress, findFork node.pindexBest pindexNew = some pfork ∧
        disconnectBranch env (branchAbove pfork node.pindexBest) node.txdb [] =
          .ok (txdb, vResurrect) ∧
        connectBranch env clock node (branchAbove pfork pindexNew).reverse
          { txdb, wallets := node.wallets } = (.ok (), progress) ∧
        reorganize env clock pindexNew node =
          (.ok (), node.afterReorganize env (branchAbove pfork node.pindexBest)
            (branchAbove pfork pindexNew).reverse vResurrect
            (branchTransactions env (branchAbove pfork pindexNew).reverse)
            { progress with
              txdb := { progress.txdb with hashBestChain := some (getBlockHash pindexNew) } }) := by
  simp only [reorganize]
  split
  · exact .inl ⟨_, _, rfl, rfl⟩
  · rename_i pfork fork
    split
    · exact .inl ⟨_, _, rfl, rfl⟩
    · rename_i txdb vResurrect disconnected
      split
      · exact .inl ⟨_, _, rfl, rfl⟩
      · rename_i progress connected
        exact .inr ⟨pfork, txdb, vResurrect, progress, fork, disconnected, connected, rfl⟩

/-- `SetBestChain` fails and leaves the chain alone, or connects the block to the best chain, or
reorganises and goes on to the postponed blocks. -/
theorem setBestChain_cases (env : Env) (clock : UInt256 → Int) (block : CBlock)
    (pindex : CBlockIndex) {pprev : BlockChain} {node : Node} (above : pprev ≠ [])
    (started : node.pindexGenesisBlock ≠ []) :
    (∃ failure after, node.Kept after ∧
        setBestChain env clock block (pindex :: pprev) node = (.error failure, after)) ∨
      (∃ context txdb wallets, block.hashPrevBlock = node.hashBestChain ∧
        block.connectBlock env context pindex pprev node.txdb = .ok txdb ∧
        setBestChain env clock block (pindex :: pprev) node =
          (.ok (), (node.connectTip env block (pindex :: pprev) txdb wallets).newBest
            (block.getHash env.crypto) (pindex :: pprev))) ∨
      ∃ middle, block.hashPrevBlock ≠ node.hashBestChain ∧
        reorganize env clock (postpone (getChainWork node.pindexBest) (pindex :: pprev)).2 node =
          (.ok (), middle) ∧
        setBestChain env clock block (pindex :: pprev) node =
          match connectPostponed env clock
            (postpone (getChainWork node.pindexBest) (pindex :: pprev)).1.reverse middle with
          | (.error failure, after) => (.error failure, after)
          | (.ok (), after) =>
              (.ok (), after.newBest (block.getHash env.crypto) (pindex :: pprev)) := by
  by_cases extends_best : block.hashPrevBlock = node.hashBestChain
  · obtain ⟨failure, after, outcome, same⟩ | ⟨context, txdb, wallets, connected, outcome⟩ :=
      setBestChainInner_cases env clock block pindex node above
    · refine .inl ⟨failure, after, same, ?_⟩
      simp only [setBestChain, started, false_and, if_false, if_pos extends_best, outcome]
    · refine .inr (.inl ⟨context, txdb, wallets, extends_best, connected, ?_⟩)
      simp only [setBestChain, started, false_and, if_false, if_pos extends_best, outcome]
  · by_cases best : node.pindexBest = []
    · refine .inl ⟨.nullPointer, node, .refl node, ?_⟩
      simp only [setBestChain, started, false_and, if_false, if_neg extends_best,
        reorganizeAndConnect, best, if_true]
    obtain ⟨failure, after, outcome, same⟩ | ⟨_, _, _, _, _, _, _, outcome⟩ :=
      reorganize_cases env clock (postpone (getChainWork node.pindexBest) (pindex :: pprev)).2 node
    · left
      by_cases rejected : failure = .rejected
      · subst rejected
        refine ⟨.rejected, after.invalidChainFound (pindex :: pprev), ?_, ?_⟩
        · rw [same]
          rfl
        · simp only [setBestChain, started, false_and, if_false, if_neg extends_best,
            reorganizeAndConnect, best, outcome]
      · refine ⟨failure, after, same, ?_⟩
        simp [setBestChain, started, if_neg extends_best, reorganizeAndConnect, best, outcome]
    · refine .inr (.inr ⟨_, extends_best, outcome, ?_⟩)
      simp only [setBestChain, started, false_and, if_false, if_neg extends_best,
        reorganizeAndConnect, best, outcome]
      all_goals rfl

/-! ## Keeping a property -/

section Keeps

variable {invariant : Node → Prop} {genesis : CBlockIndex}

/-- What every failing call keeps, and every connected block, the postponed blocks keep. -/
theorem connectPostponed_keeps
    (kept : ∀ {before after : Node}, before.Kept after → invariant before → invariant after)
    (connect : ∀ {node : Node} {context pindex pprev block txdb wallets}, pprev ≠ [] →
      Stacked env pindex pprev block →
      block.connectBlock env context pindex pprev node.txdb = .ok txdb → invariant node →
      invariant (node.connectTip env block (pindex :: pprev) txdb wallets))
    {vpindexSecondary : List BlockChain}
    (placed : ∀ pindex ∈ vpindexSecondary, ∃ entry pprev block, pindex = entry :: pprev ∧
      pprev ≠ [] ∧ Stacked env entry pprev block)
    {node : Node} (holds : invariant node) :
    invariant (connectPostponed env clock vpindexSecondary node).2 := by
  induction vpindexSecondary generalizing node with
  | nil => exact holds
  | cons pindex vpindexSecondary induction =>
      obtain ⟨⟨entry, pprev, block, rfl, above, first⟩, others⟩ := List.forall_mem_cons.mp placed
      simp only [connectPostponed, List.head?_cons, Option.bind_some, first.readBlockAt_eq]
      obtain ⟨failure, after, outcome, same⟩ | ⟨context, txdb, wallets, connected, outcome⟩ :=
        setBestChainInner_cases env clock block entry node above
      · cases failure <;> simpa [outcome] using kept same holds
      · simp only [outcome]
        exact induction others (connect above first connected holds)

/-- The blocks that `SetBestChain` postpones are placed. -/
theorem placed_of_postponed {bnBestWork : Int} {pindexNew : BlockChain}
    (rooted : Rooted env genesis pindexNew) :
    ∀ pindex ∈ (postpone bnBestWork pindexNew).1, ∃ entry pprev block, pindex = entry :: pprev ∧
      pprev ≠ [] ∧ Stacked env entry pprev block := by
  induction rooted with
  | genesis => simp [postpone]
  | @block entry pprev block lower placed induction =>
      simp only [postpone]
      split
      · rename_i more
        refine List.forall_mem_cons.mpr ⟨⟨entry, pprev, block, rfl, more.1, placed⟩, induction⟩
      · simp

/-- What every failing call keeps, every connected block, the reorganisation and the new globals,
`SetBestChain` keeps. -/
theorem setBestChain_keeps
    (kept : ∀ {before after : Node}, before.Kept after → invariant before → invariant after)
    (connect : ∀ {node : Node} {context pindex pprev block txdb wallets}, pprev ≠ [] →
      Stacked env pindex pprev block →
      block.connectBlock env context pindex pprev node.txdb = .ok txdb → invariant node →
      invariant (node.connectTip env block (pindex :: pprev) txdb wallets))
    {pindex : CBlockIndex} {pprev : BlockChain} {block : CBlock} {node : Node}
    (reorganized : ∀ {after : Node}, reorganize env clock
      (postpone (getChainWork node.pindexBest) (pindex :: pprev)).2 node = (.ok (), after) →
        invariant after)
    (newBest : ∀ {after : Node}, invariant after →
      invariant (after.newBest (block.getHash env.crypto) (pindex :: pprev)))
    (started : node.pindexGenesisBlock ≠ []) (rooted : Rooted env genesis (pindex :: pprev))
    (above : pprev ≠ []) (placed : Stacked env pindex pprev block) (holds : invariant node) :
    invariant (setBestChain env clock block (pindex :: pprev) node).2 := by
  obtain ⟨failure, after, same, outcome⟩ | ⟨context, txdb, wallets, _, connected, outcome⟩ |
    ⟨middle, _, moved, outcome⟩ := setBestChain_cases env clock block pindex above started
  · rw [outcome]
    exact kept same holds
  · rw [outcome]
    exact newBest (connect above placed connected holds)
  · have postponed : invariant (connectPostponed env clock
        (postpone (getChainWork node.pindexBest) (pindex :: pprev)).1.reverse middle).2 :=
      connectPostponed_keeps kept connect
        (fun pointer member => placed_of_postponed rooted pointer (List.mem_reverse.mp member))
        (reorganized moved)
    rw [outcome]
    split
    · rename_i stopped
      rwa [stopped] at postponed
    · rename_i connected
      rw [connected] at postponed
      exact newBest postponed

end Keeps

end FooCoin

import FooCoin.SampleNode
import FooCoin.WalletSync

/-!
# What a failed call leaves behind

`SetBestChain` works on a copy of the database and changes the globals, the links and the memory
pool only after the copy has replaced the original.  The wallets are no part of this: `ConnectBlock`
synchronises them while the call can still fail.
-/

namespace FooCoin

open Function Stateful

/-- The chain, the memory pool and the wallets are as they were. -/
structure Untouched (before after : Node) : Prop where
  txindex : after.txdb.txindex = before.txdb.txindex
  record : after.txdb.hashBestChain = before.txdb.hashBestChain
  hashBestChain : after.hashBestChain = before.hashBestChain
  pindexBest : after.pindexBest = before.pindexBest
  nBestHeight : after.nBestHeight = before.nBestHeight
  bnBestChainWork : after.bnBestChainWork = before.bnBestChainWork
  pnext : after.pnext = before.pnext
  mempool : after.mempool = before.mempool
  wallets : after.wallets = before.wallets

section Attempted

variable (env : Env) (clock : UInt256 → Int) (node : Node)

/-- What `ConnectBlock` sees of the node. -/
def Node.callContext (pindex : CBlockIndex) : CallContext where
  nAdjustedTime := clock pindex.hashBlock
  nBestHeight := node.nBestHeight
  mempool := node.mempool.lookup

/-- The blocks of a branch that connect to a database before the first that does not. -/
def connectedBlocks : List BlockChain → CTxDB → List CBlock
  | [], _ => []
  | [] :: _, _ => []
  | (pindex :: pprev) :: vConnect, txdb =>
      match env.readBlockAt pindex with
      | none => []
      | some block =>
          match block.connectBlock env (node.callContext clock pindex) pindex pprev txdb with
          | .error _ => []
          | .ok txdb => block :: connectedBlocks vConnect txdb

/-- The blocks that `Reorganize` connects before the first that does not connect. -/
def reorganizedBlocks (pindexNew : BlockChain) : List CBlock :=
  match findFork node.pindexBest pindexNew with
  | none => []
  | some pfork =>
      match disconnectBranch env (branchAbove pfork node.pindexBest) node.txdb [] with
      | .error _ => []
      | .ok (txdb, _) =>
          connectedBlocks env clock node (branchAbove pfork pindexNew).reverse txdb

/-- The blocks of the candidate's branch that connect before the first that does not, where
`SetBestChain` has to reorganise. -/
def attemptedBlocks (block : CBlock) (pindexNew : BlockChain) : List CBlock :=
  if block.hashPrevBlock = node.hashBestChain then []
  else
    reorganizedBlocks env clock node (postpone (getChainWork node.pindexBest) pindexNew).2

end Attempted

variable {env : Env} {clock : UInt256 → Int} {node : Node}

/-! ## The wallets -/

/-- A branch that fails to connect has synchronised the wallets with the blocks before the failing
one. -/
private theorem connectBranch_synced {vConnect : List BlockChain}
    {progress after : ConnectProgress}
    (fails : connectBranch env clock node vConnect progress = (.error .rejected, after)) :
    sequence (syncBlock env.crypto) (connectedBlocks env clock node vConnect progress.txdb)
      progress.wallets = (.ok (), after.wallets) := by
  induction vConnect generalizing progress with
  | nil => simp [connectBranch, Stateful.sequence] at fails
  | cons pindex vConnect induction =>
      simp only [connectBranch, Stateful.sequence] at fails
      cases pindex with
      | nil => simp [connectPointer] at fails
      | cons entry pprev =>
          simp only [connectPointer] at fails
          cases read : env.readBlockAt entry with
          | none =>
              simp only [read, Prod.mk.injEq] at fails
              simp [connectedBlocks, read, Stateful.sequence, fails.2]
          | some block =>
              simp only [read, connectAndSync] at fails
              simp only [connectedBlocks, read, Node.callContext]
              cases connected : block.connectBlock env
                  { nAdjustedTime := clock entry.hashBlock
                    nBestHeight := node.nBestHeight
                    mempool := node.mempool.lookup } entry pprev progress.txdb with
              | error own =>
                  simp only [connected, Prod.mk.injEq] at fails ⊢
                  simp [Stateful.sequence, ← fails.2]
              | ok txdb =>
                  simp only [connected] at fails ⊢
                  split at fails
                  · rename_i failure stopped step
                    obtain ⟨failing, _⟩ := Prod.mk.inj step
                    obtain ⟨rejected, _⟩ := Prod.mk.inj fails
                    cases rejected
                    exact absurd rfl (syncBlock_error failing)
                  · rename_i middle step
                    obtain ⟨synced, rfl⟩ := Prod.mk.inj step
                    have rest := induction fails
                    exact sequence_cons_eq_ok.mpr ⟨_, Prod.ext synced rfl, rest⟩

/-- `Reorganize` that returns `false` has synchronised the wallets with the blocks before the failing
one, and changed nothing else. -/
private theorem reorganize_rejected {pindexNew : BlockChain} {after : Node}
    (fails : reorganize env clock pindexNew node = (.error .rejected, after)) :
    after = { node with wallets := after.wallets } ∧
      sequence (syncBlock env.crypto) (reorganizedBlocks env clock node pindexNew) node.wallets =
        (.ok (), after.wallets) := by
  simp only [reorganize] at fails
  split at fails
  · rename_i fork
    cases fails
    exact ⟨rfl, by simp [reorganizedBlocks, fork, Stateful.sequence]⟩
  · rename_i pfork fork
    split at fails
    · rename_i failure disconnected
      cases fails
      exact ⟨rfl, by simp [reorganizedBlocks, fork, disconnected, Stateful.sequence]⟩
    · rename_i txdb vResurrect disconnected
      split at fails
      · rename_i failure progress connected
        obtain ⟨rejected, rfl⟩ := Prod.mk.inj fails
        cases rejected
        refine ⟨rfl, ?_⟩
        simp only [reorganizedBlocks, fork, disconnected]
        exact connectBranch_synced connected
      · simp at fails

/-! ## The call -/

/-- A block that does not connect to the tip has changed nothing. -/
private theorem setBestChainInner_rejected {block : CBlock} {pindexNew : BlockChain} {after : Node}
    (fails : setBestChainInner env clock block pindexNew node = (.error .rejected, after)) :
    after = node.invalidChainFound pindexNew := by
  cases pindexNew with
  | nil => simp [setBestChainInner] at fails
  | cons pindex pprev =>
      simp only [setBestChainInner] at fails
      obtain ⟨failure, outcome⟩ | ⟨context, txdb, connected, outcome⟩ :=
        connectAndSync_cases env clock node pindex pprev block
          { txdb := node.txdb, wallets := node.wallets }
      · simp only [outcome] at fails
        split at fails
        · rename_i own
          cases own
          cases fails
          rfl
        · rename_i other own
          cases own
          cases fails
          exact absurd rfl other
        · rename_i own
          cases own
      · rw [outcome] at fails
        split at fails
        · rename_i own
          exact absurd rfl (syncBlock_error (Prod.mk.inj own).1)
        · rename_i other own
          cases fails
          exact absurd rfl other
        · cases pprev <;> simp at fails

/-- The postponed blocks never make the call return `false`. -/
private theorem connectPostponed_ne_rejected {vpindexSecondary : List BlockChain} :
    (connectPostponed env clock vpindexSecondary node).1 ≠ .error .rejected := by
  induction vpindexSecondary generalizing node with
  | nil => simp [connectPostponed]
  | cons pindex vpindexSecondary induction =>
      simp only [connectPostponed]
      split
      · simp
      · split
        · simp
        · rename_i other _
          simpa using other
        · exact induction

/-- Whenever `SetBestChain` returns `false`, it has left everything as it was exactly if every wallet
is settled about the blocks of the candidate's branch that did connect. -/
theorem untouched_iff_of_rejected {block : CBlock} {pindexNew : BlockChain} {after : Node}
    (fails : setBestChain env clock block pindexNew node = (.error .rejected, after)) :
    Untouched node after ↔ ∀ wallet ∈ node.wallets, wallet.Settled env.crypto
      (blockTransactions (attemptedBlocks env clock node block pindexNew)) := by
  have left_behind : node.Kept after ∧
      sequence (syncBlock env.crypto) (attemptedBlocks env clock node block pindexNew)
        node.wallets = (.ok (), after.wallets) := by
    simp only [setBestChain] at fails
    split at fails
    · rename_i failure stopped outcome
      obtain ⟨rejected, rfl⟩ := Prod.mk.inj fails
      cases rejected
      split at outcome
      · simp at outcome
      · split at outcome
        · rename_i extends_best
          rw [setBestChainInner_rejected outcome]
          exact ⟨rfl, by simp [attemptedBlocks, extends_best, Stateful.sequence, Node.invalidChainFound]⟩
        · rename_i elsewhere
          simp only [reorganizeAndConnect] at outcome
          simp only [attemptedBlocks, elsewhere, if_false]
          split at outcome
          · simp at outcome
          · split at outcome
            · rename_i middle reorganized
              obtain ⟨_, rfl⟩ := Prod.mk.inj outcome
              obtain ⟨same, synced⟩ := reorganize_rejected reorganized
              refine ⟨?_, synced⟩
              rw [same]
              rfl
            · rename_i other reorganized
              cases outcome
              exact absurd rfl other
            · rename_i middle reorganized
              exact absurd (Prod.mk.inj outcome).1 connectPostponed_ne_rejected
    · simp at fails
  obtain ⟨same, synced⟩ := left_behind
  rw [← syncBlocks_eq_self synced]
  constructor
  · exact Untouched.wallets
  · intro wallets
    rw [same]
    exact ⟨rfl, rfl, rfl, rfl, rfl, rfl, rfl, rfl, wallets⟩

/-! ## A wallet that keeps a transaction of a failed branch -/

/-- A coinbase that pays to a key. -/
def atomicCoinBase : CTransaction :=
  { sampleCoinBase 3 [] with vout := [{ nValue := 100000000, scriptPubKey := payToKey }] }

/-- The genesis block. -/
def atomicGenesis : CBlock := sampleBlock 0 1400000000 [sampleCoinBase 1 [100000000]]

/-- A block on top of it that pays to a key. -/
def atomicSide : CBlock :=
  sampleBlock (atomicGenesis.getHash sampleCrypto) 1400000240 [atomicCoinBase]

/-- The genesis block, the best block on top of it, and a longer branch whose second block takes too
much. -/
def atomicBlocks : Nat → CBlock
  | 0 => atomicGenesis
  | 1 => sampleBlock (atomicGenesis.getHash sampleCrypto) 1400000120 [sampleCoinBase 2 [100000000]]
  | 2 => atomicSide
  | _ => sampleBlock (atomicSide.getHash sampleCrypto) 1400000360 [sampleCoinBase 4 [200000000]]

/-- The arrival of the best block and of the first block of the other branch. -/
def atomicArrivals : List ((UInt256 → Int) × Nat) := [(sampleClock, 1), (sampleClock, 2)]

/-- The node that knows these blocks. -/
def atomicNode : Node :=
  sampleNode atomicBlocks [sampleWallet] (sampleArrivals atomicBlocks atomicArrivals)

/-- The pointer to the block before the candidate. -/
def atomicPrev : BlockChain :=
  (atomicNode.mapBlockIndex (atomicBlocks 3).hashPrevBlock).getD []

/-- The pointer to the candidate. -/
def atomicTip : BlockChain := sampleEntry 3 (atomicBlocks 3) atomicPrev :: atomicPrev

/-- What `SetBestChain` does with the candidate. -/
def atomicCall : Except Failure Unit × Node :=
  setBestChain (sampleNodeEnv atomicBlocks) sampleClock (atomicBlocks 3) atomicTip
    (atomicNode.enter atomicTip)

private theorem eq_pair {α β : Type*} {pair : α × β} {left : α} (first : pair.1 = left) :
    pair = (left, pair.2) :=
  Prod.ext first rfl

theorem atomicCall_rejected : atomicCall = (.error .rejected, atomicCall.2) :=
  eq_pair (by decide +kernel)

theorem untouched_iff_of_rejected_atomicCall :
    Untouched (atomicNode.enter atomicTip) atomicCall.2 ↔
      ∀ wallet ∈ (atomicNode.enter atomicTip).wallets, wallet.Settled sampleCrypto
        (blockTransactions (attemptedBlocks (sampleNodeEnv atomicBlocks) sampleClock
          (atomicNode.enter atomicTip) (atomicBlocks 3) atomicTip)) :=
  untouched_iff_of_rejected atomicCall_rejected

/-- The node is reached, the candidate arrives and is refused, and the wallet has gained the
transaction of the block that connected before it. -/
theorem not_untouched_atomicCall :
    Started (sampleNodeEnv atomicBlocks) (sampleStartNode atomicBlocks [sampleWallet]) ∧
      NodeRun (sampleNodeEnv atomicBlocks) (fun _ _ => True)
        (sampleStartNode atomicBlocks [sampleWallet]) atomicNode ∧
      Arrives (sampleNodeEnv atomicBlocks) atomicNode 4 8 (atomicBlocks 3) ∧
      addToBlockIndex (sampleNodeEnv atomicBlocks) sampleClock 4 8 (atomicBlocks 3) atomicNode =
        atomicCall ∧
      atomicCall.1 = .error .rejected ∧ ¬Untouched (atomicNode.enter atomicTip) atomicCall.2 := by
  refine ⟨sampleStartNode_started (by decide +kernel),
    sampleArrivals_run (by decide +kernel) fun _ _ => trivial,
    sampleArrives (by decide) (by decide +kernel) (by decide +kernel), ?_, by decide +kernel, ?_⟩
  · have new : atomicNode.mapBlockIndex ((atomicBlocks 3).getHash sampleCrypto) = none := by
      decide +kernel
    have heavier : atomicNode.bnBestChainWork < getChainWork atomicTip := by decide +kernel
    exact sampleAdd new rfl heavier
  · intro untouched
    have gained : (atomicCall.2.wallets.any fun wallet =>
        (wallet.mapWallet (atomicCoinBase.getHash sampleCrypto)).isSome) = true := by decide +kernel
    have before : ((atomicNode.enter atomicTip).wallets.any fun wallet =>
        (wallet.mapWallet (atomicCoinBase.getHash sampleCrypto)).isSome) = false := by
      decide +kernel
    rw [untouched.wallets, before] at gained
    exact Bool.false_ne_true gained

end FooCoin

import FooCoin.ConnectBlock
import FooCoin.Mempool
import FooCoin.Wallet

/-!
# The node

The globals of `main.cpp` around the block chain, and the functions that move the best chain:
`Reorganize`, `SetBestChainInner`, `SetBestChain` and `AddToBlockIndex`.  A function returns `false`
through `Failure.rejected`; every other failure is an exception or a crash that leaves it.  Writes
inside a database transaction go to a local copy of the database, which replaces the node's on
`TxnCommit` and is dropped on `TxnAbort` or when an exception unwinds the `CTxDB`.
-/

namespace FooCoin

open Function Stateful

/-- The state of a node. -/
structure Node where
  txdb : CTxDB
  mapBlockIndex : UInt256 → Option BlockChain
  /-- The `pnext` of the entry with a hash. -/
  pnext : UInt256 → BlockChain
  pindexGenesisBlock : BlockChain
  hashBestChain : UInt256
  pindexBest : BlockChain
  nBestHeight : Int
  bnBestChainWork : Int
  bnBestInvalidWork : Int
  mempool : CTxMemPool
  wallets : List CWallet

/-- `bnChainWork` behind a possibly null pointer. -/
def getChainWork (pindex : BlockChain) : Int := (pindex.head?.map CBlockIndex.bnChainWork).getD 0

/-- `CBlock::ReadFromDisk(const CBlockIndex*)`. -/
def Env.readBlockAt (env : Env) (pindex : CBlockIndex) : Option CBlock := do
  let block ← env.readBlock pindex.nFile pindex.nBlockPos
  if block.getHash env.crypto = pindex.hashBlock then pure block else none

/-- `InvalidChainFound`. -/
def Node.invalidChainFound (pindexNew : BlockChain) (node : Node) : Node :=
  { node with bnBestInvalidWork := max node.bnBestInvalidWork (getChainWork pindexNew) }

/-! ## The fork -/

/-- Walk back while the entry is higher than the given height. -/
def dropHigher (nHeight : Nat) : BlockChain → Option BlockChain
  | [] => none
  | entry :: pprev =>
      if nHeight < entry.nHeight then dropHigher nHeight pprev else some (entry :: pprev)

/-- The search for the fork in `Reorganize`, `none` where it returns `false`. -/
def findFork : BlockChain → BlockChain → Option BlockChain
  | [], _ => none
  | entry :: pprev, plonger =>
      if entry :: pprev = plonger then some plonger
      else
        match dropHigher entry.nHeight plonger with
        | none => none
        | some plonger =>
            if entry :: pprev = plonger then some plonger else findFork pprev plonger

/-- The pointers from a block back to the fork, without the fork. -/
def branchAbove (pfork : BlockChain) : BlockChain → List BlockChain
  | [] => []
  | entry :: pprev =>
      if entry :: pprev = pfork then [] else (entry :: pprev) :: branchAbove pfork pprev

section Reorganize

variable (env : Env) (clock : UInt256 → Int)

/-- Disconnect the blocks that the pointers name; also the transactions to resurrect. -/
def disconnectBranch : List BlockChain → CTxDB → List CTransaction →
    Outcome (CTxDB × List CTransaction)
  | [], txdb, vResurrect => pure (txdb, vResurrect)
  | [] :: _, _, _ => throw .nullPointer
  | (pindex :: pprev) :: vDisconnect, txdb, vResurrect => do
      let block ←
        (match env.readBlockAt pindex with
        | none => throw .rejected
        | some block => pure block)
      let txdb ← block.disconnectBlock env pprev txdb
      disconnectBranch vDisconnect txdb
        (vResurrect ++ block.vtx.filter fun tx => ¬tx.isCoinBase)

/-- The state of the database and of the wallets while blocks are connected. -/
structure ConnectProgress where
  txdb : CTxDB
  wallets : List CWallet

/-- `ConnectBlock` with its synchronisation of the wallets. -/
def connectAndSync (node : Node) (pindex : CBlockIndex) (pprev : BlockChain) (block : CBlock) :
    Action Failure ConnectProgress := fun progress =>
  let context : CallContext :=
    { nAdjustedTime := clock pindex.hashBlock
      nBestHeight := node.nBestHeight
      mempool := node.mempool.lookup }
  match block.connectBlock env context pindex pprev progress.txdb with
  | .error failure => (.error failure, progress)
  | .ok txdb =>
      let (outcome, wallets) := syncBlock env.crypto block progress.wallets
      (outcome, { txdb, wallets })

/-- Read and connect the block that a pointer names. -/
def connectPointer (node : Node) : BlockChain → Action Failure ConnectProgress
  | [] => fun progress => (.error .nullPointer, progress)
  | pindex :: pprev => fun progress =>
      match env.readBlockAt pindex with
      | none => (.error .rejected, progress)
      | some block => connectAndSync env clock node pindex pprev block progress

/-- Connect the blocks that the pointers name, oldest first. -/
def connectBranch (node : Node) (vConnect : List BlockChain) : Action Failure ConnectProgress :=
  sequence (connectPointer env clock node) vConnect

/-- The transactions of the blocks that the pointers name. -/
def branchTransactions (vConnect : List BlockChain) : List CTransaction :=
  vConnect.flatMap fun pindex =>
    ((pindex.head?.bind env.readBlockAt).map CBlock.vtx).getD []

/-- Clear the `pnext` that leads to a block. -/
def unlink (pnext : UInt256 → BlockChain) : BlockChain → UInt256 → BlockChain
  | _ :: entry :: _ => update pnext entry.hashBlock []
  | _ => pnext

/-- Set the `pnext` that leads to a block. -/
def link (pnext : UInt256 → BlockChain) : BlockChain → UInt256 → BlockChain
  | pindex :: entry :: pprev => update pnext entry.hashBlock (pindex :: entry :: pprev)
  | _ => pnext

/-- `AcceptToMemoryPool` without checking inputs, whatever it returns. -/
def resurrect (node : Node) (pool : CTxMemPool) (tx : CTransaction) : CTxMemPool :=
  let context : AcceptContext :=
    { txdb := node.txdb.txindex
      pindexBest := node.pindexBest
      nBestHeight := node.nBestHeight
      rateLimited := false }
  match pool.accept env context false tx with
  | .error _ => pool
  | .ok pool => pool

/-- `mempool.remove` of transactions. -/
def removeAll (vDelete : List CTransaction) (pool : CTxMemPool) : CTxMemPool :=
  vDelete.foldl (fun pool tx => pool.remove env.crypto tx) pool

/-- What `Reorganize` changes in memory after the database has committed. -/
def Node.afterReorganize (vDisconnect vConnect : List BlockChain)
    (vResurrect vDelete : List CTransaction) (progress : ConnectProgress) (node : Node) : Node :=
  let node :=
    { node with
      txdb := progress.txdb
      wallets := progress.wallets
      pnext := vConnect.foldl link (vDisconnect.foldl unlink node.pnext) }
  { node with
    mempool := removeAll env vDelete (vResurrect.foldl (resurrect env node) node.mempool) }

/-- `Reorganize`. -/
def reorganize (pindexNew : BlockChain) : Action Failure Node := fun node =>
  match findFork node.pindexBest pindexNew with
  | none => (.error .rejected, node)
  | some pfork =>
      let vDisconnect := branchAbove pfork node.pindexBest
      let vConnect := (branchAbove pfork pindexNew).reverse
      match disconnectBranch env vDisconnect node.txdb [] with
      | .error failure => (.error failure, node)
      | .ok (txdb, vResurrect) =>
          match connectBranch env clock node vConnect { txdb, wallets := node.wallets } with
          | (.error failure, progress) => (.error failure, { node with wallets := progress.wallets })
          | (.ok (), progress) =>
              let txdb := { progress.txdb with hashBestChain := some (getBlockHash pindexNew) }
              (.ok (), node.afterReorganize env vDisconnect vConnect vResurrect
                (branchTransactions env vConnect) { progress with txdb })

end Reorganize

section SetBestChain

variable (env : Env) (clock : UInt256 → Int)

/-- `CBlock::SetBestChainInner`. -/
def setBestChainInner (block : CBlock) (pindexNew : BlockChain) : Action Failure Node :=
  fun node =>
    match pindexNew with
    | [] => (.error .nullPointer, node)
    | pindex :: pprev =>
        match connectAndSync env clock node pindex pprev block
          { txdb := node.txdb, wallets := node.wallets } with
        | (.error .rejected, progress) =>
            (.error .rejected,
              { node with wallets := progress.wallets }.invalidChainFound pindexNew)
        | (.error failure, progress) => (.error failure, { node with wallets := progress.wallets })
        | (.ok (), progress) =>
            let txdb := { progress.txdb with hashBestChain := some (block.getHash env.crypto) }
            let node := { node with txdb, wallets := progress.wallets }
            match pprev with
            | [] => (.error .nullPointer, node)
            | _ :: _ =>
                (.ok (),
                  { node with
                    pnext := link node.pnext pindexNew
                    mempool := removeAll env block.vtx node.mempool })

/-- The pointers to connect after the reorganisation, newest first, and the one to reorganise to. -/
def postpone (bnBestWork : Int) : BlockChain → List BlockChain × BlockChain
  | [] => ([], [])
  | entry :: pprev =>
      if pprev ≠ [] ∧ bnBestWork < getChainWork pprev then
        let (vpindexSecondary, pindexIntermediate) := postpone bnBestWork pprev
        ((entry :: pprev) :: vpindexSecondary, pindexIntermediate)
      else ([], entry :: pprev)

/-- Connect the postponed blocks, oldest first, up to the first that fails.  That one fails without
being reported. -/
def connectPostponed : List BlockChain → Action Failure Node
  | [], node => (.ok (), node)
  | pindex :: vpindexSecondary, node =>
      match pindex.head?.bind env.readBlockAt with
      | none => (.ok (), node)
      | some block =>
          match setBestChainInner env clock block pindex node with
          | (.error .rejected, node) => (.ok (), node)
          | (.error failure, node) => (.error failure, node)
          | (.ok (), node) => connectPostponed vpindexSecondary node

/-- The globals that `SetBestChain` sets at its end. -/
def Node.newBest (hash : UInt256) (pindexNew : BlockChain) (node : Node) : Node :=
  { node with
    hashBestChain := hash
    pindexBest := pindexNew
    nBestHeight := ((pindexNew.head?.map CBlockIndex.nHeight).getD 0 : Nat)
    bnBestChainWork := getChainWork pindexNew }

/-- The part of `SetBestChain` for a block that does not extend the best chain. -/
def reorganizeAndConnect (pindexNew : BlockChain) : Action Failure Node := fun node =>
  if node.pindexBest = [] then (.error .nullPointer, node)
  else
    let (vpindexSecondary, pindexIntermediate) := postpone (getChainWork node.pindexBest) pindexNew
    match reorganize env clock pindexIntermediate node with
    | (.error .rejected, node) => (.error .rejected, node.invalidChainFound pindexNew)
    | (.error failure, node) => (.error failure, node)
    | (.ok (), node) => connectPostponed env clock vpindexSecondary.reverse node

/-- `CBlock::SetBestChain`. -/
def setBestChain (block : CBlock) (pindexNew : BlockChain) : Action Failure Node := fun node =>
  let hash := block.getHash env.crypto
  let outcome :=
    if node.pindexGenesisBlock = [] ∧ hash = env.hashGenesisBlock then
      (.ok (),
        { node with
          txdb := { node.txdb with hashBestChain := some hash }
          pindexGenesisBlock := pindexNew })
    else if block.hashPrevBlock = node.hashBestChain then
      setBestChainInner env clock block pindexNew node
    else reorganizeAndConnect env clock pindexNew node
  match outcome with
  | (.error failure, node) => (.error failure, node)
  | (.ok (), node) => (.ok (), node.newBest hash pindexNew)

/-- `CBlock::AddToBlockIndex` of a block written at a position. -/
def addToBlockIndex (nFile nBlockPos : Nat) (block : CBlock) : Action Failure Node := fun node =>
  let hash := block.getHash env.crypto
  if (node.mapBlockIndex hash).isSome then (.error .rejected, node)
  else
    let pprev := (node.mapBlockIndex block.hashPrevBlock).getD []
    let pindexNew := .ofBlock env.crypto nFile nBlockPos block pprev :: pprev
    let node :=
      { node with
        mapBlockIndex := update node.mapBlockIndex hash (some pindexNew)
        txdb := node.txdb.writeBlockIndex pindexNew 0 }
    if node.bnBestChainWork < getChainWork pindexNew then
      setBestChain env clock block pindexNew node
    else (.ok (), node)

end SetBestChain

end FooCoin

import FooCoin.Inputs

/-!
# Connecting and disconnecting blocks

`connectBlock` and `disconnectBlock` act on the database.  The wallet synchronisation at the end of
`ConnectBlock` is part of the node model, which runs it after a successful `connectBlock`.
-/

namespace FooCoin

open Function

/-- A block index record of the database. -/
structure CDiskBlockIndex where
  entry : CBlockIndex
  hashPrev : UInt256
  hashNext : UInt256
  deriving DecidableEq

/-- The database of the block chain. -/
structure CTxDB where
  /-- The `tx` records. -/
  txindex : TxIndexMap
  /-- The `blockindex` records. -/
  blockindex : UInt256 → Option CDiskBlockIndex
  /-- The `hashBestChain` record. -/
  hashBestChain : Option UInt256

/-- `WriteBlockIndex` of the entry at the head of a chain with the given `hashNext`; nothing for
the null pointer. -/
def CTxDB.writeBlockIndex (txdb : CTxDB) (pindex : BlockChain) (hashNext : UInt256) : CTxDB :=
  match pindex with
  | [] => txdb
  | entry :: pprev =>
      { txdb with
        blockindex := update txdb.blockindex entry.hashBlock
          (some { entry, hashPrev := getBlockHash pprev, hashNext }) }

/-- What a node's globals contribute to a call of `ConnectBlock`. -/
structure CallContext where
  /-- `GetAdjustedTime()`. -/
  nAdjustedTime : Int
  /-- `nBestHeight`. -/
  nBestHeight : Int
  /-- The transactions of the memory pool. -/
  mempool : MapTx

/-- `GetBlockValue`. -/
def getBlockValue (_nHeight : Nat) (nFees : Int) : Outcome Int := do
  let nSubsidy := 1 * coin
  int64 (nSubsidy + nFees)

/-- The time from which duplicate transactions are refused and P2SH is enforced. -/
def nBIP30SwitchTime : Nat := 1349049600

/-- `nBIP16SwitchTime`. -/
def nBIP16SwitchTime : Nat := 1349049600

/-- The entry has an unspent output. -/
def CTxIndex.hasUnspent (txindex : CTxIndex) : Bool := txindex.vSpent.any CDiskTxPos.isNull

/-- The variables of the loop of `ConnectBlock`. -/
structure ConnectState where
  mapQueuedChanges : TxIndexMap
  nFees : Int
  nSigOps : Nat
  nTxPos : Nat

section Connect

variable (env : Env) (context : CallContext) (txdb : TxIndexMap) (pindex : CBlockIndex)
  (pprev : BlockChain)

/-- `fStrictPayToScriptHash` of `ConnectBlock`. -/
def strictPayToScriptHash : Bool := nBIP16SwitchTime ≤ pindex.nTime.toNat

/-- `fEnforceBIP30` of `ConnectBlock`. -/
def enforceBIP30 : Bool := nBIP30SwitchTime < pindex.nTime.toNat

/-- The signature operations with those of pay-to-script-hash inputs added. -/
def addP2SHSigOps (inputs : MapPrevTx) (nSigOps : Nat) (tx : CTransaction) : Outcome Nat :=
  if strictPayToScriptHash pindex then do
    let nSigOps := nSigOps + (← tx.getP2SHSigOpCount inputs)
    require (nSigOps ≤ maxBlockSigops)
    pure nSigOps
  else pure nSigOps

/-- `FetchInputs` as `ConnectBlock` calls it. -/
def fetchBlockInputs (mapQueuedChanges : TxIndexMap) (tx : CTransaction) : Outcome MapPrevTx :=
  match tx.fetchInputs env context.mempool txdb mapQueuedChanges true false with
  | .error _ => throw .rejected
  | .ok inputs => pure inputs

/-- The part of the loop body for transactions other than the coinbase. -/
def connectOrdinary (posThisTx : CDiskTxPos) (state : ConnectState) (tx : CTransaction) :
    Outcome ConnectState := do
  let inputs ← fetchBlockInputs env context txdb state.mapQueuedChanges tx
  let nSigOps ← addP2SHSigOps pindex inputs state.nSigOps tx
  let nTxFee ← int64 ((← tx.getValueIn inputs) - (← tx.getValueOut))
  let nFees ← int64 (state.nFees + nTxFee)
  let mapQueuedChanges ← tx.connectInputs env context.nBestHeight inputs state.mapQueuedChanges
    posThisTx (pindex :: pprev)
    { fBlock := true
      fMiner := false
      fStrictPayToScriptHash := strictPayToScriptHash pindex }
  pure { state with mapQueuedChanges, nFees, nSigOps }

/-- The transaction is refused because an earlier one with its id has an unspent output. -/
def overwrites (tx : CTransaction) : Bool :=
  enforceBIP30 pindex && (txdb (tx.getHash env.crypto)).any CTxIndex.hasUnspent

/-- The body of the loop of `ConnectBlock`. -/
def connectTransaction (state : ConnectState) (tx : CTransaction) : Outcome ConnectState := do
  require ¬overwrites env txdb pindex tx
  let nSigOps := state.nSigOps + tx.getLegacySigOpCount
  require (nSigOps ≤ maxBlockSigops)
  let posThisTx := CDiskTxPos.mk pindex.nFile pindex.nBlockPos state.nTxPos
  let state := { state with nSigOps, nTxPos := state.nTxPos + tx.size }
  let state ←
    (if tx.isCoinBase then pure state
      else connectOrdinary env context txdb pindex pprev posThisTx state tx)
  pure
    { state with
      mapQueuedChanges := update state.mapQueuedChanges (tx.getHash env.crypto)
        (some (.ofOutputs posThisTx tx.vout.length)) }

/-- The loop of `ConnectBlock`. -/
def connectTransactions : List CTransaction → ConnectState → Outcome ConnectState
  | [], state => pure state
  | tx :: vtx, state => do
      connectTransactions vtx (← connectTransaction env context txdb pindex pprev state tx)

end Connect

/-- `CBlock::ConnectBlock` at the entry `pindex` on top of `pprev`: the database after it. -/
def CBlock.connectBlock (env : Env) (context : CallContext) (pindex : CBlockIndex)
    (pprev : BlockChain) (block : CBlock) (txdb : CTxDB) : Outcome CTxDB := do
  block.checkBlock env.crypto context.nAdjustedTime
  let state ← connectTransactions env context txdb.txindex pindex pprev block.vtx
    { mapQueuedChanges := fun _ => none
      nFees := 0
      nSigOps := 0
      nTxPos := pindex.nBlockPos + 81 - 1 + (writeCompactSize block.vtx.length).length }
  let nValueOut ← (match block.vtx with
    | [] => throw .assertion
    | coinBase :: _ => coinBase.getValueOut)
  require (nValueOut ≤ (← getBlockValue pindex.nHeight state.nFees))
  let txdb := { txdb with txindex := overlay state.mapQueuedChanges txdb.txindex }
  pure (txdb.writeBlockIndex pprev pindex.hashBlock)

/-- The loop of `DisconnectBlock`, last transaction first. -/
def disconnectTransactions (crypto : Crypto) : List CTransaction → TxIndexMap → Outcome TxIndexMap
  | [], txdb => pure txdb
  | tx :: vtx, txdb => do tx.disconnectInputs crypto (← disconnectTransactions crypto vtx txdb)

/-- `CBlock::DisconnectBlock` of the block on top of `pprev`: the database after it. -/
def CBlock.disconnectBlock (env : Env) (pprev : BlockChain) (block : CBlock) (txdb : CTxDB) :
    Outcome CTxDB := do
  let txindex ← disconnectTransactions env.crypto block.vtx txdb.txindex
  pure ({ txdb with txindex }.writeBlockIndex pprev 0)

end FooCoin

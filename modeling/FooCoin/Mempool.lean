import FooCoin.Policy
import FooCoin.SampleChain
import Mathlib.Data.List.AList

/-!
# The memory pool

`mapTx` holds the transactions by id.  `mapNextTx` is the reverse map: it takes an outpoint to the
pool transaction that spends it, through a pointer into `mapTx`.  A pointer is modelled by the
address of the map node, and every new node gets a fresh address.
-/

namespace FooCoin

open Function

/-- `CInPoint`: an input of a pool transaction. -/
structure CInPoint where
  /-- The address of the node in `mapTx`. -/
  ptx : Nat
  n : Nat
  deriving DecidableEq

/-- A node of `mapTx`. -/
structure PoolNode where
  address : Nat
  tx : CTransaction
  deriving DecidableEq

/-- `CTxMemPool`. -/
structure CTxMemPool where
  mapTx : AList fun _ : UInt256 => PoolNode
  mapNextTx : COutPoint → Option CInPoint
  /-- Addresses from here on are free. -/
  nextAddress : Nat

/-- The empty pool. -/
def CTxMemPool.empty : CTxMemPool where
  mapTx := ∅
  mapNextTx _ := none
  nextAddress := 0

/-- The transactions by id, as `FetchInputs` looks them up. -/
def CTxMemPool.lookup (pool : CTxMemPool) : MapTx := fun hash =>
  (pool.mapTx.lookup hash).map PoolNode.tx

/-- The loop of `addUnchecked` from input `i` on. -/
def addInPoints (ptx : Nat) : Nat → List CTxIn → (COutPoint → Option CInPoint) →
    COutPoint → Option CInPoint
  | _, [], mapNextTx => mapNextTx
  | i, txin :: vin, mapNextTx =>
      addInPoints ptx (i + 1) vin (update mapNextTx txin.prevout (some { ptx, n := i }))

/-- `CTxMemPool::addUnchecked`. -/
def CTxMemPool.addUnchecked (hash : UInt256) (tx : CTransaction) (pool : CTxMemPool) :
    CTxMemPool :=
  match pool.mapTx.lookup hash with
  | none =>
      { mapTx := pool.mapTx.insert hash { address := pool.nextAddress, tx }
        mapNextTx := addInPoints pool.nextAddress 0 tx.vin pool.mapNextTx
        nextAddress := pool.nextAddress + 1 }
  | some node =>
      { pool with
        mapTx := pool.mapTx.insert hash { node with tx }
        mapNextTx := addInPoints node.address 0 tx.vin pool.mapNextTx }

/-- The loop of `remove`. -/
def eraseInPoints (vin : List CTxIn) (mapNextTx : COutPoint → Option CInPoint) :
    COutPoint → Option CInPoint :=
  vin.foldl (fun mapNextTx txin => update mapNextTx txin.prevout none) mapNextTx

/-- `CTxMemPool::remove`. -/
def CTxMemPool.remove (crypto : Crypto) (tx : CTransaction) (pool : CTxMemPool) : CTxMemPool :=
  if (pool.mapTx.lookup (tx.getHash crypto)).isSome then
    { pool with
      mapTx := pool.mapTx.erase (tx.getHash crypto)
      mapNextTx := eraseInPoints tx.vin pool.mapNextTx }
  else pool

/-- What a node's globals and clock contribute to a call of `accept`. -/
structure AcceptContext where
  txdb : TxIndexMap
  pindexBest : BlockChain
  nBestHeight : Int
  /-- The limiter of free transactions refuses this one. -/
  rateLimited : Bool

/-- The part of `accept` under `fCheckInputs`. -/
def CTxMemPool.checkInputs (env : Env) (context : AcceptContext) (pool : CTxMemPool)
    (tx : CTransaction) : Outcome Unit := do
  let inputs ←
    (match tx.fetchInputs env pool.lookup context.txdb (fun _ => none) false false with
    | .error _ => throw .rejected
    | .ok inputs => pure inputs)
  require ((← tx.areInputsStandard env.crypto inputs) ∨ env.fTestNet)
  let nFees ← int64 ((← tx.getValueIn inputs) - (← tx.getValueOut))
  require (tx.getMinFee 1000 true .GMF_RELAY ≤ nFees)
  require (minRelayTxFee ≤ nFees ∨ ¬context.rateLimited)
  let _mapUnused ← tx.connectInputs env context.nBestHeight inputs (fun _ => none) .pool
    context.pindexBest { fBlock := false, fMiner := false, fStrictPayToScriptHash := true }
  pure ()

/-- `CTxMemPool::accept`: the pool after it when it returns `true`. -/
def CTxMemPool.accept (env : Env) (context : AcceptContext) (fCheckInputs : Bool)
    (tx : CTransaction) (pool : CTxMemPool) : Outcome CTxMemPool := do
  tx.checkTransaction
  require ¬tx.isCoinBase
  require (tx.nLockTime.toNat ≤ 2147483647)
  require (env.fTestNet ∨ tx.isStandard)
  let hash := tx.getHash env.crypto
  require (pool.mapTx.lookup hash = none)
  require (fCheckInputs → context.txdb hash = none)
  require (∀ txin ∈ tx.vin, pool.mapNextTx txin.prevout = none)
  (if fCheckInputs then pool.checkInputs env context tx else pure ())
  pure (pool.addUnchecked hash tx)

end FooCoin

import FooCoin.Library.SortedSet
import FooCoin.SampleChain

/-!
# Orphan transactions

`mapOrphanTransactions` owns the transactions whose inputs are not known yet, and
`mapOrphanTransactionsByPrev` finds them by the transactions they wait for.  A pointer is modelled by
the address of the stream it refers to; a freed address holds nothing.
-/

namespace FooCoin

open Function

/-- An entry of an orphan map: the hash of an orphan and the address of its stream. -/
structure OrphanEntry where
  hash : UInt256
  pvMsg : Nat
  deriving DecidableEq

/-- The order of the maps. -/
def OrphanEntry.key (entry : OrphanEntry) : Nat := entry.hash.toNat

/-- A map from orphan hashes to streams. -/
abbrev OrphanMap := SortedSet OrphanEntry.key

/-- The orphans of a node. -/
structure Orphans where
  mapOrphanTransactions : OrphanMap
  mapOrphanTransactionsByPrev : UInt256 → Option OrphanMap
  /-- The streams. -/
  heap : Nat → Option (List UInt8)
  /-- Addresses from here on are free. -/
  nextAddress : Nat

/-- `MAX_ORPHAN_TRANSACTIONS`. -/
def maxOrphanTransactions : Nat := maxBlockSize / 100

/-- What `AcceptToMemoryPool` says of a transaction. -/
inductive Verdict
  | accepted
  /-- It returned `false` and set `fMissingInputs`. -/
  | missing
  | invalid
  deriving DecidableEq

namespace Orphans

/-- No orphans. -/
def empty : Orphans where
  mapOrphanTransactions := .empty
  mapOrphanTransactionsByPrev _ := none
  heap _ := none
  nextAddress := 0

/-- The map that `mapOrphanTransactionsByPrev[hash]` refers to. -/
def innerMap (byPrev : UInt256 → Option OrphanMap) (hash : UInt256) : OrphanMap :=
  (byPrev hash).getD .empty

/-- The transaction in the stream at an address. -/
def readTx (orphans : Orphans) (pvMsg : Nat) : Outcome CTransaction :=
  match orphans.heap pvMsg with
  | none => throw .nullPointer
  | some vMsg =>
      match CTransaction.read.run vMsg with
      | none => throw .thrown
      | some (tx, _) => pure tx

/-- The loop of `AddOrphanTx`. -/
def addByPrev (entry : OrphanEntry) (vin : List CTxIn) (byPrev : UInt256 → Option OrphanMap) :
    UInt256 → Option OrphanMap :=
  vin.foldl
    (fun byPrev txin =>
      update byPrev txin.prevout.hash (some ((innerMap byPrev txin.prevout.hash).insert entry)))
    byPrev

/-- `AddOrphanTx`. -/
def addOrphanTx (crypto : Crypto) (vMsg : List UInt8) (orphans : Orphans) :
    Outcome (Bool × Orphans) :=
  match CTransaction.read.run vMsg with
  | none => throw .thrown
  | some (tx, _) =>
      let hash := tx.getHash crypto
      if (orphans.mapOrphanTransactions.lookup hash.toNat).isSome then pure (false, orphans)
      else if 5000 < vMsg.length then pure (false, orphans)
      else
        let entry := { hash, pvMsg := orphans.nextAddress }
        pure (true,
          { mapOrphanTransactions := orphans.mapOrphanTransactions.insert entry
            mapOrphanTransactionsByPrev :=
              addByPrev entry tx.vin orphans.mapOrphanTransactionsByPrev
            heap := update orphans.heap orphans.nextAddress (some vMsg)
            nextAddress := orphans.nextAddress + 1 })

/-- The loop of `EraseOrphanTx`. -/
def eraseByPrev (entry : OrphanEntry) (vin : List CTxIn) (byPrev : UInt256 → Option OrphanMap) :
    UInt256 → Option OrphanMap :=
  vin.foldl
    (fun byPrev txin =>
      let inner := (innerMap byPrev txin.prevout.hash).erase entry
      update byPrev txin.prevout.hash (if inner.size = 0 then none else some inner))
    byPrev

/-- `EraseOrphanTx`. -/
def eraseOrphanTx (hash : UInt256) (orphans : Orphans) : Outcome Orphans :=
  match orphans.mapOrphanTransactions.lookup hash.toNat with
  | none => pure orphans
  | some entry => do
      let tx ← orphans.readTx entry.pvMsg
      pure
        { orphans with
          mapOrphanTransactionsByPrev := eraseByPrev entry tx.vin orphans.mapOrphanTransactionsByPrev
          heap := update orphans.heap entry.pvMsg none
          mapOrphanTransactions := orphans.mapOrphanTransactions.erase entry }

/-- The orphan that a random hash evicts: its lower bound, or the first one past the end. -/
def victim (orphans : Orphans) (randomHash : UInt256) : Option OrphanEntry :=
  match orphans.mapOrphanTransactions.lowerBound randomHash.toNat with
  | some entry => some entry
  | none => orphans.mapOrphanTransactions.elements.head?

theorem mem_of_victim {orphans : Orphans} {randomHash : UInt256} {entry : OrphanEntry}
    (chosen : orphans.victim randomHash = some entry) :
    entry ∈ orphans.mapOrphanTransactions.elements := by
  simp only [victim] at chosen
  split at chosen
  · cases chosen
    exact SortedSet.mem_of_lowerBound ‹_›
  · exact List.mem_of_mem_head? chosen

/-- Erasing a stored orphan leaves one less. -/
theorem size_of_eraseOrphanTx {orphans after : Orphans} {entry : OrphanEntry}
    (member : entry ∈ orphans.mapOrphanTransactions.elements)
    (erased : orphans.eraseOrphanTx entry.hash = .ok after) :
    after.mapOrphanTransactions.size + 1 = orphans.mapOrphanTransactions.size := by
  have found : orphans.mapOrphanTransactions.lookup entry.hash.toNat = some entry :=
    SortedSet.lookup_eq_some.mpr ⟨member, rfl⟩
  simp only [eraseOrphanTx, found, except_bind_eq_ok, pure_eq_ok] at erased
  obtain ⟨_, _, rfl⟩ := erased
  exact SortedSet.size_erase member

/-- `LimitOrphanTxSize`: `nEvicted` and the orphans after it.  Every eviction draws its own random
hash. -/
def limitOrphanTxSize (randomHash : Nat → UInt256) (nMaxOrphans : Nat) (orphans : Orphans) :
    Outcome (Nat × Orphans) :=
  if nMaxOrphans < orphans.mapOrphanTransactions.size then
    match _chosen : orphans.victim (randomHash orphans.mapOrphanTransactions.size) with
    | none => throw .nullPointer
    | some entry =>
        match _erased : orphans.eraseOrphanTx entry.hash with
        | .error failure => throw failure
        | .ok orphans => do
            let (nEvicted, orphans) ← orphans.limitOrphanTxSize randomHash nMaxOrphans
            pure (nEvicted + 1, orphans)
  else pure (0, orphans)
termination_by orphans.mapOrphanTransactions.size
decreasing_by
  have fewer := size_of_eraseOrphanTx (mem_of_victim _chosen) _erased
  omega

end Orphans

/-! ## The tx message -/

/-- The queues of the tx handler of `ProcessMessage` while it resolves orphans. -/
structure TxHandler where
  /-- The part of `vWorkQueue` that is still to be processed. -/
  vWorkQueue : List UInt256
  vEraseQueue : List UInt256

/-- A node's orphans, and its tx handler if that is at work. -/
structure OrphanNode where
  orphans : Orphans
  handler : Option TxHandler

section Handler

variable (crypto : Crypto) (verdict : UInt256 → Verdict)

/-- The first part of the handler: what it does with the transaction of the message. -/
def receiveTx (randomHash : Nat → UInt256) (vMsg : List UInt8) (orphans : Orphans) :
    Outcome OrphanNode :=
  match CTransaction.read.run vMsg with
  | none => throw .thrown
  | some (tx, _) =>
      let hash := tx.getHash crypto
      match verdict hash with
      | .accepted =>
          pure { orphans, handler := some { vWorkQueue := [hash], vEraseQueue := [hash] } }
      | .missing => do
          let (_, orphans) ← orphans.addOrphanTx crypto vMsg
          let (_, orphans) ← orphans.limitOrphanTxSize randomHash maxOrphanTransactions
          pure { orphans, handler := none }
      | .invalid => pure { orphans, handler := none }

/-- The queues after an orphan was offered to the memory pool. -/
def TxHandler.offer (handler : TxHandler) (hash : UInt256) : TxHandler :=
  match verdict hash with
  | .accepted =>
      { vWorkQueue := handler.vWorkQueue ++ [hash], vEraseQueue := handler.vEraseQueue ++ [hash] }
  | .missing => handler
  | .invalid => { handler with vEraseQueue := handler.vEraseQueue ++ [hash] }

/-- The inner loop of the handler, over the orphans that wait for one transaction. -/
def offerOrphans (orphans : Orphans) : List OrphanEntry → TxHandler → Outcome TxHandler
  | [], handler => pure handler
  | entry :: entries, handler => do
      let tx ← orphans.readTx entry.pvMsg
      offerOrphans orphans entries (handler.offer verdict (tx.getHash crypto))

/-- The next round of the work queue, or the erase queue once the work queue is empty. -/
def resumeTx (handler : TxHandler) (orphans : Orphans) : Outcome OrphanNode :=
  match handler.vWorkQueue with
  | [] => do
      let orphans ← handler.vEraseQueue.foldlM (fun orphans hash => orphans.eraseOrphanTx hash)
        orphans
      pure { orphans, handler := none }
  | hashPrev :: vWorkQueue => do
      let inner := Orphans.innerMap orphans.mapOrphanTransactionsByPrev hashPrev
      -- `operator[]` inserts an empty map where there is none.
      let orphans :=
        { orphans with
          mapOrphanTransactionsByPrev :=
            update orphans.mapOrphanTransactionsByPrev hashPrev (some inner) }
      let handler ← offerOrphans crypto verdict orphans inner.elements { handler with vWorkQueue }
      pure { orphans, handler := some handler }

end Handler

/-- A call on the orphans. -/
inductive OrphanCall
  /-- A tx message arrives. -/
  | tx (verdict : UInt256 → Verdict) (randomHash : Nat → UInt256) (vMsg : List UInt8)
  /-- The handler goes on. -/
  | resume (verdict : UInt256 → Verdict)
  /-- An exception leaves the handler. -/
  | abandon
  | addOrphanTx (vMsg : List UInt8)
  | eraseOrphanTx (hash : UInt256)
  | limitOrphanTxSize (randomHash : Nat → UInt256) (nMaxOrphans : Nat)

/-- The node after a call; calls out of turn do nothing. -/
def OrphanCall.run (crypto : Crypto) : OrphanCall → OrphanNode → Outcome OrphanNode
  | .tx verdict randomHash vMsg, ⟨orphans, none⟩ =>
      receiveTx crypto verdict randomHash vMsg orphans
  | .resume verdict, ⟨orphans, some handler⟩ => resumeTx crypto verdict handler orphans
  | .abandon, ⟨orphans, some _⟩ => pure ⟨orphans, none⟩
  | .addOrphanTx vMsg, ⟨orphans, none⟩ => do
      let (_, orphans) ← orphans.addOrphanTx crypto vMsg
      pure ⟨orphans, none⟩
  | .eraseOrphanTx hash, ⟨orphans, none⟩ => do
      let orphans ← orphans.eraseOrphanTx hash
      pure ⟨orphans, none⟩
  | .limitOrphanTxSize randomHash nMaxOrphans, ⟨orphans, none⟩ => do
      let (_, orphans) ← orphans.limitOrphanTxSize randomHash nMaxOrphans
      pure ⟨orphans, none⟩
  | _, node => pure node

/-- A node after calls, each with the property for the node it was made on; a call that throws leaves
the orphans as they are. -/
inductive OrphanRun (crypto : Crypto) (allowed : OrphanCall → OrphanNode → Prop) :
    OrphanNode → Prop
  | start : OrphanRun crypto allowed ⟨.empty, none⟩
  | call {node after : OrphanNode} (call : OrphanCall) : OrphanRun crypto allowed node →
      allowed call node → call.run crypto node = .ok after → OrphanRun crypto allowed after

end FooCoin

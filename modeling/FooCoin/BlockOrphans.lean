import FooCoin.MinWork
import FooCoin.Node

/-!
# Orphan blocks

`ProcessBlock` keeps blocks whose parent is not known in `mapOrphanBlocks`, and finds them again by
their parent in `mapOrphanBlocksByPrev`.  Both maps point to the same blocks on the heap; a deleted
block leaves its address empty.  When a block is accepted, a work queue offers the blocks that wait
for it to `AcceptBlock`.
-/

namespace FooCoin

open Function Stateful

/-- The maps that `ProcessBlock` moves blocks between. -/
structure BlockStore where
  /-- The hashes in `mapBlockIndex`. -/
  mapBlockIndex : Finset UInt256
  mapOrphanBlocks : UInt256 → Option Nat
  /-- The addresses filed under a hash, in the order of their insertion. -/
  mapOrphanBlocksByPrev : UInt256 → List Nat
  heap : Nat → Option CBlock
  /-- Addresses from here on are free. -/
  nextAddress : Nat

/-- What `AcceptBlock` says of a block that is new and has its parent in `mapBlockIndex`. -/
inductive Acceptance
  /-- A check before `AddToBlockIndex` fails. -/
  | refused (failure : Failure)
  /-- `AddToBlockIndex` has put the block into `mapBlockIndex`, and this is how the call ends. -/
  | entered (outcome : Outcome Unit)

/-- What a call of `ProcessBlock` finds around the orphan blocks. -/
structure ProcessContext where
  fTestNet : Bool
  nAdjustedTime : Int
  hashBestChain : UInt256
  /-- `Checkpoints::GetLastCheckpoint`. -/
  pcheckpoint : Option CBlockIndex
  /-- What `AcceptBlock` says of the block with a hash. -/
  acceptance : UInt256 → Acceptance

/-- The work queue, with the addresses of the blocks that were offered to `AcceptBlock`. -/
structure QueuePass where
  vWorkQueue : List UInt256
  offered : List Nat
  store : BlockStore

namespace BlockStore

variable (crypto : Crypto)

/-- `CBlock::AcceptBlock`. -/
def acceptBlock (acceptance : UInt256 → Acceptance) (block : CBlock) (store : BlockStore) :
    Outcome Unit × BlockStore :=
  let hash := block.getHash crypto
  if hash ∈ store.mapBlockIndex then (.error .rejected, store)
  else if block.hashPrevBlock ∉ store.mapBlockIndex then (.error .rejected, store)
  else
    match acceptance hash with
    | .refused failure => (.error failure, store)
    | .entered outcome =>
        (outcome, { store with mapBlockIndex := insert hash store.mapBlockIndex })

/-- Put a new orphan into both maps. -/
def addOrphan (pblock : CBlock) (store : BlockStore) : BlockStore :=
  { store with
    mapOrphanBlocks :=
      update store.mapOrphanBlocks (pblock.getHash crypto) (some store.nextAddress)
    mapOrphanBlocksByPrev :=
      update store.mapOrphanBlocksByPrev pblock.hashPrevBlock
        (store.mapOrphanBlocksByPrev pblock.hashPrevBlock ++ [store.nextAddress])
    heap := update store.heap store.nextAddress (some pblock)
    nextAddress := store.nextAddress + 1 }

/-- Erase an orphan from `mapOrphanBlocks` and delete it. -/
def deleteOrphan (address : Nat) (pblockOrphan : CBlock) (store : BlockStore) : BlockStore :=
  { store with
    mapOrphanBlocks := update store.mapOrphanBlocks (pblockOrphan.getHash crypto) none
    heap := update store.heap address none }

/-- Change what `mapOrphanBlocksByPrev` files under a hash. -/
def refile (hashPrev : UInt256) (addresses : List Nat) (store : BlockStore) : BlockStore :=
  { store with
    mapOrphanBlocksByPrev := update store.mapOrphanBlocksByPrev hashPrev addresses }

end BlockStore

section ProcessBlock

variable (crypto : Crypto) (context : ProcessContext)

/-- The body of the inner loop of the work queue. -/
def offerOrphan (address : Nat) : Action Failure QueuePass := fun pass =>
  match pass.store.heap address with
  | none => (.error .nullPointer, pass)
  | some pblockOrphan =>
      let offered := pass.offered ++ [address]
      match pass.store.acceptBlock crypto context.acceptance pblockOrphan with
      | (.ok (), store) =>
          (.ok (),
            { vWorkQueue := pass.vWorkQueue ++ [pblockOrphan.getHash crypto]
              offered
              store := store.deleteOrphan crypto address pblockOrphan })
      | (.error .rejected, store) =>
          (.ok (),
            { pass with offered, store := store.deleteOrphan crypto address pblockOrphan })
      | (.error failure, store) => (.error failure, { pass with offered, store })

/-- The loop over `vWorkQueue` from position `i` on, `none` where the fuel is used up. -/
def workQueueLoop : Nat → Nat → QueuePass → Option (Outcome Unit × QueuePass)
  | 0, _, _ => none
  | fuel + 1, i, pass =>
      match pass.vWorkQueue[i]? with
      | none => some (.ok (), pass)
      | some hashPrev =>
          match sequence (offerOrphan crypto context)
            (pass.store.mapOrphanBlocksByPrev hashPrev) pass with
          | (.error failure, pass) => some (.error failure, pass)
          | (.ok (), pass) =>
              workQueueLoop fuel (i + 1) { pass with store := pass.store.refile hashPrev [] }

/-- The checks of `ProcessBlock` before it looks for the parent. -/
def preliminaryChecks (pblock : CBlock) (store : BlockStore) : Outcome Unit := do
  require (pblock.getHash crypto ∉ store.mapBlockIndex)
  require (store.mapOrphanBlocks (pblock.getHash crypto) = none)
  pblock.checkBlock crypto context.nAdjustedTime
  match context.pcheckpoint with
  | none => pure ()
  | some pcheckpoint =>
      if pblock.hashPrevBlock = context.hashBestChain then pure ()
      else
        let deltaTime : Int := (pblock.nTime.toNat : Int) - pcheckpoint.nTime.toNat
        require (0 ≤ deltaTime)
        require (setCompact pblock.nBits ≤
          setCompact (computeMinWork context.fTestNet pcheckpoint.nBits deltaTime))

/-- `ProcessBlock`.  No queue is longer than the addresses in use and one. -/
def processBlock (pblock : CBlock) (store : BlockStore) : Option (Outcome Unit × QueuePass) :=
  let hash := pblock.getHash crypto
  match preliminaryChecks crypto context pblock store with
  | .error failure => some (.error failure, { vWorkQueue := [], offered := [], store })
  | .ok () =>
      if pblock.hashPrevBlock ∉ store.mapBlockIndex then
        some (.ok (), { vWorkQueue := [], offered := [], store := store.addOrphan crypto pblock })
      else
        match store.acceptBlock crypto context.acceptance pblock with
        | (.error failure, store) =>
            some (.error failure, { vWorkQueue := [], offered := [], store })
        | (.ok (), store) =>
            workQueueLoop crypto context (store.nextAddress + 2) 0
              { vWorkQueue := [hash], offered := [], store }

end ProcessBlock

end FooCoin

import FooCoin.Library.Journal
import FooCoin.Undo

/-!
# Runs of the block chain

A run connects blocks to the tip and disconnects the tip.  It is the run of a journalled machine
whose journal is the list of connected blocks above a base chain, newest first.
-/

namespace FooCoin

open Journal

/-- A block together with its block index entry. -/
structure ChainBlock where
  pindex : CBlockIndex
  block : CBlock
  deriving DecidableEq

/-- The chain of block index entries: the connected blocks on top of a base chain. -/
def chainOf (base : BlockChain) (journal : List ChainBlock) : BlockChain :=
  journal.map ChainBlock.pindex ++ base

/-- The block is on disk, names the tip as its predecessor, and has the index entry that
`AddToBlockIndex` makes for it. -/
structure Extends (env : Env) (base : BlockChain) (journal : List ChainBlock) (next : ChainBlock) :
    Prop where
  stored : env.Stored next.pindex.nFile next.pindex.nBlockPos next.block
  link : next.block.hashPrevBlock = getBlockHash (chainOf base journal)
  entry : next.pindex = .ofBlock env.crypto next.pindex.nFile next.pindex.nBlockPos next.block
    (chainOf base journal)

/-- Connecting blocks on disk to the tip, at any time and with any memory pool, and disconnecting
the tip. -/
def chainMachine (env : Env) (base : BlockChain) : Machine CTxDB ChainBlock where
  apply journal next before after := Extends env base journal next ∧
    ∃ context, next.block.connectBlock env context next.pindex (chainOf base journal) before =
      .ok after
  undo journal tip before after :=
    tip.block.disconnectBlock env (chainOf base journal) before = .ok after

/-- A database with an empty transaction index. -/
def emptyIndex (blockindex : UInt256 → Option CDiskBlockIndex) (hashBestChain : Option UInt256) :
    CTxDB where
  txindex _ := none
  blockindex := blockindex
  hashBestChain := hashBestChain

theorem disconnectBlock_ok {env : Env} {pprev : BlockChain} {block : CBlock} {txdb after : CTxDB}
    (disconnected : block.disconnectBlock env pprev txdb = .ok after) :
    disconnectTransactions env.crypto block.vtx txdb.txindex = .ok after.txindex ∧
      after = { txdb with txindex := after.txindex }.writeBlockIndex pprev 0 := by
  simp only [CBlock.disconnectBlock, except_bind_eq_ok] at disconnected
  obtain ⟨txindex, undone, last⟩ := disconnected
  cases last
  rw [writeBlockIndex_txindex]
  exact ⟨undone, rfl⟩

end FooCoin

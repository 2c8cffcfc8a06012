import FooCoin.Script.Signature

/-!
# Blocks

Blocks, their serialization and hashes, the checks of `CBlock::CheckBlock`, and the block index.
A `CBlockIndex*` is modelled as the list of index entries from the block back to the genesis block:
the head is the block and the tail its `pprev`; the empty list is the null pointer.
-/

namespace FooCoin

open LittleEndian Codec

/-- A block. -/
structure CBlock where
  nVersion : Int32
  hashPrevBlock : UInt256
  hashMerkleRoot : UInt256
  nTime : UInt32
  nBits : UInt32
  nNonce : UInt32
  vtx : List CTransaction
  deriving DecidableEq

/-- The 80 bytes of the block header. -/
def CBlock.writeHeader (block : CBlock) : List UInt8 :=
  leBytes 4 block.nVersion.toUInt32.toNat ++ (leBytes 32 block.hashPrevBlock.toNat ++
    (leBytes 32 block.hashMerkleRoot.toNat ++ (leBytes 4 block.nTime.toNat ++
      (leBytes 4 block.nBits.toNat ++ leBytes 4 block.nNonce.toNat))))

/-- The serialization of a block. -/
def CBlock.write (block : CBlock) : List UInt8 :=
  block.writeHeader ++ (writeCompactSize block.vtx.length ++ block.vtx.flatMap CTransaction.write)

/-- Read a block. -/
def CBlock.read : Reader CBlock := do
  let nVersion ← readLE 4
  let hashPrevBlock ← readLE 32
  let hashMerkleRoot ← readLE 32
  let nTime ← readLE 4
  let nBits ← readLE 4
  let nNonce ← readLE 4
  let nTx ← readCompactSize
  let vtx ← readMany CTransaction.read nTx
  pure
    { nVersion := (UInt32.ofNat nVersion).toInt32
      hashPrevBlock := BitVec.ofNat 256 hashPrevBlock
      hashMerkleRoot := BitVec.ofNat 256 hashMerkleRoot
      nTime := UInt32.ofNat nTime
      nBits := UInt32.ofNat nBits
      nNonce := UInt32.ofNat nNonce
      vtx }

/-- `GetSerializeSize` of a block. -/
def CBlock.size (block : CBlock) : Nat := block.write.length

/-- `CBlock::GetHash`. -/
def CBlock.getHash (crypto : Crypto) (block : CBlock) : UInt256 := crypto.Hash block.writeHeader

/-- `CBlock::GetPoWHash`. -/
def CBlock.getPoWHash (crypto : Crypto) (block : CBlock) : UInt256 :=
  crypto.scrypt block.writeHeader

/-- One level of the Merkle tree over the level below. -/
def merkleLevel (crypto : Crypto) : List UInt256 → List UInt256
  | [] => []
  | [last] => [crypto.Hash (uint256Bytes last ++ uint256Bytes last)]
  | left :: right :: level =>
      crypto.Hash (uint256Bytes left ++ uint256Bytes right) :: merkleLevel crypto level

/-- The levels of the Merkle tree, up to the root. -/
def merkleLoop (crypto : Crypto) : Nat → List UInt256 → UInt256
  | _, [] => 0
  | _, [root] => root
  | 0, _ => 0
  | fuel + 1, level => merkleLoop crypto fuel (merkleLevel crypto level)

/-- `CBlock::BuildMerkleTree`: the root. -/
def buildMerkleTree (crypto : Crypto) (vtx : List CTransaction) : UInt256 :=
  merkleLoop crypto vtx.length (vtx.map (CTransaction.getHash crypto))

/-- `CBigNum::SetCompact`. -/
def setCompact (nCompact : UInt32) : Int :=
  let nSize := nCompact.toNat / 2 ^ 24
  let mantissa := nCompact.toNat % 2 ^ 23
  let magnitude : Nat :=
    if nSize ≤ 3 then mantissa / 256 ^ (3 - nSize) else mantissa * 256 ^ (nSize - 3)
  if 1 ≤ nSize ∧ nCompact.toNat / 2 ^ 23 % 2 = 1 then -(magnitude : Int) else magnitude

/-- `bnProofOfWorkLimit`. -/
def bnProofOfWorkLimit : Int := 2 ^ 236 - 1

/-- `CheckProofOfWork`. -/
def checkProofOfWork (hash : UInt256) (nBits : UInt32) : Bool :=
  let bnTarget := setCompact nBits
  0 < bnTarget ∧ bnTarget ≤ bnProofOfWorkLimit ∧ hash ≤ BitVec.ofInt 256 bnTarget

/-- `CBlock::CheckBlock` at an adjusted time. -/
def CBlock.checkBlock (crypto : Crypto) (nAdjustedTime : Int) (block : CBlock) : Outcome Unit := do
  require (block.vtx ≠ [] ∧ block.vtx.length ≤ maxBlockSize ∧ block.size ≤ maxBlockSize)
  require (checkProofOfWork (block.getPoWHash crypto) block.nBits)
  require ((block.nTime.toNat : Int) ≤ nAdjustedTime + 2 * 60 * 60)
  require (∀ tx ∈ block.vtx.head?, tx.isCoinBase)
  require (∀ tx ∈ block.vtx.tail, ¬tx.isCoinBase)
  forM block.vtx CTransaction.checkTransaction
  require (block.vtx.map (CTransaction.getHash crypto)).Nodup
  require ((block.vtx.map CTransaction.getLegacySigOpCount).sum ≤ maxBlockSigops)
  require (block.hashMerkleRoot = buildMerkleTree crypto block.vtx)

/-- What `CheckBlock` ensures. -/
structure CBlock.Checked (crypto : Crypto) (block : CBlock) : Prop where
  vtx_ne_nil : block.vtx ≠ []
  length_le : block.vtx.length ≤ maxBlockSize
  size_le : block.size ≤ maxBlockSize
  work : checkProofOfWork (block.getPoWHash crypto) block.nBits = true
  coinBase : ∀ tx ∈ block.vtx.head?, tx.isCoinBase
  ordinary : ∀ tx ∈ block.vtx.tail, ¬tx.isCoinBase
  transaction : ∀ tx ∈ block.vtx, tx.Checked
  nodup : (block.vtx.map (CTransaction.getHash crypto)).Nodup

/-- A block that passes `CheckBlock` at any time has all the checked properties. -/
theorem CBlock.checked_of_checkBlock {crypto : Crypto} {nAdjustedTime : Int} {block : CBlock}
    (accepted : block.checkBlock crypto nAdjustedTime = .ok ()) : block.Checked crypto := by
  simp only [checkBlock, except_bind_eq_ok, require_eq_ok, forM_eq_ok] at accepted
  obtain ⟨_, size, _, work, _, _, _, coinBase, _, ordinary, _, transactions, _, nodup, _⟩ := accepted
  exact
    { vtx_ne_nil := size.1
      length_le := size.2.1
      size_le := size.2.2
      work
      coinBase
      ordinary
      transaction := fun tx member => CTransaction.checked_of_checkTransaction (transactions tx member)
      nodup }

/-! ## Block files -/

/-- What stays fixed while a node runs. -/
structure Env where
  /-- The cryptographic functions. -/
  crypto : Crypto
  /-- The block files.  They only grow, and the model fixes what they end up holding. -/
  files : Nat → List UInt8
  /-- `fTestNet`. -/
  fTestNet : Bool
  /-- `hashGenesisBlock`. -/
  hashGenesisBlock : UInt256

/-- The bytes of a block file from a position on, `none` if it cannot be opened. -/
def Env.openBlockFile (env : Env) (nFile pos : Nat) : Option (List UInt8) :=
  if 1 ≤ nFile ∧ nFile ≠ 0xffffffff then some ((env.files nFile).drop pos) else none

theorem Env.openBlockFile_eq_some {env : Env} {nFile pos : Nat} {bytes : List UInt8} :
    env.openBlockFile nFile pos = some bytes ↔
      (1 ≤ nFile ∧ nFile ≠ 0xffffffff) ∧ (env.files nFile).drop pos = bytes := by
  simp [openBlockFile]

/-- The block is written at a position of a block file, behind its eight-byte record header. -/
def Env.Stored (env : Env) (nFile nBlockPos : Nat) (block : CBlock) : Prop :=
  8 ≤ nBlockPos ∧ ∃ rest, env.openBlockFile nFile nBlockPos = some (block.write ++ rest)

/-- `CTransaction::ReadFromDisk` at a position of a block file. -/
def Env.readTx (env : Env) (nFile nTxPos : Nat) : Option CTransaction := do
  let (tx, _) ← CTransaction.read.run (← env.openBlockFile nFile nTxPos)
  pure tx

/-- `CBlock::ReadFromDisk` at a position of a block file. -/
def Env.readBlock (env : Env) (nFile nBlockPos : Nat) : Option CBlock := do
  let (block, _) ← CBlock.read.run (← env.openBlockFile nFile nBlockPos)
  if checkProofOfWork (block.getPoWHash env.crypto) block.nBits then pure block else none

@[simp]
theorem CBlock.length_writeHeader (block : CBlock) : block.writeHeader.length = 80 := by
  simp [writeHeader]

/-- The offset of the transaction list in a serialized block. -/
def CBlock.vtxOffset (block : CBlock) : Nat := 80 + (writeCompactSize block.vtx.length).length

/-- Reading a block inverts writing it. -/
theorem CBlock.reads_read {block : CBlock} (small : block.size ≤ maxSize) :
    Reads CBlock.read block.write block := by
  have parts : block.size = 80 + ((writeCompactSize block.vtx.length).length +
      (block.vtx.map CTransaction.size).sum) := by
    simp only [CBlock.size, CBlock.write, List.length_append, length_writeHeader,
      List.length_flatMap]
    rfl
  have each : ∀ tx ∈ block.vtx, 1 ≤ tx.size ∧ tx.size ≤ maxSize := by
    intro tx member
    have single := List.single_le_sum (fun _ _ => Nat.zero_le _) _
      (List.mem_map_of_mem (f := CTransaction.size) member)
    have positive : 1 ≤ tx.size := by
      simp only [CTransaction.size, CTransaction.write, List.length_append, length_leBytes]
      omega
    exact ⟨positive, by omega⟩
  have count : block.vtx.length ≤ maxSize := by
    have bound := List.card_nsmul_le_sum (block.vtx.map CTransaction.size) 1 (by
      simpa using fun tx member => (each tx member).1)
    simp at bound
    omega
  have header : block.write = leBytes 4 block.nVersion.toUInt32.toNat ++
      (leBytes 32 block.hashPrevBlock.toNat ++ (leBytes 32 block.hashMerkleRoot.toNat ++
        (leBytes 4 block.nTime.toNat ++ (leBytes 4 block.nBits.toNat ++
          (leBytes 4 block.nNonce.toNat ++ (writeCompactSize block.vtx.length ++
            block.vtx.flatMap CTransaction.write)))))) := by
    simp [CBlock.write, CBlock.writeHeader, List.append_assoc]
  rw [header]
  refine (reads_readLE block.nVersion.toUInt32.toNat_lt).bind ?_
  refine (reads_readLE block.hashPrevBlock.isLt).bind ?_
  refine (reads_readLE block.hashMerkleRoot.isLt).bind ?_
  refine (reads_readLE block.nTime.toNat_lt).bind ?_
  refine (reads_readLE block.nBits.toNat_lt).bind ?_
  refine (reads_readLE block.nNonce.toNat_lt).bind ?_
  refine (reads_readCompactSize count).bind ?_
  exact (reads_readMany fun tx member =>
    CTransaction.reads_read (CTransaction.sized (each tx member).2)).last (by simp)

/-- Reading at the place of a stored block gives that block. -/
theorem Env.Stored.readBlock_eq {env : Env} {nFile nBlockPos : Nat} {block : CBlock}
    (stored : env.Stored nFile nBlockPos block) (checked : block.Checked env.crypto) :
    env.readBlock nFile nBlockPos = some block := by
  obtain ⟨_, rest, opened⟩ := stored
  have small : block.size ≤ maxSize := checked.size_le.trans (by decide)
  have read := CBlock.reads_read small rest
  simp [readBlock, opened, read, checked.work]

/-- Reading at the place of a transaction inside a stored block gives that transaction. -/
theorem Env.Stored.readTx_eq {env : Env} {nFile nBlockPos : Nat} {block : CBlock}
    (stored : env.Stored nFile nBlockPos block) {front back : List CTransaction} {tx : CTransaction}
    (split : block.vtx = front ++ tx :: back) (small : tx.size ≤ maxSize) :
    env.readTx nFile (nBlockPos + block.vtxOffset + (front.map CTransaction.size).sum) =
      some tx := by
  obtain ⟨_, rest, opened⟩ := stored
  obtain ⟨usable, bytes⟩ := openBlockFile_eq_some.mp opened
  have lead : block.write ++ rest =
      (block.writeHeader ++ writeCompactSize block.vtx.length ++
        front.flatMap CTransaction.write) ++
          (tx.write ++ (back.flatMap CTransaction.write ++ rest)) := by
    simp [CBlock.write, split, List.flatMap_append, List.append_assoc]
  have lead_length : (block.writeHeader ++ writeCompactSize block.vtx.length ++
      front.flatMap CTransaction.write).length =
        block.vtxOffset + (front.map CTransaction.size).sum := by
    simp only [List.length_append, CBlock.length_writeHeader, CBlock.vtxOffset, List.length_flatMap]
    rfl
  have at_tx : env.openBlockFile nFile
      (nBlockPos + block.vtxOffset + (front.map CTransaction.size).sum) =
        some (tx.write ++ (back.flatMap CTransaction.write ++ rest)) := by
    refine openBlockFile_eq_some.mpr ⟨usable, ?_⟩
    rw [Nat.add_assoc, ← List.drop_drop, bytes, lead, ← lead_length, List.drop_left]
  have read := CTransaction.reads_read (CTransaction.sized small)
    (back.flatMap CTransaction.write ++ rest)
  simp [readTx, at_tx, read]

/-! ## Block index -/

/-- A block index entry without its links. -/
structure CBlockIndex where
  hashBlock : UInt256
  nFile : Nat
  nBlockPos : Nat
  nHeight : Nat
  bnChainWork : Int
  nVersion : Int32
  hashMerkleRoot : UInt256
  nTime : UInt32
  nBits : UInt32
  nNonce : UInt32
  deriving DecidableEq

/-- `CBlockIndex*`: the entry and its ancestors. -/
abbrev BlockChain := List CBlockIndex

/-- `CBlockIndex::GetBlockWork`. -/
def getBlockWork (nBits : UInt32) : Int :=
  let bnTarget := setCompact nBits
  if bnTarget ≤ 0 then 0 else 2 ^ 256 / (bnTarget + 1)

/-- `CBlockIndex::GetBlockHash` of a possibly null pointer, 0 for null. -/
def getBlockHash (pindex : BlockChain) : UInt256 := (pindex.head?.map CBlockIndex.hashBlock).getD 0

/-- The entry that `AddToBlockIndex` makes for a block written at a position, on top of the entry
of the previous block. -/
def CBlockIndex.ofBlock (crypto : Crypto) (nFile nBlockPos : Nat) (block : CBlock)
    (prev : BlockChain) : CBlockIndex where
  hashBlock := block.getHash crypto
  nFile := nFile
  nBlockPos := nBlockPos
  nHeight := (prev.head?.map fun pindex => pindex.nHeight + 1).getD 0
  bnChainWork := (prev.head?.map CBlockIndex.bnChainWork).getD 0 + getBlockWork block.nBits
  nVersion := block.nVersion
  hashMerkleRoot := block.hashMerkleRoot
  nTime := block.nTime
  nBits := block.nBits
  nNonce := block.nNonce

end FooCoin

import FooCoin.BlockEffect
import FooCoin.Protocol
import FooCoin.Serialize

/-!
# Positions in the block files

`WriteToDisk` appends a block to a block file as a record, and `ConnectBlock` computes from the
position of the block where each of its transactions starts.  The computed positions are those of
the bytes written.
-/

namespace FooCoin

open LittleEndian Codec Function

/-- The block files and the number of the one to append to. -/
structure BlockFiles where
  files : Nat → List UInt8
  nCurrentBlockFile : Nat

/-- `AppendBlockFile` from a file number on: the first file with room, `none` if it cannot be
opened. -/
def appendBlockFile (files : Nat → List UInt8) (nCurrentBlockFile : Nat) : Option Nat :=
  if nCurrentBlockFile < 1 ∨ 0xffffffff ≤ nCurrentBlockFile then none
  else if (files nCurrentBlockFile).length < 0x7F000000 - maxSize then some nCurrentBlockFile
  else appendBlockFile files (nCurrentBlockFile + 1)
termination_by 0xffffffff - nCurrentBlockFile

/-- What `WriteToDisk` writes before the block. -/
def CBlock.recordHeader (fTestNet : Bool) (block : CBlock) : List UInt8 :=
  pchMessageStart fTestNet ++ leBytes 4 (block.getSerializeSize serDisk).toNat

/-- `CBlock::WriteToDisk`: the files after it, `nFileRet` and `nBlockPosRet`. -/
def CBlock.writeToDisk (fTestNet : Bool) (disk : BlockFiles) (block : CBlock) :
    Option (BlockFiles × Nat × Nat) := do
  let nFile ← appendBlockFile disk.files disk.nCurrentBlockFile
  let fileout := disk.files nFile ++ block.recordHeader fTestNet
  let nBlockPos := UInt32.ofNat fileout.length
  pure
    ({ files := update disk.files nFile (fileout ++ block.serialize serDisk)
       nCurrentBlockFile := nFile }, nFile, nBlockPos.toNat)

/-- `CBlock()`. -/
def CBlock.setNull : CBlock where
  nVersion := 1
  hashPrevBlock := 0
  hashMerkleRoot := 0
  nTime := 0
  nBits := 0
  nNonce := 0
  vtx := []

/-- `nTxPos` of `ConnectBlock` before the first transaction. -/
def CBlock.firstTxPos (nBlockPos : UInt32) (block : CBlock) : UInt32 :=
  nBlockPos + CBlock.setNull.getSerializeSize serDisk - 1 + getSizeOfCompactSize block.vtx.length

/-- `nTxPos` of `ConnectBlock` at the `i`-th transaction. -/
def CBlock.txPos (nBlockPos : UInt32) (block : CBlock) (i : Nat) : UInt32 :=
  (block.vtx.take i).foldl (fun nTxPos tx => nTxPos + tx.getSerializeSize)
    (block.firstTxPos nBlockPos)

/-! ## What is written -/

private theorem appendBlockFile_ok {files : Nat → List UInt8} {nCurrentBlockFile nFile : Nat}
    (opened : appendBlockFile files nCurrentBlockFile = some nFile) :
    (1 ≤ nFile ∧ nFile ≠ 0xffffffff) ∧ (files nFile).length < 0x7F000000 - maxSize := by
  induction nCurrentBlockFile using appendBlockFile.induct files with
  | case1 number unusable =>
      rw [appendBlockFile, if_pos unusable] at opened
      contradiction
  | case2 number usable room =>
      rw [appendBlockFile, if_neg usable, if_pos room] at opened
      cases opened
      exact ⟨⟨by omega, by omega⟩, room⟩
  | case3 number usable full induction =>
      rw [appendBlockFile, if_neg usable, if_neg full] at opened
      exact induction opened

@[simp]
theorem CBlock.length_recordHeader (fTestNet : Bool) (block : CBlock) :
    (block.recordHeader fTestNet).length = 8 := by
  simp [recordHeader]

/-- What a successful `WriteToDisk` returns and leaves in the file. -/
structure CBlock.Written (fTestNet : Bool) (disk after : BlockFiles) (block : CBlock)
    (nFile nBlockPos : Nat) : Prop where
  usable : 1 ≤ nFile ∧ nFile ≠ 0xffffffff
  position : nBlockPos = (disk.files nFile).length + 8
  small : nBlockPos < 2 ^ 31
  appended : after.files nFile = disk.files nFile ++ (block.recordHeader fTestNet ++ block.write)

theorem CBlock.writeToDisk_ok {fTestNet : Bool} {disk after : BlockFiles} {block : CBlock}
    {nFile nBlockPos : Nat}
    (written : block.writeToDisk fTestNet disk = some (after, nFile, nBlockPos)) :
    block.Written fTestNet disk after nFile nBlockPos := by
  simp only [writeToDisk, Option.bind_eq_bind, Option.bind_eq_some_iff, Option.pure_def,
    Option.some.injEq, Prod.mk.injEq] at written
  obtain ⟨opened, appended, rfl, rfl, rfl⟩ := written
  obtain ⟨usable, room⟩ := appendBlockFile_ok appended
  have fileOutPos : (disk.files opened ++ block.recordHeader fTestNet).length =
      (disk.files opened).length + 8 := by
    rw [List.length_append, length_recordHeader]
  have word_size : 0x7F000008 ≤ UInt32.size := by decide
  have word : (UInt32.ofNat (disk.files opened ++ block.recordHeader fTestNet).length).toNat =
      (disk.files opened).length + 8 := by
    rw [fileOutPos]
    exact UInt32.toNat_ofNat_of_lt' (lt_of_lt_of_le (by omega) word_size)
  have full : skipsVtx serDisk = false := by decide
  refine ⟨usable, word, by omega, ?_⟩
  simp only [update_self, block.serialize_eq_write full, List.append_assoc]

/-- The bytes of the file before the `i`-th transaction. -/
def CBlock.before (fTestNet : Bool) (old : List UInt8) (block : CBlock) (i : Nat) : List UInt8 :=
  old ++ (block.recordHeader fTestNet ++ (block.writeHeader ++
    (writeCompactSize block.vtx.length ++ (block.vtx.take i).flatMap CTransaction.write)))

private theorem CBlock.length_before (fTestNet : Bool) (old : List UInt8) (block : CBlock)
    (i : Nat) : (block.before fTestNet old i).length =
      old.length + 8 + block.vtxOffset + ((block.vtx.take i).map CTransaction.size).sum := by
  have transactions : ((block.vtx.take i).flatMap CTransaction.write).length =
      ((block.vtx.take i).map CTransaction.size).sum := by
    rw [List.length_flatMap]
    rfl
  simp only [before, List.length_append, length_recordHeader, length_writeHeader, transactions,
    vtxOffset]
  omega

private theorem split_at {α : Type} {values : List α} {i : Nat} {value : α}
    (here : values[i]? = some value) :
    values = values.take i ++ value :: values.drop (i + 1) := by
  obtain ⟨inside, rfl⟩ := List.getElem?_eq_some_iff.mp here
  rw [← List.drop_eq_getElem_cons inside, List.take_append_drop]

private theorem CBlock.write_eq_before {block : CBlock} {i : Nat} {tx : CTransaction}
    (here : block.vtx[i]? = some tx) (fTestNet : Bool) (old : List UInt8) :
    ∃ rest, old ++ (block.recordHeader fTestNet ++ block.write) =
      block.before fTestNet old i ++ (tx.write ++ rest) := by
  refine ⟨(block.vtx.drop (i + 1)).flatMap CTransaction.write, ?_⟩
  have vtx : block.vtx.flatMap CTransaction.write =
      (block.vtx.take i).flatMap CTransaction.write ++
        (tx.write ++ (block.vtx.drop (i + 1)).flatMap CTransaction.write) := by
    conv_lhs => rw [split_at here]
    rw [List.flatMap_append, List.flatMap_cons]
  simp only [before, write, vtx, List.append_assoc]

/-! ## The computed positions -/

private theorem foldl_txPos_eq (vtx : List CTransaction) (start : Nat) :
    vtx.foldl (fun nTxPos tx => nTxPos + tx.getSerializeSize) (UInt32.ofNat start) =
      UInt32.ofNat (start + (vtx.map CTransaction.size).sum) := by
  induction vtx generalizing start with
  | nil => simp
  | cons tx vtx induction =>
      rw [List.foldl_cons, tx.getSerializeSize_eq, ← UInt32.ofNat_add, induction, List.map_cons,
        List.sum_cons, ← Nat.add_assoc]
      rfl

/-- The positions of `ConnectBlock` are those of the bytes, as 32-bit words. -/
theorem CBlock.txPos_eq (block : CBlock) (nBlockPos i : Nat) :
    block.txPos (UInt32.ofNat nBlockPos) i =
      UInt32.ofNat
        (nBlockPos + block.vtxOffset + ((block.vtx.take i).map CTransaction.size).sum) := by
  have empty : CBlock.setNull.getSerializeSize serDisk = UInt32.ofNat 80 + 1 := by decide
  have first : block.firstTxPos (UInt32.ofNat nBlockPos) =
      UInt32.ofNat (nBlockPos + block.vtxOffset) := by
    rw [firstTxPos, getSizeOfCompactSize_eq, empty, ← UInt32.add_assoc, UInt32.add_sub_cancel,
      ← UInt32.ofNat_add, ← UInt32.ofNat_add, vtxOffset, Nat.add_assoc]
  rw [txPos, first, foldl_txPos_eq]

/-! ## The entered positions -/

/-- Connecting transactions keeps the positions of other transactions. -/
private theorem BlockConnected.pos_eq {env : Env} {mempool : MapTx} {pindex : CBlockIndex}
    {nTxPos : Nat} {vtx : List CTransaction} {before after : TxIndexMap} {nFees : Int}
    {hash : UInt256}
    (connected : BlockConnected env mempool pindex nTxPos vtx before after nFees)
    (others : hash ∉ vtx.map (CTransaction.getHash env.crypto)) :
    (after hash).map CTxIndex.pos = (before hash).map CTxIndex.pos := by
  induction connected with
  | nil => rfl
  | @cons nTxPos tx vtx before middle after nTxFee nFees first _ induction =>
      rw [List.map_cons, List.mem_cons, not_or] at others
      rw [induction others.2, first.effect, update_of_ne others.1, markSpent, Option.map_map]
      rfl

/-- A transaction of a block is entered with its position in the block. -/
theorem BlockConnected.entered {env : Env} {mempool : MapTx} {pindex : CBlockIndex}
    {nTxPos : Nat} {vtx : List CTransaction} {before after : TxIndexMap} {nFees : Int}
    (connected : BlockConnected env mempool pindex nTxPos vtx before after nFees)
    (nodup : (vtx.map (CTransaction.getHash env.crypto)).Nodup) {i : Nat} {tx : CTransaction}
    (here : vtx[i]? = some tx) :
    (after (tx.getHash env.crypto)).map CTxIndex.pos = some (.mk pindex.nFile pindex.nBlockPos
      (nTxPos + ((vtx.take i).map CTransaction.size).sum)) := by
  induction connected generalizing i with
  | nil => simp at here
  | @cons nTxPos first vtx before middle after nTxFee nFees connects later induction =>
      rw [List.map_cons, List.nodup_cons] at nodup
      cases i with
      | zero =>
          obtain rfl : first = tx := by simpa using here
          rw [later.pos_eq nodup.1, connects.effect, update_self]
          rfl
      | succ i =>
          rw [induction nodup.2 (by simpa using here), List.take_succ_cons, List.map_cons,
            List.sum_cons, Nat.add_assoc]

/-- The position that `ConnectBlock` enters for a transaction of a block that `WriteToDisk` wrote is
where the transaction starts in the block file, and reading there gives the transaction. -/
theorem diskTxPos_exact {env : Env} {context : CallContext} {disk written : BlockFiles}
    {block : CBlock} {pindex : CBlockIndex} {pprev : BlockChain} {txdb after : CTxDB}
    (writes : block.writeToDisk env.fTestNet disk =
      some (written, pindex.nFile, pindex.nBlockPos))
    (grown : written.files pindex.nFile <+: env.files pindex.nFile)
    (connects : block.connectBlock env context pindex pprev txdb = .ok after)
    {i : Nat} {tx : CTransaction} (here : block.vtx[i]? = some tx) :
    ∃ txindex nTxPos rest,
      after.txindex (tx.getHash env.crypto) = some txindex ∧
        txindex.pos = .mk pindex.nFile pindex.nBlockPos nTxPos ∧
        nTxPos = (block.txPos (UInt32.ofNat pindex.nBlockPos) i).toNat ∧
        nTxPos = (block.before env.fTestNet (disk.files pindex.nFile) i).length ∧
        env.files pindex.nFile =
          block.before env.fTestNet (disk.files pindex.nFile) i ++ (tx.write ++ rest) ∧
        env.readTxAt txindex.pos = some tx := by
  have record := block.writeToDisk_ok writes
  obtain ⟨nFees, connected⟩ := connectBlock_ok connects
  have checked := connected.checked
  obtain ⟨txindex, present, pos⟩ := Option.map_eq_some_iff.mp
    (connected.index.entered checked.nodup here)
  obtain ⟨tail, bytes⟩ := block.write_eq_before here env.fTestNet (disk.files pindex.nFile)
  obtain ⟨more, file⟩ := grown
  rw [record.appended, bytes] at file
  have position := block.length_before env.fTestNet (disk.files pindex.nFile) i
  rw [← record.position] at position
  have inside : pindex.nBlockPos + block.vtxOffset +
      ((block.vtx.take i).map CTransaction.size).sum + tx.size ≤
        pindex.nBlockPos + block.size := by
    have lengths := congrArg List.length bytes
    simp only [List.length_append, CBlock.length_recordHeader, position] at lengths
    have start := record.position
    have size : tx.size = tx.write.length := rfl
    have whole : block.size = block.write.length := rfl
    omega
  refine ⟨txindex, _, tail ++ more, present, pos, ?_, position.symm, ?_, ?_⟩
  · have small := record.small
    have size := checked.size_le
    have limit : maxBlockSize = 1000000 := rfl
    rw [block.txPos_eq, UInt32.toNat_ofNat_of_lt']
    exact lt_of_lt_of_le (b := 2 ^ 32) (by omega) (by decide)
  · rw [← file, List.append_assoc, List.append_assoc]
  · have stored : env.Stored pindex.nFile pindex.nBlockPos block := by
      refine ⟨by have := record.position; omega, more, ?_⟩
      refine Env.openBlockFile_eq_some.mpr ⟨record.usable, ?_⟩
      rw [← file, ← bytes, ← List.append_assoc, List.append_assoc]
      refine List.drop_left' ?_
      rw [List.length_append, CBlock.length_recordHeader, record.position]
    have fits : tx.size ≤ maxSize :=
      (checked.transaction tx (List.mem_of_getElem? here)).size_le.trans (by decide)
    rw [pos]
    exact stored.readTx_eq (split_at here) fits

/-- A block with a coinbase only. -/
def writtenBlock : CBlock := sampleBlock 0 1400000000 [sampleCoinBase 1 [100]]

/-- The block files after the block was written to the first one. -/
def writtenFiles : BlockFiles where
  files := update (fun _ => []) 1 (writtenBlock.recordHeader true ++ writtenBlock.serialize serDisk)
  nCurrentBlockFile := 1

/-- A node with these block files. -/
def writtenEnv : Env where
  crypto := sampleCrypto
  files := writtenFiles.files
  fTestNet := true
  hashGenesisBlock := 0

private theorem writtenBlock_writeToDisk :
    writtenBlock.writeToDisk true { files := fun _ => [], nCurrentBlockFile := 1 } =
      some (writtenFiles, 1, 8) := by
  have opened : appendBlockFile (fun _ => []) 1 = some 1 := by
    rw [appendBlockFile, if_neg (by decide), if_pos (by decide)]
  simp [CBlock.writeToDisk, opened, writtenFiles]

theorem diskTxPos_exact_writtenBlock :
    ∃ (after : CTxDB) (txindex : CTxIndex) (nTxPos : Nat),
      writtenBlock.connectBlock writtenEnv sampleContext (sampleEntry 0 writtenBlock []) []
          { txindex := fun _ => none, blockindex := fun _ => none, hashBestChain := none } =
        .ok after ∧
      after.txindex ((sampleCoinBase 1 [100]).getHash sampleCrypto) = some txindex ∧
      txindex.pos = .mk 1 8 nTxPos ∧
      nTxPos = (writtenBlock.txPos 8 0).toNat ∧
      writtenEnv.readTxAt txindex.pos = some (sampleCoinBase 1 [100]) := by
  obtain ⟨after, connects⟩ := exists_of_isOk (show (writtenBlock.connectBlock writtenEnv
    sampleContext (sampleEntry 0 writtenBlock []) []
    { txindex := fun _ => none
      blockindex := fun _ => none
      hashBestChain := none }).isOk = true by decide +kernel)
  obtain ⟨txindex, nTxPos, _, present, pos, computed, _, _, read⟩ :=
    @diskTxPos_exact writtenEnv sampleContext { files := fun _ => [], nCurrentBlockFile := 1 }
      writtenFiles writtenBlock (sampleEntry 0 writtenBlock []) [] _ after
      writtenBlock_writeToDisk (List.prefix_refl _) connects 0 (sampleCoinBase 1 [100]) rfl
  exact ⟨after, txindex, nTxPos, connects, present, pos, computed, read⟩

end FooCoin

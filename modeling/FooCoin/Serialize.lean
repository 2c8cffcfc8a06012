import FooCoin.Library.Chunks
import FooCoin.SampleChain

/-!
# The three traversals of the serialization

`IMPLEMENT_SERIALIZE` expands a list of fields three times: to measure, to write and to read.  The
measures are 32-bit words; the vectors are read in chunks.  Reading inverts writing and the measures
are the lengths written, as 32-bit words.  A block is written without its transactions where the type
asks for the header only, which the hash type does as well.
-/

namespace FooCoin

open LittleEndian Codec

/-! ## Serialization types -/

/-- `SER_NETWORK`. -/
def serNetwork : Nat := 2 ^ 0

/-- `SER_DISK`. -/
def serDisk : Nat := 2 ^ 1

/-- `SER_GETHASH`. -/
def serGetHash : Nat := 2 ^ 2

/-- `SER_BLOCKHEADERONLY`. -/
def serBlockHeaderOnly : Nat := 2 ^ 17

/-- `nType & (SER_GETHASH|SER_BLOCKHEADERONLY)`. -/
def skipsVtx (nType : Nat) : Bool := nType &&& (serGetHash ||| serBlockHeaderOnly) ≠ 0

/-! ## Measuring -/

/-- `GetSizeOfCompactSize`. -/
def getSizeOfCompactSize (nSize : Nat) : UInt32 :=
  if nSize < 253 then 1
  else if nSize ≤ 0xffff then 1 + 2
  else if nSize ≤ 0xffffffff then 1 + 4
  else 1 + 8

/-- `GetSerializeSize` of a byte vector or a script. -/
def getSerializeSizeBytes (bytes : List UInt8) : UInt32 :=
  getSizeOfCompactSize bytes.length + UInt32.ofNat bytes.length

/-- `GetSerializeSize` of a vector of objects. -/
def getSerializeSizeVector {α : Type} (size : α → UInt32) (values : List α) : UInt32 :=
  values.foldl (fun nSize value => nSize + size value) (getSizeOfCompactSize values.length)

/-- `CTxIn::GetSerializeSize`. -/
def CTxIn.getSerializeSize (txin : CTxIn) : UInt32 :=
  36 + getSerializeSizeBytes txin.scriptSig + 4

/-- `CTxOut::GetSerializeSize`. -/
def CTxOut.getSerializeSize (txout : CTxOut) : UInt32 :=
  8 + getSerializeSizeBytes txout.scriptPubKey

/-- `CTransaction::GetSerializeSize`. -/
def CTransaction.getSerializeSize (tx : CTransaction) : UInt32 :=
  4 + getSerializeSizeVector CTxIn.getSerializeSize tx.vin +
    getSerializeSizeVector CTxOut.getSerializeSize tx.vout + 4

/-- `CBlock::GetSerializeSize`. -/
def CBlock.getSerializeSize (nType : Nat) (block : CBlock) : UInt32 :=
  4 + 32 + 32 + 4 + 4 + 4 +
    if skipsVtx nType then 0
    else getSerializeSizeVector CTransaction.getSerializeSize block.vtx

/-! ## Writing -/

/-- `CBlock::Serialize`. -/
def CBlock.serialize (nType : Nat) (block : CBlock) : List UInt8 :=
  block.writeHeader ++
    if skipsVtx nType then []
    else writeCompactSize block.vtx.length ++ block.vtx.flatMap CTransaction.write

/-! ## Reading -/

/-- `sizeof` of an element type. -/
structure SizeOf where
  /-- The size. -/
  bytes : Nat
  /-- No object is empty. -/
  positive : 0 < bytes
  /-- An object fits a chunk. -/
  small : bytes ≤ 5000000

/-- `sizeof` of the element types of the vectors. -/
structure Layout where
  txIn : SizeOf
  txOut : SizeOf
  transaction : SizeOf

/-- `Unserialize` of a byte vector or a script. -/
def unserializeBytes : Reader (List UInt8) := do
  let nSize ← readCompactSize
  readInChunks readBytes (1 + 4999999 / 1) nSize nSize

/-- `Unserialize` of a vector of objects. -/
def unserializeVector {α : Type} (size : SizeOf) (unserialize : Reader α) : Reader (List α) := do
  let nSize ← readCompactSize
  readInChunks (readMany unserialize) (5000000 / size.bytes) nSize nSize

/-- `CTxIn::Unserialize`. -/
def CTxIn.unserialize : Reader CTxIn := do
  let prevout ← COutPoint.read
  let scriptSig ← unserializeBytes
  let nSequence ← readLE 4
  pure { prevout, scriptSig, nSequence := UInt32.ofNat nSequence }

/-- `CTxOut::Unserialize`. -/
def CTxOut.unserialize : Reader CTxOut := do
  let nValue ← readLE 8
  let scriptPubKey ← unserializeBytes
  pure { nValue := (UInt64.ofNat nValue).toInt64, scriptPubKey }

/-- `CTransaction::Unserialize`. -/
def CTransaction.unserialize (layout : Layout) : Reader CTransaction := do
  let nVersion ← readLE 4
  let vin ← unserializeVector layout.txIn CTxIn.unserialize
  let vout ← unserializeVector layout.txOut CTxOut.unserialize
  let nLockTime ← readLE 4
  pure { nVersion := (UInt32.ofNat nVersion).toInt32, vin, vout, nLockTime := UInt32.ofNat nLockTime }

/-- `CBlock::Unserialize`. -/
def CBlock.unserialize (layout : Layout) (nType : Nat) : Reader CBlock := do
  let nVersion ← readLE 4
  let hashPrevBlock ← readLE 32
  let hashMerkleRoot ← readLE 32
  let nTime ← readLE 4
  let nBits ← readLE 4
  let nNonce ← readLE 4
  let vtx ←
    (if skipsVtx nType then pure []
      else unserializeVector layout.transaction (CTransaction.unserialize layout))
  pure
    { nVersion := (UInt32.ofNat nVersion).toInt32
      hashPrevBlock := BitVec.ofNat 256 hashPrevBlock
      hashMerkleRoot := BitVec.ofNat 256 hashMerkleRoot
      nTime := UInt32.ofNat nTime
      nBits := UInt32.ofNat nBits
      nNonce := UInt32.ofNat nNonce
      vtx }

/-! ## The measures -/

theorem getSizeOfCompactSize_eq (nSize : Nat) :
    getSizeOfCompactSize nSize = UInt32.ofNat (writeCompactSize nSize).length := by
  simp only [getSizeOfCompactSize, writeCompactSize]
  split_ifs <;> simp

theorem getSerializeSizeBytes_eq (bytes : List UInt8) :
    getSerializeSizeBytes bytes = UInt32.ofNat (writeVector bytes).length := by
  rw [getSerializeSizeBytes, writeVector, List.length_append, UInt32.ofNat_add,
    getSizeOfCompactSize_eq]

private theorem foldl_size_eq {α : Type} {size : α → UInt32} {write : α → List UInt8}
    {values : List α} (each : ∀ value, size value = UInt32.ofNat (write value).length)
    (start : Nat) :
    values.foldl (fun nSize value => nSize + size value) (UInt32.ofNat start) =
      UInt32.ofNat (start + (values.flatMap write).length) := by
  induction values generalizing start with
  | nil => simp
  | cons value values induction =>
      rw [List.foldl_cons, each, ← UInt32.ofNat_add, induction, List.flatMap_cons,
        List.length_append, Nat.add_assoc]

/-- The measure of a vector is the length written. -/
theorem getSerializeSizeVector_eq {α : Type} {size : α → UInt32}
    {write : α → List UInt8} (values : List α)
    (each : ∀ value, size value = UInt32.ofNat (write value).length) :
    getSerializeSizeVector size values =
      UInt32.ofNat (writeCompactSize values.length ++ values.flatMap write).length := by
  rw [getSerializeSizeVector, getSizeOfCompactSize_eq, foldl_size_eq each, List.length_append]

theorem CTxIn.getSerializeSize_eq (txin : CTxIn) :
    txin.getSerializeSize = UInt32.ofNat txin.write.length := by
  have prevout : (36 : UInt32) = UInt32.ofNat 32 + UInt32.ofNat 4 := rfl
  simp only [getSerializeSize, getSerializeSizeBytes_eq, CTxIn.write, COutPoint.write,
    List.length_append, length_leBytes, UInt32.ofNat_add, prevout, UInt32.add_assoc]
  rfl

theorem CTxOut.getSerializeSize_eq (txout : CTxOut) :
    txout.getSerializeSize = UInt32.ofNat txout.write.length := by
  simp only [getSerializeSize, getSerializeSizeBytes_eq, CTxOut.write, List.length_append,
    length_leBytes, UInt32.ofNat_add]
  rfl

/-- The measure of a transaction is the length written, as a 32-bit word. -/
theorem CTransaction.getSerializeSize_eq (tx : CTransaction) :
    tx.getSerializeSize = UInt32.ofNat tx.write.length := by
  rw [getSerializeSize, getSerializeSizeVector_eq tx.vin CTxIn.getSerializeSize_eq,
    getSerializeSizeVector_eq tx.vout CTxOut.getSerializeSize_eq]
  simp only [CTransaction.write, List.length_append, length_leBytes, UInt32.ofNat_add,
    UInt32.add_assoc]
  rfl

/-- The measure of a block is the length written, as a 32-bit word. -/
theorem CBlock.getSerializeSize_eq (nType : Nat) (block : CBlock) :
    block.getSerializeSize nType = UInt32.ofNat (block.serialize nType).length := by
  have header : (4 + 32 + 32 + 4 + 4 + 4 : UInt32) = UInt32.ofNat 80 := rfl
  rw [getSerializeSize, header, serialize, List.length_append, CBlock.length_writeHeader,
    UInt32.ofNat_add]
  cases skipsVtx nType with
  | true => rfl
  | false =>
      simp only [Bool.false_eq_true, if_false]
      rw [getSerializeSizeVector_eq block.vtx CTransaction.getSerializeSize_eq]

/-! ## The round trip -/

private theorem unserializeBytes_eq : unserializeBytes = readVector := by
  simp only [unserializeBytes, readVector]
  congr 1
  funext nSize
  exact splits_readBytes.readInChunks_eq (by norm_num) le_rfl

private theorem unserializeVector_eq {α : Type} (size : SizeOf) (unserialize : Reader α) :
    unserializeVector size unserialize =
      (do
        let nSize ← readCompactSize
        readMany unserialize nSize) := by
  simp only [unserializeVector]
  congr 1
  funext nSize
  exact (splits_readMany unserialize).readInChunks_eq
    (Nat.div_pos size.small size.positive) le_rfl

/-- Reading in chunks is reading at once. -/
theorem CTransaction.unserialize_eq (layout : Layout) :
    CTransaction.unserialize layout = CTransaction.read := by
  have txIn : CTxIn.unserialize = CTxIn.read := by
    rw [CTxIn.unserialize, unserializeBytes_eq]
    rfl
  have txOut : CTxOut.unserialize = CTxOut.read := by
    rw [CTxOut.unserialize, unserializeBytes_eq]
    rfl
  rw [unserialize, unserializeVector_eq, unserializeVector_eq, txIn, txOut]
  simp only [CTransaction.read, bind_assoc]

/-- Every length in the block is one that `ReadCompactSize` accepts. -/
structure CBlock.Sized (block : CBlock) : Prop where
  vtx : block.vtx.length ≤ maxSize
  transaction : ∀ tx ∈ block.vtx, tx.Sized

/-- What reading gives back of a block: all of it, or its header. -/
def CBlock.carried (nType : Nat) (block : CBlock) : CBlock :=
  if skipsVtx nType then { block with vtx := [] } else block

theorem CBlock.reads_unserialize (layout : Layout) (nType : Nat) {block : CBlock}
    (sized : block.Sized) :
    Reads (CBlock.unserialize layout nType) (block.serialize nType) (block.carried nType) := by
  have fields : block.serialize nType = leBytes 4 block.nVersion.toUInt32.toNat ++
      (leBytes 32 block.hashPrevBlock.toNat ++ (leBytes 32 block.hashMerkleRoot.toNat ++
        (leBytes 4 block.nTime.toNat ++ (leBytes 4 block.nBits.toNat ++
          (leBytes 4 block.nNonce.toNat ++ if skipsVtx nType then []
            else writeCompactSize block.vtx.length ++ block.vtx.flatMap CTransaction.write))))) := by
    simp [serialize, CBlock.writeHeader, List.append_assoc]
  rw [fields]
  refine (reads_readLE block.nVersion.toUInt32.toNat_lt).bind ?_
  refine (reads_readLE block.hashPrevBlock.isLt).bind ?_
  refine (reads_readLE block.hashMerkleRoot.isLt).bind ?_
  refine (reads_readLE block.nTime.toNat_lt).bind ?_
  refine (reads_readLE block.nBits.toNat_lt).bind ?_
  refine (reads_readLE block.nNonce.toNat_lt).bind ?_
  simp only [carried]
  cases skipsVtx nType with
  | true => exact (Reads.pure []).last (by simp)
  | false =>
      have transactions : Reads (unserializeVector layout.transaction
          (CTransaction.unserialize layout))
          (writeCompactSize block.vtx.length ++ block.vtx.flatMap CTransaction.write) block.vtx := by
        rw [unserializeVector_eq, CTransaction.unserialize_eq]
        exact (reads_readCompactSize sized.vtx).bind (reads_readMany fun tx member =>
          CTransaction.reads_read (sized.transaction tx member))
      exact transactions.last (by simp)

/-- On disk and on the network a block is written in full. -/
theorem CBlock.serialize_eq_write {nType : Nat} (full : skipsVtx nType = false) (block : CBlock) :
    block.serialize nType = block.write := by
  simp only [serialize, full, Bool.false_eq_true, if_false, CBlock.write]

example : skipsVtx serNetwork = false ∧ skipsVtx serDisk = false ∧ skipsVtx serGetHash = true ∧
    skipsVtx (serDisk ||| serBlockHeaderOnly) = true := by
  decide

/-- Reading inverts writing, whatever bytes follow, for transactions and for what a type carries of a
block; the measures are the lengths written, as 32-bit words. -/
theorem codec_roundTrip (layout : Layout) (nType : Nat) :
    (∀ tx : CTransaction, tx.Sized →
      Reads (CTransaction.unserialize layout) tx.write tx ∧
        tx.getSerializeSize = UInt32.ofNat tx.write.length) ∧
    ∀ block : CBlock, block.Sized →
      Reads (CBlock.unserialize layout nType) (block.serialize nType)
          (if skipsVtx nType then { block with vtx := [] } else block) ∧
        block.getSerializeSize nType = UInt32.ofNat (block.serialize nType).length ∧
        (skipsVtx nType → block.serialize nType = block.writeHeader) := by
  constructor
  · intro tx sized
    rw [CTransaction.unserialize_eq]
    exact ⟨CTransaction.reads_read sized, tx.getSerializeSize_eq⟩
  · intro block sized
    refine ⟨CBlock.reads_unserialize layout nType sized, block.getSerializeSize_eq nType, ?_⟩
    intro headerOnly
    simp only [CBlock.serialize, headerOnly, if_true, List.append_nil]

/-- A transaction whose outputs all have the same script. -/
def repeatedOutput (count : Nat) (scriptPubKey : CScript) : CTransaction where
  nVersion := 1
  vin := []
  vout := List.replicate count { nValue := 0, scriptPubKey }
  nLockTime := 0

private theorem repeatedOutput_sized {count : Nat} {scriptPubKey : CScript}
    (few : count ≤ maxSize) (short : scriptPubKey.length ≤ maxSize) :
    (repeatedOutput count scriptPubKey).Sized where
  vin := Nat.zero_le _
  vout := by simpa [repeatedOutput] using few
  scriptSig := by simp [repeatedOutput]
  scriptPubKey := by
    intro txout mem
    rw [List.eq_of_mem_replicate mem]
    exact short

private theorem le_length_repeatedOutput (count : Nat) (scriptPubKey : CScript) :
    count * scriptPubKey.length ≤ (repeatedOutput count scriptPubKey).write.length := by
  have script : scriptPubKey.length ≤ (CTxOut.mk 0 scriptPubKey).write.length :=
    (CTxOut.mk 0 scriptPubKey).length_write.2
  have outputs : ((repeatedOutput count scriptPubKey).vout.flatMap CTxOut.write).length =
      count * (CTxOut.mk 0 scriptPubKey).write.length := by
    simp [repeatedOutput, List.length_flatMap]
  have scaled := Nat.mul_le_mul_left count script
  simp only [CTransaction.write, List.length_append, outputs]
  omega

/-- The hash type loses the transactions of a block, and a measure is not the length where that
exceeds 32 bits. -/
theorem not_codec_roundTrip :
    (¬∀ (layout : Layout) (block : CBlock), block.Sized →
      Reads (CBlock.unserialize layout serGetHash) (block.serialize serGetHash) block) ∧
    ¬∀ tx : CTransaction, tx.Sized → tx.getSerializeSize.toNat = tx.write.length := by
  constructor
  · intro inverts
    let layout : Layout :=
      ⟨⟨1, by decide, by decide⟩, ⟨1, by decide, by decide⟩, ⟨1, by decide, by decide⟩⟩
    let block := sampleBlock 0 0 [sampleCoinBase 1 [100]]
    have sized : block.Sized := by
      refine ⟨by decide, fun tx mem => ?_⟩
      obtain rfl := List.mem_singleton.mp mem
      exact CTransaction.sized (by decide)
    have claimed := inverts layout block sized []
    have header := CBlock.reads_unserialize layout serGetHash sized []
    rw [header] at claimed
    have lost : block.carried serGetHash = block := congrArg Prod.fst (Option.some.inj claimed)
    have empty : [] = block.vtx := congrArg CBlock.vtx lost
    exact absurd empty (by decide)
  · intro measures
    have script : (List.replicate maxSize (0 : UInt8)).length = maxSize := List.length_replicate
    have sized := repeatedOutput_sized (by decide : 128 ≤ maxSize) script.le
    have same := measures _ sized
    have long := le_length_repeatedOutput 128 (List.replicate maxSize 0)
    have word := (repeatedOutput 128 (List.replicate maxSize 0)).getSerializeSize.toNat_lt
    have limit : maxSize = 2 ^ 25 := rfl
    omega

end FooCoin

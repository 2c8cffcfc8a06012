import FooCoin.Amount
import FooCoin.Crypto
import FooCoin.Library.Codec
import FooCoin.Script.SigOps

/-!
# Transactions

The transaction types of `main.h`, their serialization and the checks that need no context.
-/

namespace FooCoin

open LittleEndian Codec

/-- An output of a transaction, named by transaction hash and position. -/
structure COutPoint where
  hash : UInt256
  n : UInt32
  deriving DecidableEq

/-- `COutPoint::IsNull`. -/
def COutPoint.isNull (outpoint : COutPoint) : Bool :=
  outpoint.hash = 0 ∧ outpoint.n = 0xffffffff

/-- A transaction input. -/
structure CTxIn where
  prevout : COutPoint
  scriptSig : CScript
  nSequence : UInt32
  deriving DecidableEq

/-- `CTxIn::IsFinal`. -/
def CTxIn.isFinal (txin : CTxIn) : Bool := txin.nSequence = 0xffffffff

/-- A transaction output. -/
structure CTxOut where
  nValue : Int64
  scriptPubKey : CScript
  deriving DecidableEq

/-- `CTxOut::SetNull`. -/
def CTxOut.null : CTxOut := { nValue := -1, scriptPubKey := [] }

/-- A transaction. -/
structure CTransaction where
  nVersion : Int32
  vin : List CTxIn
  vout : List CTxOut
  nLockTime : UInt32
  deriving DecidableEq

/-! ## Serialization -/

/-- `WriteCompactSize`. -/
def writeCompactSize (nSize : Nat) : List UInt8 :=
  if nSize < 253 then leBytes 1 nSize
  else if nSize ≤ 0xffff then 253 :: leBytes 2 nSize
  else if nSize ≤ 0xffffffff then 254 :: leBytes 4 nSize
  else 255 :: leBytes 8 nSize

/-- `MAX_SIZE`. -/
def maxSize : Nat := 0x02000000

/-- The size that follows a first byte. -/
def readSizeWord (chSize : Nat) : Reader Nat :=
  if chSize < 253 then pure chSize
  else readLE (if chSize = 253 then 2 else if chSize = 254 then 4 else 8)

/-- `ReadCompactSize`. -/
def readCompactSize : Reader Nat := do
  let chSize ← readLE 1
  let nSizeRet ← readSizeWord chSize
  if maxSize < nSizeRet then failure else pure nSizeRet

/-- A byte vector or a script. -/
def writeVector (bytes : List UInt8) : List UInt8 := writeCompactSize bytes.length ++ bytes

/-- Read a byte vector or a script. -/
def readVector : Reader (List UInt8) := do readBytes (← readCompactSize)

/-- The serialization of an outpoint. -/
def COutPoint.write (outpoint : COutPoint) : List UInt8 :=
  leBytes 32 outpoint.hash.toNat ++ leBytes 4 outpoint.n.toNat

/-- The serialization of an input. -/
def CTxIn.write (txin : CTxIn) : List UInt8 :=
  txin.prevout.write ++ (writeVector txin.scriptSig ++ leBytes 4 txin.nSequence.toNat)

/-- The serialization of an output. -/
def CTxOut.write (txout : CTxOut) : List UInt8 :=
  leBytes 8 txout.nValue.toUInt64.toNat ++ writeVector txout.scriptPubKey

/-- The serialization of a transaction. -/
def CTransaction.write (tx : CTransaction) : List UInt8 :=
  leBytes 4 tx.nVersion.toUInt32.toNat ++
    (writeCompactSize tx.vin.length ++ (tx.vin.flatMap CTxIn.write ++
      (writeCompactSize tx.vout.length ++ (tx.vout.flatMap CTxOut.write ++
        leBytes 4 tx.nLockTime.toNat))))

/-- Read an outpoint. -/
def COutPoint.read : Reader COutPoint := do
  let hash ← readLE 32
  let n ← readLE 4
  pure { hash := BitVec.ofNat 256 hash, n := UInt32.ofNat n }

/-- Read an input. -/
def CTxIn.read : Reader CTxIn := do
  let prevout ← COutPoint.read
  let scriptSig ← readVector
  let nSequence ← readLE 4
  pure { prevout, scriptSig, nSequence := UInt32.ofNat nSequence }

/-- Read an output. -/
def CTxOut.read : Reader CTxOut := do
  let nValue ← readLE 8
  let scriptPubKey ← readVector
  pure { nValue := (UInt64.ofNat nValue).toInt64, scriptPubKey }

/-- Read a transaction. -/
def CTransaction.read : Reader CTransaction := do
  let nVersion ← readLE 4
  let nIn ← readCompactSize
  let vin ← readMany CTxIn.read nIn
  let nOut ← readCompactSize
  let vout ← readMany CTxOut.read nOut
  let nLockTime ← readLE 4
  pure { nVersion := (UInt32.ofNat nVersion).toInt32, vin, vout, nLockTime := UInt32.ofNat nLockTime }

private theorem reads_checked {nSize : Nat} (small : nSize ≤ maxSize) :
    Reads (if maxSize < nSize then failure else pure nSize : Reader Nat) [] nSize := by
  rw [if_neg (Nat.not_lt.mpr small)]
  exact Reads.pure nSize

private theorem reads_sized {chSize nSize : Nat} {bytes : List UInt8} (byte : chSize < 256)
    (word : Reads (readSizeWord chSize) bytes nSize) (small : nSize ≤ maxSize) :
    Reads readCompactSize (leBytes 1 chSize ++ bytes) nSize := by
  refine (reads_readLE (by simpa using byte)).bind ?_
  rw [← List.append_nil bytes]
  exact word.bind (reads_checked small)

theorem reads_readCompactSize {nSize : Nat} (small : nSize ≤ maxSize) :
    Reads readCompactSize (writeCompactSize nSize) nSize := by
  have bound : nSize ≤ 0x02000000 := small
  by_cases one : nSize < 253
  · have word : Reads (readSizeWord nSize) [] nSize := by
      rw [readSizeWord, if_pos one]
      exact Reads.pure nSize
    simpa [writeCompactSize, one] using reads_sized (by omega) word small
  by_cases two : nSize ≤ 0xffff
  · have fits : nSize < 256 ^ 2 := by omega
    have word : Reads (readSizeWord 253) (leBytes 2 nSize) nSize := reads_readLE fits
    simpa [writeCompactSize, one, two, leBytes] using reads_sized (by omega) word small
  · have four : nSize ≤ 0xffffffff := by omega
    have fits : nSize < 256 ^ 4 := by omega
    have word : Reads (readSizeWord 254) (leBytes 4 nSize) nSize := reads_readLE fits
    simpa [writeCompactSize, one, two, four, leBytes] using reads_sized (by omega) word small

theorem reads_readVector {bytes : List UInt8} (small : bytes.length ≤ maxSize) :
    Reads readVector (writeVector bytes) bytes :=
  (reads_readCompactSize small).bind (reads_readBytes bytes)

private theorem reads_uint32 (value : UInt32) : Reads (readLE 4) (leBytes 4 value.toNat) value.toNat :=
  reads_readLE value.toNat_lt

theorem COutPoint.reads_read (outpoint : COutPoint) :
    Reads COutPoint.read outpoint.write outpoint := by
  refine (reads_readLE outpoint.hash.isLt).bind ?_
  exact (reads_uint32 outpoint.n).last (by simp)

theorem CTxIn.reads_read {txin : CTxIn} (small : txin.scriptSig.length ≤ maxSize) :
    Reads CTxIn.read txin.write txin := by
  refine txin.prevout.reads_read.bind ?_
  refine (reads_readVector small).bind ?_
  exact (reads_uint32 txin.nSequence).last (by simp)

theorem CTxOut.reads_read {txout : CTxOut} (small : txout.scriptPubKey.length ≤ maxSize) :
    Reads CTxOut.read txout.write txout := by
  refine (reads_readLE txout.nValue.toUInt64.toNat_lt).bind ?_
  exact (reads_readVector small).last (by simp)

/-- Every length of the transaction is one that `ReadCompactSize` accepts. -/
structure CTransaction.Sized (tx : CTransaction) : Prop where
  vin : tx.vin.length ≤ maxSize
  vout : tx.vout.length ≤ maxSize
  scriptSig : ∀ txin ∈ tx.vin, txin.scriptSig.length ≤ maxSize
  scriptPubKey : ∀ txout ∈ tx.vout, txout.scriptPubKey.length ≤ maxSize

/-- Reading a transaction inverts writing it. -/
theorem CTransaction.reads_read {tx : CTransaction} (sized : tx.Sized) :
    Reads CTransaction.read tx.write tx := by
  refine (reads_uint32 tx.nVersion.toUInt32).bind ?_
  refine (reads_readCompactSize sized.vin).bind ?_
  refine (reads_readMany fun txin member => CTxIn.reads_read (sized.scriptSig txin member)).bind ?_
  refine (reads_readCompactSize sized.vout).bind ?_
  refine (reads_readMany fun txout member =>
    CTxOut.reads_read (sized.scriptPubKey txout member)).bind ?_
  exact (reads_uint32 tx.nLockTime).last (by simp)

/-! ## Size and hash -/

/-- `GetSerializeSize` of a transaction. -/
def CTransaction.size (tx : CTransaction) : Nat := tx.write.length

/-- `CTransaction::GetHash`. -/
def CTransaction.getHash (crypto : Crypto) (tx : CTransaction) : UInt256 := crypto.Hash tx.write

private theorem length_le_flatMap {α : Type} {write : α → List UInt8} {values : List α} {value : α}
    (member : value ∈ values) : (write value).length ≤ (values.flatMap write).length := by
  induction values with
  | nil => simp at member
  | cons head values induction =>
      simp only [List.flatMap_cons, List.length_append]
      rcases List.mem_cons.mp member with rfl | later
      · omega
      · have := induction later
        omega

private theorem mul_length_le_flatMap {α : Type} {write : α → List UInt8} {least : Nat}
    (values : List α) (each : ∀ value, least ≤ (write value).length) :
    least * values.length ≤ (values.flatMap write).length := by
  induction values with
  | nil => simp
  | cons head values induction =>
      have := each head
      simp only [List.flatMap_cons, List.length_append, List.length_cons, Nat.mul_succ]
      omega

private theorem length_writeVector (bytes : List UInt8) :
    bytes.length < (writeVector bytes).length := by
  simp only [writeVector, writeCompactSize, List.length_append]
  split
  · simp
  · split
    · simp
    · split <;> simp

theorem CTxIn.length_write (txin : CTxIn) :
    41 ≤ txin.write.length ∧ txin.scriptSig.length ≤ txin.write.length := by
  have script := length_writeVector txin.scriptSig
  simp only [CTxIn.write, COutPoint.write, List.length_append, length_leBytes]
  omega

theorem CTxOut.length_write (txout : CTxOut) :
    9 ≤ txout.write.length ∧ txout.scriptPubKey.length ≤ txout.write.length := by
  have script := length_writeVector txout.scriptPubKey
  simp only [CTxOut.write, List.length_append, length_leBytes]
  omega

/-- An input takes at least 41 bytes. -/
theorem CTransaction.mul_vin_le_size (tx : CTransaction) : 41 * tx.vin.length ≤ tx.size := by
  have inputs := mul_length_le_flatMap tx.vin fun txin => txin.length_write.1
  simp only [CTransaction.size, CTransaction.write, List.length_append]
  omega

/-- An output takes at least 9 bytes. -/
theorem CTransaction.mul_vout_le_size (tx : CTransaction) : 9 * tx.vout.length ≤ tx.size := by
  have outputs := mul_length_le_flatMap tx.vout fun txout => txout.length_write.1
  simp only [CTransaction.size, CTransaction.write, List.length_append]
  omega

/-- A transaction that is small as a whole has no oversized part. -/
theorem CTransaction.sized {tx : CTransaction} (small : tx.size ≤ maxSize) : tx.Sized := by
  have inputs := tx.mul_vin_le_size
  have outputs := tx.mul_vout_le_size
  refine ⟨by omega, by omega, fun txin member => ?_, fun txout member => ?_⟩
  · have part := @length_le_flatMap _ CTxIn.write _ _ member
    have script := txin.length_write.2
    simp only [CTransaction.size, CTransaction.write, List.length_append] at small
    omega
  · have part := @length_le_flatMap _ CTxOut.write _ _ member
    have script := txout.length_write.2
    simp only [CTransaction.size, CTransaction.write, List.length_append] at small
    omega

/-! ## Context-free rules -/

/-- `CTransaction::IsCoinBase`. -/
def CTransaction.isCoinBase (tx : CTransaction) : Bool :=
  match tx.vin with
  | [txin] => txin.prevout.isNull
  | _ => false

/-- `CTransaction::IsFinal` at a block height and time. -/
def CTransaction.isFinal (tx : CTransaction) (nBlockHeight nBlockTime : Int) : Bool :=
  tx.nLockTime = 0 ∨
    (tx.nLockTime.toNat : Int) <
      (if (tx.nLockTime.toNat : Int) < 500000000 then nBlockHeight else nBlockTime) ∨
    tx.vin.all CTxIn.isFinal

/-- `CTransaction::GetLegacySigOpCount`. -/
def CTransaction.getLegacySigOpCount (tx : CTransaction) : Nat :=
  (tx.vin.map fun txin => getSigOpCount false txin.scriptSig).sum +
    (tx.vout.map fun txout => getSigOpCount false txout.scriptPubKey).sum

/-- The loop of `CTransaction::GetValueOut`. -/
def valueOutLoop : Int → List CTxOut → Outcome Int
  | nValueOut, [] => pure nValueOut
  | nValueOut, txout :: vout => do
      let nValueOut ← int64 (nValueOut + txout.nValue.toInt)
      if MoneyRange txout.nValue.toInt ∧ MoneyRange nValueOut then valueOutLoop nValueOut vout
      else throw .thrown

/-- `CTransaction::GetValueOut`. -/
def CTransaction.getValueOut (tx : CTransaction) : Outcome Int := valueOutLoop 0 tx.vout

/-- The output values as `CheckTransaction` checks them. -/
def checkValuesLoop : Int → List CTxOut → Outcome Unit
  | _, [] => pure ()
  | nValueOut, txout :: vout => do
      require (0 ≤ txout.nValue.toInt)
      require (txout.nValue.toInt ≤ maxMoney)
      let nValueOut ← int64 (nValueOut + txout.nValue.toInt)
      require (MoneyRange nValueOut)
      checkValuesLoop nValueOut vout

/-- `CTransaction::CheckTransaction`. -/
def CTransaction.checkTransaction (tx : CTransaction) : Outcome Unit := do
  require (tx.vin ≠ [])
  require (tx.vout ≠ [])
  require (tx.size ≤ maxBlockSize)
  checkValuesLoop 0 tx.vout
  require (tx.vin.map CTxIn.prevout).Nodup
  if tx.isCoinBase then
    require (∀ txin ∈ tx.vin.head?, 2 ≤ txin.scriptSig.length ∧ txin.scriptSig.length ≤ 100)
  else require (∀ txin ∈ tx.vin, ¬txin.prevout.isNull)

/-- The sum of the output values. -/
def CTransaction.valueSum (tx : CTransaction) : Int :=
  (tx.vout.map fun txout => txout.nValue.toInt).sum

/-- What `CheckTransaction` ensures. -/
structure CTransaction.Checked (tx : CTransaction) : Prop where
  vin_ne_nil : tx.vin ≠ []
  vout_ne_nil : tx.vout ≠ []
  size_le : tx.size ≤ maxBlockSize
  moneyRange : ∀ txout ∈ tx.vout, MoneyRange txout.nValue.toInt
  valueSum_range : MoneyRange tx.valueSum
  nodup : (tx.vin.map CTxIn.prevout).Nodup
  coinBase_script : tx.isCoinBase →
    ∀ txin ∈ tx.vin.head?, 2 ≤ txin.scriptSig.length ∧ txin.scriptSig.length ≤ 100
  prevout_ne_null : ¬tx.isCoinBase → ∀ txin ∈ tx.vin, ¬txin.prevout.isNull

private theorem checkValuesLoop_ok {vout : List CTxOut} {start : Int} (start_range : MoneyRange start)
    (checked : checkValuesLoop start vout = .ok ()) :
    (∀ txout ∈ vout, MoneyRange txout.nValue.toInt) ∧
      MoneyRange (start + (vout.map fun txout => txout.nValue.toInt).sum) := by
  induction vout generalizing start with
  | nil => simpa using start_range
  | cons txout vout induction =>
      simp only [checkValuesLoop, except_bind_eq_ok, require_eq_ok, int64_eq_ok] at checked
      obtain ⟨_, nonneg, _, le_max, _, ⟨_, rfl⟩, _, partial_range, later⟩ := checked
      obtain ⟨values, total⟩ := induction partial_range later
      refine ⟨?_, by simpa [add_assoc] using total⟩
      intro value member
      rcases List.mem_cons.mp member with rfl | member
      · exact ⟨nonneg, le_max⟩
      · exact values value member

/-- A transaction that passes `CheckTransaction` has all the checked properties. -/
theorem CTransaction.checked_of_checkTransaction {tx : CTransaction}
    (accepted : tx.checkTransaction = .ok ()) : tx.Checked := by
  simp only [checkTransaction, except_bind_eq_ok, require_eq_ok] at accepted
  obtain ⟨_, vin_ne_nil, _, vout_ne_nil, _, size_le, _, values, _, nodup, last⟩ := accepted
  obtain ⟨moneyRange, total⟩ := checkValuesLoop_ok (by decide) values
  refine ⟨vin_ne_nil, vout_ne_nil, size_le, moneyRange, ?_, nodup, ?_, ?_⟩
  · simpa [valueSum] using total
  · intro coinbase
    simpa [coinbase] using last
  · intro ordinary
    simpa [ordinary] using last

private theorem valueOutLoop_eq_ok {vout : List CTxOut} {start : Int}
    (moneyRange : ∀ txout ∈ vout, MoneyRange txout.nValue.toInt) (start_nonneg : 0 ≤ start)
    (total : start + (vout.map fun txout => txout.nValue.toInt).sum ≤ maxMoney) :
    valueOutLoop start vout = .ok (start + (vout.map fun txout => txout.nValue.toInt).sum) := by
  induction vout generalizing start with
  | nil => simp [valueOutLoop, pure, Except.pure]
  | cons txout vout induction =>
      have value := moneyRange txout List.mem_cons_self
      have values := fun next member => moneyRange next (List.mem_cons_of_mem txout member)
      have rest_nonneg : 0 ≤ (vout.map fun txout => txout.nValue.toInt).sum := by
        apply List.sum_nonneg
        simp only [List.mem_map]
        rintro _ ⟨next, member, rfl⟩
        exact (values next member).1
      simp only [List.map_cons, List.sum_cons] at total ⊢
      have partial_range : MoneyRange (start + txout.nValue.toInt) :=
        ⟨by have := value.1; omega, by omega⟩
      have later := induction values partial_range.1 (by omega)
      simp only [valueOutLoop, except_bind_eq_ok, int64_eq_ok]
      refine ⟨_, ⟨⟨?_, ?_⟩, rfl⟩, ?_⟩
      · exact le_trans (by decide) partial_range.1
      · exact partial_range.2.trans (by decide)
      · rw [if_pos ⟨value, partial_range⟩, later, add_assoc]

/-- `GetValueOut` of a checked transaction is its sum. -/
theorem CTransaction.Checked.getValueOut_eq {tx : CTransaction} (checked : tx.Checked) :
    tx.getValueOut = .ok tx.valueSum := by
  have total := checked.valueSum_range.2
  simpa [getValueOut, valueSum] using
    valueOutLoop_eq_ok checked.moneyRange le_rfl (by simpa [valueSum] using total)

end FooCoin

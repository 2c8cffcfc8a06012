import FooCoin.Library.PrefixFree
import FooCoin.Script.Signature

/-!
# What a signature commits to

`SignatureHash` blanks, resizes and nulls parts of a copy of the transaction and hashes what is left
of it.  Two transactions have the same preimage exactly when they agree on the fields that the hash
type covers.
-/

namespace FooCoin

open LittleEndian Codec Op PrefixFree

/-- The base type of a hash type. -/
def baseType (nHashType : Int32) : Int32 := nHashType &&& 0x1f

/-- The base type lets the sequence numbers of the other inputs be updated at will. -/
def Updatable (nHashType : Int32) : Prop :=
  baseType nHashType = sighashNone ∨ baseType nHashType = sighashSingle

instance (nHashType : Int32) : Decidable (Updatable nHashType) :=
  inferInstanceAs (Decidable (_ ∨ _))

/-- The inputs of `txTmp` before `SIGHASH_ANYONECANPAY` is looked at. -/
def signedInputs (scriptCode : CScript) (vin : List CTxIn) (nIn : Nat) (nHashType : Int32) :
    List CTxIn :=
  vin.mapIdx fun i txin =>
    { txin with
      scriptSig := if i = nIn then scriptCode else []
      nSequence := if i = nIn ∨ ¬Updatable nHashType then txin.nSequence else 0 }

/-- The outputs of `txTmp`. -/
def signedOutputs (vout : List CTxOut) (nIn : Nat) (nHashType : Int32) : List CTxOut :=
  if baseType nHashType = sighashNone then []
  else if baseType nHashType = sighashSingle then
    List.replicate nIn CTxOut.null ++ vout[nIn]?.toList
  else vout

/-- `txTmp` as `SignatureHash` serializes it. -/
def signedCopy (scriptCode : CScript) (txTo : CTransaction) (nIn : Nat) (nHashType : Int32) :
    CTransaction :=
  let scriptCode := (findAndDelete scriptCode [UInt8.ofNat OP_CODESEPARATOR]).1
  let vin := signedInputs scriptCode txTo.vin nIn nHashType
  { txTo with
    vin := if nHashType &&& sighashAnyoneCanPay ≠ 0 then vin[nIn]?.toList else vin
    vout := signedOutputs txTo.vout nIn nHashType }

/-- The bytes that `SignatureHash` hashes, if it does not return 1 for an index out of range. -/
def signaturePreimage (scriptCode : CScript) (txTo : CTransaction) (nIn : Nat) (nHashType : Int32) :
    Option (List UInt8) :=
  if txTo.vin.length ≤ nIn ∨ (baseType nHashType = sighashSingle ∧ txTo.vout.length ≤ nIn) then none
  else some ((signedCopy scriptCode txTo nIn nHashType).write ++
    leBytes 4 nHashType.toUInt32.toNat)

private theorem toList_inj {α : Type} {left right : Option α} :
    left.toList = right.toList ↔ left = right := by
  cases left <;> cases right <;> simp

private theorem take_one_drop {α : Type} (values : List α) (index : Nat) :
    (values.drop index).take 1 = values[index]?.toList := by
  rw [List.take_one, List.head?_drop]

private theorem mapIdx_blank (scriptCode : CScript) (vin : List CTxIn) (nIn : Nat)
    (nHashType : Int32) :
    (let signed := vin.mapIdx fun i txin =>
      { txin with scriptSig := if i = nIn then scriptCode else [] }
    if nHashType &&& 0x1f = sighashNone ∨ nHashType &&& 0x1f = sighashSingle then
      signed.mapIdx fun i txin =>
        { txin with nSequence := if i = nIn then txin.nSequence else 0 }
    else signed) = signedInputs scriptCode vin nIn nHashType := by
  by_cases updatable : nHashType &&& 0x1f = sighashNone ∨ nHashType &&& 0x1f = sighashSingle
  · simp [signedInputs, Updatable, baseType, updatable, List.mapIdx_mapIdx, Function.comp_def]
  · simp [signedInputs, Updatable, baseType, updatable]

/-- `SignatureHash` hashes the preimage. -/
theorem signatureHash_eq (crypto : Crypto) (scriptCode : CScript) (txTo : CTransaction) (nIn : Nat)
    (nHashType : Int32) :
    signatureHash crypto scriptCode txTo nIn nHashType =
      (signaturePreimage scriptCode txTo nIn nHashType).elim 1 crypto.Hash := by
  simp only [signatureHash, signaturePreimage, signedCopy, signedOutputs, baseType, take_one_drop,
    ← mapIdx_blank]
  split <;> rfl

/-- Two transactions agree on the fields that a signature of input `nIn` covers. -/
structure SignedAlike (nIn : Nat) (nHashType : Int32) (first second : CTransaction) : Prop where
  nVersion : first.nVersion = second.nVersion
  nLockTime : first.nLockTime = second.nLockTime
  prevout : first.vin[nIn]?.map CTxIn.prevout = second.vin[nIn]?.map CTxIn.prevout
  nSequence : first.vin[nIn]?.map CTxIn.nSequence = second.vin[nIn]?.map CTxIn.nSequence
  prevouts : nHashType &&& sighashAnyoneCanPay = 0 →
    first.vin.map CTxIn.prevout = second.vin.map CTxIn.prevout
  nSequences : nHashType &&& sighashAnyoneCanPay = 0 → ¬Updatable nHashType →
    first.vin.map CTxIn.nSequence = second.vin.map CTxIn.nSequence
  vout : ¬Updatable nHashType → first.vout = second.vout
  output : baseType nHashType = sighashSingle → first.vout[nIn]? = second.vout[nIn]?

section Copies

variable {scriptCode : CScript} {nIn : Nat} {nHashType : Int32}

private theorem signedInput_eq_iff {left right : List CTxIn} (i : Nat) :
    (signedInputs scriptCode left nIn nHashType)[i]? =
        (signedInputs scriptCode right nIn nHashType)[i]? ↔
      left[i]?.map CTxIn.prevout = right[i]?.map CTxIn.prevout ∧
        (i = nIn ∨ ¬Updatable nHashType →
          left[i]?.map CTxIn.nSequence = right[i]?.map CTxIn.nSequence) := by
  simp only [signedInputs, List.getElem?_mapIdx]
  cases left[i]? with
  | none => cases right[i]? <;> simp
  | some left =>
      cases right[i]? with
      | none => simp
      | some right =>
          by_cases kept : i = nIn ∨ ¬Updatable nHashType <;> simp [kept]

private theorem signedInputs_eq_iff {left right : List CTxIn} :
    signedInputs scriptCode left nIn nHashType = signedInputs scriptCode right nIn nHashType ↔
      left.map CTxIn.prevout = right.map CTxIn.prevout ∧
        left[nIn]?.map CTxIn.nSequence = right[nIn]?.map CTxIn.nSequence ∧
        (¬Updatable nHashType → left.map CTxIn.nSequence = right.map CTxIn.nSequence) := by
  simp only [List.ext_getElem?_iff, signedInput_eq_iff, List.getElem?_map]
  constructor
  · intro same
    exact ⟨fun i => (same i).1, (same nIn).2 (.inl rfl), fun kept i => (same i).2 (.inr kept)⟩
  · rintro ⟨prevouts, nSequence, nSequences⟩ i
    refine ⟨prevouts i, ?_⟩
    rintro (rfl | kept)
    · exact nSequence
    · exact nSequences kept i

private theorem signedOutputs_eq_iff {left right : List CTxOut} :
    signedOutputs left nIn nHashType = signedOutputs right nIn nHashType ↔
      (¬Updatable nHashType → left = right) ∧
        (baseType nHashType = sighashSingle → left[nIn]? = right[nIn]?) := by
  by_cases none : baseType nHashType = sighashNone
  · have not_single : sighashNone ≠ sighashSingle := by decide
    simp [signedOutputs, Updatable, none, not_single]
  by_cases single : baseType nHashType = sighashSingle
  · have not_none : sighashSingle ≠ sighashNone := by decide
    simp [signedOutputs, Updatable, single, not_none, toList_inj]
  · simp [signedOutputs, Updatable, none, single]

/-- The copies are the same exactly when the covered fields are. -/
theorem signedCopy_eq_iff {first second : CTransaction} :
    signedCopy scriptCode first nIn nHashType = signedCopy scriptCode second nIn nHashType ↔
      SignedAlike nIn nHashType first second := by
  simp only [signedCopy, CTransaction.mk.injEq, signedOutputs_eq_iff]
  by_cases shared : nHashType &&& sighashAnyoneCanPay = 0
  · simp only [shared, ne_eq, not_true_eq_false, if_false, signedInputs_eq_iff]
    constructor
    · rintro ⟨nVersion, ⟨prevouts, nSequence, nSequences⟩, ⟨vout, output⟩, nLockTime⟩
      have prevout := congrArg (fun values : List COutPoint => values[nIn]?) prevouts
      simp only [List.getElem?_map] at prevout
      exact ⟨nVersion, nLockTime, prevout, nSequence, fun _ => prevouts, fun _ => nSequences, vout,
        output⟩
    · intro alike
      exact ⟨alike.nVersion, ⟨alike.prevouts shared, alike.nSequence, alike.nSequences shared⟩,
        ⟨alike.vout, alike.output⟩, alike.nLockTime⟩
  · simp only [ne_eq, shared, not_false_eq_true, if_true, toList_inj, signedInput_eq_iff,
      true_or, forall_const]
    constructor
    · rintro ⟨nVersion, ⟨prevout, nSequence⟩, ⟨vout, output⟩, nLockTime⟩
      exact ⟨nVersion, nLockTime, prevout, nSequence, fun zero => absurd zero shared,
        fun zero => absurd zero shared, vout, output⟩
    · intro alike
      exact ⟨alike.nVersion, ⟨alike.prevout, alike.nSequence⟩, ⟨alike.vout, alike.output⟩,
        alike.nLockTime⟩

end Copies

/-! ## The serialization tells transactions apart -/

/-- The lengths of vectors, which are `size_t`. -/
def sizes : Set Nat := {nSize | nSize < 2 ^ 64}

/-- Every vector of the transaction has a length that a `size_t` holds. -/
structure CTransaction.Addressable (tx : CTransaction) : Prop where
  vin : tx.vin.length ∈ sizes
  vout : tx.vout.length ∈ sizes
  scriptSig : ∀ txin ∈ tx.vin, txin.scriptSig.length ∈ sizes
  scriptPubKey : ∀ txout ∈ tx.vout, txout.scriptPubKey.length ∈ sizes

private theorem reads_size {nSize : Nat} (fits : nSize ∈ sizes) :
    Reads (readLE 1 >>= readSizeWord) (writeCompactSize nSize) nSize := by
  have bound : nSize < 2 ^ 64 := fits
  have marked (chSize : Nat) (byte : chSize < 256) {bytes : List UInt8}
      (word : Reads (readSizeWord chSize) bytes nSize) :
      Reads (readLE 1 >>= readSizeWord) (UInt8.ofNat (chSize % 256) :: bytes) nSize :=
    (@reads_readLE 1 chSize (by simpa using byte)).bind word
  unfold writeCompactSize
  split_ifs with one two four
  · have word : Reads (readSizeWord nSize) [] nSize := by
      rw [readSizeWord, if_pos one]
      exact Reads.pure nSize
    simpa [leBytes] using marked nSize (by omega) word
  · exact marked 253 (by decide) (reads_readLE (by omega) : Reads (readLE 2) _ _)
  · exact marked 254 (by decide) (reads_readLE (by omega) : Reads (readLE 4) _ _)
  · exact marked 255 (by decide) (reads_readLE (by omega) : Reads (readLE 8) _ _)

private theorem prefixFreeOn_writeCompactSize : PrefixFreeOn writeCompactSize sizes :=
  prefixFreeOn_of_reads fun _ fits => reads_size fits

private theorem prefixFreeOn_writeVector :
    PrefixFreeOn writeVector {bytes | bytes.length ∈ sizes} := by
  intro left left_fits right right_fits rest rest' same
  simp only [writeVector, List.append_assoc] at same
  obtain ⟨same_length, same⟩ := prefixFreeOn_writeCompactSize left_fits right_fits same
  exact List.append_inj same same_length

private theorem prefixFreeOn_prevout : PrefixFreeOn COutPoint.write Set.univ :=
  prefixFreeOn_of_reads fun outpoint _ => outpoint.reads_read

private theorem prefixFreeOn_uint32 :
    PrefixFreeOn (fun value : UInt32 => leBytes 4 value.toNat) Set.univ :=
  prefixFreeOn_word (fun _ _ _ _ => UInt32.toNat_inj.mp) fun value _ => value.toNat_lt

private theorem prefixFreeOn_int32 :
    PrefixFreeOn (fun value : Int32 => leBytes 4 value.toUInt32.toNat) Set.univ :=
  prefixFreeOn_word (fun _ _ _ _ same => congrArg Int32.ofUInt32 (UInt32.toNat_inj.mp same))
    fun value _ => value.toUInt32.toNat_lt

private theorem prefixFreeOn_int64 :
    PrefixFreeOn (fun value : Int64 => leBytes 8 value.toUInt64.toNat) Set.univ :=
  prefixFreeOn_word (fun _ _ _ _ same => congrArg Int64.ofUInt64 (UInt64.toNat_inj.mp same))
    fun value _ => value.toUInt64.toNat_lt

private theorem prefixFreeOn_txin :
    PrefixFreeOn CTxIn.write {txin | txin.scriptSig.length ∈ sizes} := by
  rintro ⟨prevout, scriptSig, nSequence⟩ fits ⟨prevout', scriptSig', nSequence'⟩ fits' rest rest'
    same
  simp only [CTxIn.write, List.append_assoc] at same
  obtain ⟨rfl, same_script⟩ := prefixFreeOn_prevout trivial trivial same
  obtain ⟨rfl, same_sequence⟩ := prefixFreeOn_writeVector fits fits' same_script
  obtain ⟨rfl, same_rest⟩ := prefixFreeOn_uint32 trivial trivial same_sequence
  exact ⟨rfl, same_rest⟩

private theorem prefixFreeOn_txout :
    PrefixFreeOn CTxOut.write {txout | txout.scriptPubKey.length ∈ sizes} := by
  rintro ⟨nValue, scriptPubKey⟩ fits ⟨nValue', scriptPubKey'⟩ fits' rest rest' same
  simp only [CTxOut.write, List.append_assoc] at same
  obtain ⟨rfl, same_script⟩ := prefixFreeOn_int64 trivial trivial same
  obtain ⟨rfl, same_rest⟩ := prefixFreeOn_writeVector fits fits' same_script
  exact ⟨rfl, same_rest⟩

/-- The serialization of transactions that fit in memory is prefix free. -/
theorem prefixFreeOn_transaction : PrefixFreeOn CTransaction.write {tx | tx.Addressable} := by
  rintro ⟨nVersion, vin, vout, nLockTime⟩ fits ⟨nVersion', vin', vout', nLockTime'⟩ fits' rest
    rest' same
  have inputs_free := prefixFreeOn_txin.counted prefixFreeOn_writeCompactSize
  have outputs_free := prefixFreeOn_txout.counted prefixFreeOn_writeCompactSize
  simp only [CTransaction.write, List.append_assoc] at same
  obtain ⟨rfl, same_inputs⟩ := prefixFreeOn_int32 trivial trivial same
  rw [← List.append_assoc, ← List.append_assoc (writeCompactSize vin'.length)] at same_inputs
  obtain ⟨rfl, same_outputs⟩ :=
    inputs_free ⟨fits.vin, fits.scriptSig⟩ ⟨fits'.vin, fits'.scriptSig⟩ same_inputs
  rw [← List.append_assoc, ← List.append_assoc (writeCompactSize vout'.length)] at same_outputs
  obtain ⟨rfl, same_time⟩ :=
    outputs_free ⟨fits.vout, fits.scriptPubKey⟩ ⟨fits'.vout, fits'.scriptPubKey⟩ same_outputs
  obtain ⟨rfl, same_rest⟩ := prefixFreeOn_uint32 trivial trivial same_time
  exact ⟨rfl, same_rest⟩

private theorem length_dropPattern_le (pattern : CScript) (fuel : Nat) (pc : CScript) :
    (dropPattern pattern fuel pc).1.length ≤ pc.length := by
  induction fuel generalizing pc with
  | zero => exact le_rfl
  | succ fuel induction =>
      rw [dropPattern]
      split
      · have dropped := induction (pc.drop pattern.length)
        simp only [List.length_drop] at dropped ⊢
        omega
      · exact le_rfl

private theorem length_findAndDeleteLoop_le (pattern : CScript) (fuel : Nat) (pc : CScript) :
    (findAndDeleteLoop pattern fuel pc).1.length ≤ pc.length := by
  induction fuel generalizing pc with
  | zero => exact le_rfl
  | succ fuel induction =>
      have dropped := length_dropPattern_le pattern pc.length pc
      rw [findAndDeleteLoop]
      cases parsed : getOp (dropPattern pattern pc.length pc).1 with
      | none => simpa [parsed] using dropped
      | some instruction =>
          obtain ⟨opcode, vch, rest⟩ := instruction
          have shorter := getOp_length parsed
          have later := induction rest
          simp only [parsed, List.length_append, List.length_take]
          omega

/-- `FindAndDelete` never makes a script longer. -/
theorem length_findAndDelete_le (script pattern : CScript) :
    (findAndDelete script pattern).1.length ≤ script.length := by
  unfold findAndDelete
  split
  · exact le_rfl
  · exact length_findAndDeleteLoop_le pattern (script.length + 1) script

section Preimages

variable {scriptCode : CScript} {nIn : Nat} {nHashType : Int32}

private theorem mem_signedInputs {vin : List CTxIn} {txin : CTxIn}
    (member : txin ∈ signedInputs scriptCode vin nIn nHashType) :
    txin.scriptSig.length ≤ scriptCode.length := by
  simp only [signedInputs, List.mem_mapIdx] at member
  obtain ⟨i, inside, rfl⟩ := member
  by_cases signed : i = nIn <;> simp [signed]

private theorem mem_signedOutputs {vout : List CTxOut} {txout : CTxOut}
    (member : txout ∈ signedOutputs vout nIn nHashType) : txout = CTxOut.null ∨ txout ∈ vout := by
  unfold signedOutputs at member
  split_ifs at member
  · simp at member
  · rcases List.mem_append.mp member with nulled | kept
    · exact .inl (List.eq_of_mem_replicate nulled)
    · exact .inr (List.mem_of_getElem? (by simpa using kept))
  · exact .inr member

private theorem length_signedOutputs_le {vout : List CTxOut}
    (paid : baseType nHashType = sighashSingle → nIn < vout.length) :
    (signedOutputs vout nIn nHashType).length ≤ vout.length := by
  unfold signedOutputs
  split_ifs with none single
  · simp
  · have inside := paid single
    simp [List.getElem?_eq_getElem inside]
    omega
  · exact le_rfl

private theorem signedCopy_addressable {tx : CTransaction} (code_fits : scriptCode.length ∈ sizes)
    (fits : tx.Addressable) (paid : baseType nHashType = sighashSingle → nIn < tx.vout.length) :
    (signedCopy scriptCode tx nIn nHashType).Addressable := by
  have code_le := length_findAndDelete_le scriptCode [UInt8.ofNat OP_CODESEPARATOR]
  have inputs_subset : (signedCopy scriptCode tx nIn nHashType).vin.Sublist
      (signedInputs (findAndDelete scriptCode [UInt8.ofNat OP_CODESEPARATOR]).1 tx.vin nIn
        nHashType) := by
    unfold signedCopy
    dsimp only
    split
    · rw [← take_one_drop]
      exact (List.take_sublist _ _).trans (List.drop_sublist _ _)
    · exact List.Sublist.refl _
  constructor
  · have length_le := inputs_subset.length_le
    rw [signedInputs, List.length_mapIdx] at length_le
    exact length_le.trans_lt fits.vin
  · exact (length_signedOutputs_le paid).trans_lt fits.vout
  · intro txin member
    exact ((mem_signedInputs (inputs_subset.subset member)).trans code_le).trans_lt code_fits
  · intro txout member
    rcases mem_signedOutputs member with rfl | member
    · exact (by decide : 0 < 2 ^ 64)
    · exact fits.scriptPubKey txout member

/-- `SignatureHash` commits to exactly the signed fields. -/
theorem signaturePreimage_eq_iff {first second : CTransaction}
    (code_fits : scriptCode.length ∈ sizes) (first_fits : first.Addressable)
    (second_fits : second.Addressable) (first_signed : nIn < first.vin.length)
    (second_signed : nIn < second.vin.length)
    (first_paid : baseType nHashType = sighashSingle → nIn < first.vout.length)
    (second_paid : baseType nHashType = sighashSingle → nIn < second.vout.length) :
    signaturePreimage scriptCode first nIn nHashType =
        signaturePreimage scriptCode second nIn nHashType ↔
      SignedAlike nIn nHashType first second := by
  have hashed {tx : CTransaction} (signed : nIn < tx.vin.length)
      (paid : baseType nHashType = sighashSingle → nIn < tx.vout.length) :
      signaturePreimage scriptCode tx nIn nHashType =
        some ((signedCopy scriptCode tx nIn nHashType).write ++
          leBytes 4 nHashType.toUInt32.toNat) := by
    rw [signaturePreimage, if_neg]
    rintro (unsigned | ⟨single, unpaid⟩)
    · omega
    · have := paid single
      omega
  rw [hashed first_signed first_paid, hashed second_signed second_paid, Option.some.injEq,
    ← @signedCopy_eq_iff scriptCode]
  constructor
  · intro same
    exact (prefixFreeOn_transaction (signedCopy_addressable code_fits first_fits first_paid)
      (signedCopy_addressable code_fits second_fits second_paid) same).1
  · intro same
    rw [same]

end Preimages

/-- A transaction of one input and one output. -/
def signedSample (nValue : Int64) : CTransaction where
  nVersion := 1
  vin := [{ prevout := { hash := 7, n := 0 }, scriptSig := [], nSequence := 0xffffffff }]
  vout := [{ nValue, scriptPubKey := [] }]
  nLockTime := 0

private theorem signedSample_addressable (nValue : Int64) : (signedSample nValue).Addressable := by
  constructor <;> simp [signedSample, sizes]

theorem signaturePreimage_eq_iff_signedSample :
    signaturePreimage [] (signedSample 5) 0 1 ≠ signaturePreimage [] (signedSample 6) 0 1 := by
  intro same
  have alike := (@signaturePreimage_eq_iff [] 0 1 (signedSample 5) (signedSample 6)
    (by simp [sizes]) (signedSample_addressable 5) (signedSample_addressable 6) (by decide)
    (by decide) (by decide) (by decide)).mp same
  exact absurd (alike.vout (by decide)) (by decide)

end FooCoin

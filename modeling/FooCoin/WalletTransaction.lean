import FooCoin.Library.ByteOrder
import FooCoin.Library.OrderedMap
import FooCoin.Serialize

/-!
# The serialization of wallet transactions

A `CWalletTx` is written with its account and its spent flags inside `mapValue`: they are put into
the map of the object that is being written, and all reserved keys are taken out again at the end of
each of the three passes (size, write and read).
-/

namespace FooCoin

open LittleEndian Codec
open scoped UInt8

/-- `CMerkleTx`: a transaction and its place in a block. -/
structure CMerkleTx where
  tx : CTransaction
  hashBlock : UInt256
  vMerkleBranch : List UInt256
  nIndex : Int32

/-- `CWalletTx` with everything that is serialized. -/
structure CWalletTxData extends CMerkleTx where
  vtxPrev : List CMerkleTx
  mapValue : OrderedMap (List UInt8) (List UInt8)
  vOrderForm : List (List UInt8 × List UInt8)
  fTimeReceivedIsTxTime : UInt32
  nTimeReceived : UInt32
  /-- A `char`. -/
  fFromMe : UInt8
  strFromAccount : List UInt8
  /-- A vector of `char`. -/
  vfSpent : List UInt8

/-! ## Containers -/

/-- A vector of objects. -/
def writeList {α : Type} (write : α → List UInt8) (values : List α) : List UInt8 :=
  writeCompactSize values.length ++ values.flatMap write

def readList {α : Type} (read : Reader α) : Reader (List α) := do readMany read (← readCompactSize)

/-- A pair of strings. -/
def writePair (item : List UInt8 × List UInt8) : List UInt8 :=
  writeVector item.1 ++ writeVector item.2

def readPair : Reader (List UInt8 × List UInt8) := do
  let first ← readVector
  let second ← readVector
  pure (first, second)

theorem reads_readList {α : Type} {read : Reader α} {write : α → List UInt8} {values : List α}
    (small : values.length ≤ maxSize)
    (each : ∀ value ∈ values, Reads read (write value) value) :
    Reads (readList read) (writeList write values) values :=
  (reads_readCompactSize small).bind (reads_readMany each)

theorem reads_readPair {item : List UInt8 × List UInt8} (first : item.1.length ≤ maxSize)
    (second : item.2.length ≤ maxSize) : Reads readPair (writePair item) item :=
  (reads_readVector first).bind ((reads_readVector second).last rfl)

/-! ## The three passes -/

namespace CMerkleTx

/-- `CMerkleTx::Serialize`. -/
def write (merkleTx : CMerkleTx) : List UInt8 :=
  merkleTx.tx.write ++ (leBytes 32 merkleTx.hashBlock.toNat ++
    (writeList (fun hash : UInt256 => leBytes 32 hash.toNat) merkleTx.vMerkleBranch ++
      leBytes 4 merkleTx.nIndex.toUInt32.toNat))

/-- `CMerkleTx::Unserialize`. -/
def read : Reader CMerkleTx := do
  let tx ← CTransaction.read
  let hashBlock ← readLE 32
  let vMerkleBranch ← readList (do return BitVec.ofNat 256 (← readLE 32))
  let nIndex ← readLE 4
  pure {
    tx, hashBlock := BitVec.ofNat 256 hashBlock, vMerkleBranch,
    nIndex := (UInt32.ofNat nIndex).toInt32 }

/-- `CMerkleTx::GetSerializeSize`. -/
def getSerializeSize (merkleTx : CMerkleTx) : UInt32 :=
  merkleTx.tx.getSerializeSize + 32 +
    getSerializeSizeVector (fun _ : UInt256 => 32) merkleTx.vMerkleBranch + 4

end CMerkleTx

/-- The characters of a text. -/
def ascii (text : String) : List UInt8 := text.toList.map fun c => UInt8.ofNat c.toNat

/-- The keys of `mapValue` that serialization uses. -/
def fromAccountKey : List UInt8 := ascii "fromaccount"

def versionKey : List UInt8 := ascii "version"

def spentKey : List UInt8 := ascii "spent"

namespace CWalletTxData

/-- The flags as a string of `0` and `1`. -/
def spentString (wtx : CWalletTxData) : List UInt8 :=
  wtx.vfSpent.map fun f => if f ≠ 0 then 49 else 48

/-- `fSpent`, for readers that know no string. -/
def fSpent (wtx : CWalletTxData) : UInt8 := if wtx.vfSpent.any (· ≠ 0) then 1 else 0

/-- What happens to the object before it is written or measured. -/
def inject (wtx : CWalletTxData) : CWalletTxData :=
  { wtx with
    mapValue := (wtx.mapValue.insert fromAccountKey wtx.strFromAccount).insert spentKey
      wtx.spentString }

/-- What happens to the object at the end of each pass. -/
def erase (wtx : CWalletTxData) : CWalletTxData :=
  { wtx with
    mapValue := ((wtx.mapValue.erase fromAccountKey).erase versionKey).erase spentKey }

/-- The fields one after the other. -/
def writeFields (wtx : CWalletTxData) (fSpent : UInt8) : List UInt8 :=
  wtx.toCMerkleTx.write ++ (writeList CMerkleTx.write wtx.vtxPrev ++
    (writeList writePair wtx.mapValue.toList ++ (writeList writePair wtx.vOrderForm ++
      (leBytes 4 wtx.fTimeReceivedIsTxTime.toNat ++ (leBytes 4 wtx.nTimeReceived.toNat ++
        ([wtx.fFromMe] ++ [fSpent]))))))

/-- `CWalletTx::Serialize`: the bytes and the object it leaves. -/
def serialize (wtx : CWalletTxData) : List UInt8 × CWalletTxData :=
  (wtx.inject.writeFields wtx.fSpent, wtx.inject.erase)

/-- The measures of the fields. -/
def sizeFields (wtx : CWalletTxData) : UInt32 :=
  wtx.toCMerkleTx.getSerializeSize +
    getSerializeSizeVector CMerkleTx.getSerializeSize wtx.vtxPrev +
    getSerializeSizeVector (fun item => getSerializeSizeBytes item.1 + getSerializeSizeBytes item.2)
      wtx.mapValue.toList +
    getSerializeSizeVector (fun item => getSerializeSizeBytes item.1 + getSerializeSizeBytes item.2)
      wtx.vOrderForm + 4 + 4 + 1 + 1

/-- `CWalletTx::GetSerializeSize`: the size and the object it leaves. -/
def getSerializeSize (wtx : CWalletTxData) : UInt32 × CWalletTxData :=
  (wtx.inject.sizeFields, wtx.inject.erase)

/-- What happens to the object after its fields were read; `vfSpent` is empty before. -/
def restore (wtx : CWalletTxData) (fSpent : UInt8) : CWalletTxData :=
  erase { wtx with
    strFromAccount := (wtx.mapValue.find fromAccountKey).getD []
    vfSpent :=
      match wtx.mapValue.find spentKey with
      | some str => str.map fun c => if c ≠ 48 then 1 else 0
      | none => List.replicate wtx.tx.vout.length fSpent }

/-- `CWalletTx::Unserialize`. -/
def unserialize : Reader CWalletTxData := do
  let merkleTx ← CMerkleTx.read
  let vtxPrev ← readList CMerkleTx.read
  let items ← readList readPair
  let vOrderForm ← readList readPair
  let fTimeReceivedIsTxTime ← readLE 4
  let nTimeReceived ← readLE 4
  let fFromMe ← readLE 1
  let fSpent ← readLE 1
  pure (restore {
    toCMerkleTx := merkleTx
    vtxPrev
    mapValue := .ofEntries items
    vOrderForm
    fTimeReceivedIsTxTime := UInt32.ofNat fTimeReceivedIsTxTime
    nTimeReceived := UInt32.ofNat nTimeReceived
    fFromMe := UInt8.ofNat fFromMe
    strFromAccount := []
    vfSpent := [] } (UInt8.ofNat fSpent))

/-- The map has none of the reserved keys. -/
structure Unreserved (wtx : CWalletTxData) : Prop where
  fromAccount : wtx.mapValue.find fromAccountKey = none
  version : wtx.mapValue.find versionKey = none
  spent : wtx.mapValue.find spentKey = none

/-- The object with its flags as booleans. -/
def booleans (wtx : CWalletTxData) : CWalletTxData :=
  { wtx with vfSpent := wtx.vfSpent.map fun f => if f ≠ 0 then 1 else 0 }

end CWalletTxData

/-! ## The objects that a reader accepts -/

/-- Every length is one that `ReadCompactSize` accepts. -/
structure CMerkleTx.Sized (merkleTx : CMerkleTx) : Prop where
  tx : merkleTx.tx.Sized
  vMerkleBranch : merkleTx.vMerkleBranch.length ≤ maxSize

/-- Both strings are short enough. -/
def ShortPair (item : List UInt8 × List UInt8) : Prop :=
  item.1.length ≤ maxSize ∧ item.2.length ≤ maxSize

/-- Every length is one that `ReadCompactSize` accepts, also with the keys for the account and the
flags. -/
structure CWalletTxData.Sized (wtx : CWalletTxData) : Prop where
  merkleTx : wtx.toCMerkleTx.Sized
  vtxPrev_length : wtx.vtxPrev.length ≤ maxSize
  vtxPrev : ∀ merkleTx ∈ wtx.vtxPrev, merkleTx.Sized
  mapValue_length : wtx.mapValue.keys.card + 2 ≤ maxSize
  mapValue : ∀ item ∈ wtx.mapValue.toList, ShortPair item
  vOrderForm_length : wtx.vOrderForm.length ≤ maxSize
  vOrderForm : ∀ item ∈ wtx.vOrderForm, ShortPair item
  strFromAccount : wtx.strFromAccount.length ≤ maxSize
  vfSpent : wtx.vfSpent.length ≤ maxSize

private theorem reads_hash (hash : UInt256) :
    Reads (do return BitVec.ofNat 256 (← readLE 32)) (leBytes 32 hash.toNat) hash :=
  (reads_readLE hash.isLt).last (by simp)

theorem CMerkleTx.reads_read {merkleTx : CMerkleTx} (sized : merkleTx.Sized) :
    Reads CMerkleTx.read merkleTx.write merkleTx := by
  refine (CTransaction.reads_read sized.tx).bind ?_
  refine (reads_readLE merkleTx.hashBlock.isLt).bind ?_
  refine (reads_readList sized.vMerkleBranch fun hash _ => reads_hash hash).bind ?_
  exact (reads_readLE merkleTx.nIndex.toUInt32.toNat_lt).last (by simp)

theorem CMerkleTx.getSerializeSize_eq (merkleTx : CMerkleTx) :
    merkleTx.getSerializeSize = UInt32.ofNat merkleTx.write.length := by
  have hash : (32 : UInt32) = UInt32.ofNat 32 := rfl
  rw [getSerializeSize, CTransaction.getSerializeSize_eq,
    @getSerializeSizeVector_eq _ _ (fun hash : UInt256 => leBytes 32 hash.toNat)
      merkleTx.vMerkleBranch fun _ => by rw [length_leBytes, hash]]
  simp only [CMerkleTx.write, writeList, List.length_append, length_leBytes, UInt32.ofNat_add,
    UInt32.add_assoc]
  rfl

namespace CWalletTxData

variable {wtx : CWalletTxData}

private theorem keys_distinct : fromAccountKey ≠ versionKey ∧ fromAccountKey ≠ spentKey ∧
    versionKey ≠ spentKey := by decide

/-- The keys are taken out that were put in. -/
theorem erase_inject (unreserved : wtx.Unreserved) : wtx.inject.erase = wtx := by
  have restored : (((((wtx.mapValue.insert fromAccountKey wtx.strFromAccount).insert spentKey
      wtx.spentString).erase fromAccountKey).erase versionKey).erase spentKey) = wtx.mapValue := by
    refine OrderedMap.ext_find fun key => ?_
    by_cases spent : key = spentKey
    · rw [spent, OrderedMap.find_erase_self, unreserved.spent]
    by_cases version : key = versionKey
    · rw [OrderedMap.find_erase_of_ne spent, version, OrderedMap.find_erase_self,
        unreserved.version]
    by_cases account : key = fromAccountKey
    · rw [OrderedMap.find_erase_of_ne spent, OrderedMap.find_erase_of_ne version, account,
        OrderedMap.find_erase_self, unreserved.fromAccount]
    · rw [OrderedMap.find_erase_of_ne spent, OrderedMap.find_erase_of_ne version,
        OrderedMap.find_erase_of_ne account, OrderedMap.find_insert_of_ne spent,
        OrderedMap.find_insert_of_ne account]
  obtain ⟨merkleTx, vtxPrev, mapValue, vOrderForm, isTxTime, received, fromMe, account, flags⟩ :=
    wtx
  simp only [inject, erase]
  simpa using restored

/-- A flag is `0` or `1`, and is read as that. -/
private theorem flags_spentString (wtx : CWalletTxData) :
    (wtx.spentString.map fun c => if c ≠ 48 then (1 : UInt8) else 0) =
      wtx.vfSpent.map fun f => if f ≠ 0 then 1 else 0 := by
  rw [spentString, List.map_map]
  refine List.map_congr_left fun f _ => ?_
  by_cases spent : f = 0
  · simp [spent]
  · simp [spent]

/-- What was read from an object is the object with its flags as booleans. -/
theorem restore_inject (unreserved : wtx.Unreserved) (fSpent : UInt8) :
    restore { wtx.inject with strFromAccount := [], vfSpent := [] } fSpent = wtx.booleans := by
  have account : wtx.inject.mapValue.find fromAccountKey = some wtx.strFromAccount := by
    rw [inject, OrderedMap.find_insert_of_ne keys_distinct.2.1, OrderedMap.find_insert_self]
  have spent : wtx.inject.mapValue.find spentKey = some wtx.spentString :=
    OrderedMap.find_insert_self
  have erased := congrArg CWalletTxData.mapValue (erase_inject unreserved)
  simp only [restore, account, spent, Option.getD_some, erase, flags_spentString, booleans]
  simp only [erase] at erased
  rw [erased]
  rfl

private theorem sizePair_eq (item : List UInt8 × List UInt8) :
    getSerializeSizeBytes item.1 + getSerializeSizeBytes item.2 =
      UInt32.ofNat (writePair item).length := by
  rw [writePair, List.length_append, UInt32.ofNat_add, getSerializeSizeBytes_eq,
    getSerializeSizeBytes_eq]

/-- The measure is the length written. -/
theorem sizeFields_eq (wtx : CWalletTxData) (fSpent : UInt8) :
    wtx.sizeFields = UInt32.ofNat (wtx.writeFields fSpent).length := by
  rw [sizeFields, CMerkleTx.getSerializeSize_eq,
    getSerializeSizeVector_eq wtx.vtxPrev CMerkleTx.getSerializeSize_eq,
    getSerializeSizeVector_eq wtx.mapValue.toList sizePair_eq,
    getSerializeSizeVector_eq wtx.vOrderForm sizePair_eq]
  simp only [writeFields, writeList, List.length_append, length_leBytes, UInt32.ofNat_add,
    UInt32.add_assoc]
  rfl

private theorem shortPairs_inject (sized : wtx.Sized) :
    wtx.inject.mapValue.toList.length ≤ maxSize ∧
      ∀ item ∈ wtx.inject.mapValue.toList, ShortPair item := by
  constructor
  · rw [OrderedMap.length_toList]
    have inner := wtx.mapValue.card_keys_insert_le fromAccountKey wtx.strFromAccount
    exact ((OrderedMap.card_keys_insert_le ..).trans (Nat.succ_le_succ inner)).trans
      sized.mapValue_length
  · rintro ⟨key, value⟩ member
    have found := OrderedMap.mem_toList.mp member
    rw [inject] at found
    by_cases spent : key = spentKey
    · subst spent
      rw [OrderedMap.find_insert_self, Option.some.injEq] at found
      subst found
      refine ⟨show spentKey.length ≤ maxSize by decide, ?_⟩
      dsimp only
      rw [spentString, List.length_map]
      exact sized.vfSpent
    rw [OrderedMap.find_insert_of_ne spent] at found
    by_cases account : key = fromAccountKey
    · subst account
      rw [OrderedMap.find_insert_self, Option.some.injEq] at found
      subst found
      exact ⟨show fromAccountKey.length ≤ maxSize by decide, sized.strFromAccount⟩
    · rw [OrderedMap.find_insert_of_ne account] at found
      exact sized.mapValue _ (OrderedMap.mem_toList.mpr found)

private theorem reads_char (char : UInt8) : Reads (readLE 1) [char] char.toNat := by
  have read : Reads (readLE 1) (leBytes 1 char.toNat) char.toNat := reads_readLE char.toNat_lt
  simpa [leBytes] using read

theorem reads_unserialize (unreserved : wtx.Unreserved) (sized : wtx.Sized) :
    Reads unserialize wtx.serialize.1 wtx.booleans := by
  obtain ⟨few, items⟩ := shortPairs_inject sized
  refine (CMerkleTx.reads_read sized.merkleTx).bind ?_
  refine (reads_readList sized.vtxPrev_length fun merkleTx member =>
    CMerkleTx.reads_read (sized.vtxPrev merkleTx member)).bind ?_
  refine (reads_readList few fun item member =>
    reads_readPair (items item member).1 (items item member).2).bind ?_
  refine (reads_readList sized.vOrderForm_length fun item member =>
    reads_readPair (sized.vOrderForm item member).1 (sized.vOrderForm item member).2).bind ?_
  refine (reads_readLE wtx.fTimeReceivedIsTxTime.toNat_lt).bind ?_
  refine (reads_readLE wtx.nTimeReceived.toNat_lt).bind ?_
  refine (reads_char wtx.fFromMe).bind ?_
  refine (reads_char wtx.fSpent).last ?_
  rw [← restore_inject unreserved wtx.fSpent, OrderedMap.ofEntries_toList]
  simp [inject]

end CWalletTxData

/-- A wallet transaction without reserved keys is read back as it was written, its flags as
booleans, and neither writing nor measuring changes it. -/
theorem walletTx_roundTrip (wtx : CWalletTxData) (unreserved : wtx.Unreserved) :
    wtx.serialize.2 = wtx ∧
      wtx.getSerializeSize = (UInt32.ofNat wtx.serialize.1.length, wtx) ∧
      (wtx.Sized → ∀ rest, CWalletTxData.unserialize.run (wtx.serialize.1 ++ rest) =
        some (wtx.booleans, rest)) := by
  have same := CWalletTxData.erase_inject unreserved
  refine ⟨same, ?_, fun sized => CWalletTxData.reads_unserialize unreserved sized⟩
  rw [CWalletTxData.getSerializeSize, same, CWalletTxData.serialize]
  exact congrArg (·, wtx) (CWalletTxData.sizeFields_eq wtx.inject wtx.fSpent)

/-! ## A string that is too long -/

private theorem none_of_reads {α β : Type} {first : Reader α} {next : α → Reader β}
    {bytes more : List UInt8} {value : α} (reads : Reads first bytes value)
    (fails : (next value).run more = none) : (first >>= next).run (bytes ++ more) = none := by
  rw [StateT.run_bind, reads]
  exact fails

private theorem none_of_bind {α β : Type} {first : Reader α} {next : α → Reader β}
    {bytes : List UInt8} (fails : first.run bytes = none) : (first >>= next).run bytes = none := by
  rw [StateT.run_bind, fails]
  rfl

private theorem readCompactSize_large {nSize : Nat} (large : maxSize < nSize)
    (fits : nSize ≤ 0xffffffff) (rest : List UInt8) :
    readCompactSize.run (writeCompactSize nSize ++ rest) = none := by
  have bound : 0x02000000 < nSize := large
  have written : writeCompactSize nSize = leBytes 1 254 ++ leBytes 4 nSize := by
    rw [writeCompactSize, if_neg (by omega), if_neg (by omega), if_pos fits]
    rfl
  have word : Reads (readSizeWord 254) (leBytes 4 nSize) nSize :=
    reads_readLE (lt_of_le_of_lt fits (by norm_num))
  rw [written, List.append_assoc]
  refine none_of_reads (reads_readLE (by norm_num)) (none_of_reads word ?_)
  rw [if_pos large]
  rfl

/-- An object without contents but for its flags. -/
def flaggedWalletTx (vfSpent : List UInt8) : CWalletTxData where
  tx := { nVersion := 1, vin := [], vout := [], nLockTime := 0 }
  hashBlock := 0
  vMerkleBranch := []
  nIndex := -1
  vtxPrev := []
  mapValue := .empty
  vOrderForm := []
  fTimeReceivedIsTxTime := 0
  nTimeReceived := 0
  fFromMe := 0
  strFromAccount := []
  vfSpent := vfSpent

private theorem flaggedWalletTx_unreserved (vfSpent : List UInt8) :
    (flaggedWalletTx vfSpent).Unreserved := ⟨rfl, rfl, rfl⟩

private theorem flaggedWalletTx_merkleTx (vfSpent : List UInt8) :
    (flaggedWalletTx vfSpent).toCMerkleTx.Sized where
  tx := {
    vin := Nat.zero_le _
    vout := Nat.zero_le _
    scriptSig := fun _ member => absurd member List.not_mem_nil
    scriptPubKey := fun _ member => absurd member List.not_mem_nil }
  vMerkleBranch := Nat.zero_le _

private theorem toList_flaggedWalletTx (vfSpent : List UInt8) :
    (flaggedWalletTx vfSpent).inject.mapValue.toList =
      [(fromAccountKey, []), (spentKey, (flaggedWalletTx vfSpent).spentString)] := by
  refine OrderedMap.toList_eq (by simp; decide) fun key value => ?_
  rw [CWalletTxData.inject]
  by_cases spent : key = spentKey
  · subst spent
    rw [OrderedMap.find_insert_self]
    have other : fromAccountKey ≠ spentKey := CWalletTxData.keys_distinct.2.1
    simp [other, eq_comm]
  rw [OrderedMap.find_insert_of_ne spent]
  by_cases account : key = fromAccountKey
  · subst account
    rw [OrderedMap.find_insert_self]
    simp [spent, flaggedWalletTx, eq_comm]
  · rw [OrderedMap.find_insert_of_ne account]
    simp [spent, account, flaggedWalletTx]

private theorem readItems_long {vfSpent : List UInt8} (long : vfSpent.length = maxSize + 1)
    (more : List UInt8) :
    (readList readPair).run (writeList writePair
      [(fromAccountKey, []), (spentKey, (flaggedWalletTx vfSpent).spentString)] ++ more) =
        none := by
  have length : (flaggedWalletTx vfSpent).spentString.length = maxSize + 1 := by
    rw [CWalletTxData.spentString, List.length_map]
    exact long
  generalize (flaggedWalletTx vfSpent).spentString = spentString at length
  rw [writeList, List.append_assoc]
  refine none_of_reads (reads_readCompactSize (show 2 ≤ maxSize by decide)) ?_
  rw [List.flatMap_cons, List.append_assoc]
  refine none_of_reads (reads_readPair (by decide) (by decide)) (none_of_bind ?_)
  rw [List.flatMap_cons, List.append_assoc, writePair, List.append_assoc]
  refine none_of_bind (none_of_reads
    (reads_readVector (show spentKey.length ≤ maxSize by decide)) (none_of_bind ?_))
  rw [writeVector, List.append_assoc]
  dsimp only
  rw [length]
  exact none_of_bind (readCompactSize_large (Nat.lt_succ_self _) (by decide) _)

theorem walletTx_roundTrip_flagged :
    CWalletTxData.unserialize.run ((flaggedWalletTx [1, 0]).serialize.1 ++ []) =
      some ((flaggedWalletTx [1, 0]).booleans, []) :=
  (walletTx_roundTrip (flaggedWalletTx [1, 0]) (flaggedWalletTx_unreserved _)).2.2 {
    merkleTx := flaggedWalletTx_merkleTx _
    vtxPrev_length := Nat.zero_le _
    vtxPrev := fun _ member => absurd member List.not_mem_nil
    mapValue_length := by decide
    mapValue := fun item member => nomatch OrderedMap.mem_toList.mp member
    vOrderForm_length := Nat.zero_le _
    vOrderForm := fun _ member => absurd member List.not_mem_nil
    strFromAccount := Nat.zero_le _
    vfSpent := by decide } []

theorem not_walletTx_roundTrip :
    ¬∀ wtx : CWalletTxData, wtx.Unreserved → ∀ rest,
      CWalletTxData.unserialize.run (wtx.serialize.1 ++ rest) = some (wtx.booleans, rest) := by
  intro roundTrip
  have long : (List.replicate (maxSize + 1) (0 : UInt8)).length = maxSize + 1 :=
    List.length_replicate
  generalize List.replicate (maxSize + 1) (0 : UInt8) = vfSpent at long
  have read := roundTrip (flaggedWalletTx vfSpent) (flaggedWalletTx_unreserved vfSpent) []
  have fails : CWalletTxData.unserialize.run ((flaggedWalletTx vfSpent).serialize.1 ++ []) =
      none := by
    rw [List.append_nil]
    refine none_of_reads (CMerkleTx.reads_read (flaggedWalletTx_merkleTx vfSpent)) ?_
    refine none_of_reads (reads_readList (Nat.zero_le _)
      fun _ member => absurd member List.not_mem_nil) ?_
    rw [toList_flaggedWalletTx]
    exact none_of_bind (readItems_long long _)
  rw [fails] at read
  contradiction

end FooCoin

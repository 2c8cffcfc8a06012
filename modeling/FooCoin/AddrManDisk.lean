import FooCoin.AddrManRun

/-!
# The address manager on disk

`IMPLEMENT_SERIALIZE` of `CAddrMan` for `SER_DISK`.  The ids are not written: new entries are
numbered in the order of `mapInfo`, and the new buckets are lists of these numbers.
-/

namespace FooCoin

open Codec Function LittleEndian

/-- An `int`. -/
def writeInt (value : Int) : List UInt8 := leBytes 4 (value % 2 ^ 32).toNat

/-- Read an `int`. -/
def readInt : Reader Int := do
  let word ← readLE 4
  pure (BitVec.ofNat 32 word).toInt

/-- The serialization of an address. -/
def CNetAddr.write (addr : CNetAddr) : List UInt8 := addr.ip.toList

/-- Read an address. -/
def CNetAddr.read : Reader CNetAddr := do
  let bytes ← readBytes 16
  pure { ip := Vector.ofFn fun i => bytes.getD i 0 }

/-- The serialization of a service, with its port in network order. -/
def CService.write (service : CService) : List UInt8 :=
  service.toCNetAddr.write ++
    [UInt8.ofNat (service.port.toNat / 256), UInt8.ofNat (service.port.toNat % 256)]

/-- Read a service. -/
def CService.read : Reader CService := do
  let addr ← CNetAddr.read
  let portN ← readBytes 2
  pure
    { toCNetAddr := addr
      port := UInt16.ofNat ((portN.getD 0 0).toNat * 256 + (portN.getD 1 0).toNat) }

/-- The serialization of an entry.  The version before its time is the local `nVersion` of
`CAddrMan`. -/
def CAddrInfo.write (info : CAddrInfo) : List UInt8 :=
  leBytes 4 0 ++ (leBytes 4 info.nTime.toNat ++ (leBytes 8 info.nServices.toNat ++
    (info.toCService.write ++ (info.source.write ++
      (leBytes 8 info.nLastSuccess.toUInt64.toNat ++ leBytes 4 info.nAttempts.toUInt32.toNat)))))

/-- Read an entry. -/
def CAddrInfo.read : Reader CAddrInfo := do
  let _nVersion ← readLE 4
  let nTime ← readLE 4
  let nServices ← readLE 8
  let service ← CService.read
  let source ← CNetAddr.read
  let nLastSuccess ← readLE 8
  let nAttempts ← readLE 4
  pure
    { toCService := service
      nServices := UInt64.ofNat nServices
      nTime := UInt32.ofNat nTime
      nLastTry := 0
      source
      nLastSuccess := (UInt64.ofNat nLastSuccess).toInt64
      nAttempts := (UInt32.ofNat nAttempts).toInt32
      nRefCount := 0
      fInTried := false
      nRandomPos := -1 }

/-- The entry that `mapInfo[nId]` makes where there is none. -/
def CAddrInfo.empty : CAddrInfo where
  ip := .replicate 16 0
  port := 0
  nServices := 1
  nTime := 100000000
  nLastTry := 0
  source := { ip := .replicate 16 0 }
  nLastSuccess := 0
  nAttempts := 0
  nRefCount := 0
  fInTried := false
  nRandomPos := -1

namespace CAddrMan

/-! ## Writing -/

/-- The loop that writes the entries with references, with `mapUnkIds`. -/
def writeNew (nNew : Int) : Int → (Int → Int) → List (Int × CAddrInfo) → List UInt8 × (Int → Int)
  | _, mapUnkIds, [] => ([], mapUnkIds)
  | nIds, mapUnkIds, (nId, info) :: entries =>
      if nIds = nNew then ([], mapUnkIds)
      else
        let mapUnkIds := update mapUnkIds nId nIds
        if info.nRefCount ≠ 0 then
          let (bytes, mapUnkIds) := writeNew nNew (nIds + 1) mapUnkIds entries
          (info.write ++ bytes, mapUnkIds)
        else writeNew nNew nIds mapUnkIds entries

/-- The loop that writes the tried entries. -/
def writeTried (nTried : Int) : Int → List (Int × CAddrInfo) → List UInt8
  | _, [] => []
  | nIds, (_, info) :: entries =>
      if nIds = nTried then []
      else if info.fInTried then info.write ++ writeTried nTried (nIds + 1) entries
      else writeTried nTried nIds entries

/-- The size of a new bucket and the numbers of its entries. -/
def writeBucket (mapUnkIds : Int → Int) (vNew : Finset Int) : List UInt8 :=
  writeInt vNew.card ++ (bucketOrder vNew).flatMap fun nId => writeInt (mapUnkIds nId)

/-- Serialize. -/
def serialize (m : CAddrMan) : List UInt8 :=
  let (newEntries, mapUnkIds) := writeNew m.nNew 0 (fun _ => 0) m.mapInfo.toList
  leBytes 1 0 ++ (writeVector m.nKey ++ (writeInt m.nNew ++ (writeInt m.nTried ++
    (writeInt newBucketCount ++ (newEntries ++ (writeTried m.nTried 0 m.mapInfo.toList ++
      (List.finRange newBucketCount).flatMap fun nB => writeBucket mapUnkIds (m.vvNew nB)))))))

/-! ## Reading -/

variable (crypto : Crypto)

/-- The loop that reads the new entries. -/
def readNew (nUBuckets : Int) : Nat → Int → CAddrMan → Reader CAddrMan
  | 0, _, am => pure am
  | left + 1, n, am => do
      let info ← CAddrInfo.read
      let info := { info with nRandomPos := am.vRandom.length }
      let am := { am with
        mapAddr := update am.mapAddr info.toCNetAddr (some n)
        vRandom := am.vRandom ++ [n] }
      if nUBuckets ≠ newBucketCount then
        let nUBucket := info.getNewBucket crypto am.nKey info.source
        readNew nUBuckets left (n + 1)
          { am.setInfo n { info with nRefCount := info.nRefCount + 1 } with
            vvNew := update am.vvNew nUBucket (insert n (am.vvNew nUBucket)) }
      else readNew nUBuckets left (n + 1) (am.setInfo n info)

/-- The loop that reads the tried entries, with `nLost`. -/
def readTried : Nat → Int → CAddrMan → Reader (Int × CAddrMan)
  | 0, nLost, am => pure (nLost, am)
  | left + 1, nLost, am => do
      let info ← CAddrInfo.read
      let nKBucket := info.getTriedBucket crypto am.nKey
      let vTried := am.vvTried nKBucket
      if vTried.length < triedBucketSize then
        let info := { info with nRandomPos := am.vRandom.length, fInTried := true }
        readTried left nLost
          { am with
            nIdCount := am.nIdCount + 1
            mapInfo := am.mapInfo.insert am.nIdCount info
            mapAddr := update am.mapAddr info.toCNetAddr (some am.nIdCount)
            vRandom := am.vRandom ++ [am.nIdCount]
            vvTried := update am.vvTried nKBucket (vTried ++ [am.nIdCount]) }
      else readTried left (nLost + 1) am

/-- The loop that reads a new bucket. -/
def readBucket (nUBuckets : Int) (nB : Fin newBucketCount) : Nat → CAddrMan → Reader CAddrMan
  | 0, am => pure am
  | left + 1, am => do
      let nIndex ← readInt
      let info := (am.mapInfo.find nIndex).getD .empty
      let counted := { info with nRefCount := info.nRefCount + 1 }
      if nUBuckets = newBucketCount ∧ info.nRefCount < newBucketsPerAddress then
        readBucket nUBuckets nB left
          { am.setInfo nIndex counted with
            vvNew := update am.vvNew nB (insert nIndex (am.vvNew nB)) }
      else readBucket nUBuckets nB left (am.setInfo nIndex info)

/-- The loop that reads the new buckets from `b` on.  It fails outside of `vvNew`. -/
def readBuckets (nUBuckets : Int) : Nat → Nat → CAddrMan → Reader CAddrMan
  | 0, _, am => pure am
  | left + 1, b, am =>
      if small : b < newBucketCount then do
        let nSize ← readInt
        let am ← readBucket nUBuckets ⟨b, small⟩ nSize.toNat am
        readBuckets nUBuckets left (b + 1) am
      else failure

/-- Unserialize into a manager. -/
def unserialize (am : CAddrMan) : Reader CAddrMan := do
  let _nVersion ← readLE 1
  let nKey ← readVector
  let nNew ← readInt
  let nTried ← readInt
  let nUBuckets ← readInt
  let am := { am with
    nKey
    nNew
    nTried
    nIdCount := 0
    mapInfo := .empty
    mapAddr := fun _ => none
    vRandom := []
    vvTried := fun _ => []
    vvNew := fun _ => ∅ }
  let am ← readNew crypto nUBuckets nNew.toNat 0 am
  let (nLost, am) ← readTried crypto nTried.toNat 0 { am with nIdCount := nNew }
  readBuckets nUBuckets nUBuckets.toNat 0 { am with nTried := am.nTried - nLost }

end CAddrMan

/-! ## The parts -/

theorem reads_readInt {value : Int} (low : -2 ^ 31 ≤ value) (high : value < 2 ^ 31) :
    Reads readInt (writeInt value) value := by
  refine (reads_readLE ?_).last ?_
  · omega
  · have word : BitVec.ofNat 32 (value % 2 ^ 32).toNat = BitVec.ofInt 32 value := by
      apply BitVec.eq_of_toNat_eq
      rw [BitVec.toNat_ofNat, BitVec.toNat_ofInt]
      omega
    rw [word, BitVec.toInt_ofInt]
    exact Int.bmod_eq_of_le (by omega) (by omega)

private theorem toList_ip (ip : Vector UInt8 16) :
    (Vector.ofFn fun i : Fin 16 => ip.toList.getD i 0) = ip := by
  ext i small
  simp

theorem CNetAddr.reads_read (addr : CNetAddr) : Reads CNetAddr.read addr.write addr := by
  have bytes := reads_readBytes addr.write
  rw [CNetAddr.write, Vector.length_toList] at bytes
  exact bytes.last (by rw [toList_ip])

private theorem port_bytes (port : UInt16) :
    UInt16.ofNat ((UInt8.ofNat (port.toNat / 256)).toNat * 256 +
      (UInt8.ofNat (port.toNat % 256)).toNat) = port := by
  have small := port.toNat_lt
  have value : (UInt8.ofNat (port.toNat / 256)).toNat * 256 +
      (UInt8.ofNat (port.toNat % 256)).toNat = port.toNat := by
    rw [UInt8.toNat_ofNat', UInt8.toNat_ofNat']
    omega
  rw [value, UInt16.ofNat_toNat]

theorem CService.reads_read (service : CService) :
    Reads CService.read service.write service := by
  refine service.toCNetAddr.reads_read.bind ?_
  refine (reads_readBytes [_, _]).last ?_
  simp only [List.getD_cons_zero, List.getD_cons_succ, port_bytes]

/-- An entry as it is read. -/
def CAddrInfo.loaded (info : CAddrInfo) : CAddrInfo :=
  { info with nLastTry := 0, nRefCount := 0, fInTried := false, nRandomPos := -1 }

theorem CAddrInfo.reads_read (info : CAddrInfo) :
    Reads CAddrInfo.read info.write info.loaded := by
  refine (reads_readLE (by decide)).bind ?_
  refine (reads_readLE info.nTime.toNat_lt).bind ?_
  refine (reads_readLE info.nServices.toNat_lt).bind ?_
  refine info.toCService.reads_read.bind ?_
  refine info.source.reads_read.bind ?_
  refine (reads_readLE info.nLastSuccess.toUInt64.toNat_lt).bind ?_
  exact (reads_readLE info.nAttempts.toUInt32.toNat_lt).last (by simp [loaded])

end FooCoin

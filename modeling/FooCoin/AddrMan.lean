import FooCoin.Library.LittleEndian
import FooCoin.Library.OrderedMap
import FooCoin.NetAddr
import FooCoin.Transaction

/-!
# The address manager

`CAddrMan` keeps the addresses of peers.  An address lives in up to four of 256 "new" buckets, or in
one of 64 "tried" buckets once a connection to it was good.  Random choices and clock readings are
arbitrary.  An operation has no result where an assertion fails or an `int` overflows.
-/

namespace FooCoin

open Function LittleEndian

/-- The number of "tried" buckets, `ADDRMAN_TRIED_BUCKET_COUNT`. -/
abbrev triedBucketCount : Nat := 64

/-- `ADDRMAN_TRIED_BUCKET_SIZE`. -/
def triedBucketSize : Nat := 64

/-- The number of "new" buckets, `ADDRMAN_NEW_BUCKET_COUNT`. -/
abbrev newBucketCount : Nat := 256

/-- `ADDRMAN_NEW_BUCKET_SIZE`. -/
def newBucketSize : Nat := 64

/-- `ADDRMAN_NEW_BUCKETS_PER_ADDRESS`. -/
def newBucketsPerAddress : Int := 4

/-- `ADDRMAN_TRIED_ENTRIES_INSPECT_ON_EVICT`. -/
def triedEntriesInspectOnEvict : Nat := 4

/-- `CAddress`: a service with information about it as peer. -/
structure CAddress extends CService where
  nServices : UInt64
  nTime : UInt32
  /-- In memory only. -/
  nLastTry : Int64
deriving DecidableEq

/-- `CAddrInfo`. -/
structure CAddrInfo extends CAddress where
  source : CNetAddr
  nLastSuccess : Int64
  nAttempts : Int32
  /-- How many "new" buckets hold the address. -/
  nRefCount : Int
  fInTried : Bool
  /-- The position in `vRandom`. -/
  nRandomPos : Int
deriving DecidableEq

/-- `uint256::Get64`. -/
def get64 (word : UInt256) : Nat := word.toNat % 2 ^ 64

namespace CAddrInfo

/-- The constructor from an address and its source. -/
def ofAddress (addrIn : CAddress) (addrSource : CNetAddr) : CAddrInfo where
  toCService := addrIn.toCService
  nServices := addrIn.nServices
  nTime := addrIn.nTime
  nLastTry := 0
  source := addrSource
  nLastSuccess := 0
  nAttempts := 0
  nRefCount := 0
  fInTried := false
  nRandomPos := -1

/-- `GetTriedBucket`. -/
def getTriedBucket (crypto : Crypto) (nKey : List UInt8) (info : CAddrInfo) :
    Fin triedBucketCount :=
  let hash1 := get64 (crypto.Hash (writeVector nKey ++ writeVector info.getKey))
  let hash2 := get64 (crypto.Hash
    (writeVector nKey ++ (writeVector info.getGroup ++ leBytes 8 (hash1 % 4))))
  Fin.ofNat _ hash2

/-- `GetNewBucket`. -/
def getNewBucket (crypto : Crypto) (nKey : List UInt8) (info : CAddrInfo) (src : CNetAddr) :
    Fin newBucketCount :=
  let hash1 := get64 (crypto.Hash
    (writeVector nKey ++ (writeVector info.getGroup ++ writeVector src.getGroup)))
  let hash2 := get64 (crypto.Hash
    (writeVector nKey ++ (writeVector src.getGroup ++ leBytes 8 (hash1 % 32))))
  Fin.ofNat _ hash2

/-- `IsTerrible`. -/
def isTerrible (nNow : Int) (info : CAddrInfo) : Bool :=
  let nLastTry := info.nLastTry.toInt
  let nTime : Int := info.nTime.toNat
  if nLastTry ≠ 0 ∧ nNow - 60 ≤ nLastTry then false
  else if nNow + 10 * 60 < nTime then true
  else if nTime = 0 ∨ 30 * 86400 < nNow - nTime then true
  else if info.nLastSuccess = 0 ∧ 3 ≤ info.nAttempts then true
  else 7 * 86400 < nNow - info.nLastSuccess.toInt && 10 ≤ info.nAttempts

/-- What `Add_` writes into an entry that is there. -/
def refresh (nNow : Int) (addr : CAddress) (nTimePenalty : Int) (info : CAddrInfo) : CAddrInfo :=
  let addrTime : Int := addr.nTime.toNat
  let nUpdateInterval : Int :=
    if nNow - addrTime < 24 * 60 * 60 then 60 * 60 else 24 * 60 * 60
  let info :=
    if addr.nTime ≠ 0 ∧ (info.nTime = 0 ∨
        (info.nTime.toNat : Int) < addrTime - nUpdateInterval - nTimePenalty) then
      { info with nTime := UInt32.ofInt (max 0 (addrTime - nTimePenalty)) }
    else info
  { info with nServices := info.nServices ||| addr.nServices }

end CAddrInfo

/-- The random numbers and the times that a call finds. -/
structure CallChance where
  /-- `GetRandInt` at its `i`-th call, for a bound. -/
  getRandInt : Nat → Nat → Nat
  getRandInt_lt : ∀ i nMax, 0 < nMax → getRandInt i nMax < nMax
  /-- `GetAdjustedTime` at its `i`-th call. -/
  getAdjustedTime : Nat → Int

/-- `CAddrMan`. -/
structure CAddrMan where
  nKey : List UInt8
  nIdCount : Int
  mapInfo : OrderedMap Int CAddrInfo
  mapAddr : CNetAddr → Option Int
  vRandom : List Int
  nTried : Int
  vvTried : Fin triedBucketCount → List Int
  nNew : Int
  vvNew : Fin newBucketCount → Finset Int

namespace CAddrMan

/-- The constructor, with the key it drew. -/
def init (nKey : Vector UInt8 32) : CAddrMan where
  nKey := nKey.toList
  nIdCount := 0
  mapInfo := .empty
  mapAddr _ := none
  vRandom := []
  nTried := 0
  vvTried _ := []
  nNew := 0
  vvNew _ := ∅

/-- `Find`, with the id of the entry. -/
def find (addr : CNetAddr) (m : CAddrMan) : Option (Int × CAddrInfo) := do
  let nId ← m.mapAddr addr
  let info ← m.mapInfo.find nId
  pure (nId, info)

/-- Write an entry of `mapInfo`. -/
def setInfo (nId : Int) (info : CAddrInfo) (m : CAddrMan) : CAddrMan :=
  { m with mapInfo := m.mapInfo.insert nId info }

/-- `Create`, with the id of the entry. -/
def create (addr : CAddress) (addrSource : CNetAddr) (m : CAddrMan) :
    Option (Int × CAddrInfo × CAddrMan) :=
  if m.nIdCount = 2 ^ 31 - 1 then none
  else
    let nId := m.nIdCount
    let info := { CAddrInfo.ofAddress addr addrSource with nRandomPos := m.vRandom.length }
    some (nId, info,
      { m with
        nIdCount := m.nIdCount + 1
        mapInfo := m.mapInfo.insert nId info
        mapAddr := update m.mapAddr addr.toCNetAddr (some nId)
        vRandom := m.vRandom ++ [nId] })

/-- `SwapRandom`. -/
def swapRandom (nRndPos1 nRndPos2 : Nat) (m : CAddrMan) : Option CAddrMan :=
  if nRndPos1 = nRndPos2 then some m
  else do
    let nId1 ← m.vRandom[nRndPos1]?
    let nId2 ← m.vRandom[nRndPos2]?
    let info1 ← m.mapInfo.find nId1
    let info2 ← m.mapInfo.find nId2
    let m := m.setInfo nId1 { info1 with nRandomPos := nRndPos2 }
    let m := m.setInfo nId2 { info2 with nRandomPos := nRndPos1 }
    pure { m with vRandom := (m.vRandom.set nRndPos1 nId2).set nRndPos2 nId1 }

/-- Whether an entry replaces the one found so far: it is the first, or has the earlier time. -/
def older (time : CAddrInfo → Int) (nOldest nId : Int) (m : CAddrMan) : Option Bool :=
  if nOldest = -1 then some true
  else do
    let info ← m.mapInfo.find nId
    let oldest ← m.mapInfo.find nOldest
    pure (decide (time info < time oldest))

/-- The loop of `SelectTried` from position `i` on, with the bucket and `nOldestPos` at its end. -/
def selectTriedLoop (chance : CallChance) (m : CAddrMan) :
    Nat → Nat → List Int → Int → Int → Option (List Int × Int)
  | 0, _, vTried, _, nOldestPos => some (vTried, nOldestPos)
  | left + 1, i, vTried, nOldest, nOldestPos =>
      if i < vTried.length then do
        let nPos := chance.getRandInt i (vTried.length - i) + i
        let nTemp ← vTried[nPos]?
        let vTried := (vTried.set nPos (← vTried[i]?)).set i nTemp
        if ← m.older (fun info => info.nLastSuccess.toInt) nOldest nTemp then
          m.selectTriedLoop chance left (i + 1) vTried nTemp nPos
        else m.selectTriedLoop chance left (i + 1) vTried nOldest nOldestPos
      else some (vTried, nOldestPos)

/-- `SelectTried`, with the shuffled bucket. -/
def selectTried (chance : CallChance) (nKBucket : Fin triedBucketCount) (m : CAddrMan) :
    Option (List Int × Int) :=
  m.selectTriedLoop chance triedEntriesInspectOnEvict 0 (m.vvTried nKBucket) (-1) (-1)

/-- Take an entry out of a "new" bucket, and out of the manager where no other bucket holds it. -/
def removeNew (nUBucket : Fin newBucketCount) (nId : Int) (m : CAddrMan) : Option CAddrMan := do
  let info ← m.mapInfo.find nId
  let info := { info with nRefCount := info.nRefCount - 1 }
  let m := m.setInfo nId info
  let m ← if info.nRefCount = 0 then do
      let m ← m.swapRandom info.nRandomPos.toNat (m.vRandom.length - 1)
      pure { m with
        vRandom := m.vRandom.dropLast
        mapAddr := update m.mapAddr info.toCNetAddr none
        mapInfo := m.mapInfo.erase nId
        nNew := m.nNew - 1 }
    else pure m
  pure { m with vvNew := update m.vvNew nUBucket ((m.vvNew nUBucket).erase nId) }

/-- The first terrible entry of a "new" bucket from position `i` on. -/
def findTerrible (chance : CallChance) (m : CAddrMan) : Nat → List Int → Option (Option Int)
  | _, [] => some none
  | i, nId :: nIds => do
      let info ← m.mapInfo.find nId
      if info.isTerrible (chance.getAdjustedTime i) then pure (some nId)
      else m.findTerrible chance (i + 1) nIds

/-- The loop of `ShrinkNew` over the entries from position `nI` on, that looks at positions `n`. -/
def selectNewLoop (n : List Nat) (m : CAddrMan) : Nat → Int → List Int → Option Int
  | _, nOldest, [] => some nOldest
  | nI, nOldest, nId :: nIds =>
      if nI ∈ n then do
        let older ← m.older (fun info => info.nTime.toNat) nOldest nId
        m.selectNewLoop n (nI + 1) (if older then nId else nOldest) nIds
      else m.selectNewLoop n (nI + 1) nOldest nIds

/-- The ids of a "new" bucket in the order of its iterator. -/
def bucketOrder (vNew : Finset Int) : List Int := vNew.sort (· ≤ ·)

@[simp]
theorem mem_bucketOrder {vNew : Finset Int} {nId : Int} : nId ∈ bucketOrder vNew ↔ nId ∈ vNew :=
  Finset.mem_sort _

theorem nodup_bucketOrder (vNew : Finset Int) : (bucketOrder vNew).Nodup :=
  Finset.sort_nodup _ _

@[simp]
theorem length_bucketOrder (vNew : Finset Int) : (bucketOrder vNew).length = vNew.card :=
  Finset.length_sort _

/-- `ShrinkNew`. -/
def shrinkNew (chance : CallChance) (nUBucket : Fin newBucketCount) (m : CAddrMan) :
    Option CAddrMan := do
  let vNew := m.vvNew nUBucket
  match ← m.findTerrible chance 0 (bucketOrder vNew) with
  | some nId => m.removeNew nUBucket nId
  | none =>
      let n := (List.range 4).map fun i => chance.getRandInt i vNew.card
      let nOldest ← m.selectNewLoop n 0 (-1) (bucketOrder vNew)
      m.removeNew nUBucket nOldest

/-- Take an entry out of all "new" buckets. -/
def withdraw (nId : Int) (info : CAddrInfo) (m : CAddrMan) : CAddrInfo × CAddrMan :=
  let holding := (Finset.univ.filter fun nB => nId ∈ m.vvNew nB).card
  let info := { info with nRefCount := info.nRefCount - holding }
  (info,
    { m.setInfo nId info with
      vvNew := fun nB => (m.vvNew nB).erase nId
      nNew := m.nNew - 1 })

/-- `MakeTried`. -/
def makeTried (crypto : Crypto) (chance : CallChance) (nId : Int) (info : CAddrInfo)
    (nOrigin : Fin newBucketCount) (m : CAddrMan) : Option CAddrMan :=
  if nId ∉ m.vvNew nOrigin then none
  else
    let (info, m) := m.withdraw nId info
    if info.nRefCount ≠ 0 then none
    else
      let nKBucket := info.getTriedBucket crypto m.nKey
      let vTried := m.vvTried nKBucket
      if vTried.length < triedBucketSize then
        some { m.setInfo nId { info with fInTried := true } with
          vvTried := update m.vvTried nKBucket (vTried ++ [nId])
          nTried := m.nTried + 1 }
      else do
        let (vTried, nPos) ← m.selectTried chance nKBucket
        let nIdOld ← vTried[nPos.toNat]?
        let infoOld ← m.mapInfo.find nIdOld
        let nUBucket := infoOld.getNewBucket crypto m.nKey infoOld.source
        let m := m.setInfo nIdOld { infoOld with fInTried := false, nRefCount := 1 }
        let target := if (m.vvNew nUBucket).card < newBucketSize then nUBucket else nOrigin
        let m := { m with
          vvNew := update m.vvNew target (insert nIdOld (m.vvNew target))
          nNew := m.nNew + 1
          vvTried := update m.vvTried nKBucket (vTried.set nPos.toNat nId) }
        pure (m.setInfo nId { info with fInTried := true })

/-- `Good_`. -/
def good (crypto : Crypto) (chance : CallChance) (addr : CService) (nTime : Int64)
    (m : CAddrMan) : Option CAddrMan :=
  match m.find addr.toCNetAddr with
  | none => some m
  | some (nId, info) =>
      if info.toCService ≠ addr then some m
      else
        let info := { info with
          nLastSuccess := nTime
          nLastTry := nTime
          nTime := UInt32.ofInt nTime.toInt
          nAttempts := 0 }
        let m := m.setInfo nId info
        if info.fInTried then some m
        else
          let nRnd := chance.getRandInt 4 newBucketCount
          match ((List.range newBucketCount).map fun n => Fin.ofNat newBucketCount (n + nRnd)).find?
              fun nB => nId ∈ m.vvNew nB with
          | none => some m
          | some nUBucket => m.makeTried crypto chance nId info nUBucket

/-- Put an entry into the "new" bucket that belongs to its source. -/
def enterNew (crypto : Crypto) (chance : CallChance) (nId : Int) (info : CAddrInfo)
    (source : CNetAddr) (m : CAddrMan) : Option CAddrMan :=
  let nUBucket := info.getNewBucket crypto m.nKey source
  let vNew := m.vvNew nUBucket
  if nId ∈ vNew then some m
  else do
    let m := m.setInfo nId { info with nRefCount := info.nRefCount + 1 }
    let m ← if vNew.card = newBucketSize then m.shrinkNew chance nUBucket else pure m
    pure { m with vvNew := update m.vvNew nUBucket (insert nId (m.vvNew nUBucket)) }

/-- `Add_`, with `fNew`. -/
def add (crypto : Crypto) (chance : CallChance) (addr : CAddress) (source : CNetAddr)
    (nTimePenalty : Int64) (m : CAddrMan) : Option (Bool × CAddrMan) :=
  if !addr.isRoutable then some (false, m)
  else
    match m.find addr.toCNetAddr with
    | some (nId, info) =>
        let info := info.refresh (chance.getAdjustedTime 64) addr nTimePenalty.toInt
        let m := m.setInfo nId info
        if addr.nTime = 0 ∨ (info.nTime ≠ 0 ∧ addr.nTime ≤ info.nTime) then some (false, m)
        else if info.fInTried then some (false, m)
        else if info.nRefCount = newBucketsPerAddress then some (false, m)
        else
          let nFactor := 2 ^ info.nRefCount.toNat
          if 1 < nFactor ∧ chance.getRandInt 4 nFactor ≠ 0 then some (false, m)
          else (m.enterNew crypto chance nId info source).map (false, ·)
    | none => do
        let (nId, info, m) ← m.create addr source
        let info :=
          { info with
            nTime := UInt32.ofInt (max 0 ((info.nTime.toNat : Int) - nTimePenalty.toInt)) }
        let m := { m.setInfo nId info with nNew := m.nNew + 1 }
        (m.enterNew crypto chance nId info source).map (true, ·)

/-- `Attempt_`. -/
def attempt (addr : CService) (nTime : Int64) (m : CAddrMan) : Option CAddrMan :=
  match m.find addr.toCNetAddr with
  | none => some m
  | some (nId, info) =>
      if info.toCService ≠ addr then some m
      else if info.nAttempts.toInt = 2 ^ 31 - 1 then none
      else some (m.setInfo nId { info with nLastTry := nTime, nAttempts := info.nAttempts + 1 })

/-- `Connected_`. -/
def connected (addr : CService) (nTime : Int64) (m : CAddrMan) : CAddrMan :=
  match m.find addr.toCNetAddr with
  | none => m
  | some (nId, info) =>
      if info.toCService ≠ addr then m
      else if 20 * 60 < nTime.toInt - info.nTime.toNat then
        m.setInfo nId { info with nTime := UInt32.ofInt nTime.toInt }
      else m

/-- The loop of `GetAddr_` over `left` positions from `n` on. -/
def getAddrLoop (chance : CallChance) :
    Nat → Nat → List CAddress → CAddrMan → Option (List CAddress × CAddrMan)
  | 0, _, vAddr, m => some (vAddr, m)
  | left + 1, n, vAddr, m => do
      let nRndPos := chance.getRandInt n (m.vRandom.length - n) + n
      let m ← m.swapRandom n nRndPos
      let info ← m.mapInfo.find (← m.vRandom[n]?)
      getAddrLoop chance left (n + 1) (vAddr ++ [info.toCAddress]) m

/-- `GetAddr_`, with the addresses. -/
def getAddr (chance : CallChance) (m : CAddrMan) : Option (List CAddress × CAddrMan) :=
  getAddrLoop chance (min (23 * m.vRandom.length / 100) 2500) 0 [] m

end CAddrMan

end FooCoin

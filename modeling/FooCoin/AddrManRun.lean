import FooCoin.AddrManCheck
import FooCoin.SampleChain

/-!
# Runs of `CAddrMan`

Every operation keeps the invariant, and none of its assertions fails.
-/

namespace FooCoin

open Function

namespace CAddrMan

variable {crypto : Crypto} {m : CAddrMan} {nId : Int} {info : CAddrInfo}

/-! ## Adding an address -/

/-- An entry that is counted for one bucket more enters it. -/
private theorem Sound.enterNew (info : CAddrInfo) {source : CNetAddr} (bounded : m.Bounded)
    (absent : nId ∉ m.vvNew (info.getNewBucket crypto m.nKey source))
    (sound : (m.setInfo nId { info with nRefCount := info.nRefCount + 1 }).Sound crypto (some nId))
    (chance : CallChance) :
    ∃ after, m.enterNew crypto chance nId info source = some after ∧ after.Sound crypto none ∧
      after.Bounded := by
  rw [CAddrMan.enterNew]
  simp only [absent, if_false]
  by_cases full : (m.vvNew (info.getNewBucket crypto m.nKey source)).card = newBucketSize
  · have nonempty : (m.vvNew (info.getNewBucket crypto m.nKey source)).Nonempty :=
      Finset.card_pos.mp (full ▸ by decide)
    have settled : ∀ waiting, some nId = some waiting →
        waiting ∉ m.vvNew (info.getNewBucket crypto m.nKey source) := by
      rintro waiting ⟨⟩
      exact absent
    obtain ⟨other, member, shrunk, shrinks, shrunk_sound, shrunk_new, shrunk_tried⟩ :=
      sound.shrinkNew nonempty settled chance
    have still_absent : nId ∉ shrunk.vvNew (info.getNewBucket crypto m.nKey source) := by
      rw [shrunk_new, update_self]
      exact fun holds => absent (Finset.mem_of_mem_erase holds)
    refine ⟨_, ?_, shrunk_sound.insertNew still_absent, ?_⟩
    · rw [if_pos full, shrinks]
      rfl
    · constructor
      · refine card_update_insert_le (fun nB => ?_) ?_
        · rw [shrunk_new]
          by_cases own : nB = info.getNewBucket crypto m.nKey source
          · subst own
            rw [update_self]
            exact Finset.card_erase_le.trans (bounded.newSize _)
          · rw [update_of_ne own]
            exact bounded.newSize nB
        · rw [shrunk_new, update_self]
          exact (Finset.card_erase_lt_of_mem member).trans_le (bounded.newSize _)
      · intro nK
        rw [shrunk_tried]
        exact bounded.triedSize nK
  · refine ⟨_, ?_, sound.insertNew absent, ?_⟩
    · rw [if_neg full]
      rfl
    · exact ⟨card_update_insert_le bounded.newSize
        (lt_of_le_of_ne (bounded.newSize _) full), bounded.triedSize⟩

/-- An entry is created and counted for its first bucket. -/
private theorem Sound.create (sound : m.Sound crypto none) {addr : CAddress} {addrSource : CNetAddr}
    {after : CAddrMan} (missing : m.find addr.toCNetAddr = none)
    (created : m.create addr addrSource = some (nId, info, after)) (nTime : UInt32) :
    (({ after.setInfo nId { info with nTime } with nNew := after.nNew + 1 } : CAddrMan).setInfo nId
      { info with nTime, nRefCount := info.nRefCount + 1 }).Sound crypto (some nId) := by
  have directory : after.Directory := by
    obtain ⟨-, -, -, rfl⟩ := create_eq_some.mp created
    exact sound.directory.push missing
  have found : after.mapInfo.find nId = some info := by
    obtain ⟨-, rfl, rfl, rfl⟩ := create_eq_some.mp created
    exact find_push_self
  have rewritten : (after.setInfo nId
      { info with nTime, nRefCount := info.nRefCount + 1 }).Directory :=
    directory.setInfo found rfl rfl
  have free := sound.directory.find_nIdCount
  obtain ⟨-, rfl, rfl, rfl⟩ := create_eq_some.mp created
  have unstored : m.nIdCount ∉ m.mapInfo.keys := by
    rw [m.mapInfo.mem_keys, free]
    exact not_not.mpr rfl
  have keep {other : Int} (stored : other ∈ m.mapInfo.keys) (value : CAddrInfo) :
      other ∈ (m.mapInfo.insert m.nIdCount value).keys := Finset.mem_insert_of_mem stored
  simp only [CAddrMan.setInfo, push, OrderedMap.insert_insert] at rewritten ⊢
  constructor
  · exact rewritten.congr rfl rfl rfl rfl
  · intro other value stored
    by_cases same : other = m.nIdCount
    · subst same
      obtain rfl := Option.some.inj (OrderedMap.find_insert_self.symm.trans stored)
      constructor
      · exact le_rfl
      · exact le_rfl
      · intro nK
        simpa [CAddrInfo.ofAddress] using fun member => unstored (sound.triedStored nK _ member)
      · have unheld : holders m.vvNew m.nIdCount = ∅ := by
          ext nB
          simpa using fun member => unstored (sound.newStored nB _ member)
        simp [unheld, CAddrInfo.ofAddress]
      · simp [CAddrInfo.ofAddress, newBucketsPerAddress]
    · rw [OrderedMap.find_insert_of_ne same] at stored
      exact (sound.placed other value stored).frame rfl (fun _ => .rfl) (fun _ => .rfl)
        (by simp [Ne.symm same])
  · rintro other ⟨⟩
    exact Finset.mem_insert_self _ _
  · exact fun nB other member => keep (sound.newStored nB other member) _
  · exact fun nK other member => keep (sound.triedStored nK other member) _
  · exact sound.triedNodup
  · exact sound.nTried_eq
  · have total := sound.total
    simp only [List.length_append, List.length_singleton, Nat.cast_add, Nat.cast_one]
    omega

/-- A new entry below its limit is counted for another bucket. -/
private theorem Sound.count (sound : m.Sound crypto none) (found : m.mapInfo.find nId = some info)
    (untried : info.fInTried = false) (below : info.nRefCount ≠ newBucketsPerAddress) :
    (m.setInfo nId { info with nRefCount := info.nRefCount + 1 }).Sound crypto (some nId) := by
  have placed := sound.placed nId info found
  have references := placed.references
  have limit := placed.limit
  rw [if_neg (by simp [untried])] at limit
  have counted : Placed crypto (some nId) m nId
      { info with nRefCount := info.nRefCount + 1 } := by
    constructor
    · exact placed.lastTry
    · exact placed.lastSuccess
    · exact placed.tried
    · simpa using references
    · rw [if_neg (by simp [untried])]
      change 1 ≤ info.nRefCount + 1 ∧ info.nRefCount + 1 ≤ newBucketsPerAddress
      omega
  refine sound.setInfo found ?_ ?_ counted ?_
  · rfl
  · rfl
  · intro other different
    simp [Ne.symm different]

/-- What `Add_` writes keeps an entry where it is. -/
private theorem Sound.refresh (sound : m.Sound crypto none)
    (found : m.mapInfo.find nId = some info) (nNow : Int) (addr : CAddress) (nTimePenalty : Int) :
    (m.setInfo nId (info.refresh nNow addr nTimePenalty)).Sound crypto none := by
  have placed := sound.placed nId info found
  refine sound.setInfo found ?_ ?_ (placed.retime ?_ ?_ ?_ ?_ ?_ ?_) fun _ _ => .rfl
  all_goals
    simp only [CAddrInfo.refresh]
    split_ifs
  all_goals first
    | rfl
    | exact placed.lastTry
    | exact placed.lastSuccess
    | exact id

/-- `Add_` updates an entry or creates one. -/
theorem Sound.add (sound : m.Sound crypto none) (bounded : m.Bounded) (chance : CallChance)
    (addr : CAddress) (source : CNetAddr) (nTimePenalty : Int64)
    (room : addr.isRoutable = true → m.find addr.toCNetAddr = none → m.nIdCount ≠ 2 ^ 31 - 1) :
    ∃ fNew after, m.add crypto chance addr source nTimePenalty = some (fNew, after) ∧
      after.Sound crypto none ∧ after.Bounded := by
  by_cases routable : addr.isRoutable = true
  · cases found : m.find addr.toCNetAddr with
    | some entry =>
        obtain ⟨nId, info⟩ := entry
        obtain ⟨stored, -⟩ := sound.directory.find_eq_some.mp found
        simp only [CAddrMan.add, routable, found, Bool.not_true, Bool.false_eq_true, if_false]
        have refreshed := sound.refresh stored (chance.getAdjustedTime 64) addr nTimePenalty.toInt
        generalize info.refresh (chance.getAdjustedTime 64) addr nTimePenalty.toInt = new at *
        have bounded : (m.setInfo nId new).Bounded := ⟨bounded.newSize, bounded.triedSize⟩
        split_ifs with no_news inTried limit unlucky
        · exact ⟨_, _, rfl, refreshed, bounded⟩
        · exact ⟨_, _, rfl, refreshed, bounded⟩
        · exact ⟨_, _, rfl, refreshed, bounded⟩
        · exact ⟨_, _, rfl, refreshed, bounded⟩
        · by_cases holds : nId ∈ (m.setInfo nId new).vvNew
              (new.getNewBucket crypto (m.setInfo nId new).nKey source)
          · exact ⟨false, m.setInfo nId new, by simp [CAddrMan.enterNew, holds], refreshed, bounded⟩
          · obtain ⟨after, entered, after_sound, after_bounded⟩ := Sound.enterNew new bounded holds
              (refreshed.count find_setInfo_self (by simpa using inTried) limit) chance
            exact ⟨false, after, by rw [entered]; rfl, after_sound, after_bounded⟩
    | none =>
        have creates : ∃ created, m.create addr source = some created :=
          ⟨_, if_neg (room routable found)⟩
        obtain ⟨⟨nId, info, created⟩, creates⟩ := creates
        have counted := sound.create found creates
          (UInt32.ofInt (max 0 ((info.nTime.toNat : Int) - nTimePenalty.toInt)))
        obtain ⟨same_new, same_tried, unheld⟩ : created.vvNew = m.vvNew ∧
            created.vvTried = m.vvTried ∧ ∀ nB, nId ∉ m.vvNew nB := by
          obtain ⟨-, rfl, -, rfl⟩ := create_eq_some.mp creates
          refine ⟨rfl, rfl, fun nB member => ?_⟩
          obtain ⟨_, stored⟩ := OrderedMap.mem_keys_iff.mp (sound.newStored nB _ member)
          simp [sound.directory.find_nIdCount] at stored
        simp only [CAddrMan.add, routable, found, creates, Bool.not_true, Bool.false_eq_true,
          if_false, Option.bind_eq_bind, Option.bind_some]
        have created_bounded : ({ created.setInfo nId { info with
            nTime := UInt32.ofInt (max 0 ((info.nTime.toNat : Int) - nTimePenalty.toInt)) } with
          nNew := created.nNew + 1 } : CAddrMan).Bounded := by
          constructor
          · exact fun nB => congrFun same_new nB ▸ bounded.newSize nB
          · exact fun nK => congrFun same_tried nK ▸ bounded.triedSize nK
        obtain ⟨after, entered, after_sound, after_bounded⟩ :=
          Sound.enterNew { info with
              nTime := UInt32.ofInt (max 0 ((info.nTime.toNat : Int) - nTimePenalty.toInt)) }
            created_bounded (congrFun same_new _ ▸ unheld _) counted chance
        exact ⟨true, after, by rw [entered]; rfl, after_sound, after_bounded⟩
  · exact ⟨false, m, by simp [CAddrMan.add, routable], sound, bounded⟩

/-! ## The other operations -/

/-- An entry gets new times and attempts. -/
private theorem Sound.retime (sound : m.Sound crypto none) (found : m.mapInfo.find nId = some info)
    {new : CAddrInfo} (same_service : new.toCService = info.toCService)
    (same_pos : new.nRandomPos = info.nRandomPos) (same_refs : new.nRefCount = info.nRefCount)
    (same_tried : new.fInTried = info.fInTried) (lastTry : 0 ≤ new.nLastTry.toInt)
    (lastSuccess : 0 ≤ new.nLastSuccess.toInt)
    (nonzero : info.nLastSuccess ≠ 0 → new.nLastSuccess ≠ 0) :
    (m.setInfo nId new).Sound crypto none :=
  sound.setInfo found (congrArg CService.toCNetAddr same_service) same_pos
    ((sound.placed nId info found).retime same_service same_refs same_tried lastTry lastSuccess
      nonzero) fun _ _ => .rfl

/-- `Good_` may move an entry to a tried bucket. -/
theorem Sound.good (sound : m.Sound crypto none) (bounded : m.Bounded) (chance : CallChance)
    (addr : CService) {nTime : Int64} (positive : 0 < nTime) :
    ∃ after, m.good crypto chance addr nTime = some after ∧ after.Sound crypto none ∧
      after.Bounded := by
  have positive' : 0 < nTime.toInt := Int64.lt_iff_toInt_lt.mp positive
  have nonzero : nTime ≠ 0 := by
    rintro rfl
    exact absurd positive (by decide)
  simp only [CAddrMan.good]
  cases found : m.find addr.toCNetAddr with
  | none => exact ⟨m, rfl, sound, bounded⟩
  | some entry =>
      obtain ⟨nId, info⟩ := entry
      obtain ⟨stored, -⟩ := sound.directory.find_eq_some.mp found
      have updated : (m.setInfo nId { info with
          nLastSuccess := nTime
          nLastTry := nTime
          nTime := UInt32.ofInt nTime.toInt
          nAttempts := 0 }).Sound crypto none := by
        refine sound.retime stored ?_ ?_ ?_ ?_ positive'.le positive'.le fun _ => nonzero
        all_goals rfl
      have updated_bounded : (m.setInfo nId { info with
          nLastSuccess := nTime
          nLastTry := nTime
          nTime := UInt32.ofInt nTime.toInt
          nAttempts := 0 }).Bounded := ⟨bounded.newSize, bounded.triedSize⟩
      simp only
      split
      · exact ⟨m, rfl, sound, bounded⟩
      · split
        · exact ⟨_, rfl, updated, updated_bounded⟩
        · split
          · exact ⟨_, rfl, updated, updated_bounded⟩
          · rename_i nUBucket searched
            have member := List.find?_some searched
            exact updated.makeTried updated_bounded find_setInfo_self (by simpa using member)
              nonzero chance

/-- `Attempt_` counts an attempt. -/
theorem Sound.attempt (sound : m.Sound crypto none) (bounded : m.Bounded) (addr : CService)
    {nTime : Int64} (positive : 0 < nTime)
    (room : ∀ nId info, m.find addr.toCNetAddr = some (nId, info) → info.toCService = addr →
      info.nAttempts.toInt ≠ 2 ^ 31 - 1) :
    ∃ after, m.attempt addr nTime = some after ∧ after.Sound crypto none ∧ after.Bounded := by
  have positive' : 0 < nTime.toInt := Int64.lt_iff_toInt_lt.mp positive
  simp only [CAddrMan.attempt]
  cases found : m.find addr.toCNetAddr with
  | none => exact ⟨m, rfl, sound, bounded⟩
  | some entry =>
      obtain ⟨nId, info⟩ := entry
      obtain ⟨stored, -⟩ := sound.directory.find_eq_some.mp found
      by_cases same : info.toCService = addr
      · simp only [if_neg (not_not.mpr same), if_neg (room nId info found same)]
        refine ⟨_, rfl, ?_, ⟨bounded.newSize, bounded.triedSize⟩⟩
        refine sound.retime stored ?_ ?_ ?_ ?_ positive'.le
          (sound.placed nId info stored).lastSuccess id
        all_goals rfl
      · exact ⟨m, by simp [same], sound, bounded⟩

/-- `Connected_` updates a time. -/
theorem Sound.connected (sound : m.Sound crypto none) (bounded : m.Bounded) (addr : CService)
    (nTime : Int64) :
    (m.connected addr nTime).Sound crypto none ∧ (m.connected addr nTime).Bounded := by
  simp only [CAddrMan.connected]
  cases found : m.find addr.toCNetAddr with
  | none => exact ⟨sound, bounded⟩
  | some entry =>
      obtain ⟨nId, info⟩ := entry
      obtain ⟨stored, -⟩ := sound.directory.find_eq_some.mp found
      have placed := sound.placed nId info stored
      simp only
      split_ifs
      · exact ⟨sound, bounded⟩
      · refine ⟨?_, ⟨bounded.newSize, bounded.triedSize⟩⟩
        refine sound.retime stored ?_ ?_ ?_ ?_ placed.lastTry placed.lastSuccess id
        all_goals rfl
      · exact ⟨sound, bounded⟩

/-- Two entries change places. -/
private theorem Sound.swapRandom (sound : m.Sound crypto none) {first second : Nat}
    (small1 : first < m.vRandom.length) (small2 : second < m.vRandom.length) :
    ∃ after, m.swapRandom first second = some after ∧ after.Sound crypto none ∧
      after.vvNew = m.vvNew ∧ after.vvTried = m.vvTried ∧
      after.vRandom.length = m.vRandom.length := by
  obtain ⟨mapInfo, swapped, directory, same⟩ := sound.directory.swapRandom
    (List.getElem?_eq_getElem small1) (List.getElem?_eq_getElem small2)
  refine ⟨_, swapped, ?_, rfl, rfl, by simp⟩
  constructor
  · exact directory
  · intro nId info stored
    obtain ⟨pos, before⟩ := same.backward nId info stored
    exact ((sound.placed nId _ before).reposition info.nRandomPos).frame rfl (fun _ => .rfl)
      (fun _ => .rfl) .rfl
  · simp
  · exact fun nB nId member => same.keys_eq ▸ sound.newStored nB nId member
  · exact fun nK nId member => same.keys_eq ▸ sound.triedStored nK nId member
  · exact sound.triedNodup
  · exact sound.nTried_eq
  · simpa using sound.total

/-- The loop of `GetAddr_` swaps positions of `vRandom`. -/
private theorem Sound.getAddrLoop (sound : m.Sound crypto none) (bounded : m.Bounded)
    (chance : CallChance) {left n : Nat} (within : n + left ≤ m.vRandom.length)
    (vAddr : List CAddress) :
    ∃ found after, CAddrMan.getAddrLoop chance left n vAddr m = some (found, after) ∧
      after.Sound crypto none ∧ after.Bounded := by
  induction left generalizing n vAddr m with
  | zero => exact ⟨vAddr, m, rfl, sound, bounded⟩
  | succ left induction =>
      have drawn := chance.getRandInt_lt n (m.vRandom.length - n) (by omega)
      have small : chance.getRandInt n (m.vRandom.length - n) + n < m.vRandom.length := by omega
      obtain ⟨middle, swapped, middle_sound, same_new, same_tried, same_length⟩ :=
        sound.swapRandom (by omega : n < m.vRandom.length) small
      have listed : n < middle.vRandom.length := by omega
      obtain ⟨info, stored, -⟩ :=
        middle_sound.directory.random n _ (List.getElem?_eq_getElem listed)
      have middle_bounded : middle.Bounded :=
        ⟨same_new ▸ bounded.newSize, same_tried ▸ bounded.triedSize⟩
      obtain ⟨found, after, rest, facts⟩ := induction middle_sound middle_bounded (n := n + 1)
        (by omega) (vAddr ++ [info.toCAddress])
      refine ⟨found, after, ?_, facts⟩
      rw [CAddrMan.getAddrLoop, swapped]
      simp only [Option.bind_eq_bind, Option.bind_some, List.getElem?_eq_getElem listed, stored]
      exact rest

/-- `GetAddr_` shuffles `vRandom`. -/
theorem Sound.getAddr (sound : m.Sound crypto none) (bounded : m.Bounded) (chance : CallChance) :
    ∃ vAddr after, m.getAddr chance = some (vAddr, after) ∧ after.Sound crypto none ∧
      after.Bounded :=
  sound.getAddrLoop bounded chance (by omega) []

end CAddrMan

/-! ## Runs -/

/-- A call of the address manager, with the chance that it finds. -/
inductive AddrManCall
  | add (chance : CallChance) (addr : CAddress) (source : CNetAddr) (nTimePenalty : Int64)
  | good (chance : CallChance) (addr : CService) (nTime : Int64)
  | attempt (addr : CService) (nTime : Int64)
  | connected (addr : CService) (nTime : Int64)
  | getAddr (chance : CallChance)

/-- The times of the call are positive. -/
def AddrManCall.Valid : AddrManCall → Prop
  | .good _ _ nTime => 0 < nTime
  | .attempt _ nTime => 0 < nTime
  | .connected _ nTime => 0 < nTime
  | _ => True

namespace CAddrMan

/-- Run a call. -/
def step (crypto : Crypto) (m : CAddrMan) : AddrManCall → Option CAddrMan
  | .add chance addr source nTimePenalty =>
      (m.add crypto chance addr source nTimePenalty).map Prod.snd
  | .good chance addr nTime => m.good crypto chance addr nTime
  | .attempt addr nTime => m.attempt addr nTime
  | .connected addr nTime => some (m.connected addr nTime)
  | .getAddr chance => (m.getAddr chance).map Prod.snd

end CAddrMan

/-- The call does not overflow the `int` of the next id or of the attempts. -/
def AddrManCall.Fits (m : CAddrMan) : AddrManCall → Prop
  | .add _ addr _ _ =>
      addr.isRoutable = true → m.find addr.toCNetAddr = none → m.nIdCount ≠ 2 ^ 31 - 1
  | .attempt addr _ => ∀ nId info, m.find addr.toCNetAddr = some (nId, info) →
      info.toCService = addr → info.nAttempts.toInt ≠ 2 ^ 31 - 1
  | _ => True

/-- The managers that sequences of calls on an empty one reach. -/
inductive AddrManRun (crypto : Crypto) : CAddrMan → Prop
  | init (nKey : Vector UInt8 32) : AddrManRun crypto (.init nKey)
  | step {m after : CAddrMan} {call : AddrManCall} : AddrManRun crypto m → call.Valid →
      m.step crypto call = some after → AddrManRun crypto after

variable {crypto : Crypto} {m : CAddrMan}

/-- A call on a sound manager ends in a sound one, if it does not overflow. -/
theorem CAddrMan.Sound.step (sound : m.Sound crypto none) (bounded : m.Bounded)
    {call : AddrManCall} (valid : call.Valid) (fits : call.Fits m) :
    ∃ after, m.step crypto call = some after ∧ after.Sound crypto none ∧ after.Bounded := by
  cases call with
  | add chance addr source nTimePenalty =>
      obtain ⟨fNew, after, added, facts⟩ := sound.add bounded chance addr source nTimePenalty fits
      exact ⟨after, by rw [CAddrMan.step, added]; rfl, facts⟩
  | good chance addr nTime => exact sound.good bounded chance addr valid
  | attempt addr nTime => exact sound.attempt bounded addr valid fits
  | connected addr nTime => exact ⟨_, rfl, sound.connected bounded addr nTime⟩
  | getAddr chance =>
      obtain ⟨vAddr, after, found, facts⟩ := sound.getAddr bounded chance
      exact ⟨after, by rw [CAddrMan.step, found]; rfl, facts⟩

/-- A call with a result did not overflow. -/
theorem AddrManCall.fits_of_step {call : AddrManCall} {after : CAddrMan}
    (runs : m.step crypto call = some after) : call.Fits m := by
  cases call with
  | add chance addr source nTimePenalty =>
      intro routable missing last
      simp [CAddrMan.step, CAddrMan.add, routable, missing, CAddrMan.create, last] at runs
  | attempt addr nTime =>
      intro nId info found same last
      simp [CAddrMan.step, CAddrMan.attempt, found, same, last] at runs
  | _ => trivial

/-- An empty manager is sound. -/
theorem CAddrMan.sound_init (nKey : Vector UInt8 32) :
    (CAddrMan.init nKey).Sound crypto none ∧ (CAddrMan.init nKey).Bounded := by
  refine ⟨⟨⟨?_, ?_, ?_, ?_, ?_⟩, ?_, ?_, ?_, ?_, ?_, ?_, ?_⟩, ⟨?_, ?_⟩⟩ <;> simp [CAddrMan.init]

/-- Every manager of the runs is sound. -/
theorem AddrManRun.sound (run : AddrManRun crypto m) : m.Sound crypto none ∧ m.Bounded := by
  induction run with
  | init nKey => exact CAddrMan.sound_init nKey
  | step _ valid runs induction =>
      obtain ⟨after, result, facts⟩ :=
        induction.1.step induction.2 valid (AddrManCall.fits_of_step runs)
      obtain rfl := Option.some.inj (runs.symm.trans result)
      exact facts

/-- A chance that always draws zero. -/
def sampleChance : CallChance where
  getRandInt _ _ := 0
  getRandInt_lt _ _ positive := positive
  getAdjustedTime _ := 1400000000

/-- A peer at a routable address. -/
def samplePeer : CAddress where
  ip := #v[0, 0, 0, 0, 0, 0, 0, 0, 0, 0, 0xff, 0xff, 8, 8, 4, 4]
  port := 8333
  nServices := 1
  nTime := 1400000000
  nLastTry := 0

/-- The manager that has added a peer and had a good connection to it. -/
def sampleAddrMan : Option CAddrMan := do
  let m ← (CAddrMan.init (.replicate 32 0)).step sampleCrypto
    (.add sampleChance samplePeer samplePeer.toCNetAddr 0)
  m.step sampleCrypto (.good sampleChance samplePeer.toCService 1400000000)

theorem sampleAddrMan_run : ∃ m, sampleAddrMan = some m ∧ AddrManRun sampleCrypto m := by
  have reached : sampleAddrMan.isSome = true := by decide +kernel
  obtain ⟨m, result⟩ := Option.isSome_iff_exists.mp reached
  have calls := result
  rw [sampleAddrMan, Option.bind_eq_bind, Option.bind_eq_some_iff] at calls
  obtain ⟨added, first, second⟩ := calls
  have valid : (AddrManCall.good sampleChance samplePeer.toCService 1400000000).Valid := by
    change (0 : Int64) < 1400000000
    decide
  have add_valid :
      (AddrManCall.add sampleChance samplePeer samplePeer.toCNetAddr 0).Valid := trivial
  have added_run : AddrManRun sampleCrypto added := .step (.init _) add_valid first
  exact ⟨m, result, added_run.step valid second⟩

/-- After every sequence of calls `Check_` passes, the structures agree, no bucket exceeds its size
and the number of addresses is bounded.  No assertion of the next call fails. -/
theorem addrMan_consistent_of_run (run : AddrManRun crypto m) :
    m.check_ = 0 ∧ m.Consistent ∧ m.Bounded ∧
      m.mapInfo.keys.card ≤
        newBucketCount * newBucketSize + triedBucketCount * triedBucketSize ∧
      ∀ call : AddrManCall, call.Valid → call.Fits m → ∃ after, m.step crypto call = some after := by
  obtain ⟨sound, bounded⟩ := run.sound
  refine ⟨sound.check_eq_zero, sound.consistent, bounded, ?_, fun call valid fits => ?_⟩
  · rw [sound.directory.card_keys]
    exact sound.length_vRandom_le bounded
  · obtain ⟨after, runs, -⟩ := sound.step bounded valid fits
    exact ⟨after, runs⟩

theorem addrMan_consistent_of_run_sample : ∃ m, sampleAddrMan = some m ∧ m.check_ = 0 ∧
    m.Consistent ∧ m.Bounded ∧ m.mapInfo.keys.card ≤ 20480 := by
  obtain ⟨m, result, run⟩ := sampleAddrMan_run
  obtain ⟨checked, consistent, bounded, card_le, -⟩ := addrMan_consistent_of_run run
  exact ⟨m, result, checked, consistent, bounded, card_le⟩

end FooCoin

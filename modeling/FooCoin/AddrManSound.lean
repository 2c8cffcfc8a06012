import FooCoin.AddrManIndex

/-!
# The buckets of `CAddrMan`

The invariant of the operations.  Every tried entry is in its own tried bucket and in no new one,
every other entry is counted for each new bucket that holds it.  In the middle of `Add_` one entry is
counted for a bucket that it has not entered yet.
-/

namespace FooCoin

open Function

namespace CAddrMan

/-- The "new" buckets that hold an id. -/
def holders (vvNew : Fin newBucketCount → Finset Int) (nId : Int) : Finset (Fin newBucketCount) :=
  Finset.univ.filter fun nB => nId ∈ vvNew nB

section Holders

variable {vvNew : Fin newBucketCount → Finset Int} {nId other : Int} {nB : Fin newBucketCount}

@[simp]
theorem mem_holders : nB ∈ holders vvNew nId ↔ nId ∈ vvNew nB := by
  simp [holders]

theorem holders_erase :
    holders (update vvNew nB ((vvNew nB).erase nId)) nId = (holders vvNew nId).erase nB := by
  ext bucket
  by_cases same : bucket = nB
  · simp [same]
  · simp [same]

theorem holders_insert :
    holders (update vvNew nB (insert nId (vvNew nB))) nId = insert nB (holders vvNew nId) := by
  ext bucket
  by_cases same : bucket = nB
  · simp [same]
  · simp [same]

theorem mem_update_erase_of_ne (different : other ≠ nId) (bucket : Fin newBucketCount) :
    other ∈ update vvNew nB ((vvNew nB).erase nId) bucket ↔ other ∈ vvNew bucket := by
  by_cases same : bucket = nB
  · subst same
    simp [different]
  · simp [same]

theorem card_update_insert_le (sizes : ∀ bucket, (vvNew bucket).card ≤ newBucketSize)
    (room : (vvNew nB).card < newBucketSize) (bucket : Fin newBucketCount) :
    (update vvNew nB (insert nId (vvNew nB)) bucket).card ≤ newBucketSize := by
  by_cases same : bucket = nB
  · subst same
    rw [update_self]
    exact (Finset.card_insert_le ..).trans room
  · rw [update_of_ne same]
    exact sizes bucket

theorem mem_update_insert_of_ne (different : other ≠ nId) (bucket : Fin newBucketCount) :
    other ∈ update vvNew nB (insert nId (vvNew nB)) bucket ↔ other ∈ vvNew bucket := by
  by_cases same : bucket = nB
  · subst same
    simp [different]
  · simp [same]

end Holders

/-- Where an entry lives.  The pending id is counted for one bucket more than hold it. -/
structure Placed (crypto : Crypto) (pending : Option Int) (m : CAddrMan) (nId : Int)
    (info : CAddrInfo) : Prop where
  lastTry : 0 ≤ info.nLastTry.toInt
  lastSuccess : 0 ≤ info.nLastSuccess.toInt
  tried : ∀ nK, nId ∈ m.vvTried nK ↔
    info.fInTried = true ∧ nK = info.getTriedBucket crypto m.nKey
  references : info.nRefCount =
    (holders m.vvNew nId).card + if pending = some nId then 1 else 0
  limit : if info.fInTried then info.nRefCount = 0 ∧ info.nLastSuccess ≠ 0
    else 1 ≤ info.nRefCount ∧ info.nRefCount ≤ newBucketsPerAddress

/-- The invariant of the operations. -/
structure Sound (crypto : Crypto) (pending : Option Int) (m : CAddrMan) : Prop where
  directory : m.Directory
  placed : ∀ nId info, m.mapInfo.find nId = some info → Placed crypto pending m nId info
  pendingStored : ∀ nId, pending = some nId → nId ∈ m.mapInfo.keys
  newStored : ∀ nB, ∀ nId ∈ m.vvNew nB, nId ∈ m.mapInfo.keys
  triedStored : ∀ nK, ∀ nId ∈ m.vvTried nK, nId ∈ m.mapInfo.keys
  triedNodup : ∀ nK, (m.vvTried nK).Nodup
  nTried_eq : m.nTried = ∑ nK, ((m.vvTried nK).length : Int)
  total : m.nTried + m.nNew = m.vRandom.length

/-- No bucket exceeds its size limit. -/
structure Bounded (m : CAddrMan) : Prop where
  newSize : ∀ nB, (m.vvNew nB).card ≤ newBucketSize
  triedSize : ∀ nK, (m.vvTried nK).length ≤ triedBucketSize

variable {crypto : Crypto} {pending : Option Int} {m after : CAddrMan} {nId : Int}
  {info : CAddrInfo} {nUBucket : Fin newBucketCount}

/-- An entry stays placed where the buckets treat it as before. -/
theorem Placed.frame {pending' : Option Int} (placed : Placed crypto pending m nId info)
    (same_key : after.nKey = m.nKey)
    (same_new : ∀ nB, nId ∈ after.vvNew nB ↔ nId ∈ m.vvNew nB)
    (same_tried : ∀ nK, nId ∈ after.vvTried nK ↔ nId ∈ m.vvTried nK)
    (same_pending : pending' = some nId ↔ pending = some nId) :
    Placed crypto pending' after nId info := by
  constructor
  · exact placed.lastTry
  · exact placed.lastSuccess
  · intro nK
    rw [same_tried, placed.tried, same_key]
  · have same_holders : holders after.vvNew nId = holders m.vvNew nId := by
      ext nB
      simp [same_new]
    simp only [placed.references, same_holders, same_pending]
  · exact placed.limit

/-- The position of an entry says nothing about its place. -/
theorem Placed.reposition (placed : Placed crypto pending m nId info) (pos : Int) :
    Placed crypto pending m nId { info with nRandomPos := pos } :=
  ⟨placed.lastTry, placed.lastSuccess, placed.tried, placed.references, placed.limit⟩

/-- Times, services and attempts of an entry may change. -/
theorem Placed.retime (placed : Placed crypto pending m nId info) {new : CAddrInfo}
    (same_service : new.toCService = info.toCService) (same_refs : new.nRefCount = info.nRefCount)
    (same_tried : new.fInTried = info.fInTried) (lastTry : 0 ≤ new.nLastTry.toInt)
    (lastSuccess : 0 ≤ new.nLastSuccess.toInt)
    (nonzero : info.nLastSuccess ≠ 0 → new.nLastSuccess ≠ 0) :
    Placed crypto pending m nId new := by
  have same_bucket : new.getTriedBucket crypto m.nKey = info.getTriedBucket crypto m.nKey := by
    simp only [CAddrInfo.getTriedBucket, same_service]
  constructor
  · exact lastTry
  · exact lastSuccess
  · intro nK
    rw [placed.tried, same_tried, same_bucket]
  · rw [same_refs, placed.references]
  · have limit := placed.limit
    rw [same_tried, same_refs]
    split_ifs at limit ⊢ with inTried
    · exact ⟨limit.1, nonzero limit.2⟩
    · exact limit

/-- An entry in a "new" bucket is not tried. -/
theorem Placed.not_tried_of_mem (placed : Placed crypto pending m nId info)
    (member : nId ∈ m.vvNew nUBucket) : info.fInTried = false := by
  by_contra inTried
  have limit := placed.limit
  rw [if_pos (Bool.not_eq_false _ ▸ inTried)] at limit
  have held : 0 < (holders m.vvNew nId).card :=
    Finset.card_pos.mpr ⟨nUBucket, mem_holders.mpr member⟩
  have references := placed.references
  split at references <;> omega

/-- A stored entry is rewritten. -/
theorem Sound.setInfo (sound : m.Sound crypto pending) {new : CAddrInfo}
    (found : m.mapInfo.find nId = some info) (same_addr : new.toCNetAddr = info.toCNetAddr)
    (same_pos : new.nRandomPos = info.nRandomPos) {pending' : Option Int}
    (placed : Placed crypto pending' m nId new)
    (same_pending : ∀ other, other ≠ nId → (pending' = some other ↔ pending = some other)) :
    (m.setInfo nId new).Sound crypto pending' := by
  have keys_eq : (m.setInfo nId new).mapInfo.keys = m.mapInfo.keys :=
    Finset.insert_eq_of_mem (OrderedMap.mem_keys_iff.mpr ⟨info, found⟩)
  constructor
  · exact sound.directory.setInfo found same_addr same_pos
  · intro other value written
    by_cases same : other = nId
    · subst same
      rw [find_setInfo_self, Option.some.injEq] at written
      exact written ▸ ⟨placed.lastTry, placed.lastSuccess, placed.tried, placed.references,
        placed.limit⟩
    · rw [find_setInfo_of_ne same] at written
      exact (sound.placed other value written).frame rfl (fun _ => .rfl) (fun _ => .rfl)
        (same_pending other same)
  · intro other waits
    rw [keys_eq]
    by_cases same : other = nId
    · exact same ▸ OrderedMap.mem_keys_iff.mpr ⟨info, found⟩
    · exact sound.pendingStored other ((same_pending other same).mp waits)
  · exact fun nB other member => keys_eq ▸ sound.newStored nB other member
  · exact fun nK other member => keys_eq ▸ sound.triedStored nK other member
  · exact sound.triedNodup
  · exact sound.nTried_eq
  · exact sound.total

/-! ## Taking an entry out of a "new" bucket -/

theorem Directory.congr (directory : m.Directory) (same_count : after.nIdCount = m.nIdCount)
    (same_info : after.mapInfo = m.mapInfo) (same_addr : after.mapAddr = m.mapAddr)
    (same_random : after.vRandom = m.vRandom) : after.Directory := by
  constructor
  · rw [same_count]
    exact directory.nonneg
  · rw [same_count, same_info]
    exact directory.range
  · rw [same_info, same_addr]
    exact directory.addr
  · rw [same_info, same_random]
    exact directory.random
  · rw [same_info, same_random]
    exact directory.position

/-- An entry that is in another bucket, too, stays in the manager. -/
private theorem Sound.eraseNew (sound : m.Sound crypto pending)
    (member : nId ∈ m.vvNew nUBucket) (found : m.mapInfo.find nId = some info)
    (settled : pending ≠ some nId) (shared : info.nRefCount - 1 ≠ 0) :
    ({ m.setInfo nId { info with nRefCount := info.nRefCount - 1 } with
      vvNew := update m.vvNew nUBucket ((m.vvNew nUBucket).erase nId) } : CAddrMan).Sound crypto
        pending := by
  have placed := sound.placed nId info found
  have untried := placed.not_tried_of_mem member
  have limit := placed.limit
  have references := placed.references
  rw [if_neg (by simp [untried])] at limit
  rw [if_neg settled] at references
  have keys_eq : (m.setInfo nId { info with nRefCount := info.nRefCount - 1 }).mapInfo.keys =
      m.mapInfo.keys :=
    Finset.insert_eq_of_mem (OrderedMap.mem_keys_iff.mpr ⟨info, found⟩)
  have directory : (m.setInfo nId { info with nRefCount := info.nRefCount - 1 }).Directory :=
    sound.directory.setInfo found rfl rfl
  constructor
  · exact directory.congr rfl rfl rfl rfl
  · intro other value written
    by_cases same : other = nId
    · subst same
      obtain rfl := Option.some.inj (find_setInfo_self.symm.trans written)
      constructor
      · exact placed.lastTry
      · exact placed.lastSuccess
      · exact placed.tried
      · have held : 0 < (holders m.vvNew other).card :=
          Finset.card_pos.mpr ⟨nUBucket, mem_holders.mpr member⟩
        simp only [if_neg settled, holders_erase,
          Finset.card_erase_of_mem (mem_holders.mpr member), references]
        omega
      · rw [if_neg (by simp [untried])]
        change 1 ≤ info.nRefCount - 1 ∧ info.nRefCount - 1 ≤ newBucketsPerAddress
        omega
    · exact (sound.placed other value ((find_setInfo_of_ne same).symm.trans written)).frame rfl
        (mem_update_erase_of_ne same) (fun _ => .rfl) .rfl
  · exact fun other waits => keys_eq ▸ sound.pendingStored other waits
  · intro nB other member
    refine keys_eq ▸ ?_
    by_cases same : other = nId
    · exact same ▸ OrderedMap.mem_keys_iff.mpr ⟨info, found⟩
    · exact sound.newStored nB other ((mem_update_erase_of_ne same nB).mp member)
  · exact fun nK other member => keys_eq ▸ sound.triedStored nK other member
  · exact sound.triedNodup
  · exact sound.nTried_eq
  · exact sound.total

/-- An entry that is in no other bucket leaves the manager. -/
private theorem Sound.eraseLast (sound : m.Sound crypto pending)
    (member : nId ∈ m.vvNew nUBucket) (found : m.mapInfo.find nId = some info)
    (settled : pending ≠ some nId) (last : info.nRefCount - 1 = 0)
    {mapInfo : OrderedMap Int CAddrInfo} {vRandom : List Int}
    (same_length : vRandom.length = m.vRandom.length)
    (same : Repositioned (m.setInfo nId { info with nRefCount := info.nRefCount - 1 }).mapInfo
      mapInfo)
    (directory : ({ m with
      mapInfo := mapInfo.erase nId
      mapAddr := update m.mapAddr info.toCNetAddr none
      vRandom := vRandom.dropLast } : CAddrMan).Directory) :
    ({ m with
      mapInfo := mapInfo.erase nId
      mapAddr := update m.mapAddr info.toCNetAddr none
      vRandom := vRandom.dropLast
      nNew := m.nNew - 1
      vvNew := update m.vvNew nUBucket ((m.vvNew nUBucket).erase nId) } : CAddrMan).Sound crypto
        pending := by
  have placed := sound.placed nId info found
  have untried := placed.not_tried_of_mem member
  have references := placed.references
  rw [if_neg settled] at references
  have only {nB : Fin newBucketCount} (holds : nId ∈ m.vvNew nB) : nB = nUBucket := by
    have one : (holders m.vvNew nId).card ≤ 1 := by omega
    exact Finset.card_le_one.mp one nB (mem_holders.mpr holds) nUBucket (mem_holders.mpr member)
  have keep {other : Int} (different : other ≠ nId) (stored : other ∈ m.mapInfo.keys) :
      other ∈ (mapInfo.erase nId).keys := by
    refine Finset.mem_erase.mpr ⟨different, ?_⟩
    rw [same.keys_eq]
    exact Finset.mem_insert_of_mem stored
  constructor
  · exact directory.congr rfl rfl rfl rfl
  · intro other value stored
    have different : other ≠ nId := by
      rintro rfl
      simp at stored
    rw [OrderedMap.find_erase_of_ne different] at stored
    obtain ⟨pos, before⟩ := same.backward other value stored
    rw [find_setInfo_of_ne different] at before
    exact ((sound.placed other _ before).reposition value.nRandomPos).frame rfl
      (mem_update_erase_of_ne different) (fun _ => .rfl) .rfl
  · intro other waits
    refine keep ?_ (sound.pendingStored other waits)
    rintro rfl
    exact settled waits
  · intro nB other holds
    have different : other ≠ nId := by
      rintro rfl
      by_cases own : nB = nUBucket
      · simp [own] at holds
      · exact own (only (by simpa [own] using holds))
    exact keep different (sound.newStored nB other ((mem_update_erase_of_ne different nB).mp holds))
  · intro nK other holds
    refine keep ?_ (sound.triedStored nK other holds)
    rintro rfl
    simp [(placed.tried nK).mp holds] at untried
  · exact sound.triedNodup
  · exact sound.nTried_eq
  · have total := sound.total
    obtain ⟨pos, -, listed⟩ := sound.directory.position nId info found
    have small := (List.getElem?_eq_some_iff.mp listed).1
    simp only [List.length_dropLast, same_length]
    omega

/-- An entry that is not pending leaves a "new" bucket. -/
theorem Sound.removeNew (sound : m.Sound crypto pending) (member : nId ∈ m.vvNew nUBucket)
    (settled : pending ≠ some nId) :
    ∃ after, m.removeNew nUBucket nId = some after ∧ after.Sound crypto pending ∧
      after.vvNew = update m.vvNew nUBucket ((m.vvNew nUBucket).erase nId) ∧
      after.vvTried = m.vvTried := by
  obtain ⟨info, found⟩ := OrderedMap.mem_keys_iff.mp (sound.newStored nUBucket nId member)
  by_cases last : info.nRefCount - 1 = 0
  · have counted : (m.setInfo nId { info with nRefCount := info.nRefCount - 1 }).Directory :=
      sound.directory.setInfo found rfl rfl
    obtain ⟨mapInfo, vRandom, swapped, same_length, same, directory⟩ :=
      counted.delete find_setInfo_self
    have removed := sound.eraseLast member found settled last same_length same
      (directory.congr rfl rfl rfl rfl)
    refine ⟨_, ?_, removed, rfl, rfl⟩
    simp only [CAddrMan.removeNew, found, last, Option.bind_eq_bind, Option.bind_some, if_true]
    rw [last] at swapped
    erw [swapped]
    rfl
  · refine ⟨_, ?_, sound.eraseNew member found settled last, rfl, rfl⟩
    simp only [CAddrMan.removeNew, found, last, Option.bind_eq_bind, Option.bind_some, if_false,
      Option.pure_def]
    rfl

/-! ## Putting an entry into a "new" bucket -/

/-- The pending entry enters the bucket that it was counted for. -/
theorem Sound.insertNew (sound : m.Sound crypto (some nId)) (absent : nId ∉ m.vvNew nUBucket) :
    ({ m with vvNew := update m.vvNew nUBucket (insert nId (m.vvNew nUBucket)) } :
      CAddrMan).Sound crypto none := by
  constructor
  · exact sound.directory.congr rfl rfl rfl rfl
  · intro other value stored
    have placed := sound.placed other value stored
    by_cases same : other = nId
    · subst same
      constructor
      · exact placed.lastTry
      · exact placed.lastSuccess
      · exact placed.tried
      · have references := placed.references
        rw [if_pos rfl] at references
        simp only [holders_insert, reduceCtorEq, if_false, references,
          Finset.card_insert_of_notMem (mem_holders.not.mpr absent)]
        omega
      · exact placed.limit
    · exact placed.frame rfl (mem_update_insert_of_ne same) (fun _ => .rfl)
        (by simp [Ne.symm same])
  · simp
  · intro nB other member
    by_cases same : other = nId
    · exact same ▸ sound.pendingStored nId rfl
    · exact sound.newStored nB other ((mem_update_insert_of_ne same nB).mp member)
  · exact sound.triedStored
  · exact sound.triedNodup
  · exact sound.nTried_eq
  · exact sound.total

/-- The search for a terrible entry gives one of the entries or none. -/
private theorem findTerrible_eq (chance : CallChance) (i : Nat) (nIds : List Int)
    (stored : ∀ nId ∈ nIds, nId ∈ m.mapInfo.keys) :
    ∃ result, m.findTerrible chance i nIds = some result ∧ ∀ nId, result = some nId → nId ∈ nIds := by
  induction nIds generalizing i with
  | nil => exact ⟨none, rfl, by simp⟩
  | cons nId nIds induction =>
      obtain ⟨info, found⟩ := OrderedMap.mem_keys_iff.mp (stored nId List.mem_cons_self)
      by_cases terrible : info.isTerrible (chance.getAdjustedTime i) = true
      · refine ⟨some nId, ?_, by simp⟩
        simp [CAddrMan.findTerrible, found, terrible]
      · obtain ⟨result, searched, member⟩ :=
          induction (i + 1) fun other later => stored other (List.mem_cons_of_mem nId later)
        refine ⟨result, ?_, fun other same => List.mem_cons_of_mem nId (member other same)⟩
        simp [CAddrMan.findTerrible, found, terrible, searched]

/-- The comparison has a result, and what it keeps is an entry. -/
theorem older_eq (time : CAddrInfo → Int) {nOldest : Int}
    (start : nOldest = -1 ∨ nOldest ∈ m.mapInfo.keys) (stored : nId ∈ m.mapInfo.keys) :
    ∃ result, m.older time nOldest nId = some result ∧ (result = false → nOldest ≠ -1) := by
  rcases eq_or_ne nOldest (-1) with unset | set
  · exact ⟨true, if_pos unset, by simp⟩
  · obtain ⟨info, found⟩ := OrderedMap.mem_keys_iff.mp stored
    obtain ⟨oldest, oldest_found⟩ := OrderedMap.mem_keys_iff.mp (start.resolve_left set)
    exact ⟨_, by rw [CAddrMan.older, if_neg set, found, oldest_found]; rfl, fun _ => set⟩

/-- The loop over the entries ends at one of them if it looks at one. -/
private theorem selectNewLoop_eq (n : List Nat) (nI : Nat) (nIds : List Int) {bucket : Finset Int}
    {nOldest : Int} (stored : ∀ nId ∈ bucket, nId ∈ m.mapInfo.keys)
    (within : ∀ nId ∈ nIds, nId ∈ bucket) (start : nOldest = -1 ∨ nOldest ∈ bucket) :
    ∃ result, m.selectNewLoop n nI nOldest nIds = some result ∧
      (result ∈ bucket ∨ nOldest ∉ bucket ∧ ∀ i < nIds.length, nI + i ∉ n) := by
  induction nIds generalizing nI nOldest with
  | nil => exact ⟨nOldest, rfl, (em (nOldest ∈ bucket)).imp_right fun absent => ⟨absent, by simp⟩⟩
  | cons nId nIds induction =>
      have later : ∀ other ∈ nIds, other ∈ bucket := fun other member =>
        within other (List.mem_cons_of_mem nId member)
      have own := within nId List.mem_cons_self
      by_cases looks : nI ∈ n
      · obtain ⟨older, compared, kept⟩ :=
          older_eq (fun info => info.nTime.toNat) (start.imp_right (stored nOldest))
            (stored nId own)
        have next : (if older then nId else nOldest) ∈ bucket := by
          cases older with
          | true => exact own
          | false => exact start.resolve_left (kept rfl)
        obtain ⟨result, searched, outcome⟩ := induction (nI + 1) later (.inr next)
        refine ⟨result, ?_, outcome.imp_right fun unseen => absurd next unseen.1⟩
        simp only [CAddrMan.selectNewLoop, looks, if_true, compared]
        exact searched
      · obtain ⟨result, searched, outcome⟩ := induction (nI + 1) later start
        refine ⟨result, ?_, outcome.imp_right fun unseen => ⟨unseen.1, ?_⟩⟩
        · simp only [CAddrMan.selectNewLoop, looks, if_false]
          exact searched
        · intro i small
          cases i with
          | zero => exact looks
          | succ i =>
              have before := unseen.2 i (by simpa using small)
              rwa [Nat.add_right_comm] at before

/-- A bucket loses an entry. -/
theorem Sound.shrinkNew (sound : m.Sound crypto pending) (nonempty : (m.vvNew nUBucket).Nonempty)
    (settled : ∀ nId, pending = some nId → nId ∉ m.vvNew nUBucket) (chance : CallChance) :
    ∃ nId ∈ m.vvNew nUBucket, ∃ after, m.shrinkNew chance nUBucket = some after ∧
      after.Sound crypto pending ∧
      after.vvNew = update m.vvNew nUBucket ((m.vvNew nUBucket).erase nId) ∧
      after.vvTried = m.vvTried := by
  have stored := sound.newStored nUBucket
  have removes {nId : Int} (member : nId ∈ m.vvNew nUBucket) :=
    sound.removeNew member fun waits => settled nId waits member
  obtain ⟨found, searched, found_mem⟩ :=
    findTerrible_eq chance 0 (bucketOrder (m.vvNew nUBucket)) fun nId member =>
      stored nId (mem_bucketOrder.mp member)
  cases found with
  | some nId =>
      have member := mem_bucketOrder.mp (found_mem nId rfl)
      obtain ⟨after, removed, facts⟩ := removes member
      exact ⟨nId, member, after, by simp [CAddrMan.shrinkNew, searched, removed], facts⟩
  | none =>
      have positive : 0 < (m.vvNew nUBucket).card := Finset.card_pos.mpr nonempty
      obtain ⟨nOldest, selected, outcome⟩ := selectNewLoop_eq
        ((List.range 4).map fun i => chance.getRandInt i (m.vvNew nUBucket).card) 0
        (bucketOrder (m.vvNew nUBucket)) stored
        (fun nId member => mem_bucketOrder.mp member) (.inl rfl)
      have member : nOldest ∈ m.vvNew nUBucket := by
        rcases outcome with member | ⟨-, unseen⟩
        · exact member
        · refine absurd ?_ (unseen (chance.getRandInt 0 (m.vvNew nUBucket).card) ?_)
          · exact List.mem_map.mpr ⟨0, by simp, (Nat.zero_add _).symm⟩
          · simpa using chance.getRandInt_lt 0 _ positive
      obtain ⟨after, removed, facts⟩ := removes member
      refine ⟨nOldest, member, after, ?_, facts⟩
      simp only [CAddrMan.shrinkNew, searched, Option.bind_eq_bind, Option.bind_some]
      rw [selected]
      exact removed

end CAddrMan

end FooCoin

import FooCoin.AddrManRestore

/-!
# Saving and loading the address manager

Reading what was written gives the same addresses under new ids: first the new entries in the order
of the old ids, then the tried ones.
-/

namespace FooCoin

open Codec Function LittleEndian

namespace CAddrMan

/-! ## What is written -/

/-- The entries with references are written, and numbered in their order. -/
private theorem writeNew_eq {nNew : Int} {entries : List (Int × CAddrInfo)}
    (nodup : (entries.map Prod.fst).Nodup) (nIds : Int) (mapUnkIds : Int → Int)
    (count : nIds + (entries.filter fun entry => entry.2.nRefCount ≠ 0).length = nNew) :
    (writeNew nNew nIds mapUnkIds entries).1 =
        (entries.filter fun entry => entry.2.nRefCount ≠ 0).flatMap (fun entry => entry.2.write) ∧
      (∀ nId, nId ∉ entries.map Prod.fst →
        (writeNew nNew nIds mapUnkIds entries).2 nId = mapUnkIds nId) ∧
      ∀ (k : Nat) entry, (entries.filter fun entry => entry.2.nRefCount ≠ 0)[k]? = some entry →
        (writeNew nNew nIds mapUnkIds entries).2 entry.1 = nIds + k := by
  induction entries generalizing nIds mapUnkIds with
  | nil => simp [writeNew]
  | cons entry entries induction =>
      obtain ⟨nId, info⟩ := entry
      obtain ⟨unlisted, nodup⟩ := List.nodup_cons.mp nodup
      rw [writeNew]
      by_cases ended : nIds = nNew
      · have none_left : ((nId, info) :: entries).filter
            (fun entry => entry.2.nRefCount ≠ 0) = [] := by
          rw [← List.length_eq_zero_iff]
          omega
        rw [none_left, if_pos ended]
        simp
      · simp only [if_neg ended]
        by_cases referenced : info.nRefCount ≠ 0
        · have listed : ((nId, info) :: entries).filter (fun entry => entry.2.nRefCount ≠ 0) =
              (nId, info) :: entries.filter (fun entry => entry.2.nRefCount ≠ 0) :=
            List.filter_cons_of_pos (by simpa using referenced)
          rw [listed, List.length_cons] at count
          obtain ⟨bytes, outside, inside⟩ :=
            induction nodup (nIds + 1) (update mapUnkIds nId nIds) (by push_cast at count; omega)
          rw [listed, if_pos referenced]
          refine ⟨by simp [bytes], ?_, ?_⟩
          · intro other absent
            obtain ⟨different, absent⟩ := not_or.mp (List.mem_cons.not.mp absent)
            simpa [update_of_ne different] using outside other absent
          · intro k entry at_k
            cases k with
            | zero =>
                obtain rfl : (nId, info) = entry := by simpa using at_k
                simpa using outside nId unlisted
            | succ k =>
                have later := inside k entry (by simpa using at_k)
                simp only [later]
                push_cast
                ring
        · have listed : ((nId, info) :: entries).filter (fun entry => entry.2.nRefCount ≠ 0) =
              entries.filter (fun entry => entry.2.nRefCount ≠ 0) :=
            List.filter_cons_of_neg (by simpa using referenced)
          rw [listed] at count
          obtain ⟨bytes, outside, inside⟩ :=
            induction nodup nIds (update mapUnkIds nId nIds) count
          rw [listed, if_neg referenced]
          refine ⟨bytes, ?_, inside⟩
          intro other absent
          obtain ⟨different, absent⟩ := not_or.mp (List.mem_cons.not.mp absent)
          rw [outside other absent, update_of_ne different]

/-- The tried entries are written. -/
private theorem writeTried_eq {nTried : Int} {entries : List (Int × CAddrInfo)} (nIds : Int)
    (count : nIds + (entries.filter fun entry => entry.2.fInTried).length = nTried) :
    writeTried nTried nIds entries =
      (entries.filter fun entry => entry.2.fInTried).flatMap fun entry => entry.2.write := by
  induction entries generalizing nIds with
  | nil => rfl
  | cons entry entries induction =>
      obtain ⟨nId, info⟩ := entry
      rw [writeTried]
      by_cases ended : nIds = nTried
      · have none_left : ((nId, info) :: entries).filter (fun entry => entry.2.fInTried) = [] := by
          rw [← List.length_eq_zero_iff]
          omega
        rw [none_left, if_pos ended]
        rfl
      · rw [if_neg ended]
        cases inTried : info.fInTried with
        | true =>
            have listed : ((nId, info) :: entries).filter (fun entry => entry.2.fInTried) =
                (nId, info) :: entries.filter (fun entry => entry.2.fInTried) :=
              List.filter_cons_of_pos inTried
            rw [listed, List.length_cons] at count
            rw [listed, if_pos rfl, List.flatMap_cons,
              induction (nIds + 1) (by push_cast at count; omega)]
        | false =>
            have listed : ((nId, info) :: entries).filter (fun entry => entry.2.fInTried) =
                entries.filter (fun entry => entry.2.fInTried) :=
              List.filter_cons_of_neg (by simp [inTried])
            rw [listed] at count
            rw [listed, if_neg Bool.false_ne_true, induction nIds count]

/-- The new entries in the order in which they are written. -/
def newEntries (m : CAddrMan) : List (Int × CAddrInfo) :=
  m.mapInfo.toList.filter fun entry => entry.2.nRefCount ≠ 0

/-- The tried entries in the order in which they are written. -/
def triedEntries (m : CAddrMan) : List (Int × CAddrInfo) :=
  m.mapInfo.toList.filter fun entry => entry.2.fInTried

/-- The entries in the order in which they are written. -/
def writtenInfos (m : CAddrMan) : List CAddrInfo :=
  m.newEntries.map Prod.snd ++ m.triedEntries.map Prod.snd

/-- The ids of the new entries in the written buckets. -/
def mapUnkIds (m : CAddrMan) : Int → Int :=
  (writeNew m.nNew 0 (fun _ => 0) m.mapInfo.toList).2

/-- The numbers in a written bucket. -/
def bucketNumbers (m : CAddrMan) (nB : Fin newBucketCount) : List Int :=
  (bucketOrder (m.vvNew nB)).map m.mapUnkIds

section Written

variable {crypto : Crypto} {m : CAddrMan} {nId : Int} {info : CAddrInfo}

/-- An entry has references if and only if it is not tried. -/
private theorem Sound.nRefCount_ne_zero_iff (sound : m.Sound crypto none)
    (found : m.mapInfo.find nId = some info) : info.nRefCount ≠ 0 ↔ info.fInTried = false := by
  have limit := (sound.placed nId info found).limit
  cases inTried : info.fInTried with
  | true =>
      rw [if_pos inTried] at limit
      simp [limit.1]
  | false =>
      rw [if_neg (by simp [inTried])] at limit
      simp only [iff_true]
      omega

/-- Every entry is written once. -/
private theorem Sound.entries_perm (sound : m.Sound crypto none) :
    (m.newEntries ++ m.triedEntries).Perm m.mapInfo.toList := by
  have complement : m.triedEntries =
      m.mapInfo.toList.filter fun entry => !decide (entry.2.nRefCount ≠ 0) := by
    refine List.filter_congr fun entry member => ?_
    have referenced := sound.nRefCount_ne_zero_iff (OrderedMap.mem_toList.mp member)
    cases inTried : entry.2.fInTried <;> simp_all
  rw [complement]
  exact List.filter_append_perm ..

private theorem length_filter_toList (keep : CAddrInfo → Bool) {ids : Finset Int}
    (same : ∀ nId, nId ∈ ids ↔ ∃ info, m.mapInfo.find nId = some info ∧ keep info = true) :
    (m.mapInfo.toList.filter fun entry => keep entry.2).length = ids.card := by
  have nodup := OrderedMap.nodup_keys_toList.sublist
    ((List.filter_sublist (l := m.mapInfo.toList) (p := fun entry => keep entry.2)).map Prod.fst)
  rw [← List.length_map Prod.fst, ← List.toFinset_card_of_nodup nodup]
  congr 1
  ext nId
  simp [same]

private theorem Sound.length_newEntries (sound : m.Sound crypto none) :
    (m.newEntries.length : Int) = m.nNew := by
  rw [sound.card_newIds, newEntries]
  refine congrArg Nat.cast
    (length_filter_toList (fun info => decide (info.nRefCount ≠ 0)) fun nId => ?_)
  rw [mem_newIds]
  refine exists_congr fun info => and_congr_right fun found => ?_
  rw [decide_eq_true_iff, sound.nRefCount_ne_zero_iff found]

private theorem Sound.length_triedEntries (sound : m.Sound crypto none) :
    (m.triedEntries.length : Int) = m.nTried := by
  rw [sound.card_triedIds, triedEntries]
  exact congrArg Nat.cast (length_filter_toList CAddrInfo.fInTried fun nId => mem_triedIds)

private theorem Sound.mem_entries (sound : m.Sound crypto none) :
    (nId, info) ∈ m.newEntries ++ m.triedEntries ↔ m.mapInfo.find nId = some info := by
  rw [sound.entries_perm.mem_iff, OrderedMap.mem_toList]

/-- No address is written twice. -/
private theorem Sound.nodup_addresses (sound : m.Sound crypto none) :
    (m.writtenInfos.map fun info => info.toCNetAddr).Nodup := by
  have nodup : (m.newEntries ++ m.triedEntries).Nodup :=
    sound.entries_perm.nodup_iff.mpr (.of_map Prod.fst OrderedMap.nodup_keys_toList)
  have addresses := nodup.map_on (f := fun entry => entry.2.toCNetAddr) ?_
  · rw [List.map_append] at addresses
    rw [writtenInfos, List.map_append, List.map_map, List.map_map]
    exact addresses
  · rintro ⟨first, left⟩ first_member ⟨second, right⟩ second_member same
    have first_found := sound.mem_entries.mp first_member
    have second_found := sound.mem_entries.mp second_member
    obtain rfl := sound.directory.id_eq first_found second_found same
    rw [Option.some.inj (first_found.symm.trans second_found)]

/-- The number of a new entry is its position. -/
private theorem Sound.mapUnkIds_eq (sound : m.Sound crypto none) {k : Nat}
    (listed : m.newEntries[k]? = some (nId, info)) : m.mapUnkIds nId = k := by
  have count : (0 : Int) + m.newEntries.length = m.nNew := by
    rw [zero_add, sound.length_newEntries]
  obtain ⟨-, -, inside⟩ := writeNew_eq OrderedMap.nodup_keys_toList 0 (fun _ => 0) count
  rw [mapUnkIds, inside k (nId, info) listed, zero_add]

private theorem Sound.exists_number (sound : m.Sound crypto none)
    (found : m.mapInfo.find nId = some info) (untried : info.fInTried = false) :
    ∃ k : Nat, m.newEntries[k]? = some (nId, info) ∧ m.mapUnkIds nId = k := by
  have member : (nId, info) ∈ m.newEntries := by
    refine List.mem_filter.mpr ⟨OrderedMap.mem_toList.mpr found, ?_⟩
    exact decide_eq_true ((sound.nRefCount_ne_zero_iff found).mpr untried)
  obtain ⟨k, listed⟩ := List.mem_iff_getElem?.mp member
  exact ⟨k, listed, sound.mapUnkIds_eq listed⟩

/-- A bucket holds numbers of new entries. -/
private theorem Sound.number_of_mem (sound : m.Sound crypto none) {nB : Fin newBucketCount}
    (member : nId ∈ m.vvNew nB) :
    ∃ (k : Nat) (info : CAddrInfo), m.newEntries[k]? = some (nId, info) ∧ m.mapUnkIds nId = k := by
  obtain ⟨info, found⟩ := OrderedMap.mem_keys_iff.mp (sound.newStored nB nId member)
  obtain ⟨k, listed, number⟩ :=
    sound.exists_number found ((sound.placed nId info found).not_tried_of_mem member)
  exact ⟨k, info, listed, number⟩

private theorem Sound.nodup_bucketNumbers (sound : m.Sound crypto none)
    (nB : Fin newBucketCount) : (m.bucketNumbers nB).Nodup := by
  refine (nodup_bucketOrder _).map_on fun first first_member second second_member same => ?_
  obtain ⟨k, left, first_listed, first_number⟩ :=
    sound.number_of_mem (mem_bucketOrder.mp first_member)
  obtain ⟨l, right, second_listed, second_number⟩ :=
    sound.number_of_mem (mem_bucketOrder.mp second_member)
  obtain rfl : k = l := by
    rw [first_number, second_number] at same
    exact_mod_cast same
  exact congrArg Prod.fst (Option.some.inj (first_listed.symm.trans second_listed))

/-- The written buckets hold the number of an entry where the manager's hold the entry. -/
private theorem Sound.mem_bucketNumbers (sound : m.Sound crypto none) {nB : Fin newBucketCount}
    {k : Nat} (listed : m.newEntries[k]? = some (nId, info)) :
    (k : Int) ∈ m.bucketNumbers nB ↔ nId ∈ m.vvNew nB := by
  rw [bucketNumbers, List.mem_map]
  constructor
  · rintro ⟨other, member, number⟩
    rw [mem_bucketOrder] at member
    obtain ⟨l, value, other_listed, other_number⟩ := sound.number_of_mem member
    obtain rfl : l = k := by
      rw [other_number] at number
      exact_mod_cast number
    obtain ⟨rfl, -⟩ := Prod.mk.inj (Option.some.inj (listed.symm.trans other_listed))
    exact member
  · intro member
    exact ⟨nId, mem_bucketOrder.mpr member, sound.mapUnkIds_eq listed⟩

private theorem Sound.number_in_bucket (sound : m.Sound crypto none) {nB : Fin newBucketCount}
    {n : Int} (member : n ∈ m.bucketNumbers nB) : ∃ (k : Nat) (nId : Int) (info : CAddrInfo),
      n = k ∧ m.newEntries[k]? = some (nId, info) ∧ nId ∈ m.vvNew nB := by
  obtain ⟨nId, held, rfl⟩ := List.mem_map.mp member
  rw [mem_bucketOrder] at held
  obtain ⟨k, info, listed, number⟩ := sound.number_of_mem held
  exact ⟨k, nId, info, number, listed, held⟩

/-- The entries of a tried bucket are written. -/
private theorem Sound.length_tried (sound : m.Sound crypto none) (nK : Fin triedBucketCount) :
    (triedOf crypto m.nKey m.writtenInfos nK).length = (m.vvTried nK).length := by
  rw [length_triedOf, writtenInfos, ← List.map_append, List.countP_map, sound.entries_perm.countP_eq,
    List.countP_eq_length_filter, ← List.toFinset_card_of_nodup (sound.triedNodup nK)]
  refine length_filter_toList (fun info => decide (info.fInTried = true ∧
    nK = info.getTriedBucket crypto m.nKey)) fun nId => ?_
  rw [List.mem_toFinset, sound.mem_vvTried]
  simp only [decide_eq_true_eq]

private theorem Sound.length_writtenInfos (sound : m.Sound crypto none) :
    m.writtenInfos.length = m.vRandom.length := by
  rw [writtenInfos, ← List.map_append, List.length_map, sound.entries_perm.length_eq,
    OrderedMap.length_toList, sound.directory.card_keys]

/-! ## The whole file -/

private theorem writeBucket_eq (nB : Fin newBucketCount) :
    writeBucket m.mapUnkIds (m.vvNew nB) =
      writeInt (m.bucketNumbers nB).length ++ (m.bucketNumbers nB).flatMap writeInt := by
  rw [writeBucket, bucketNumbers, List.length_map, length_bucketOrder, List.flatMap_map]

/-- The file lists the entries and the numbers in the buckets. -/
private theorem Sound.serialize_eq (sound : m.Sound crypto none) :
    m.serialize = leBytes 1 0 ++ (writeVector m.nKey ++ (writeInt m.nNew ++ (writeInt m.nTried ++
      (writeInt newBucketCount ++ ((m.newEntries.map Prod.snd).flatMap CAddrInfo.write ++
        ((m.triedEntries.map Prod.snd).flatMap CAddrInfo.write ++
          (List.finRange newBucketCount).flatMap fun nB =>
            writeInt (m.bucketNumbers nB).length ++
              (m.bucketNumbers nB).flatMap writeInt)))))) := by
  have new_count : (0 : Int) + m.newEntries.length = m.nNew := by
    rw [zero_add, sound.length_newEntries]
  have tried_count : (0 : Int) + m.triedEntries.length = m.nTried := by
    rw [zero_add, sound.length_triedEntries]
  have new_write := (writeNew_eq OrderedMap.nodup_keys_toList 0 (fun _ => 0) new_count).1
  have tried_write := writeTried_eq 0 tried_count
  simp only [← writeBucket_eq, List.flatMap_map]
  rw [newEntries, triedEntries, ← new_write, ← tried_write]
  rfl

/-- What reading a written manager gives. -/
structure Reloaded (crypto : Crypto) (m after : CAddrMan) : Prop where
  restoring : Restoring m.writtenInfos after
  nIdCount : after.nIdCount = m.writtenInfos.length
  nKey : after.nKey = m.nKey
  nNew : after.nNew = m.nNew
  nTried : after.nTried = m.nTried
  vvNew : after.vvNew = fun nB => (m.bucketNumbers nB).toFinset
  vvTried : after.vvTried = triedOf crypto m.nKey m.writtenInfos

/-- An id is in as many buckets as its new entry has references. -/
private theorem Sound.holders_number (sound : m.Sound crypto none) {k : Nat}
    (listed : m.newEntries[k]? = some (nId, info)) :
    holders (fun nB => (m.bucketNumbers nB).toFinset) k = holders m.vvNew nId := by
  ext nB
  rw [mem_holders, mem_holders, List.mem_toFinset, sound.mem_bucketNumbers listed]

private theorem Sound.holders_number_le (sound : m.Sound crypto none) (n : Int) :
    (holders (fun nB => (m.bucketNumbers nB).toFinset) n).card ≤ newBucketsPerAddress := by
  rcases (holders (fun nB => (m.bucketNumbers nB).toFinset) n).eq_empty_or_nonempty with
    none_hold | ⟨nB, holds⟩
  · rw [none_hold]
    decide
  · rw [mem_holders, List.mem_toFinset] at holds
    obtain ⟨k, nId, info, rfl, listed, held⟩ := sound.number_in_bucket holds
    have found := sound.mem_entries.mp (List.mem_append_left _ (List.mem_of_getElem? listed))
    have placed := sound.placed nId info found
    have limit := placed.limit
    have untried := placed.not_tried_of_mem held
    rw [sound.holders_number listed]
    rw [if_neg (by simp [untried]), placed.references, if_neg (by simp), add_zero] at limit
    exact limit.2

/-- What is written can be read into any manager. -/
theorem Sound.reads_unserialize (sound : m.Sound crypto none) (bounded : m.Bounded)
    (keySize : m.nKey.length ≤ maxSize) (am : CAddrMan) :
    ∃ after, Reads (am.unserialize crypto) m.serialize after ∧ Reloaded crypto m after := by
  have new_count := sound.length_newEntries
  have tried_count := sound.length_triedEntries
  have total := sound.length_writtenInfos
  have bound : m.vRandom.length ≤ 20480 := sound.length_vRandom_le bounded
  rw [writtenInfos, List.length_append, List.length_map, List.length_map] at total
  let cleared : CAddrMan := { am with
    nKey := m.nKey
    nNew := m.nNew
    nTried := m.nTried
    nIdCount := 0
    mapInfo := .empty
    mapAddr := fun _ => none
    vRandom := []
    vvTried := fun _ => []
    vvNew := fun _ => ∅ }
  have empty : Restoring [] cleared := by
    refine ⟨⟨?_, ?_, ?_, ?_, ?_⟩, rfl, ?_⟩ <;> simp [cleared]
  have distinct := sound.nodup_addresses
  have new_untried : ∀ info ∈ m.newEntries.map Prod.snd, info.fInTried = false := by
    intro info member
    obtain ⟨⟨nId, info⟩, written, rfl⟩ := List.mem_map.mp member
    obtain ⟨listed, referenced⟩ := List.mem_filter.mp written
    exact (sound.nRefCount_ne_zero_iff (OrderedMap.mem_toList.mp listed)).mp
      (of_decide_eq_true referenced)
  have all_tried : ∀ info ∈ m.triedEntries.map Prod.snd, info.fInTried = true := by
    intro info member
    obtain ⟨entry, written, rfl⟩ := List.mem_map.mp member
    exact (List.mem_filter.mp written).2
  have distinct_new : (([] ++ m.newEntries.map Prod.snd).map
      fun info : CAddrInfo => info.toCNetAddr).Nodup := by
    rw [writtenInfos, List.map_append] at distinct
    exact (List.nodup_append.mp distinct).1
  obtain ⟨new, new_reads, new_restoring, new_nKey, new_nNew, new_nTried, new_vvNew, new_vvTried⟩ :=
    reads_readNew crypto empty rfl distinct_new new_untried
  rw [List.nil_append] at new_restoring
  have counted : Restoring (m.newEntries.map Prod.snd) { new with nIdCount := m.nNew } :=
    new_restoring.congr rfl rfl rfl rfl
  have new_listed : new.vvTried = triedOf crypto new.nKey (m.newEntries.map Prod.snd) := by
    rw [new_vvTried, triedOf_of_untried new_untried]
  have room (nK : Fin triedBucketCount) :
      (triedOf crypto new.nKey m.writtenInfos nK).length ≤ triedBucketSize := by
    rw [new_nKey]
    exact (sound.length_tried nK).trans_le (bounded.triedSize nK)
  obtain ⟨tried, tried_reads, tried_restoring, tried_count', tried_vvTried, tried_nKey, tried_nNew,
      tried_nTried, tried_vvNew⟩ :=
    reads_readTried 0 counted (by simp [new_count]) (new_vvNew.trans rfl) new_listed distinct
      all_tried room
  have small : m.writtenInfos.length ≤ 2 ^ 31 := by
    rw [sound.length_writtenInfos]
    exact bound.trans (by decide)
  have known (nB : Fin newBucketCount) (n : Int) (member : n ∈ m.bucketNumbers nB) :
      ∃ k : Nat, n = k ∧ k < m.writtenInfos.length := by
    obtain ⟨k, nId, info, rfl, listed, -⟩ := sound.number_in_bucket member
    refine ⟨k, rfl, ?_⟩
    have within := (List.getElem?_eq_some_iff.mp listed).1
    rw [writtenInfos, List.length_append, List.length_map]
    omega
  have sizes (nB : Fin newBucketCount) : (m.bucketNumbers nB).length ≤ newBucketSize := by
    rw [bucketNumbers, List.length_map, length_bucketOrder]
    exact bounded.newSize nB
  have none_held : tried.vvNew = heldBelow m.bucketNumbers 0 := by
    rw [tried_vvNew]
    exact new_vvNew.trans rfl
  have recounted : Restoring m.writtenInfos { tried with nTried := tried.nTried - 0 } :=
    tried_restoring.congr rfl rfl rfl rfl
  obtain ⟨after, bucket_reads, restoring, held, count, key, new_eq, tried_eq, listed⟩ :=
    reads_readBuckets recounted small sound.nodup_bucketNumbers known sound.holders_number_le sizes
      (Nat.zero_add newBucketCount) none_held
  refine ⟨after, ?_, restoring, ?_, ?_, ?_, ?_, held, ?_⟩
  · have new_size : m.nNew.toNat = (m.newEntries.map Prod.snd).length := by
      rw [List.length_map]
      omega
    have tried_size : m.nTried.toNat = (m.triedEntries.map Prod.snd).length := by
      rw [List.length_map]
      omega
    rw [sound.serialize_eq]
    refine (reads_readLE (by decide)).bind ?_
    refine (reads_readVector keySize).bind ?_
    refine (reads_readInt (by omega) (by omega)).bind ?_
    refine (reads_readInt (by omega) (by omega)).bind ?_
    refine (reads_readInt (by decide) (by decide)).bind ?_
    rw [new_size, tried_size]
    refine new_reads.bind (tried_reads.bind ?_)
    rw [List.drop_zero] at bucket_reads
    exact bucket_reads
  · rw [count, tried_count']
    rfl
  · rw [key, tried_nKey, new_nKey]
  · rw [new_eq, tried_nNew, new_nNew]
  · rw [tried_eq, sub_zero, tried_nTried, new_nTried]
  · rw [listed, tried_vvTried, new_nKey]
    rfl

variable {after : CAddrMan}

private theorem getElem?_writtenInfos {k : Nat}
    (listed : (m.newEntries ++ m.triedEntries)[k]? = some (nId, info)) :
    m.writtenInfos[k]? = some info := by
  rw [writtenInfos, ← List.map_append, List.getElem?_map, listed]
  rfl

/-- An entry is loaded under the position at which it is written. -/
private theorem Reloaded.at_position (reloaded : Reloaded crypto m after)
    (sound : m.Sound crypto none) {k : Nat}
    (listed : (m.newEntries ++ m.triedEntries)[k]? = some (nId, info)) :
    (∃ pos, after.mapInfo.find k = some { info with nLastTry := 0, nRandomPos := pos }) ∧
      holders after.vvNew k = holders m.vvNew nId := by
  have found := sound.mem_entries.mp (List.mem_of_getElem? listed)
  have placed := sound.placed nId info found
  have references := placed.references
  rw [if_neg (by simp), add_zero] at references
  have same_holders : holders after.vvNew k = holders m.vvNew nId := by
    rw [reloaded.vvNew]
    rcases Nat.lt_or_ge k m.newEntries.length with early | late
    · exact sound.holders_number (List.getElem?_append_left early ▸ listed)
    · have written := List.mem_of_getElem? (List.getElem?_append_right late ▸ listed)
      have limit := placed.limit
      rw [if_pos (List.mem_filter.mp written).2, references, Nat.cast_eq_zero,
        Finset.card_eq_zero] at limit
      rw [limit.1]
      refine Finset.eq_empty_of_forall_notMem fun nB holds => ?_
      rw [mem_holders, List.mem_toFinset] at holds
      obtain ⟨l, _, _, same, number, -⟩ := sound.number_in_bucket holds
      have small := (List.getElem?_eq_some_iff.mp number).1
      omega
  refine ⟨?_, same_holders⟩
  obtain ⟨pos, loaded⟩ := reloaded.restoring.entry k info (getElem?_writtenInfos listed)
  refine ⟨pos, loaded.trans ?_⟩
  rw [CAddrInfo.restored, same_holders, ← references]

/-- Every loaded entry was written. -/
private theorem Reloaded.written (reloaded : Reloaded crypto m after)
    {found : CAddrInfo} (loaded : after.mapInfo.find nId = some found) :
    ∃ (k : Nat) (old : Int) (info : CAddrInfo), nId = k ∧
      (m.newEntries ++ m.triedEntries)[k]? = some (old, info) := by
  obtain ⟨k, info, -, same, listed, -⟩ := reloaded.restoring.find_eq_some.mp loaded
  rw [writtenInfos, ← List.map_append, List.getElem?_map, Option.map_eq_some_iff] at listed
  obtain ⟨⟨old, info⟩, listed, -⟩ := listed
  exact ⟨k, old, info, same, listed⟩

/-- The loaded manager is sound. -/
theorem Reloaded.sound (reloaded : Reloaded crypto m after) (sound : m.Sound crypto none) :
    after.Sound crypto none := by
  have stored {k : Nat} (small : k < m.writtenInfos.length) : (k : Int) ∈ after.mapInfo.keys := by
    obtain ⟨pos, loaded⟩ := reloaded.restoring.entry k _ (List.getElem?_eq_getElem small)
    exact OrderedMap.mem_keys_iff.mpr ⟨_, loaded⟩
  constructor
  · exact reloaded.restoring.directory.congr reloaded.nIdCount rfl rfl rfl
  · intro nId found loaded
    obtain ⟨k, old, info, rfl, listed⟩ := reloaded.written loaded
    obtain ⟨⟨pos, loaded'⟩, same_holders⟩ := reloaded.at_position sound listed
    obtain rfl := Option.some.inj (loaded.symm.trans loaded')
    have placed := sound.placed old info (sound.mem_entries.mp (List.mem_of_getElem? listed))
    have infos := getElem?_writtenInfos listed
    constructor
    · simp
    · exact placed.lastSuccess
    · intro nK
      rw [reloaded.vvTried, reloaded.nKey, mem_triedOf]
      constructor
      · rintro ⟨l, other, same, other_listed, inTried, bucket⟩
        obtain rfl : k = l := by exact_mod_cast same
        obtain rfl := Option.some.inj (infos.symm.trans other_listed)
        exact ⟨inTried, bucket⟩
      · rintro ⟨inTried, bucket⟩
        exact ⟨k, info, rfl, infos, inTried, bucket⟩
    · rw [same_holders, if_neg (by simp)]
      simpa using placed.references
    · exact placed.limit
  · simp
  · intro nB nId member
    rw [reloaded.vvNew, List.mem_toFinset] at member
    obtain ⟨k, old, info, rfl, listed, -⟩ := sound.number_in_bucket member
    refine stored ?_
    have small := (List.getElem?_eq_some_iff.mp listed).1
    rw [writtenInfos, List.length_append, List.length_map]
    omega
  · intro nK nId member
    rw [reloaded.vvTried, mem_triedOf] at member
    obtain ⟨k, info, rfl, listed, -⟩ := member
    exact stored (List.getElem?_eq_some_iff.mp listed).1
  · intro nK
    rw [reloaded.vvTried]
    exact nodup_triedOf
  · rw [reloaded.nTried, sound.nTried_eq, reloaded.vvTried]
    exact Finset.sum_congr rfl fun nK _ => by rw [sound.length_tried]
  · rw [reloaded.nTried, reloaded.nNew, sound.total, reloaded.restoring.length,
      sound.length_writtenInfos]

/-- The loaded buckets have the old sizes. -/
theorem Reloaded.bounded (reloaded : Reloaded crypto m after) (sound : m.Sound crypto none)
    (bounded : m.Bounded) : after.Bounded := by
  constructor
  · intro nB
    calc (after.vvNew nB).card = (m.bucketNumbers nB).toFinset.card := by rw [reloaded.vvNew]
      _ ≤ (m.bucketNumbers nB).length := List.toFinset_card_le _
      _ = (m.vvNew nB).card := by rw [bucketNumbers, List.length_map, length_bucketOrder]
      _ ≤ newBucketSize := bounded.newSize nB
  · intro nK
    rw [reloaded.vvTried, sound.length_tried]
    exact bounded.triedSize nK

end Written

/-- A manager has the addresses of another one, with the same information about each, in the same
buckets.  Only the last tries and the positions in `vRandom` are lost. -/
structure Restored (m after : CAddrMan) : Prop where
  found : ∀ addr nId info, m.find addr = some (nId, info) → ∃ (newId pos : Int),
    after.find addr = some (newId, { info with nLastTry := 0, nRandomPos := pos }) ∧
      (∀ nB, newId ∈ after.vvNew nB ↔ nId ∈ m.vvNew nB) ∧
      ∀ nK, newId ∈ after.vvTried nK ↔ nId ∈ m.vvTried nK
  missing : ∀ addr, m.find addr = none → after.find addr = none

variable {crypto : Crypto} {m after : CAddrMan}

/-- The loaded manager has the old addresses. -/
theorem Reloaded.restored (reloaded : Reloaded crypto m after) (sound : m.Sound crypto none) :
    Restored m after := by
  have after_sound := reloaded.sound sound
  constructor
  · intro addr nId info found
    obtain ⟨stored, rfl⟩ := sound.directory.find_eq_some.mp found
    obtain ⟨k, listed⟩ := List.mem_iff_getElem?.mp (sound.mem_entries.mpr stored)
    obtain ⟨⟨pos, loaded⟩, same_holders⟩ := reloaded.at_position sound listed
    refine ⟨k, pos, after_sound.directory.find_eq_some.mpr ⟨loaded, rfl⟩, ?_, ?_⟩
    · intro nB
      rw [← mem_holders, same_holders, mem_holders]
    · intro nK
      rw [(after_sound.placed _ _ loaded).tried, (sound.placed _ _ stored).tried, reloaded.nKey]
      rfl
  · intro addr missing
    by_contra present
    obtain ⟨⟨nId, found⟩, loaded⟩ := Option.ne_none_iff_exists'.mp present
    obtain ⟨stored, same⟩ := after_sound.directory.find_eq_some.mp loaded
    obtain ⟨k, old, info, rfl, listed⟩ := reloaded.written stored
    obtain ⟨⟨pos, restored⟩, -⟩ := reloaded.at_position sound listed
    obtain rfl := Option.some.inj (stored.symm.trans restored)
    exact sound.directory.find_eq_none missing old info
      (sound.mem_entries.mp (List.mem_of_getElem? listed)) same

end CAddrMan

end FooCoin

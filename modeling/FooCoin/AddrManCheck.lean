import FooCoin.AddrManTried

/-!
# `CAddrMan::Check_`

The consistency check of debug builds, and what it checks: the counters count the entries, and the
buckets hold each entry as often as it says.
-/

namespace FooCoin

open Function

namespace CAddrMan

/-- `if (condition) return code`. -/
def returnIf (condition : Prop) [Decidable condition] (code : Int) : Except Int Unit :=
  if condition then .error code else .ok ()

/-- The loop of `Check_` over `mapInfo`.  Its map is only read. -/
def checkEntries (m : CAddrMan) : List (Int × CAddrInfo) → Finset Int → OrderedMap Int Int →
    Except Int (Finset Int × OrderedMap Int Int)
  | [], setTried, mapNew => pure (setTried, mapNew)
  | (n, info) :: entries, setTried, mapNew => do
      if info.fInTried then
        returnIf (info.nLastSuccess = 0) (-1)
        returnIf (info.nRefCount ≠ 0) (-2)
      else
        returnIf (info.nRefCount < 0 ∨ newBucketsPerAddress < info.nRefCount) (-3)
        returnIf (info.nRefCount = 0) (-4)
      returnIf ((m.mapAddr info.toCNetAddr).getD 0 ≠ n) (-5)
      returnIf (info.nRandomPos < 0 ∨ m.vRandom[info.nRandomPos.toNat]? ≠ some n) (-14)
      returnIf (info.nLastTry.toInt < 0) (-6)
      returnIf (info.nLastSuccess.toInt < 0) (-8)
      if info.fInTried then m.checkEntries entries (insert n setTried) mapNew
      else m.checkEntries entries setTried (mapNew.insert n info.nRefCount)

/-- The loop of `Check_` over the tried buckets. -/
def checkTried : List Int → Finset Int → Except Int (Finset Int)
  | [], setTried => pure setTried
  | n :: ns, setTried =>
      if n ∉ setTried then .error (-11) else checkTried ns (setTried.erase n)

/-- The loop of `Check_` over the new buckets. -/
def checkNew : List Int → OrderedMap Int Int → Except Int (OrderedMap Int Int)
  | [], mapNew => pure mapNew
  | n :: ns, mapNew =>
      match mapNew.find n with
      | none => .error (-12)
      | some count =>
          if count - 1 = 0 then checkNew ns (mapNew.erase n)
          else checkNew ns (mapNew.insert n (count - 1))

/-- `Check_`, with its code as an error. -/
def check (m : CAddrMan) : Except Int Unit := do
  returnIf ((m.vRandom.length : Int) ≠ m.nTried + m.nNew) (-7)
  let (setTried, mapNew) ← m.checkEntries m.mapInfo.toList ∅ .empty
  returnIf ((setTried.card : Int) ≠ m.nTried) (-9)
  returnIf ((mapNew.keys.card : Int) ≠ m.nNew) (-10)
  let setTried ← checkTried ((List.finRange triedBucketCount).flatMap m.vvTried) setTried
  let mapNew ← checkNew
    ((List.finRange newBucketCount).flatMap fun nB => bucketOrder (m.vvNew nB)) mapNew
  returnIf (setTried.card ≠ 0) (-13)
  returnIf (mapNew.keys.card ≠ 0) (-15)

/-- `Check_`. -/
def check_ (m : CAddrMan) : Int :=
  match m.check with
  | .ok () => 0
  | .error code => code

variable {crypto : Crypto} {m : CAddrMan} {nId : Int} {info : CAddrInfo}

@[simp]
private theorem returnIf_of_not {condition : Prop} [Decidable condition] (passes : ¬condition)
    (code : Int) : returnIf condition code = .ok () :=
  if_neg passes

attribute [local simp] except_ok_bind

/-! ## Counting the entries -/

/-- The ids of tried entries. -/
def triedIds (m : CAddrMan) : Finset Int :=
  m.mapInfo.keys.filter fun nId => (m.mapInfo.find nId).any CAddrInfo.fInTried

/-- The ids of the other entries. -/
def newIds (m : CAddrMan) : Finset Int :=
  m.mapInfo.keys.filter fun nId => ¬(m.mapInfo.find nId).any CAddrInfo.fInTried

theorem mem_triedIds :
    nId ∈ m.triedIds ↔ ∃ info, m.mapInfo.find nId = some info ∧ info.fInTried = true := by
  simp only [triedIds, Finset.mem_filter, OrderedMap.mem_keys_iff, Option.any_eq_true]
  constructor
  · rintro ⟨-, info, found, inTried⟩
    exact ⟨info, found, inTried⟩
  · rintro ⟨info, found, inTried⟩
    exact ⟨⟨info, found⟩, info, found, inTried⟩

theorem mem_newIds :
    nId ∈ m.newIds ↔ ∃ info, m.mapInfo.find nId = some info ∧ info.fInTried = false := by
  simp only [newIds, Finset.mem_filter, OrderedMap.mem_keys_iff]
  constructor
  · rintro ⟨⟨info, found⟩, untried⟩
    exact ⟨info, found, by simpa [found] using untried⟩
  · rintro ⟨info, found, untried⟩
    exact ⟨⟨info, found⟩, by simp [found, untried]⟩

/-- `vRandom` lists every id once. -/
theorem Directory.card_keys (directory : m.Directory) :
    m.mapInfo.keys.card = m.vRandom.length := by
  rw [← List.toFinset_card_of_nodup directory.linked.nodup]
  congr 1
  ext nId
  rw [OrderedMap.mem_keys_iff, List.mem_toFinset, List.mem_iff_getElem?]
  constructor
  · rintro ⟨info, found⟩
    obtain ⟨pos, -, listed⟩ := directory.position nId info found
    exact ⟨pos, listed⟩
  · rintro ⟨pos, listed⟩
    obtain ⟨info, found, -⟩ := directory.random pos nId listed
    exact ⟨info, found⟩

/-- A tried bucket holds the tried entries that belong to it. -/
theorem Sound.mem_vvTried (sound : m.Sound crypto none) (nK : Fin triedBucketCount) :
    nId ∈ m.vvTried nK ↔ ∃ info, m.mapInfo.find nId = some info ∧ info.fInTried = true ∧
      nK = info.getTriedBucket crypto m.nKey := by
  constructor
  · intro member
    obtain ⟨info, found⟩ := OrderedMap.mem_keys_iff.mp (sound.triedStored nK nId member)
    exact ⟨info, found, ((sound.placed nId info found).tried nK).mp member⟩
  · rintro ⟨info, found, belongs⟩
    exact ((sound.placed nId info found).tried nK).mpr belongs

/-- The tried buckets list every tried entry once. -/
theorem Sound.tried_list (sound : m.Sound crypto none) :
    ((List.finRange triedBucketCount).flatMap m.vvTried).Nodup ∧
      ∀ nId, nId ∈ (List.finRange triedBucketCount).flatMap m.vvTried ↔ nId ∈ m.triedIds := by
  constructor
  · refine List.nodup_flatMap.mpr ⟨fun nK _ => sound.triedNodup nK, ?_⟩
    refine (List.nodup_finRange _).imp fun {first second} different nId in_first in_second => ?_
    obtain ⟨info, found, -, first_eq⟩ := (sound.mem_vvTried first).mp in_first
    obtain ⟨other, other_found, -, second_eq⟩ := (sound.mem_vvTried second).mp in_second
    obtain rfl := Option.some.inj (found.symm.trans other_found)
    exact different (first_eq.trans second_eq.symm)
  · intro nId
    simp only [List.mem_flatMap, List.mem_finRange, true_and, sound.mem_vvTried, mem_triedIds]
    constructor
    · rintro ⟨nK, info, found, inTried, -⟩
      exact ⟨info, found, inTried⟩
    · rintro ⟨info, found, inTried⟩
      exact ⟨_, info, found, inTried, rfl⟩

private theorem length_flatMap_finRange {count : Nat} (buckets : Fin count → List Int) :
    ((((List.finRange count).flatMap buckets).length : Nat) : Int) =
      ∑ i, ((buckets i).length : Int) := by
  rw [List.length_flatMap, ← Fin.sum_univ_def, Nat.cast_sum]

/-- `nTried` counts the tried entries. -/
theorem Sound.card_triedIds (sound : m.Sound crypto none) : m.nTried = m.triedIds.card := by
  obtain ⟨nodup, mem_iff⟩ := sound.tried_list
  have listed : m.triedIds = ((List.finRange triedBucketCount).flatMap m.vvTried).toFinset := by
    ext nId
    rw [List.mem_toFinset, mem_iff]
  rw [listed, List.toFinset_card_of_nodup nodup, length_flatMap_finRange, sound.nTried_eq]

/-- `nNew` counts the other entries. -/
theorem Sound.card_newIds (sound : m.Sound crypto none) : m.nNew = m.newIds.card := by
  have total := sound.total
  have split : m.triedIds.card + m.newIds.card = m.mapInfo.keys.card :=
    Finset.card_filter_add_card_filter_not _
  rw [sound.card_triedIds, ← sound.directory.card_keys, ← split] at total
  push_cast at total
  omega

/-! ## The loops of `Check_` -/

/-- The tried loop removes every id once. -/
private theorem checkTried_eq {ns : List Int} {setTried : Finset Int} (nodup : ns.Nodup)
    (same : ∀ n, n ∈ ns ↔ n ∈ setTried) : checkTried ns setTried = .ok ∅ := by
  induction ns generalizing setTried with
  | nil =>
      have empty : setTried = ∅ := Finset.eq_empty_of_forall_notMem fun n member =>
        List.not_mem_nil ((same n).mpr member)
      rw [checkTried, empty]
      rfl
  | cons n ns induction =>
      obtain ⟨fresh, nodup⟩ := List.nodup_cons.mp nodup
      rw [checkTried, if_neg (not_not.mpr ((same n).mp List.mem_cons_self))]
      refine induction nodup fun other => ?_
      rw [Finset.mem_erase, ← same, List.mem_cons]
      constructor
      · intro member
        exact ⟨fun own => fresh (own ▸ member), .inr member⟩
      · rintro ⟨different, own | member⟩
        · exact absurd own different
        · exact member

/-- The new loop removes every id as often as it is counted. -/
private theorem checkNew_eq {ns : List Int} {mapNew : OrderedMap Int Int}
    (counts : ∀ n, mapNew.find n = if ns.count n = 0 then none else some (ns.count n : Int)) :
    ∃ after, checkNew ns mapNew = .ok after ∧ after.keys = ∅ := by
  induction ns generalizing mapNew with
  | nil =>
      refine ⟨mapNew, rfl, Finset.eq_empty_of_forall_notMem fun n member => ?_⟩
      exact (mapNew.mem_keys n).mp member (by simpa using counts n)
  | cons n ns induction =>
      have own : mapNew.find n = some ((ns.count n : Int) + 1) := by
        simpa using counts n
      simp only [checkNew, own, add_sub_cancel_right]
      by_cases last : ns.count n = 0
      · simp only [last, Nat.cast_zero, if_true]
        refine induction fun other => ?_
        by_cases same : other = n
        · subst same
          simp [last]
        · rw [OrderedMap.find_erase_of_ne same, counts, List.count_cons_of_ne (Ne.symm same)]
      · simp only [Nat.cast_eq_zero, last, if_false]
        refine induction fun other => ?_
        by_cases same : other = n
        · subst same
          simp [last]
        · rw [OrderedMap.find_insert_of_ne same, counts, List.count_cons_of_ne (Ne.symm same)]

/-- A placed entry passes the checks. -/
private theorem Sound.checkEntries_cons (sound : m.Sound crypto none)
    (found : m.mapInfo.find nId = some info) (entries : List (Int × CAddrInfo))
    (setTried : Finset Int) (mapNew : OrderedMap Int Int) :
    m.checkEntries ((nId, info) :: entries) setTried mapNew =
      if info.fInTried then m.checkEntries entries (insert nId setTried) mapNew
      else m.checkEntries entries setTried (mapNew.insert nId info.nRefCount) := by
  have placed := sound.placed nId info found
  have limit := placed.limit
  have addr : m.mapAddr info.toCNetAddr = some nId :=
    (sound.directory.addr _ nId).mpr ⟨info, found, rfl⟩
  obtain ⟨pos, at_pos, listed⟩ := sound.directory.position nId info found
  have nonneg : ¬info.nRandomPos < 0 := by omega
  have listed' : m.vRandom[info.nRandomPos.toNat]? = some nId := by
    rw [at_pos, Int.toNat_natCast, listed]
  have lastTry := not_lt.mpr placed.lastTry
  have lastSuccess := not_lt.mpr placed.lastSuccess
  cases inTried : info.fInTried with
  | true =>
      rw [if_pos inTried] at limit
      simp [checkEntries, inTried, limit, addr, nonneg, listed', lastTry, lastSuccess]
  | false =>
      rw [if_neg (by simp [inTried])] at limit
      have low : ¬info.nRefCount < 0 := by omega
      have high : ¬newBucketsPerAddress < info.nRefCount := by omega
      have nonzero : info.nRefCount ≠ 0 := by omega
      simp [checkEntries, inTried, low, high, nonzero, addr, nonneg, listed', lastTry, lastSuccess]

/-- The loop over placed entries collects the tried ids and counts the others. -/
private theorem Sound.checkEntries (sound : m.Sound crypto none)
    (entries : List (Int × CAddrInfo)) (setTried : Finset Int) (mapNew : OrderedMap Int Int)
    (stored : ∀ entry ∈ entries, m.mapInfo.find entry.1 = some entry.2)
    (nodup : (entries.map Prod.fst).Nodup)
    (fresh : ∀ n ∈ entries.map Prod.fst, mapNew.find n = none) :
    ∃ tried counted, m.checkEntries entries setTried mapNew = .ok (tried, counted) ∧
      (∀ n, n ∈ tried ↔ n ∈ setTried ∨ ∃ info, (n, info) ∈ entries ∧ info.fInTried = true) ∧
      ∀ n count, counted.find n = some count ↔ mapNew.find n = some count ∨
        ∃ info, (n, info) ∈ entries ∧ info.fInTried = false ∧ info.nRefCount = count := by
  induction entries generalizing setTried mapNew with
  | nil => exact ⟨setTried, mapNew, rfl, by simp, by simp⟩
  | cons entry entries induction =>
      obtain ⟨nId, info⟩ := entry
      obtain ⟨unlisted, nodup⟩ := List.nodup_cons.mp nodup
      have later := fun entry member => stored entry (List.mem_cons_of_mem _ member)
      have later_fresh : ∀ n ∈ entries.map Prod.fst, mapNew.find n = none := fun n member =>
        fresh n (List.mem_cons_of_mem _ member)
      rw [sound.checkEntries_cons (stored (nId, info) List.mem_cons_self)]
      cases inTried : info.fInTried with
      | true =>
          obtain ⟨tried, counted, checked, tried_iff, counted_iff⟩ :=
            induction (insert nId setTried) mapNew later nodup later_fresh
          refine ⟨tried, counted, checked, fun n => ?_, fun n count => ?_⟩
          · rw [tried_iff]
            grind
          · rw [counted_iff]
            grind
      | false =>
          have kept : ∀ n ∈ entries.map Prod.fst,
              (mapNew.insert nId info.nRefCount).find n = none := by
            intro n member
            have different : n ≠ nId := by
              rintro rfl
              exact unlisted member
            rw [OrderedMap.find_insert_of_ne different, later_fresh n member]
          obtain ⟨tried, counted, checked, tried_iff, counted_iff⟩ :=
            induction setTried (mapNew.insert nId info.nRefCount) later nodup kept
          refine ⟨tried, counted, checked, fun n => ?_, fun n count => ?_⟩
          · rw [tried_iff]
            grind
          · rw [counted_iff]
            by_cases same : n = nId
            · subst same
              have absent := fresh n List.mem_cons_self
              have others : ∀ other, (n, other) ∉ entries := fun other member =>
                unlisted (List.mem_map.mpr ⟨(n, other), member, rfl⟩)
              rw [OrderedMap.find_insert_self, absent]
              grind
            · rw [OrderedMap.find_insert_of_ne same]
              grind

/-- The new buckets list an id as often as buckets hold it. -/
private theorem count_newBuckets (vvNew : Fin newBucketCount → Finset Int) (nId : Int) :
    ((List.finRange newBucketCount).flatMap fun nB => bucketOrder (vvNew nB)).count nId =
      (holders vvNew nId).card := by
  have each (nB : Fin newBucketCount) :
      (bucketOrder (vvNew nB)).count nId = if nId ∈ vvNew nB then 1 else 0 := by
    split_ifs with member
    · exact List.count_eq_one_of_mem (nodup_bucketOrder _) (mem_bucketOrder.mpr member)
    · exact List.count_eq_zero_of_not_mem (mem_bucketOrder.not.mpr member)
  rw [List.count_flatMap, holders, Finset.card_filter, Fin.sum_univ_def]
  exact congrArg List.sum (List.map_congr_left fun nB _ => each nB)

/-- A sound manager passes `Check_`. -/
theorem Sound.check_eq_zero (sound : m.Sound crypto none) : m.check_ = 0 := by
  obtain ⟨tried, counted, entries, tried_iff, counted_iff⟩ :=
    sound.checkEntries m.mapInfo.toList ∅ .empty (fun entry member => OrderedMap.mem_toList.mp member)
      OrderedMap.nodup_keys_toList (by simp)
  have tried_eq : tried = m.triedIds := by
    ext nId
    simp [tried_iff, mem_triedIds]
  have counted_iff' : ∀ n count, counted.find n = some count ↔
      ∃ info, m.mapInfo.find n = some info ∧ info.fInTried = false ∧ info.nRefCount = count := by
    simpa using counted_iff
  have counted_keys : counted.keys = m.newIds := by
    ext nId
    simp [OrderedMap.mem_keys_iff, counted_iff', mem_newIds]
  obtain ⟨nodup, listed⟩ := sound.tried_list
  have counts (n : Int) : counted.find n =
      if ((List.finRange newBucketCount).flatMap fun nB => bucketOrder (m.vvNew nB)).count n = 0
      then none
      else some (((List.finRange newBucketCount).flatMap fun nB =>
        bucketOrder (m.vvNew nB)).count n : Int) := by
    rw [count_newBuckets]
    cases found : counted.find n with
    | some count =>
        obtain ⟨info, stored, untried, rfl⟩ := (counted_iff' n _).mp found
        have placed := sound.placed n info stored
        have limit := placed.limit
        have references : info.nRefCount = (holders m.vvNew n).card := by
          simpa using placed.references
        rw [if_neg (by simp [untried])] at limit
        rw [if_neg (by omega), references]
    | none =>
        have unheld : holders m.vvNew n = ∅ := by
          refine Finset.eq_empty_of_forall_notMem fun nB holds => ?_
          have member := mem_holders.mp holds
          obtain ⟨info, stored⟩ := OrderedMap.mem_keys_iff.mp (sound.newStored nB n member)
          have untried := (sound.placed n info stored).not_tried_of_mem member
          have counted_n := (counted_iff' n _).mpr ⟨info, stored, untried, rfl⟩
          simp [found] at counted_n
        simp [unheld]
  obtain ⟨after, emptied, after_keys⟩ := checkNew_eq counts
  have tried_card : (tried.card : Int) = m.nTried := by rw [tried_eq, sound.card_triedIds]
  have new_card : (counted.keys.card : Int) = m.nNew := by rw [counted_keys, sound.card_newIds]
  have checks : m.check = .ok () := by
    have tried_removed := checkTried_eq nodup fun n => (listed n).trans (by rw [← tried_eq])
    simp [check, sound.total, entries, tried_card, new_card, tried_removed, emptied, after_keys]
  rw [check_, checks]

/-! ## What `Check_` is about -/

/-- The structures of a manager agree. -/
structure Consistent (m : CAddrMan) : Prop where
  directory : m.Directory
  nTried_eq : m.nTried = m.triedIds.card
  nNew_eq : m.nNew = m.newIds.card
  total : m.vRandom.length = m.triedIds.card + m.newIds.card
  newStored : ∀ nB, ∀ nId ∈ m.vvNew nB, nId ∈ m.newIds
  references : ∀ nId info, m.mapInfo.find nId = some info → info.fInTried = false →
    info.nRefCount = (holders m.vvNew nId).card ∧ 1 ≤ info.nRefCount ∧
      info.nRefCount ≤ newBucketsPerAddress
  triedStored : ∀ nK, ∀ nId ∈ m.vvTried nK, nId ∈ m.triedIds
  triedOnce : ∀ nId ∈ m.triedIds, ∃ nK, (m.vvTried nK).count nId = 1 ∧
    ∀ other, other ≠ nK → nId ∉ m.vvTried other

/-- A sound manager is consistent. -/
theorem Sound.consistent (sound : m.Sound crypto none) : m.Consistent := by
  constructor
  · exact sound.directory
  · exact sound.card_triedIds
  · exact sound.card_newIds
  · have total := sound.total
    rw [sound.card_triedIds, sound.card_newIds] at total
    exact_mod_cast total.symm
  · intro nB nId member
    obtain ⟨info, found⟩ := OrderedMap.mem_keys_iff.mp (sound.newStored nB nId member)
    exact mem_newIds.mpr ⟨info, found, (sound.placed nId info found).not_tried_of_mem member⟩
  · intro nId info found untried
    have placed := sound.placed nId info found
    have limit := placed.limit
    rw [if_neg (by simp [untried])] at limit
    exact ⟨by simpa using placed.references, limit⟩
  · intro nK nId member
    obtain ⟨info, found, inTried, -⟩ := (sound.mem_vvTried nK).mp member
    exact mem_triedIds.mpr ⟨info, found, inTried⟩
  · intro nId member
    obtain ⟨info, found, inTried⟩ := mem_triedIds.mp member
    have belongs := (sound.mem_vvTried _).mpr ⟨info, found, inTried, rfl⟩
    refine ⟨_, List.count_eq_one_of_mem (sound.triedNodup _) belongs, ?_⟩
    intro other different holds
    obtain ⟨found_info, found', -, other_eq⟩ := (sound.mem_vvTried other).mp holds
    obtain rfl := Option.some.inj (found.symm.trans found')
    exact different other_eq

/-- Bounded buckets hold a bounded number of addresses. -/
theorem Sound.length_vRandom_le (sound : m.Sound crypto none) (bounded : m.Bounded) :
    m.vRandom.length ≤
      newBucketCount * newBucketSize + triedBucketCount * triedBucketSize := by
  have consistent := sound.consistent
  have covered : m.newIds ⊆ Finset.univ.biUnion m.vvNew := by
    intro nId member
    obtain ⟨info, found, untried⟩ := mem_newIds.mp member
    obtain ⟨references, positive, -⟩ := consistent.references nId info found untried
    obtain ⟨nB, holds⟩ := Finset.card_pos.mp (by omega : 0 < (holders m.vvNew nId).card)
    exact Finset.mem_biUnion.mpr ⟨nB, Finset.mem_univ nB, mem_holders.mp holds⟩
  have new_le : m.newIds.card ≤ newBucketCount * newBucketSize := by
    calc m.newIds.card ≤ (Finset.univ.biUnion m.vvNew).card := Finset.card_le_card covered
      _ ≤ (Finset.univ : Finset (Fin newBucketCount)).card * newBucketSize :=
        Finset.card_biUnion_le_card_mul _ _ _ fun nB _ => bounded.newSize nB
      _ = newBucketCount * newBucketSize := by rw [Finset.card_fin]
  have tried_le : (m.triedIds.card : Int) ≤ triedBucketCount * triedBucketSize := by
    calc (m.triedIds.card : Int) = ∑ nK, ((m.vvTried nK).length : Int) := by
          rw [← sound.card_triedIds, sound.nTried_eq]
      _ ≤ ∑ _nK : Fin triedBucketCount, (triedBucketSize : Int) :=
        Finset.sum_le_sum fun nK _ => Int.ofNat_le.mpr (bounded.triedSize nK)
      _ = triedBucketCount * triedBucketSize := by simp
  rw [consistent.total]
  exact add_comm m.triedIds.card _ ▸ Nat.add_le_add new_le (by exact_mod_cast tried_le)

end CAddrMan

end FooCoin

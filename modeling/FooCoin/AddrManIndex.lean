import FooCoin.AddrMan

/-!
# The directory of `CAddrMan`

Entries, addresses and positions in `vRandom` are inverse to each other.
-/

namespace FooCoin

open Function

namespace CAddrMan

/-- Every entry is found by its address and stands at its position in `vRandom`, and nothing else is
found or stands there. -/
structure Directory (m : CAddrMan) : Prop where
  nonneg : 0 ≤ m.nIdCount
  range : ∀ nId info, m.mapInfo.find nId = some info → 0 ≤ nId ∧ nId < m.nIdCount
  addr : ∀ addr nId, m.mapAddr addr = some nId ↔
    ∃ info, m.mapInfo.find nId = some info ∧ info.toCNetAddr = addr
  random : ∀ (pos : Nat) nId, m.vRandom[pos]? = some nId →
    ∃ info, m.mapInfo.find nId = some info ∧ info.nRandomPos = pos
  position : ∀ nId info, m.mapInfo.find nId = some info →
    ∃ pos : Nat, info.nRandomPos = pos ∧ m.vRandom[pos]? = some nId

/-- `vRandom` lists every entry at its position, and no two entries have one address. -/
structure Linked (m : CAddrMan) : Prop where
  random : ∀ (pos : Nat) nId, m.vRandom[pos]? = some nId →
    ∃ info, m.mapInfo.find nId = some info ∧ info.nRandomPos = pos
  position : ∀ nId info, m.mapInfo.find nId = some info →
    ∃ pos : Nat, info.nRandomPos = pos ∧ m.vRandom[pos]? = some nId
  distinct : ∀ nId info other value, m.mapInfo.find nId = some info →
    m.mapInfo.find other = some value → info.toCNetAddr = value.toCNetAddr → nId = other

variable {m : CAddrMan} {nId : Int} {info : CAddrInfo}

@[simp]
theorem find_setInfo_self : (m.setInfo nId info).mapInfo.find nId = some info :=
  OrderedMap.find_insert_self

@[simp]
theorem find_setInfo_of_ne {other : Int} (different : other ≠ nId) :
    (m.setInfo nId info).mapInfo.find other = m.mapInfo.find other :=
  OrderedMap.find_insert_of_ne different

/-- Entries with one address are the same. -/
theorem Directory.id_eq (directory : m.Directory) {first second : Int} {left right : CAddrInfo}
    (first_found : m.mapInfo.find first = some left)
    (second_found : m.mapInfo.find second = some right)
    (same : left.toCNetAddr = right.toCNetAddr) : first = second := by
  have first_addr := (directory.addr _ first).mpr ⟨left, first_found, rfl⟩
  have second_addr := (directory.addr _ second).mpr ⟨right, second_found, rfl⟩
  rw [same, second_addr, Option.some.injEq] at first_addr
  exact first_addr.symm

theorem Directory.linked (directory : m.Directory) : m.Linked where
  random := directory.random
  position := directory.position
  distinct _ _ _ _ found other_found same := directory.id_eq found other_found same

/-- `Find` gives the entry with an address. -/
theorem Directory.find_eq_some (directory : m.Directory) {addr : CNetAddr} :
    m.find addr = some (nId, info) ↔
      m.mapInfo.find nId = some info ∧ info.toCNetAddr = addr := by
  simp only [find, Option.bind_eq_bind, Option.bind_eq_some_iff, Option.pure_def,
    Option.some.injEq, Prod.mk.injEq]
  constructor
  · rintro ⟨_, mapped, _, found, rfl, rfl⟩
    obtain ⟨other, other_found, same⟩ := (directory.addr _ _).mp mapped
    rw [found, Option.some.injEq] at other_found
    exact ⟨found, other_found ▸ same⟩
  · rintro ⟨found, rfl⟩
    exact ⟨nId, (directory.addr _ _).mpr ⟨info, found, rfl⟩, info, found, rfl, rfl⟩

/-- Where `Find` fails no entry has the address. -/
theorem Directory.find_eq_none (directory : m.Directory) {addr : CNetAddr}
    (missing : m.find addr = none) (nId : Int) (info : CAddrInfo)
    (found : m.mapInfo.find nId = some info) : info.toCNetAddr ≠ addr := by
  intro same
  rw [directory.find_eq_some.mpr ⟨found, same⟩] at missing
  exact Option.some_ne_none _ missing

/-- An entry is rewritten with its address and its position. -/
theorem Directory.setInfo (directory : m.Directory) {new : CAddrInfo}
    (found : m.mapInfo.find nId = some info) (same_addr : new.toCNetAddr = info.toCNetAddr)
    (same_pos : new.nRandomPos = info.nRandomPos) : (m.setInfo nId new).Directory := by
  have entry (other : Int) (value : CAddrInfo) :
      (m.setInfo nId new).mapInfo.find other = some value →
        ∃ old, m.mapInfo.find other = some old ∧ value.toCNetAddr = old.toCNetAddr ∧
          value.nRandomPos = old.nRandomPos := by
    intro written
    by_cases same : other = nId
    · subst same
      rw [find_setInfo_self, Option.some.injEq] at written
      exact ⟨info, found, written ▸ same_addr, written ▸ same_pos⟩
    · exact ⟨value, by rwa [find_setInfo_of_ne same] at written, rfl, rfl⟩
  have entry' (other : Int) (old : CAddrInfo) (stored : m.mapInfo.find other = some old) :
      ∃ value, (m.setInfo nId new).mapInfo.find other = some value ∧
        value.toCNetAddr = old.toCNetAddr ∧ value.nRandomPos = old.nRandomPos := by
    by_cases same : other = nId
    · subst same
      obtain rfl := Option.some.inj (found.symm.trans stored)
      exact ⟨new, find_setInfo_self, same_addr, same_pos⟩
    · exact ⟨old, by rwa [find_setInfo_of_ne same], rfl, rfl⟩
  constructor
  · exact directory.nonneg
  · intro other value written
    obtain ⟨old, stored, -⟩ := entry other value written
    exact directory.range other old stored
  · intro addr other
    refine (directory.addr addr other).trans ?_
    constructor
    · rintro ⟨old, stored, rfl⟩
      obtain ⟨value, written, same, -⟩ := entry' other old stored
      exact ⟨value, written, same⟩
    · rintro ⟨value, written, rfl⟩
      obtain ⟨old, stored, same, -⟩ := entry other value written
      exact ⟨old, stored, same.symm⟩
  · intro pos other listed
    obtain ⟨old, stored, at_pos⟩ := directory.random pos other listed
    obtain ⟨value, written, -, same⟩ := entry' other old stored
    exact ⟨value, written, same.trans at_pos⟩
  · intro other value written
    obtain ⟨old, stored, -, same⟩ := entry other value written
    obtain ⟨pos, at_pos, listed⟩ := directory.position other old stored
    exact ⟨pos, same.trans at_pos, listed⟩

/-- The next id is free. -/
theorem Directory.find_nIdCount (directory : m.Directory) :
    m.mapInfo.find m.nIdCount = none := by
  cases used : m.mapInfo.find m.nIdCount with
  | none => rfl
  | some info => exact absurd (directory.range _ info used).2 (lt_irrefl _)

/-- Append an entry with the next id and the last position. -/
def push (info : CAddrInfo) (m : CAddrMan) : CAddrMan :=
  { m with
    nIdCount := m.nIdCount + 1
    mapInfo := m.mapInfo.insert m.nIdCount { info with nRandomPos := m.vRandom.length }
    mapAddr := update m.mapAddr info.toCNetAddr (some m.nIdCount)
    vRandom := m.vRandom ++ [m.nIdCount] }

@[simp]
theorem find_push_self : (m.push info).mapInfo.find m.nIdCount =
    some { info with nRandomPos := m.vRandom.length } :=
  OrderedMap.find_insert_self

@[simp]
theorem find_push_of_ne (different : nId ≠ m.nIdCount) :
    (m.push info).mapInfo.find nId = m.mapInfo.find nId :=
  OrderedMap.find_insert_of_ne different

/-- What `Create` does. -/
theorem create_eq_some {addr : CAddress} {addrSource : CNetAddr} {after : CAddrMan} :
    m.create addr addrSource = some (nId, info, after) ↔ m.nIdCount ≠ 2 ^ 31 - 1 ∧
      nId = m.nIdCount ∧
      info = { CAddrInfo.ofAddress addr addrSource with nRandomPos := m.vRandom.length } ∧
      after = m.push (.ofAddress addr addrSource) := by
  simp only [create]
  split
  · simp_all
  · simp only [Option.some.injEq, Prod.mk.injEq]
    constructor
    · rintro ⟨rfl, rfl, rfl⟩
      exact ⟨‹_›, rfl, rfl, rfl⟩
    · rintro ⟨-, rfl, rfl, rfl⟩
      exact ⟨rfl, rfl, rfl⟩

/-- A new address gets the next id and the last position. -/
theorem Directory.push (directory : m.Directory)
    (missing : m.find info.toCNetAddr = none) : (m.push info).Directory := by
  have free := directory.find_nIdCount
  have other_ne (other : Int) (value : CAddrInfo) (stored : m.mapInfo.find other = some value) :
      other ≠ m.nIdCount := by
    rintro rfl
    simp [free] at stored
  simp only [CAddrMan.push]
  constructor
  · exact directory.nonneg.trans (by simp)
  · intro other value written
    by_cases same : other = m.nIdCount
    · subst same
      exact ⟨directory.nonneg, by simp⟩
    · rw [OrderedMap.find_insert_of_ne same] at written
      have range := directory.range other value written
      exact ⟨range.1, range.2.trans (by simp)⟩
  · intro other_addr other
    by_cases same : other_addr = info.toCNetAddr
    · subst same
      simp only [update_self, Option.some.injEq]
      constructor
      · rintro rfl
        exact ⟨_, OrderedMap.find_insert_self, rfl⟩
      · rintro ⟨value, written, same⟩
        by_contra different
        rw [OrderedMap.find_insert_of_ne (Ne.symm different)] at written
        exact directory.find_eq_none missing other value written same
    · simp only [update_of_ne same, directory.addr]
      constructor
      · rintro ⟨value, stored, rfl⟩
        exact ⟨value, by rwa [OrderedMap.find_insert_of_ne (other_ne other value stored)], rfl⟩
      · rintro ⟨value, written, rfl⟩
        refine ⟨value, ?_, rfl⟩
        by_cases own : other = m.nIdCount
        · subst own
          obtain rfl := Option.some.inj (OrderedMap.find_insert_self.symm.trans written)
          exact absurd rfl same
        · rwa [OrderedMap.find_insert_of_ne own] at written
  · intro pos other listed
    rcases Nat.lt_or_ge pos m.vRandom.length with small | large
    · rw [List.getElem?_append_left small] at listed
      obtain ⟨value, stored, at_pos⟩ := directory.random pos other listed
      exact ⟨value, by rwa [OrderedMap.find_insert_of_ne (other_ne other value stored)], at_pos⟩
    · rw [List.getElem?_append_right large, List.getElem?_singleton] at listed
      split at listed
      · obtain rfl := Option.some.inj listed
        refine ⟨_, OrderedMap.find_insert_self, ?_⟩
        simp only [Nat.cast_inj]
        omega
      · simp at listed
  · intro other value written
    by_cases same : other = m.nIdCount
    · subst same
      obtain rfl := Option.some.inj (OrderedMap.find_insert_self.symm.trans written)
      exact ⟨m.vRandom.length, rfl, by simp⟩
    · rw [OrderedMap.find_insert_of_ne same] at written
      obtain ⟨pos, at_pos, listed⟩ := directory.position other value written
      have small := (List.getElem?_eq_some_iff.mp listed).1
      exact ⟨pos, at_pos, by rwa [List.getElem?_append_left small]⟩

/-- The same entries, up to their positions. -/
structure Repositioned (before after : OrderedMap Int CAddrInfo) : Prop where
  forward : ∀ nId info, before.find nId = some info →
    ∃ pos, after.find nId = some { info with nRandomPos := pos }
  backward : ∀ nId info, after.find nId = some info →
    ∃ pos, before.find nId = some { info with nRandomPos := pos }

theorem Repositioned.refl (map : OrderedMap Int CAddrInfo) : Repositioned map map :=
  ⟨fun _ _ found => ⟨_, found⟩, fun _ _ found => ⟨_, found⟩⟩

theorem Repositioned.trans {first second third : OrderedMap Int CAddrInfo}
    (left : Repositioned first second) (right : Repositioned second third) :
    Repositioned first third where
  forward nId info found := by
    obtain ⟨_, moved⟩ := left.forward nId info found
    obtain ⟨pos, moved_on⟩ := right.forward nId _ moved
    exact ⟨pos, moved_on⟩
  backward nId info found := by
    obtain ⟨_, moved⟩ := right.backward nId info found
    obtain ⟨pos, moved_on⟩ := left.backward nId _ moved
    exact ⟨pos, moved_on⟩

/-- No entry comes or goes. -/
theorem Repositioned.keys_eq {before after : OrderedMap Int CAddrInfo}
    (same : Repositioned before after) : after.keys = before.keys := by
  ext nId
  simp only [OrderedMap.mem_keys_iff]
  constructor
  · rintro ⟨info, found⟩
    obtain ⟨pos, stored⟩ := same.backward nId info found
    exact ⟨_, stored⟩
  · rintro ⟨info, stored⟩
    obtain ⟨pos, found⟩ := same.forward nId info stored
    exact ⟨_, found⟩

/-- No id is listed twice. -/
theorem Linked.nodup (linked : m.Linked) : m.vRandom.Nodup := by
  refine List.nodup_iff_getElem?_ne_getElem?.mpr fun first second before small same => ?_
  obtain ⟨info, found, at_first⟩ :=
    linked.random first _ (List.getElem?_eq_getElem (before.trans small))
  obtain ⟨other, other_found, at_second⟩ := linked.random second _
    (same.symm.trans (List.getElem?_eq_getElem (before.trans small)))
  obtain rfl := Option.some.inj (found.symm.trans other_found)
  omega

/-- Two entries change places. -/
theorem Linked.swapRandom (linked : m.Linked) {first second : Nat} {nId1 nId2 : Int}
    (listed1 : m.vRandom[first]? = some nId1) (listed2 : m.vRandom[second]? = some nId2) :
    ∃ mapInfo, m.swapRandom first second =
        some { m with
          mapInfo
          vRandom := (m.vRandom.set first nId2).set second nId1 } ∧
      ({ m with
        mapInfo
        vRandom := (m.vRandom.set first nId2).set second nId1 } : CAddrMan).Linked ∧
      Repositioned m.mapInfo mapInfo := by
  have small1 := (List.getElem?_eq_some_iff.mp listed1).1
  have small2 := (List.getElem?_eq_some_iff.mp listed2).1
  by_cases same : first = second
  · subst same
    obtain rfl := Option.some.inj (listed1.symm.trans listed2)
    have unchanged : (m.vRandom.set first nId1).set first nId1 = m.vRandom := by
      rw [List.set_set, ← (List.getElem?_eq_some_iff.mp listed1).2, List.set_getElem_self]
    rw [unchanged]
    exact ⟨m.mapInfo, by simp [CAddrMan.swapRandom], linked, .refl _⟩
  · obtain ⟨info1, found1, at1⟩ := linked.random first nId1 listed1
    obtain ⟨info2, found2, at2⟩ := linked.random second nId2 listed2
    have different : nId1 ≠ nId2 := by
      rintro rfl
      obtain rfl := Option.some.inj (found1.symm.trans found2)
      omega
    have moved (nId : Int) : ((m.mapInfo.insert nId1 { info1 with nRandomPos := second }).insert
        nId2 { info2 with nRandomPos := first }).find nId =
          if nId = nId2 then some { info2 with nRandomPos := (first : Int) }
          else if nId = nId1 then some { info1 with nRandomPos := (second : Int) }
          else m.mapInfo.find nId := by
      split_ifs with own2 own1
      · rw [own2, OrderedMap.find_insert_self]
      · rw [OrderedMap.find_insert_of_ne own2, own1, OrderedMap.find_insert_self]
      · rw [OrderedMap.find_insert_of_ne own2, OrderedMap.find_insert_of_ne own1]
    have repositioned : Repositioned m.mapInfo ((m.mapInfo.insert nId1
        { info1 with nRandomPos := second }).insert nId2 { info2 with nRandomPos := first }) := by
      constructor
      · intro nId info stored
        rw [moved]
        split_ifs with own2 own1
        · subst own2
          obtain rfl := Option.some.inj (found2.symm.trans stored)
          exact ⟨first, rfl⟩
        · subst own1
          obtain rfl := Option.some.inj (found1.symm.trans stored)
          exact ⟨second, rfl⟩
        · exact ⟨_, stored⟩
      · intro nId info found
        rw [moved] at found
        split_ifs at found with own2 own1
        · obtain rfl := Option.some.inj found
          exact ⟨info2.nRandomPos, own2 ▸ found2⟩
        · obtain rfl := Option.some.inj found
          exact ⟨info1.nRandomPos, own1 ▸ found1⟩
        · exact ⟨_, found⟩
    refine ⟨_, ?_, ?_, repositioned⟩
    · simp [CAddrMan.swapRandom, same, listed1, listed2, found1, found2, CAddrMan.setInfo]
    · constructor
      · intro pos nId listed
        simp only [List.getElem?_set, List.length_set] at listed
        rw [moved]
        split_ifs at listed with at_second at_first
        · obtain rfl := Option.some.inj listed
          exact ⟨{ info1 with nRandomPos := second }, by simp [different], by simp [at_second]⟩
        · obtain rfl := Option.some.inj listed
          exact ⟨{ info2 with nRandomPos := first }, by simp, by simp [at_first]⟩
        · obtain ⟨info, stored, at_pos⟩ := linked.random pos nId listed
          have other1 : nId ≠ nId1 := by
            rintro rfl
            obtain rfl := Option.some.inj (found1.symm.trans stored)
            omega
          have other2 : nId ≠ nId2 := by
            rintro rfl
            obtain rfl := Option.some.inj (found2.symm.trans stored)
            omega
          exact ⟨info, by simp [other1, other2, stored], at_pos⟩
      · intro nId info found
        rw [moved] at found
        split_ifs at found with own2 own1
        · obtain rfl := Option.some.inj found
          exact ⟨first, rfl, by simp [Ne.symm same, small1, own2]⟩
        · obtain rfl := Option.some.inj found
          exact ⟨second, rfl, by simp [small2, own1]⟩
        · obtain ⟨pos, at_pos, listed⟩ := linked.position nId info found
          have other1 : first ≠ pos := by
            rintro rfl
            exact own1 (Option.some.inj (listed.symm.trans listed1))
          have other2 : second ≠ pos := by
            rintro rfl
            exact own2 (Option.some.inj (listed.symm.trans listed2))
          exact ⟨pos, at_pos, by simp [other1, other2, listed]⟩
      · intro nId info other value found other_found same_addr
        obtain ⟨pos, stored⟩ := repositioned.backward nId info found
        obtain ⟨other_pos, other_stored⟩ := repositioned.backward other value other_found
        exact linked.distinct _ _ _ _ stored other_stored same_addr

/-- Ids and addresses stay with their entries. -/
theorem Directory.swapRandom (directory : m.Directory) {first second : Nat} {nId1 nId2 : Int}
    (listed1 : m.vRandom[first]? = some nId1) (listed2 : m.vRandom[second]? = some nId2) :
    ∃ mapInfo, m.swapRandom first second =
        some { m with
          mapInfo
          vRandom := (m.vRandom.set first nId2).set second nId1 } ∧
      ({ m with
        mapInfo
        vRandom := (m.vRandom.set first nId2).set second nId1 } : CAddrMan).Directory ∧
      Repositioned m.mapInfo mapInfo := by
  obtain ⟨mapInfo, swapped, linked, repositioned⟩ := directory.linked.swapRandom listed1 listed2
  refine ⟨mapInfo, swapped, ?_, repositioned⟩
  constructor
  · exact directory.nonneg
  · intro nId info found
    obtain ⟨pos, stored⟩ := repositioned.backward nId info found
    exact directory.range nId _ stored
  · intro addr nId
    refine (directory.addr addr nId).trans ?_
    constructor
    · rintro ⟨info, stored, rfl⟩
      obtain ⟨pos, found⟩ := repositioned.forward nId info stored
      exact ⟨_, found, rfl⟩
    · rintro ⟨info, found, rfl⟩
      obtain ⟨pos, stored⟩ := repositioned.backward nId info found
      exact ⟨_, stored, rfl⟩
  · exact linked.random
  · exact linked.position

/-- The entry at the last position is deleted. -/
theorem Directory.dropLast (directory : m.Directory) (found : m.mapInfo.find nId = some info)
    (last : m.vRandom[m.vRandom.length - 1]? = some nId) :
    ({ m with
      mapInfo := m.mapInfo.erase nId
      mapAddr := update m.mapAddr info.toCNetAddr none
      vRandom := m.vRandom.dropLast } : CAddrMan).Directory := by
  have at_last : info.nRandomPos = (m.vRandom.length - 1 : Nat) := by
    obtain ⟨stored, stored_found, at_pos⟩ := directory.random _ nId last
    obtain rfl := Option.some.inj (found.symm.trans stored_found)
    exact at_pos
  have erased {other : Int} {value : CAddrInfo} :
      (m.mapInfo.erase nId).find other = some value ↔
        other ≠ nId ∧ m.mapInfo.find other = some value := by
    by_cases same : other = nId
    · simp [same]
    · simp [same]
  constructor
  · exact directory.nonneg
  · intro other value stored
    exact directory.range other value (erased.mp stored).2
  · intro addr other
    by_cases same : addr = info.toCNetAddr
    · subst same
      simp only [update_self, reduceCtorEq, false_iff, not_exists, not_and]
      intro value stored same
      exact (erased.mp stored).1 (directory.id_eq (erased.mp stored).2 found same)
    · simp only [update_of_ne same, directory.addr, erased]
      constructor
      · rintro ⟨value, stored, rfl⟩
        refine ⟨value, ⟨?_, stored⟩, rfl⟩
        rintro rfl
        exact same (by rw [Option.some.inj (stored.symm.trans found)])
      · rintro ⟨value, ⟨_, stored⟩, rfl⟩
        exact ⟨value, stored, rfl⟩
  · intro pos other listed
    rw [List.getElem?_dropLast] at listed
    split_ifs at listed with before
    obtain ⟨value, stored, at_pos⟩ := directory.random pos other listed
    refine ⟨value, erased.mpr ⟨?_, stored⟩, at_pos⟩
    rintro rfl
    obtain rfl := Option.some.inj (found.symm.trans stored)
    omega
  · intro other value stored
    obtain ⟨different, stored⟩ := erased.mp stored
    obtain ⟨pos, at_pos, listed⟩ := directory.position other value stored
    have small := (List.getElem?_eq_some_iff.mp listed).1
    have before : pos < m.vRandom.length - 1 := by
      by_contra reaches
      obtain rfl : pos = m.vRandom.length - 1 := by omega
      exact different (Option.some.inj (listed.symm.trans last))
    exact ⟨pos, at_pos, by rw [List.getElem?_dropLast, if_pos before, listed]⟩

/-- An entry changes places with the last one and is deleted. -/
theorem Directory.delete (directory : m.Directory) (found : m.mapInfo.find nId = some info) :
    ∃ mapInfo vRandom, m.swapRandom info.nRandomPos.toNat (m.vRandom.length - 1) =
        some { m with mapInfo, vRandom } ∧
      vRandom.length = m.vRandom.length ∧ Repositioned m.mapInfo mapInfo ∧
      ({ m with
        mapInfo := mapInfo.erase nId
        mapAddr := update m.mapAddr info.toCNetAddr none
        vRandom := vRandom.dropLast } : CAddrMan).Directory := by
  obtain ⟨pos, at_pos, listed⟩ := directory.position nId info found
  have small := (List.getElem?_eq_some_iff.mp listed).1
  have last_small : m.vRandom.length - 1 < m.vRandom.length := by omega
  obtain ⟨mapInfo, swapped, swapped_directory, same⟩ :=
    directory.swapRandom listed (List.getElem?_eq_getElem last_small)
  rw [at_pos, Int.toNat_natCast]
  obtain ⟨_, moved⟩ := same.forward nId info found
  have deleted := swapped_directory.dropLast moved (by simp [last_small])
  exact ⟨mapInfo, _, swapped, by simp, same, deleted⟩

end CAddrMan

end FooCoin

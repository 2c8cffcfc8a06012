import FooCoin.AddrManEvict

/-!
# Addresses for other nodes

`GetAddr_` shuffles the first places of `vRandom` and gives the addresses that come there.  In every
state that passes `Check_` these are different addresses, as many as the limits say, and the shuffle
keeps the links between the list and the entries.
-/

namespace FooCoin

namespace CAddrMan

variable {crypto : Crypto} {chance : CallChance} {m : CAddrMan} {nId : Int} {info : CAddrInfo}

/-! ## What `Check_` says about the links -/

private theorem returnIf_bind {β : Type} {condition : Prop} [Decidable condition] {code : Int}
    {next : Unit → Except Int β} {result : β} :
    (returnIf condition code >>= next) = .ok result ↔ ¬condition ∧ next () = .ok result := by
  unfold returnIf
  split_ifs with holds
  · constructor
    · intro failed
      cases failed
    · exact fun passed => absurd holds passed.1
  · exact ⟨fun passed => ⟨holds, passed⟩, And.right⟩

/-- An entry stands in `mapAddr` and in `vRandom`. -/
private def Registered (m : CAddrMan) (entry : Int × CAddrInfo) : Prop :=
  (m.mapAddr entry.2.toCNetAddr).getD 0 = entry.1 ∧
    ∃ pos : Nat, entry.2.nRandomPos = pos ∧ m.vRandom[pos]? = some entry.1

private theorem registered_of_checks (addr : ¬(m.mapAddr info.toCNetAddr).getD 0 ≠ nId)
    (position : ¬(info.nRandomPos < 0 ∨ m.vRandom[info.nRandomPos.toNat]? ≠ some nId)) :
    m.Registered (nId, info) := by
  rw [not_or, not_not] at position
  refine ⟨not_not.mp addr, info.nRandomPos.toNat, ?_, position.2⟩
  exact (Int.toNat_of_nonneg (not_lt.mp position.1)).symm

/-- The loop over the entries counts no more ids than there are, and each entry is registered. -/
private theorem checkEntries_ok {entries : List (Int × CAddrInfo)} {setTried tried : Finset Int}
    {mapNew counted : OrderedMap Int Int}
    (checked : m.checkEntries entries setTried mapNew = .ok (tried, counted)) :
    (∀ entry ∈ entries, m.Registered entry) ∧
      tried.card + counted.keys.card ≤ setTried.card + mapNew.keys.card + entries.length := by
  induction entries generalizing setTried mapNew with
  | nil =>
      obtain ⟨rfl, rfl⟩ := Prod.mk.inj (Except.ok.inj checked)
      exact ⟨fun _ listed => absurd listed List.not_mem_nil, le_rfl⟩
  | cons entry entries induction =>
      obtain ⟨nId, info⟩ := entry
      cases inTried : info.fInTried with
      | true =>
          simp only [checkEntries, inTried, if_true, returnIf_bind] at checked
          obtain ⟨-, -, addr, position, -, -, rest⟩ := checked
          obtain ⟨registered, total⟩ := induction rest
          have added := Finset.card_insert_le nId setTried
          refine ⟨List.forall_mem_cons.mpr ⟨registered_of_checks addr position, registered⟩, ?_⟩
          rw [List.length_cons]
          omega
      | false =>
          simp only [checkEntries, inTried, Bool.false_eq_true, if_false, returnIf_bind] at checked
          obtain ⟨-, -, addr, position, -, -, rest⟩ := checked
          obtain ⟨registered, total⟩ := induction rest
          have added := OrderedMap.card_keys_insert_le mapNew nId info.nRefCount
          refine ⟨List.forall_mem_cons.mpr ⟨registered_of_checks addr position, registered⟩, ?_⟩
          rw [List.length_cons]
          omega

/-- A failed check has a code other than zero. -/
private def Coded {β : Type} (outcome : Except Int β) : Prop :=
  ∀ code, outcome = .error code → code ≠ 0

private theorem Coded.ok {β : Type} (value : β) : Coded (.ok value) := by
  rintro code ⟨⟩

private theorem Coded.error {β : Type} {code : Int} (nonzero : code ≠ 0) :
    Coded (.error code : Except Int β) := by
  rintro other ⟨⟩
  exact nonzero

private theorem Coded.returnIf (condition : Prop) [Decidable condition] {code : Int}
    (nonzero : code ≠ 0) : Coded (CAddrMan.returnIf condition code) := by
  unfold CAddrMan.returnIf
  split_ifs
  · exact .error nonzero
  · exact .ok ()

private theorem Coded.bind {β γ : Type} {outcome : Except Int β} {next : β → Except Int γ}
    (first : Coded outcome) (then_coded : ∀ value, Coded (next value)) :
    Coded (outcome >>= next) := by
  cases outcome with
  | ok value => exact then_coded value
  | error code => exact .error (first code rfl)

private theorem coded_checkEntries (entries : List (Int × CAddrInfo)) (setTried : Finset Int)
    (mapNew : OrderedMap Int Int) : Coded (m.checkEntries entries setTried mapNew) := by
  induction entries generalizing setTried mapNew with
  | nil => exact .ok _
  | cons entry entries induction =>
      obtain ⟨nId, info⟩ := entry
      cases inTried : info.fInTried with
      | true =>
          simp only [checkEntries, inTried, if_true]
          repeat refine .bind (.returnIf _ (by decide)) fun _ => ?_
          exact induction _ _
      | false =>
          simp only [checkEntries, inTried, Bool.false_eq_true, if_false]
          repeat refine .bind (.returnIf _ (by decide)) fun _ => ?_
          exact induction _ _

private theorem coded_checkTried (ns : List Int) (setTried : Finset Int) :
    Coded (checkTried ns setTried) := by
  induction ns generalizing setTried with
  | nil => exact .ok _
  | cons n ns induction =>
      rw [checkTried]
      split_ifs
      · exact induction _
      · exact .error (by decide)

private theorem coded_checkNew (ns : List Int) (mapNew : OrderedMap Int Int) :
    Coded (checkNew ns mapNew) := by
  induction ns generalizing mapNew with
  | nil => exact .ok _
  | cons n ns induction =>
      rw [checkNew]
      split
      · exact .error (by decide)
      · split_ifs
        · exact induction _
        · exact induction _

/-- `Check_` gives zero only where every check passes. -/
theorem check_ok_of_zero (consistent : m.check_ = 0) : m.check = .ok () := by
  have coded : Coded m.check := by
    refine .bind (.returnIf _ (by decide)) fun _ => .bind (coded_checkEntries _ _ _) ?_
    rintro ⟨setTried, mapNew⟩
    refine .bind (.returnIf _ (by decide)) fun _ => .bind (.returnIf _ (by decide)) fun _ => ?_
    refine .bind (coded_checkTried _ _) fun _ => .bind (coded_checkNew _ _) fun _ => ?_
    exact .bind (.returnIf _ (by decide)) fun _ => .returnIf _ (by decide)
  unfold check_ at consistent
  cases result : m.check with
  | ok passed => rfl
  | error code =>
      rw [result] at consistent
      exact absurd consistent (coded code result)

/-- Where every entry is listed and no more ids are, every listed id has an entry. -/
private theorem listed_has_entry (size : m.vRandom.length ≤ m.mapInfo.keys.card)
    (position : ∀ nId info, m.mapInfo.find nId = some info →
      ∃ pos : Nat, info.nRandomPos = pos ∧ m.vRandom[pos]? = some nId)
    {pos : Nat} (listed : m.vRandom[pos]? = some nId) :
    ∃ info, m.mapInfo.find nId = some info ∧ info.nRandomPos = pos := by
  have covered : m.mapInfo.keys ⊆ m.vRandom.toFinset := by
    intro other stored
    obtain ⟨info, found⟩ := OrderedMap.mem_keys_iff.mp stored
    obtain ⟨pos, -, there⟩ := position other info found
    exact List.mem_toFinset.mpr (List.mem_of_getElem? there)
  have same : m.mapInfo.keys = m.vRandom.toFinset :=
    Finset.eq_of_subset_of_card_le covered ((List.toFinset_card_le _).trans size)
  have nodup : m.vRandom.Nodup := by
    refine Multiset.toFinset_card_eq_card_iff_nodup.mp (le_antisymm (List.toFinset_card_le _) ?_)
    exact size.trans_eq (congrArg Finset.card same)
  have stored : nId ∈ m.mapInfo.keys :=
    same ▸ List.mem_toFinset.mpr (List.mem_of_getElem? listed)
  obtain ⟨info, found⟩ := OrderedMap.mem_keys_iff.mp stored
  obtain ⟨other, at_other, there⟩ := position nId info found
  have small := (List.getElem?_eq_some_iff.mp listed).1
  have here : pos = other := (List.getElem?_inj small nodup).mp (listed.trans there.symm)
  exact ⟨info, found, here ▸ at_other⟩

/-- A state that passes `Check_` has its list and its entries linked. -/
theorem linked_of_check (consistent : m.check_ = 0) : m.Linked := by
  have passed := check_ok_of_zero consistent
  simp only [check, returnIf_bind] at passed
  obtain ⟨size, passed⟩ := passed
  cases entries : m.checkEntries m.mapInfo.toList ∅ .empty with
  | error code =>
      rw [entries] at passed
      cases passed
  | ok sets =>
      obtain ⟨setTried, mapNew⟩ := sets
      rw [entries] at passed
      simp only [except_ok_bind, returnIf_bind] at passed
      obtain ⟨tried, news, -⟩ := passed
      obtain ⟨registered, total⟩ := checkEntries_ok entries
      have stored (nId : Int) (info : CAddrInfo) (found : m.mapInfo.find nId = some info) :
          m.Registered (nId, info) := registered _ (OrderedMap.mem_toList.mpr found)
      have position (nId : Int) (info : CAddrInfo) (found : m.mapInfo.find nId = some info) :=
        (stored nId info found).2
      have size : m.vRandom.length ≤ m.mapInfo.keys.card := by
        rw [OrderedMap.length_toList] at total
        have no_ids : (∅ : Finset Int).card = 0 := rfl
        have no_counts : (OrderedMap.empty : OrderedMap Int Int).keys.card = 0 := rfl
        omega
      constructor
      · exact fun pos nId listed => listed_has_entry size position listed
      · exact position
      · intro nId info other value found other_found same
        calc
          nId = (m.mapAddr info.toCNetAddr).getD 0 := (stored nId info found).1.symm
          _ = (m.mapAddr value.toCNetAddr).getD 0 := by rw [same]
          _ = other := (stored other value other_found).1

/-! ## The shuffle -/

/-- The address of an entry. -/
def address (m : CAddrMan) (nId : Int) : Option CAddress :=
  (m.mapInfo.find nId).map CAddrInfo.toCAddress

theorem Repositioned.address {after : CAddrMan} (same : Repositioned m.mapInfo after.mapInfo) :
    after.address = m.address := by
  funext nId
  unfold CAddrMan.address
  cases found : m.mapInfo.find nId with
  | some info =>
      obtain ⟨pos, moved⟩ := same.forward nId info found
      rw [moved]
      rfl
  | none =>
      cases moved : after.mapInfo.find nId with
      | none => rfl
      | some info =>
          obtain ⟨pos, stored⟩ := same.backward nId info moved
          rw [found] at stored
          cases stored

/-- The loop of `GetAddr_` permutes the places from its first one on and reads their addresses. -/
private theorem Linked.getAddrLoop (linked : m.Linked) (chance : CallChance) {left n : Nat}
    (within : n + left ≤ m.vRandom.length) (vAddr : List CAddress) :
    ∃ found after, CAddrMan.getAddrLoop chance left n vAddr m = some (vAddr ++ found, after) ∧
      after.Linked ∧ Repositioned m.mapInfo after.mapInfo ∧ after.vRandom.Perm m.vRandom ∧
      after.vRandom.take n = m.vRandom.take n ∧
      ((after.vRandom.drop n).take left).map m.address = found.map some := by
  induction left generalizing n vAddr m with
  | zero =>
      refine ⟨[], m, ?_, linked, .refl _, .refl _, rfl, by rw [List.take_zero]; rfl⟩
      rw [CAddrMan.getAddrLoop, List.append_nil]
  | succ left induction =>
      have small : n < m.vRandom.length := by omega
      have drawn := chance.getRandInt_lt n (m.vRandom.length - n) (by omega)
      generalize position : chance.getRandInt n (m.vRandom.length - n) + n = nRndPos
      have later : n ≤ nRndPos := by omega
      have inside : nRndPos < m.vRandom.length := by omega
      obtain ⟨mapInfo, swapped, middle_linked, moved⟩ := linked.swapRandom
        (List.getElem?_eq_getElem small) (List.getElem?_eq_getElem inside)
      generalize middle_eq : ({ m with
        mapInfo
        vRandom := (m.vRandom.set n m.vRandom[nRndPos]).set nRndPos m.vRandom[n] } : CAddrMan) =
          middle at swapped middle_linked
      have order : middle.vRandom =
          (m.vRandom.set n m.vRandom[nRndPos]).set nRndPos m.vRandom[n] := by rw [← middle_eq]
      have same : Repositioned m.mapInfo middle.mapInfo := by
        rw [← middle_eq]
        exact moved
      have exchanged : middle.vRandom.Perm m.vRandom := by
        rw [order]
        exact List.set_set_perm small inside
      have listed : n < middle.vRandom.length := exchanged.length_eq ▸ small
      obtain ⟨info, stored, -⟩ := middle_linked.random n _ (List.getElem?_eq_getElem listed)
      obtain ⟨found, after, rest, after_linked, after_same, perm, front, addresses⟩ :=
        @induction middle middle_linked (n + 1)
          (by rw [exchanged.length_eq]; omega) (vAddr ++ [info.toCAddress])
      refine ⟨info.toCAddress :: found, after, ?_, after_linked, same.trans after_same,
        perm.trans exchanged, ?_, ?_⟩
      · rw [CAddrMan.getAddrLoop, position, swapped]
        simp only [Option.bind_eq_bind, Option.bind_some, List.getElem?_eq_getElem listed, stored]
        rw [rest, List.append_assoc]
        rfl
      · have kept : middle.vRandom.take n = m.vRandom.take n := by
          rw [order, List.take_set_of_le later, List.take_set_of_le le_rfl]
        have shorter := congrArg (List.take n) front
        rwa [List.take_take, List.take_take, min_eq_left (Nat.le_succ n), kept] at shorter
      · have after_listed : n < after.vRandom.length := by rwa [perm.length_eq]
        have here : after.vRandom[n] = middle.vRandom[n] := by
          have at_n := congrArg (fun ids => ids[n]?) front
          simpa only [List.getElem?_take_of_lt (Nat.lt_succ_self n),
            List.getElem?_eq_getElem after_listed, List.getElem?_eq_getElem listed,
            Option.some.injEq] using at_n
        have read : middle.address middle.vRandom[n] = some info.toCAddress := by
          rw [CAddrMan.address, stored, Option.map_some]
        rw [List.drop_eq_getElem_cons after_listed, List.take_succ_cons, List.map_cons, here,
          ← same.address, read, addresses, List.map_cons]

/-- Listed entries have different addresses. -/
private theorem Linked.address_inj (linked : m.Linked) {first second : Int}
    (first_listed : first ∈ m.vRandom) (second_listed : second ∈ m.vRandom)
    (same : (m.address first).map (·.toCNetAddr) = (m.address second).map (·.toCNetAddr)) :
    first = second := by
  obtain ⟨_, there⟩ := List.mem_iff_getElem?.mp first_listed
  obtain ⟨_, other_there⟩ := List.mem_iff_getElem?.mp second_listed
  obtain ⟨info, found, -⟩ := linked.random _ _ there
  obtain ⟨other, other_found, -⟩ := linked.random _ _ other_there
  rw [address, address, found, other_found] at same
  exact linked.distinct _ _ _ _ found other_found (Option.some.inj same)

/-- Where the ids are of type `int`, so is the number of places that `GetAddr_` shuffles, and the
product that it computes on the way is a `size_t`. -/
theorem Linked.nodes_fit (linked : m.Linked)
    (ids : ∀ nId ∈ m.mapInfo.keys, -2 ^ 31 ≤ nId ∧ nId < 2 ^ 31) :
    23 * m.vRandom.length < 2 ^ 64 ∧ 23 * m.vRandom.length / 100 < 2 ^ 31 := by
  have within : m.vRandom.toFinset ⊆ Finset.Ico (-2 ^ 31 : Int) (2 ^ 31) := by
    intro nId listed
    obtain ⟨pos, there⟩ := List.mem_iff_getElem?.mp (List.mem_toFinset.mp listed)
    obtain ⟨info, found, -⟩ := linked.random pos nId there
    exact Finset.mem_Ico.mpr (ids nId (OrderedMap.mem_keys_iff.mpr ⟨info, found⟩))
  have card := Finset.card_le_card within
  rw [List.toFinset_card_of_nodup linked.nodup, Int.card_Ico] at card
  omega

/-- From every state with the links that `Check_` asks for, `GetAddr_` gives different known
addresses, as many as the limits say, and leaves `vRandom` permuted with every entry at its
position. -/
theorem getAddr_exact (linked : m.Linked) (chance : CallChance) :
    ∃ vAddr after, m.getAddr chance = some (vAddr, after) ∧
      vAddr.length = min 2500 (m.vRandom.length * 23 / 100) ∧
      (vAddr.map (·.toCNetAddr)).Nodup ∧
      (∀ addr ∈ vAddr, ∃ nId info, m.mapInfo.find nId = some info ∧ info.toCAddress = addr) ∧
      after.vRandom.Perm m.vRandom ∧ Repositioned m.mapInfo after.mapInfo ∧
      ∀ nId info, after.mapInfo.find nId = some info →
        ∃ pos : Nat, info.nRandomPos = pos ∧ after.vRandom[pos]? = some nId := by
  have inside : 0 + min (23 * m.vRandom.length / 100) 2500 ≤ m.vRandom.length := by omega
  obtain ⟨vAddr, after, done, after_linked, same, perm, -, read⟩ :=
    linked.getAddrLoop chance inside []
  rw [List.drop_zero] at read
  generalize taken : after.vRandom.take (min (23 * m.vRandom.length / 100) 2500) = ids at read
  have listed : ∀ nId ∈ ids, nId ∈ m.vRandom := by
    intro nId member
    rw [← taken] at member
    exact perm.mem_iff.mp (List.mem_of_mem_take member)
  refine ⟨vAddr, after, done, ?_, ?_, ?_, perm, same, after_linked.position⟩
  · have lengths := congrArg List.length read
    rw [List.length_map, List.length_map, ← taken, List.length_take, perm.length_eq] at lengths
    omega
  · have distinct : (ids.map fun nId => (m.address nId).map (·.toCNetAddr)).Nodup := by
      refine List.Nodup.map_on ?_ ?_
      · exact fun first member second other same =>
          linked.address_inj (listed first member) (listed second other) same
      · exact taken ▸ after_linked.nodup.sublist (List.take_sublist _ _)
    have mapped := congrArg (List.map (Option.map (·.toCNetAddr))) read
    rw [List.map_map, List.map_map] at mapped
    refine .of_map some ?_
    rw [List.map_map]
    exact mapped ▸ distinct
  · intro addr member
    have mem : some addr ∈ ids.map m.address := read ▸ List.mem_map_of_mem member
    obtain ⟨nId, -, known⟩ := List.mem_map.mp mem
    obtain ⟨info, found, same_addr⟩ := Option.map_eq_some_iff.mp known
    exact ⟨nId, info, found, same_addr⟩

/-! ## A crowded network -/

private theorem find_crowded (found : crowded.mapInfo.find nId = some info) :
    ∃ number < 64, nId = (number : Nat) ∧ info.nRandomPos = (number : Nat) ∧
      info.toCNetAddr = (crowdedPeer number).toCNetAddr := by
  by_cases inside : 0 ≤ nId ∧ nId < 64
  · have number : (nId.toNat : Int) = nId := Int.toNat_of_nonneg inside.1
    simp only [crowded, inside, and_self, if_true, Option.some.injEq] at found
    subst found
    exact ⟨nId.toNat, by omega, number.symm, number.symm, rfl⟩
  · simp [crowded, inside] at found

private theorem crowdedPeer_inj {first second : Nat} (first_small : first < 64)
    (second_small : second < 64)
    (same : (crowdedPeer first).toCNetAddr = (crowdedPeer second).toCNetAddr) : first = second := by
  have bytes : UInt8.ofNat first = UInt8.ofNat second := by
    simpa [crowdedPeer] using congrArg (fun addr => addr.ip[15]) same
  have numbers := congrArg UInt8.toNat bytes
  rw [UInt8.toNat_ofNat_of_lt' (by simp [UInt8.size]; omega),
    UInt8.toNat_ofNat_of_lt' (by simp [UInt8.size]; omega)] at numbers
  exact numbers

theorem crowded_linked : crowded.Linked where
  random pos nId listed := by
    have small : pos < 64 := by simpa [crowded] using (List.getElem?_eq_some_iff.mp listed).1
    have there : crowded.vRandom[pos]? = some (pos : Int) := by simp [crowded, small]
    obtain rfl := Option.some.inj (there.symm.trans listed)
    obtain ⟨info, found⟩ : ∃ info, crowded.mapInfo.find (pos : Int) = some info := by
      simp [crowded, small]
    obtain ⟨number, -, same, at_number, -⟩ := find_crowded found
    exact ⟨info, found, at_number.trans same.symm⟩
  position nId info found := by
    obtain ⟨number, small, rfl, at_number, -⟩ := find_crowded found
    refine ⟨number, at_number, ?_⟩
    simp [crowded, small]
  distinct nId info other value found other_found same := by
    obtain ⟨number, small, rfl, -, addr⟩ := find_crowded found
    obtain ⟨other_number, other_small, rfl, -, other_addr⟩ := find_crowded other_found
    rw [addr, other_addr] at same
    rw [crowdedPeer_inj small other_small same]

theorem getAddr_exact_crowded : ∃ vAddr after, crowded.getAddr lastFirst = some (vAddr, after) ∧
    vAddr.length = 14 ∧ (vAddr.map (·.toCNetAddr)).Nodup ∧ after.vRandom.Perm crowded.vRandom := by
  obtain ⟨vAddr, after, done, length, distinct, -, perm, -⟩ :=
    getAddr_exact crowded_linked lastFirst
  exact ⟨vAddr, after, done, length, distinct, perm⟩

end CAddrMan

end FooCoin

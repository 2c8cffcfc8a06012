import Mathlib.Data.Finset.Sort
import Mathlib.Tactic

/-!
# Ordered maps

A finite map that lists its entries by ascending keys.
-/

open Function

/-- A finite map with ordered keys. -/
@[ext]
structure OrderedMap (κ β : Type*) where
  find : κ → Option β
  keys : Finset κ
  mem_keys : ∀ key, key ∈ keys ↔ find key ≠ none

namespace OrderedMap

variable {κ β : Type*}

/-- The map without entries. -/
def empty : OrderedMap κ β where
  find _ := none
  keys := ∅
  mem_keys := by simp

@[simp]
theorem find_empty (key : κ) : (empty : OrderedMap κ β).find key = none := rfl

theorem mem_keys_iff {map : OrderedMap κ β} {key : κ} :
    key ∈ map.keys ↔ ∃ value, map.find key = some value := by
  rw [map.mem_keys, Option.ne_none_iff_exists']

variable [LinearOrder κ]

/-- Set the value of a key. -/
def insert (map : OrderedMap κ β) (key : κ) (value : β) : OrderedMap κ β where
  find := update map.find key (some value)
  keys := Insert.insert key map.keys
  mem_keys other := by
    by_cases same : other = key
    · simp [same]
    · simp [same, map.mem_keys]

/-- Remove a key. -/
def erase (map : OrderedMap κ β) (key : κ) : OrderedMap κ β where
  find := update map.find key none
  keys := map.keys.erase key
  mem_keys other := by
    by_cases same : other = key
    · simp [same]
    · simp [same, map.mem_keys]

/-- The entries by ascending keys. -/
def toList (map : OrderedMap κ β) : List (κ × β) :=
  (map.keys.sort (· ≤ ·)).filterMap fun key => (map.find key).map (key, ·)

variable {map : OrderedMap κ β} {key other : κ} {value : β}

@[simp]
theorem find_insert_self : (map.insert key value).find key = some value := update_self ..

@[simp]
theorem find_insert_of_ne (different : other ≠ key) :
    (map.insert key value).find other = map.find other := update_of_ne different ..

@[simp]
theorem find_erase_self : (map.erase key).find key = none := update_self ..

@[simp]
theorem find_erase_of_ne (different : other ≠ key) :
    (map.erase key).find other = map.find other := update_of_ne different ..

@[simp]
theorem insert_insert (map : OrderedMap κ β) (key : κ) (first second : β) :
    (map.insert key first).insert key second = map.insert key second := by
  apply OrderedMap.ext
  · simp [insert]
  · simp [insert]

/-- Values of different keys are set in any order. -/
theorem insert_comm (map : OrderedMap κ β) (different : key ≠ other) (first second : β) :
    (map.insert key first).insert other second = (map.insert other second).insert key first := by
  apply OrderedMap.ext
  · exact update_comm different ..
  · exact Finset.insert_comm ..

@[simp]
theorem mem_toList : (key, value) ∈ map.toList ↔ map.find key = some value := by
  simp only [toList, List.mem_filterMap, Finset.mem_sort, Option.map_eq_some_iff, Prod.mk.injEq]
  constructor
  · rintro ⟨_, _, _, found, rfl, rfl⟩
    exact found
  · intro found
    exact ⟨key, mem_keys_iff.mpr ⟨value, found⟩, value, found, rfl, rfl⟩

/-- The keys of the list are the sorted keys. -/
theorem map_fst_toList : map.toList.map Prod.fst = map.keys.sort (· ≤ ·) := by
  have present : ∀ key ∈ map.keys.sort (· ≤ ·), (map.find key).isSome := by
    intro key member
    obtain ⟨value, found⟩ := mem_keys_iff.mp ((Finset.mem_sort _).mp member)
    rw [found, Option.isSome_some]
  rw [toList]
  generalize map.keys.sort (· ≤ ·) = keys at present
  induction keys with
  | nil => rfl
  | cons key keys induction =>
      obtain ⟨value, found⟩ := Option.isSome_iff_exists.mp (present key List.mem_cons_self)
      simp [found, induction fun other member => present other (List.mem_cons_of_mem key member)]

/-- No key is listed twice. -/
theorem nodup_keys_toList : (map.toList.map Prod.fst).Nodup := by
  rw [map_fst_toList]
  exact map.keys.sort_nodup _

@[simp]
theorem length_toList : map.toList.length = map.keys.card := by
  rw [← List.length_map Prod.fst, map_fst_toList, Finset.length_sort]

theorem card_keys_insert_le (map : OrderedMap κ β) (key : κ) (value : β) :
    (map.insert key value).keys.card ≤ map.keys.card + 1 := Finset.card_insert_le ..

/-- The list of the entries is the one that is sorted. -/
theorem toList_eq {entries : List (κ × β)} (sorted : (entries.map Prod.fst).Pairwise (· < ·))
    (found : ∀ key value, map.find key = some value ↔ (key, value) ∈ entries) :
    map.toList = entries := by
  have keys : map.keys = (entries.map Prod.fst).toFinset := by
    ext key
    simp [mem_keys_iff, found]
  have same := (List.toFinset_sort (· ≤ ·) (sorted.imp ne_of_lt)).mpr (sorted.imp le_of_lt)
  rw [toList, keys, same, List.filterMap_map]
  calc
    entries.filterMap _ = entries.filterMap some := by
      refine List.filterMap_congr fun entry member => ?_
      simp only [Function.comp, (found entry.1 entry.2).mpr member, Option.map_some]
    _ = entries := List.filterMap_some

/-! ## Building a map from its entries -/

omit [LinearOrder κ] in
/-- Maps with the same values are equal. -/
theorem ext_find {first second : OrderedMap κ β}
    (same : ∀ key, first.find key = second.find key) : first = second := by
  apply OrderedMap.ext
  · exact funext same
  · ext key
    rw [first.mem_keys, second.mem_keys, same]

/-- Set the value of a key that has none. -/
def insertNew (map : OrderedMap κ β) (key : κ) (value : β) : OrderedMap κ β :=
  if (map.find key).isSome then map else map.insert key value

/-- The map of some entries. -/
def ofEntries (entries : List (κ × β)) : OrderedMap κ β :=
  entries.foldl (fun map entry => map.insertNew entry.1 entry.2) empty

private theorem find_foldl_insertNew {entries : List (κ × β)}
    (nodup : (entries.map Prod.fst).Nodup) {start : OrderedMap κ β}
    (fresh : ∀ entry ∈ entries, start.find entry.1 = none) (key : κ) (value : β) :
    (entries.foldl (fun map entry => map.insertNew entry.1 entry.2) start).find key = some value ↔
      start.find key = some value ∨ (key, value) ∈ entries := by
  induction entries generalizing start with
  | nil => simp
  | cons entry entries induction =>
      obtain ⟨other, nodup⟩ := List.nodup_cons.mp nodup
      have absent := fresh entry List.mem_cons_self
      have new : start.insertNew entry.1 entry.2 = start.insert entry.1 entry.2 := by
        simp [insertNew, absent]
      have later : ∀ next ∈ entries, (start.insert entry.1 entry.2).find next.1 = none := by
        intro next member
        rw [find_insert_of_ne]
        · exact fresh next (List.mem_cons_of_mem entry member)
        · intro same
          exact other (same ▸ List.mem_map_of_mem member)
      rw [List.foldl_cons, new, induction nodup later, List.mem_cons, ← or_assoc]
      refine or_congr_left ?_
      by_cases here : key = entry.1
      · subst here
        simp [absent, Prod.ext_iff, eq_comm]
      · simp [here, Prod.ext_iff]

/-- A map is built again from its entries. -/
theorem ofEntries_toList (map : OrderedMap κ β) : ofEntries map.toList = map := by
  refine ext_find fun key => Option.ext fun value => ?_
  rw [ofEntries, find_foldl_insertNew map.nodup_keys_toList (fun _ _ => rfl), mem_toList]
  simp

end OrderedMap

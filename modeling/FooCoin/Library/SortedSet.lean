import Mathlib.Tactic

/-!
# Sets in the order of a key

A finite set kept in strictly ascending order of a key, with the operations of an ordered container:
insertion, removal and the first element that is not below a bound.
-/

variable {α κ : Type} [LinearOrder κ]

/-- Elements in strictly ascending order of their keys. -/
structure SortedSet (key : α → κ) where
  /-- The elements, least first. -/
  elements : List α
  /-- The order. -/
  sorted : elements.Pairwise fun left right => key left < key right

namespace SortedSet

variable {key : α → κ}

/-- The empty set. -/
def empty : SortedSet key := ⟨[], .nil⟩

/-- The number of elements. -/
def size (set : SortedSet key) : Nat := set.elements.length

/-- An element has the key. -/
def contains (set : SortedSet key) (value : α) : Bool :=
  set.elements.any fun other => key other = key value

/-- The element with the key. -/
def lookup (set : SortedSet key) (bound : κ) : Option α :=
  set.elements.find? fun value => key value = bound

/-- The first element whose key is not below the bound. -/
def lowerBound (set : SortedSet key) (bound : κ) : Option α :=
  set.elements.find? fun value => bound ≤ key value

/-- Remove the element with the key. -/
def erase (set : SortedSet key) (value : α) : SortedSet key where
  elements := set.elements.filter fun other => key other ≠ key value
  sorted := set.sorted.filter _

/-- Insert in order, unless an element has the key. -/
def insertInto (key : α → κ) (value : α) : List α → List α
  | [] => [value]
  | other :: rest =>
      if key value < key other then value :: other :: rest
      else if key value = key other then other :: rest
      else other :: insertInto key value rest

theorem mem_insertInto {value other : α} {elements : List α}
    (mem : other ∈ insertInto key value elements) : other = value ∨ other ∈ elements := by
  induction elements with
  | nil => simpa [insertInto] using mem
  | cons first rest induction =>
      simp only [insertInto] at mem
      split_ifs at mem with below equal
      · simpa using mem
      · exact .inr mem
      · rcases List.mem_cons.mp mem with rfl | mem
        · exact .inr List.mem_cons_self
        · rcases induction mem with rfl | old
          · exact .inl rfl
          · exact .inr (List.mem_cons_of_mem _ old)

private theorem sorted_insertInto (value : α) {elements : List α}
    (sorted : elements.Pairwise fun left right => key left < key right) :
    (insertInto key value elements).Pairwise fun left right => key left < key right := by
  induction elements with
  | nil => simp [insertInto]
  | cons first rest induction =>
      obtain ⟨first_below, rest_sorted⟩ := List.pairwise_cons.mp sorted
      simp only [insertInto]
      split_ifs with below equal
      · refine .cons ?_ sorted
        intro other mem
        rcases List.mem_cons.mp mem with rfl | mem
        · exact below
        · exact below.trans (first_below other mem)
      · exact sorted
      · have above : key first < key value :=
          lt_of_le_of_ne (not_lt.mp below) (Ne.symm equal)
        refine .cons ?_ (induction rest_sorted)
        intro other mem
        rcases mem_insertInto mem with rfl | mem
        · exact above
        · exact first_below other mem

/-- Add an element, unless one has its key. -/
def insert (set : SortedSet key) (value : α) : SortedSet key where
  elements := insertInto key value set.elements
  sorted := sorted_insertInto value set.sorted

theorem length_insertInto_le (value : α) (elements : List α) :
    (insertInto key value elements).length ≤ elements.length + 1 := by
  induction elements with
  | nil => simp [insertInto]
  | cons first rest induction =>
      simp only [insertInto]
      split_ifs
      · simp
      · simp
      · simpa using induction

theorem size_insert_le (set : SortedSet key) (value : α) :
    (set.insert value).size ≤ set.size + 1 :=
  length_insertInto_le value set.elements

/-- Removing an element makes the set smaller. -/
theorem size_erase_lt {set : SortedSet key} {value : α} (mem : value ∈ set.elements) :
    (set.erase value).size < set.size := by
  apply List.length_filter_lt_length_iff_exists.mpr
  exact ⟨value, mem, by simp⟩

theorem mem_of_lowerBound {set : SortedSet key} {bound : κ} {value : α}
    (found : set.lowerBound bound = some value) : value ∈ set.elements :=
  List.mem_of_find?_eq_some found

/-- No key occurs twice. -/
theorem nodup_keys (set : SortedSet key) : (set.elements.map key).Nodup :=
  (List.pairwise_map.mpr set.sorted).imp ne_of_lt

/-- A key has one element. -/
theorem eq_of_key {set : SortedSet key} {left right : α} (left_mem : left ∈ set.elements)
    (right_mem : right ∈ set.elements) (same : key left = key right) : left = right :=
  List.inj_on_of_nodup_map set.nodup_keys left_mem right_mem same

theorem lookup_eq_some {set : SortedSet key} {bound : κ} {value : α} :
    set.lookup bound = some value ↔ value ∈ set.elements ∧ key value = bound := by
  constructor
  · intro found
    exact ⟨List.mem_of_find?_eq_some found, by simpa using List.find?_some found⟩
  · rintro ⟨member, rfl⟩
    cases found : set.lookup (key value) with
    | none => simpa using List.find?_eq_none.mp found value member
    | some other =>
        have same : key other = key value := by simpa using List.find?_some found
        rw [eq_of_key (List.mem_of_find?_eq_some found) member same]

theorem lookup_eq_none {set : SortedSet key} {bound : κ} :
    set.lookup bound = none ↔ ∀ value ∈ set.elements, key value ≠ bound := by
  simp [lookup]

theorem mem_erase {set : SortedSet key} {value other : α} :
    other ∈ (set.erase value).elements ↔ other ∈ set.elements ∧ key other ≠ key value := by
  simp [erase]

private theorem mem_insertInto_of_mem {value other : α} {elements : List α}
    (member : other ∈ elements) : other ∈ insertInto key value elements := by
  induction elements with
  | nil => simp at member
  | cons first rest induction =>
      simp only [insertInto]
      split_ifs
      · exact List.mem_cons_of_mem _ member
      · exact member
      · rcases List.mem_cons.mp member with rfl | later
        · exact List.mem_cons_self
        · exact List.mem_cons_of_mem _ (induction later)

private theorem mem_insertInto_self {value : α} {elements : List α}
    (fresh : ∀ other ∈ elements, key other ≠ key value) :
    value ∈ insertInto key value elements := by
  induction elements with
  | nil => simp [insertInto]
  | cons first rest induction =>
      have later := induction fun next member => fresh next (List.mem_cons_of_mem _ member)
      simp only [insertInto, if_neg (Ne.symm (fresh first List.mem_cons_self))]
      split_ifs
      · exact List.mem_cons_self
      · exact List.mem_cons_of_mem _ later

/-- Inserting adds the element if no other one has its key. -/
theorem mem_insert {set : SortedSet key} {value other : α}
    (same : ∀ old ∈ set.elements, key old = key value → old = value) :
    other ∈ (set.insert value).elements ↔ other = value ∨ other ∈ set.elements := by
  constructor
  · exact mem_insertInto
  · rintro (rfl | old)
    · by_cases present : other ∈ set.elements
      · exact mem_insertInto_of_mem present
      · exact mem_insertInto_self fun old member equal => present (same old member equal ▸ member)
    · exact mem_insertInto_of_mem old

private theorem mem_foldl_erase_from {drop : α → Bool} (visited : List α) {set : SortedSet key}
    {other : α} :
    other ∈ (visited.foldl (fun set value => if drop value then set.erase value else set)
        set).elements ↔
      other ∈ set.elements ∧ ∀ value ∈ visited, drop value = true → key other ≠ key value := by
  induction visited generalizing set with
  | nil => simp
  | cons first visited induction =>
      rw [List.foldl_cons, induction, List.forall_mem_cons, ← and_assoc]
      refine and_congr_left fun _ => ?_
      split_ifs with dropped
      · rw [mem_erase]
        simp [dropped]
      · simp [dropped]

/-- Removing elements on the way through the set leaves the others. -/
theorem mem_foldl_erase {drop : α → Bool} {set : SortedSet key} {other : α} :
    other ∈ (set.elements.foldl (fun set value => if drop value then set.erase value else set)
        set).elements ↔ other ∈ set.elements ∧ drop other = false := by
  rw [mem_foldl_erase_from]
  refine and_congr_right fun member => ⟨fun kept => ?_, fun kept value listed dropped same => ?_⟩
  · by_contra dropped
    exact kept other member (Bool.eq_true_of_not_eq_false dropped) rfl
  · rw [← eq_of_key member listed same, kept] at dropped
    contradiction

/-- Removing an element makes the set smaller by one. -/
theorem size_erase {set : SortedSet key} {value : α} (member : value ∈ set.elements) :
    (set.erase value).size + 1 = set.size := by
  have single : set.elements.countP (fun other => key other = key value) = 1 := by
    have once := List.count_eq_one_of_mem set.nodup_keys (List.mem_map_of_mem member)
    rw [List.count, List.countP_map] at once
    rw [← once]
    exact List.countP_congr fun other _ => by simp
  have parts := List.length_eq_countP_add_countP
    (fun other => decide (key other = key value)) (l := set.elements)
  rw [single] at parts
  rw [size, size, parts, erase, ← List.countP_eq_length_filter, Nat.add_comm]
  congr 1
  exact List.countP_congr fun other _ => by simp

private theorem perm_insertInto {value : α} {elements : List α}
    (fresh : ∀ other ∈ elements, key other ≠ key value) :
    (insertInto key value elements).Perm (value :: elements) := by
  induction elements with
  | nil => exact .refl _
  | cons first rest induction =>
      have later := induction fun next member => fresh next (List.mem_cons_of_mem _ member)
      simp only [insertInto, if_neg (Ne.symm (fresh first List.mem_cons_self))]
      split_ifs with below
      · exact .refl _
      · exact (later.cons first).trans (.swap value first rest)

/-- A new element joins the others. -/
theorem perm_insert {set : SortedSet key} {value : α}
    (fresh : ∀ other ∈ set.elements, key other ≠ key value) :
    (set.insert value).elements.Perm (value :: set.elements) :=
  perm_insertInto fresh

/-- Removing one of the elements leaves the others. -/
theorem perm_erase {set : SortedSet key} {value : α} {rest : List α}
    (same : set.elements.Perm (value :: rest)) : (set.erase value).elements.Perm rest := by
  have keys : ((value :: rest).map key).Nodup := (same.map key).nodup_iff.mp set.nodup_keys
  have others : ∀ other ∈ rest, key other ≠ key value := by
    intro other member equal
    exact (List.nodup_cons.mp keys).1 (equal ▸ List.mem_map_of_mem member)
  have kept : (value :: rest).filter (fun other => key other ≠ key value) = rest := by
    rw [List.filter_cons_of_neg (by simp), List.filter_eq_self]
    simpa using others
  rw [erase]
  exact (same.filter _).trans (.of_eq kept)

theorem erase_erase (set : SortedSet key) (value : α) :
    (set.erase value).erase value = set.erase value := by
  simp [erase]

theorem size_eq_zero {set : SortedSet key} : set.size = 0 ↔ set.elements = [] :=
  List.length_eq_zero_iff

end SortedSet

import Mathlib.Tactic

/-!
# Trees of paired lists

A list is hashed level by level: neighbours are paired, an odd last element with itself, and each
pair becomes one element of the next level.  Lists without repetition that climb to the same root are
equal, as long as the node function tells the pairs of both trees apart and no node is a leaf.
-/

namespace PairTree

variable {ν : Type} {node : ν → ν → ν} {hashed : Set (ν × ν)} {left right : List ν}

/-- The pairs of a level; an odd last element is paired with itself. -/
def pairs : List ν → List (ν × ν)
  | [] => []
  | [last] => [(last, last)]
  | first :: second :: level => (first, second) :: pairs level

/-- The level above. -/
def level (node : ν → ν → ν) (below : List ν) : List ν :=
  (pairs below).map fun pair => node pair.1 pair.2

/-- After `steps` levels the list has become the root, and every pair on the way is among the hashed
ones. -/
structure Climbs (node : ν → ν → ν) (hashed : Set (ν × ν)) (leaves : List ν) (steps : Nat)
    (root : ν) : Prop where
  /-- The last level. -/
  root_eq : (level node)^[steps] leaves = [root]
  /-- The pairs of the levels below it. -/
  pairs_mem : ∀ step < steps, ∀ pair ∈ pairs ((level node)^[step] leaves), pair ∈ hashed

theorem Climbs.mono {wider : Set (ν × ν)} {leaves : List ν} {steps : Nat} {root : ν}
    (climbs : Climbs node hashed leaves steps root) (subset : hashed ⊆ wider) :
    Climbs node wider leaves steps root :=
  ⟨climbs.root_eq, fun step within pair mem => subset (climbs.pairs_mem step within pair mem)⟩

/-- The node function tells the hashed pairs apart. -/
def Separates (node : ν → ν → ν) (hashed : Set (ν × ν)) : Prop :=
  hashed.InjOn fun pair => node pair.1 pair.2

theorem length_level_lt {first second : ν} (rest : List ν) :
    (level node (first :: second :: rest)).length < rest.length + 2 := by
  have length_pairs (below : List ν) : (pairs below).length ≤ below.length := by
    induction below using pairs.induct with
    | case1 => simp [pairs]
    | case2 last => simp [pairs]
    | case3 first second rest induction =>
        simp only [pairs, List.length_cons]
        omega
  have rest_le := length_pairs rest
  simp only [level, pairs, List.map_cons, List.length_cons, List.length_map]
  omega

@[simp]
theorem length_level (below : List ν) : (level node below).length = (below.length + 1) / 2 := by
  rw [level, List.length_map]
  induction below using pairs.induct with
  | case1 => simp [pairs]
  | case2 last => simp [pairs]
  | case3 first second rest induction =>
      simp only [pairs, List.length_cons, induction]
      omega

/-- An element of the level above has two neighbours, or the last element twice, below it. -/
theorem getElem?_level {below : List ν} {k : Nat} {left right : ν} (at_left : below[2 * k]? = some left)
    (at_right : below[min (2 * k + 1) (below.length - 1)]? = some right) :
    (level node below)[k]? = some (node left right) := by
  rw [level, List.getElem?_map, Option.map_eq_some_iff]
  refine ⟨(left, right), ?_, rfl⟩
  induction below using pairs.induct generalizing k with
  | case1 => simp at at_left
  | case2 last =>
      cases k with
      | zero => simp_all [pairs]
      | succ k => simp at at_left
  | case3 first second rest induction =>
      cases k with
      | zero => simp_all [pairs]
      | succ k =>
          have inside : 2 * k < rest.length := by
            have small := (List.getElem?_eq_some_iff.mp at_left).1
            simp only [List.length_cons] at small
            omega
          rw [pairs, List.getElem?_cons_succ]
          have at_left' : rest[2 * k]? = some left := at_left
          have shifted : min (2 * (k + 1) + 1) ((first :: second :: rest).length - 1) =
              min (2 * k + 1) (rest.length - 1) + 2 := by
            simp only [List.length_cons]
            omega
          rw [shifted] at at_right
          exact induction at_left' at_right

/-- The first components of the pairs are among the elements. -/
private theorem sublist_pairs (below : List ν) :
    ((pairs below).map Prod.fst).Sublist below := by
  induction below using pairs.induct with
  | case1 => exact .slnil
  | case2 last => exact .refl _
  | case3 first second rest induction =>
      simp only [pairs, List.map_cons]
      exact (induction.cons second).cons_cons first

/-- Without repetition the pairs determine the list. -/
private theorem eq_of_pairs (left_nodup : left.Nodup) (right_nodup : right.Nodup)
    (same : pairs left = pairs right) : left = right := by
  induction left using pairs.induct generalizing right with
  | case1 =>
      cases right using pairs.induct with
      | case1 => rfl
      | case2 last => simp [pairs] at same
      | case3 first second rest => simp [pairs] at same
  | case2 last =>
      cases right using pairs.induct with
      | case1 => simp [pairs] at same
      | case2 other =>
          simp only [pairs, List.cons.injEq, Prod.mk.injEq, and_true, and_self] at same
          rw [same]
      | case3 first second rest =>
          simp only [pairs, List.cons.injEq, Prod.mk.injEq] at same
          have repeated : first = second := same.1.1.symm.trans same.1.2
          simp [repeated] at right_nodup
  | case3 first second rest induction =>
      cases right using pairs.induct with
      | case1 => simp [pairs] at same
      | case2 last =>
          simp only [pairs, List.cons.injEq, Prod.mk.injEq] at same
          have repeated : first = second := same.1.1.trans same.1.2.symm
          simp [repeated] at left_nodup
      | case3 other next more =>
          simp only [pairs, List.cons.injEq, Prod.mk.injEq] at same
          obtain ⟨⟨rfl, rfl⟩, same_rest⟩ := same
          have rest_eq := induction (left_nodup.of_cons.of_cons) (right_nodup.of_cons.of_cons)
            same_rest
          rw [rest_eq]

/-- A map that is injective among the elements determines the list. -/
theorem map_eq_on {α β : Type} {f : α → β} {among : Set α} (injective : among.InjOn f)
    {first second : List α} (first_mem : ∀ value ∈ first, value ∈ among)
    (second_mem : ∀ value ∈ second, value ∈ among) (same : first.map f = second.map f) :
    first = second := by
  induction first generalizing second with
  | nil => simpa using same.symm
  | cons value first induction =>
      cases second with
      | nil => simp at same
      | cons other second =>
          simp only [List.map_cons, List.cons.injEq] at same
          obtain rfl := injective (first_mem value List.mem_cons_self)
            (second_mem other List.mem_cons_self) same.1
          rw [induction (fun x mem => first_mem x (List.mem_cons_of_mem _ mem))
            (fun x mem => second_mem x (List.mem_cons_of_mem _ mem)) same.2]

/-- The level above a list without repetition has none. -/
private theorem nodup_level (separates : Separates node hashed) (left_nodup : left.Nodup)
    (mem : ∀ pair ∈ pairs left, pair ∈ hashed) : (level node left).Nodup := by
  have pairs_nodup : (pairs left).Nodup :=
    ((sublist_pairs left).nodup left_nodup).of_map Prod.fst
  exact pairs_nodup.map_on fun first first_mem second second_mem same =>
    separates (mem first first_mem) (mem second second_mem) same

/-- A level determines the one below it. -/
private theorem eq_of_level (separates : Separates node hashed) (left_nodup : left.Nodup)
    (right_nodup : right.Nodup) (left_mem : ∀ pair ∈ pairs left, pair ∈ hashed)
    (right_mem : ∀ pair ∈ pairs right, pair ∈ hashed)
    (same : level node left = level node right) : left = right :=
  eq_of_pairs left_nodup right_nodup (map_eq_on separates left_mem right_mem same)

section Climbing

variable {leftSteps rightSteps : Nat} {root : ν}

private theorem Climbs.nodup (separates : Separates node hashed) (left_nodup : left.Nodup)
    (climbs : Climbs node hashed left leftSteps root) {step : Nat} (within : step ≤ leftSteps) :
    ((level node)^[step] left).Nodup := by
  induction step with
  | zero => exact left_nodup
  | succ step induction =>
      rw [Function.iterate_succ_apply']
      exact nodup_level separates (induction (by omega)) (climbs.pairs_mem step within)

/-- From the root down, the levels of both trees are the same. -/
private theorem Climbs.levels_eq (separates : Separates node hashed) (left_nodup : left.Nodup)
    (right_nodup : right.Nodup) (left_climbs : Climbs node hashed left leftSteps root)
    (right_climbs : Climbs node hashed right rightSteps root) {down : Nat}
    (within_left : down ≤ leftSteps) (within_right : down ≤ rightSteps) :
    (level node)^[leftSteps - down] left = (level node)^[rightSteps - down] right := by
  induction down with
  | zero => rw [Nat.sub_zero, Nat.sub_zero, left_climbs.root_eq, right_climbs.root_eq]
  | succ down induction =>
      have above := induction (by omega) (by omega)
      have left_step : leftSteps - down = leftSteps - (down + 1) + 1 := by omega
      have right_step : rightSteps - down = rightSteps - (down + 1) + 1 := by omega
      rw [left_step, right_step, Function.iterate_succ_apply', Function.iterate_succ_apply'] at above
      exact eq_of_level separates (left_climbs.nodup separates left_nodup (by omega))
        (right_climbs.nodup separates right_nodup (by omega))
        (left_climbs.pairs_mem _ (by omega)) (right_climbs.pairs_mem _ (by omega)) above

/-- A higher tree would have nodes where the lower one has its leaves. -/
private theorem Climbs.steps_le (separates : Separates node hashed) (left_nodup : left.Nodup)
    (right_nodup : right.Nodup) (left_climbs : Climbs node hashed left leftSteps root)
    (right_climbs : Climbs node hashed right rightSteps root) (nonempty : left ≠ [])
    (apart : ∀ pair ∈ hashed, node pair.1 pair.2 ∉ left) : rightSteps ≤ leftSteps := by
  by_contra higher
  have leaves := left_climbs.levels_eq separates left_nodup right_nodup right_climbs
    le_rfl (by omega)
  have step : rightSteps - leftSteps = rightSteps - leftSteps - 1 + 1 := by omega
  rw [Nat.sub_self, Function.iterate_zero_apply, step, Function.iterate_succ_apply'] at leaves
  obtain ⟨leaf, leaf_mem⟩ := List.exists_mem_of_ne_nil left nonempty
  have is_node : leaf ∈ level node ((level node)^[rightSteps - leftSteps - 1] right) :=
    leaves ▸ leaf_mem
  obtain ⟨pair, pair_mem, rfl⟩ := List.mem_map.mp is_node
  exact apart pair (right_climbs.pairs_mem _ (by omega) pair pair_mem) leaf_mem

/-- Lists without repetition that climb to the same root are equal. -/
theorem Climbs.leaves_eq (separates : Separates node hashed) (left_nodup : left.Nodup)
    (right_nodup : right.Nodup) (left_climbs : Climbs node hashed left leftSteps root)
    (right_climbs : Climbs node hashed right rightSteps root) (left_nonempty : left ≠ [])
    (right_nonempty : right ≠ [])
    (left_apart : ∀ pair ∈ hashed, node pair.1 pair.2 ∉ left)
    (right_apart : ∀ pair ∈ hashed, node pair.1 pair.2 ∉ right) : left = right := by
  obtain rfl : leftSteps = rightSteps :=
    le_antisymm
      (right_climbs.steps_le separates right_nodup left_nodup left_climbs right_nonempty right_apart)
      (left_climbs.steps_le separates left_nodup right_nodup right_climbs left_nonempty left_apart)
  have leaves := left_climbs.levels_eq separates left_nodup right_nodup right_climbs le_rfl le_rfl
  rwa [Nat.sub_self] at leaves

end Climbing

end PairTree

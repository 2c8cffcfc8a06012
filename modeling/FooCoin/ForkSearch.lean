import FooCoin.BlockTree
import FooCoin.Difficulty

/-!
# The search for the fork

`Reorganize` walks back from the best block and from the new one, always on the higher side first,
until both walks meet.  For two blocks of one tree they meet at the lowest common ancestor, and the
blocks to disconnect and to connect are the two paths above it.
-/

namespace FooCoin

/-- A block of a tree with the blocks below it, each one higher than the one before. -/
inductive Branch (genesis : CBlockIndex) : BlockChain → Prop
  | genesis : Branch genesis [genesis]
  | block {pindex prev : CBlockIndex} {pprev : BlockChain} (below : Branch genesis (prev :: pprev))
      (height : pindex.nHeight = prev.nHeight + 1) : Branch genesis (pindex :: prev :: pprev)

/-- The common ancestors of two blocks are the block and its ancestors. -/
structure LowestCommonAncestor (pfork left right : BlockChain) : Prop where
  ne_nil : pfork ≠ []
  common : ∀ ancestor, ancestor <:+ pfork ↔ ancestor <:+ left ∧ ancestor <:+ right

/-- The blocks from a block down to an ancestor, without the ancestor. -/
def pathDown (pindex ancestor : BlockChain) : List BlockChain :=
  (List.range (pindex.length - ancestor.length)).map pindex.drop

variable {genesis : CBlockIndex} {chain left right pfork : BlockChain}

/-- The chains of placed blocks are branches. -/
theorem Rooted.branch {env : Env} (rooted : Rooted env genesis chain) : Branch genesis chain := by
  induction rooted with
  | genesis => exact .genesis
  | @block pindex pprev block lower placed induction =>
      obtain ⟨prev, rest, rfl⟩ := List.exists_cons_of_ne_nil lower.ne_nil
      refine .block induction ?_
      rw [placed.entry]
      rfl

/-! ## Heights -/

private theorem Branch.nHeight_eq (branch : Branch genesis chain) :
    ∀ entry ∈ chain.head?, entry.nHeight + 1 = genesis.nHeight + chain.length := by
  induction branch with
  | genesis => simp
  | block below height induction =>
      have prev_height := induction _ rfl
      simp only [List.head?_cons, Option.mem_some_iff, forall_eq']
      rw [height, prev_height]
      simp only [List.length_cons]
      omega

/-- The walk from the higher side ends at the block of the given height. -/
private theorem Branch.dropHigher_eq (branch : Branch genesis chain) {nHeight : Nat}
    (above : genesis.nHeight ≤ nHeight) :
    ∃ rest, dropHigher nHeight chain = some rest ∧ rest <:+ chain ∧ Branch genesis rest ∧
      genesis.nHeight + rest.length = min (genesis.nHeight + chain.length) (nHeight + 1) := by
  induction branch with
  | genesis =>
      refine ⟨[genesis], ?_, List.suffix_rfl, .genesis, ?_⟩
      · rw [dropHigher, if_neg (Nat.not_lt.mpr above)]
      · rw [List.length_singleton, min_eq_left (by omega)]
  | @block pindex prev pprev below height induction =>
      have tall := (Branch.block below height).nHeight_eq pindex rfl
      rw [dropHigher]
      split
      next higher =>
        obtain ⟨rest, dropped, suffix, rest_branch, size⟩ := induction
        refine ⟨rest, dropped, suffix.trans (List.suffix_cons _ _), rest_branch, ?_⟩
        simp only [List.length_cons] at tall size ⊢
        omega
      next low =>
        exact ⟨_, rfl, List.suffix_rfl, .block below height, by omega⟩

/-! ## The walks meet -/

private theorem lowestCommonAncestor_self (ne_nil : chain ≠ []) :
    LowestCommonAncestor chain chain chain where
  ne_nil := ne_nil
  common _ := by rw [and_self]

/-- Entries that are too high for a common ancestor can be left out on one side. -/
private theorem LowestCommonAncestor.of_suffix {rest : BlockChain} (suffix : rest <:+ right)
    (size : min left.length right.length ≤ rest.length)
    (lowest : LowestCommonAncestor pfork left rest) : LowestCommonAncestor pfork left right where
  ne_nil := lowest.ne_nil
  common ancestor := by
    rw [lowest.common]
    constructor
    · rintro ⟨of_left, of_rest⟩
      exact ⟨of_left, of_rest.trans suffix⟩
    · rintro ⟨of_left, of_right⟩
      have small := le_min of_left.length_le of_right.length_le
      exact ⟨of_left, List.suffix_of_suffix_length_le of_right suffix (small.trans size)⟩

/-- A block that is not below the other side is no common ancestor. -/
private theorem LowestCommonAncestor.cons {pindex : CBlockIndex} {pprev : BlockChain}
    (size : right.length ≤ (pindex :: pprev).length) (different : pindex :: pprev ≠ right)
    (lowest : LowestCommonAncestor pfork pprev right) :
    LowestCommonAncestor pfork (pindex :: pprev) right where
  ne_nil := lowest.ne_nil
  common ancestor := by
    rw [lowest.common]
    constructor
    · rintro ⟨of_pprev, of_right⟩
      exact ⟨of_pprev.trans (List.suffix_cons _ _), of_right⟩
    · rintro ⟨of_left, of_right⟩
      rcases List.suffix_cons_iff.mp of_left with whole | of_pprev
      · rw [whole] at of_right
        exact absurd (of_right.eq_of_length_le size) different
      · exact ⟨of_pprev, of_right⟩

/-- One round of the search. -/
private theorem Branch.findFork_round {pindex : CBlockIndex} {pprev : BlockChain}
    (left_branch : Branch genesis (pindex :: pprev)) (right_branch : Branch genesis right) :
    ∃ rest, rest <:+ right ∧ Branch genesis rest ∧
      rest.length = min (pindex :: pprev).length right.length ∧
      findFork (pindex :: pprev) right =
        if pindex :: pprev = rest then some rest else findFork pprev rest := by
  have tall := left_branch.nHeight_eq pindex rfl
  rw [findFork]
  by_cases same : pindex :: pprev = right
  · rw [← same]
    exact ⟨_, List.suffix_rfl, left_branch, (min_self _).symm, by rw [if_pos rfl, if_pos rfl]⟩
  · have above : genesis.nHeight ≤ pindex.nHeight := by
      rw [List.length_cons] at tall
      omega
    obtain ⟨rest, dropped, suffix, rest_branch, size⟩ := right_branch.dropHigher_eq above
    refine ⟨rest, suffix, rest_branch, by omega, ?_⟩
    rw [if_neg same, dropped]

/-- The search ends at the lowest common ancestor, by induction on the walk from the best block. -/
private theorem Branch.findFork_eq (left_branch : Branch genesis left)
    (right_branch : Branch genesis right) :
    ∃ pfork, findFork left right = some pfork ∧ LowestCommonAncestor pfork left right := by
  induction left_branch generalizing right with
  | genesis =>
      obtain ⟨rest, suffix, rest_branch, size, round⟩ := Branch.genesis.findFork_round right_branch
      have meets : [genesis] = rest := by
        cases rest_branch with
        | genesis => rfl
        | block _ _ =>
            simp only [List.length_cons, List.length_nil] at size
            omega
      rw [if_pos meets] at round
      refine ⟨rest, round, ?_⟩
      rw [← meets] at size suffix ⊢
      exact (lowestCommonAncestor_self (by simp)).of_suffix suffix size.ge
  | @block pindex prev pprev below height induction =>
      obtain ⟨rest, suffix, rest_branch, size, round⟩ :=
        (Branch.block below height).findFork_round right_branch
      by_cases meets : pindex :: prev :: pprev = rest
      · rw [if_pos meets] at round
        refine ⟨rest, round, ?_⟩
        rw [← meets] at size suffix ⊢
        exact (lowestCommonAncestor_self (by simp)).of_suffix suffix size.ge
      · obtain ⟨pfork, found, lowest⟩ := induction rest_branch
        rw [if_neg meets, found] at round
        have low : rest.length ≤ (pindex :: prev :: pprev).length := size ▸ min_le_left _ _
        exact ⟨pfork, round, (lowest.cons low meets).of_suffix suffix size.ge⟩

private theorem branchAbove_eq (suffix : pfork <:+ chain) :
    branchAbove pfork chain = pathDown chain pfork := by
  obtain ⟨front, rfl⟩ := suffix
  rw [pathDown, List.length_append, Nat.add_sub_cancel]
  induction front with
  | nil => simp
  | cons pindex front induction =>
      rw [List.cons_append, branchAbove_cons, induction, List.length_cons, List.range_succ_eq_map,
        List.map_cons, List.map_map]
      rfl

/-- For two blocks of one tree the search succeeds at their lowest common ancestor, and the blocks
to disconnect and to connect are the paths between them and it. -/
theorem reorganize_fork_exact {pindexBest pindexNew : BlockChain}
    (best_branch : Branch genesis pindexBest) (new_branch : Branch genesis pindexNew) :
    ∃ pfork, findFork pindexBest pindexNew = some pfork ∧
      LowestCommonAncestor pfork pindexBest pindexNew ∧
      branchAbove pfork pindexBest = pathDown pindexBest pfork ∧
      (branchAbove pfork pindexNew).reverse = (pathDown pindexNew pfork).reverse := by
  obtain ⟨pfork, found, lowest⟩ := best_branch.findFork_eq new_branch
  obtain ⟨of_best, of_new⟩ := (lowest.common pfork).mp List.suffix_rfl
  exact ⟨pfork, found, lowest, branchAbove_eq of_best, by rw [branchAbove_eq of_new]⟩

theorem reorganize_fork_exact_workEntry :
    ∃ pfork, findFork [workEntry 2 1 0, workEntry 1 1 0, workEntry 0 0 0]
        [workEntry 1 2 0, workEntry 0 0 0] = some pfork ∧
      LowestCommonAncestor pfork [workEntry 2 1 0, workEntry 1 1 0, workEntry 0 0 0]
        [workEntry 1 2 0, workEntry 0 0 0] ∧
      branchAbove pfork [workEntry 2 1 0, workEntry 1 1 0, workEntry 0 0 0] =
        pathDown [workEntry 2 1 0, workEntry 1 1 0, workEntry 0 0 0] pfork ∧
      (branchAbove pfork [workEntry 1 2 0, workEntry 0 0 0]).reverse =
        (pathDown [workEntry 1 2 0, workEntry 0 0 0] pfork).reverse :=
  reorganize_fork_exact (.block (.block .genesis rfl) rfl) (.block .genesis rfl)

end FooCoin

import FooCoin.Merkle
import FooCoin.Wallet
import Mathlib.Data.Nat.Bitwise

/-!
# Merkle branches

`BuildMerkleTree` keeps all levels of the tree in one vector, from which `GetMerkleBranch` takes the
siblings on the way from a transaction to the root.  An access outside of the vector has no result.
-/

namespace FooCoin

open PairTree

variable (crypto : Crypto)

/-- The inner loop of `BuildMerkleTree`: the parents of the level of size `nSize` at `j`. -/
def merkleTreeLevel (j nSize : Nat) : Nat → Nat → List UInt256 → Option (List UInt256)
  | 0, _, vMerkleTree => some vMerkleTree
  | fuel + 1, i, vMerkleTree =>
      if i < nSize then do
        let i2 := min (i + 1) (nSize - 1)
        let left ← vMerkleTree[j + i]?
        let right ← vMerkleTree[j + i2]?
        merkleTreeLevel j nSize fuel (i + 2) (vMerkleTree ++ [merkleNode crypto left right])
      else some vMerkleTree

/-- The loop of `BuildMerkleTree`. -/
def merkleTreeLoop : Nat → Nat → Nat → List UInt256 → Option (List UInt256)
  | 0, _, _, vMerkleTree => some vMerkleTree
  | fuel + 1, nSize, j, vMerkleTree =>
      if 1 < nSize then do
        let vMerkleTree ← merkleTreeLevel crypto j nSize nSize 0 vMerkleTree
        merkleTreeLoop fuel ((nSize + 1) / 2) (j + nSize) vMerkleTree
      else some vMerkleTree

/-- `CBlock::BuildMerkleTree`, with the vector `vMerkleTree`. -/
def CBlock.storeMerkleTree (block : CBlock) : Option (UInt256 × List UInt256) := do
  let vMerkleTree ← merkleTreeLoop crypto block.vtx.length block.vtx.length 0
    (block.vtx.map (CTransaction.getHash crypto))
  pure (vMerkleTree.getLast?.getD 0, vMerkleTree)

/-- The loop of `GetMerkleBranch` over the vector. -/
def storedBranchLoop (vMerkleTree : List UInt256) : Nat → Nat → Nat → Nat → Option (List UInt256)
  | 0, _, _, _ => some []
  | fuel + 1, nSize, j, nIndex =>
      if 1 < nSize then do
        let i := min (nIndex ^^^ 1) (nSize - 1)
        let otherside ← vMerkleTree[j + i]?
        let vMerkleBranch ←
          storedBranchLoop vMerkleTree fuel ((nSize + 1) / 2) (j + nSize) (nIndex / 2)
        pure (otherside :: vMerkleBranch)
      else some []

/-- `CBlock::GetMerkleBranch` of a block with the vector `vMerkleTree`. -/
def CBlock.storedMerkleBranch (block : CBlock) (vMerkleTree : List UInt256) (nIndex : Nat) :
    Option (List UInt256) := do
  let vMerkleTree ←
    if vMerkleTree = [] then (block.storeMerkleTree crypto).map Prod.snd else some vMerkleTree
  storedBranchLoop vMerkleTree block.vtx.length block.vtx.length 0 nIndex

/-- The loop of `CheckMerkleBranch`. -/
def checkMerkleBranchLoop : UInt256 → List UInt256 → Int → UInt256
  | hash, [], _ => hash
  | hash, otherside :: vMerkleBranch, nIndex =>
      let hash :=
        if nIndex % 2 ≠ 0 then merkleNode crypto otherside hash
        else merkleNode crypto hash otherside
      checkMerkleBranchLoop hash vMerkleBranch (nIndex / 2)

/-- `CBlock::CheckMerkleBranch`. -/
def checkMerkleBranch (hash : UInt256) (vMerkleBranch : List UInt256) (nIndex : Int) : UInt256 :=
  if nIndex = -1 then 0 else checkMerkleBranchLoop crypto hash vMerkleBranch nIndex

/-! ## The vector -/

variable {crypto : Crypto}

/-- The levels above a level, one after the other. -/
private def levelsAbove (crypto : Crypto) : Nat → List UInt256 → List UInt256
  | 0, _ => []
  | fuel + 1, level =>
      if 1 < level.length then
        merkleLevel crypto level ++ levelsAbove crypto fuel (merkleLevel crypto level)
      else []

@[simp]
private theorem length_merkleLevel (below : List UInt256) :
    (merkleLevel crypto below).length = (below.length + 1) / 2 := by
  rw [merkleLevel_eq, length_level]

/-- The place of an element of a level in the vector. -/
private theorem getElem?_stored (before level above : List UInt256) {i : Nat}
    (small : i < level.length) :
    (before ++ level ++ above)[before.length + i]? = level[i]? := by
  rw [List.append_assoc, List.getElem?_append_right (Nat.le_add_right ..), Nat.add_sub_cancel_left,
    List.getElem?_append_left small]

/-- The inner loop appends the level above. -/
private theorem merkleTreeLevel_eq (before level : List UInt256) {fuel k : Nat}
    (fueled : (level.length + 1) / 2 ≤ fuel + k) :
    merkleTreeLevel crypto before.length level.length fuel (2 * k)
        (before ++ level ++ (merkleLevel crypto level).take k) =
      some (before ++ level ++ merkleLevel crypto level) := by
  induction fuel generalizing k with
  | zero =>
      rw [merkleTreeLevel, List.take_of_length_le]
      rw [length_merkleLevel]
      omega
  | succ fuel induction =>
      rw [merkleTreeLevel]
      split
      · rename_i inside
        have inside' : min (2 * k + 1) (level.length - 1) < level.length := by omega
        have parent : (merkleLevel crypto level)[k]? = some (merkleNode crypto
            (level.get ⟨_, inside⟩) (level.get ⟨_, inside'⟩)) := by
          rw [merkleLevel_eq]
          exact getElem?_level (List.getElem?_eq_getElem inside) (List.getElem?_eq_getElem inside')
        have later := induction (k := k + 1) (by omega)
        rw [List.take_add_one, parent, Option.toList_some, ← List.append_assoc] at later
        simp only [getElem?_stored before level _ inside, getElem?_stored before level _ inside',
          List.getElem?_eq_getElem inside, List.getElem?_eq_getElem inside', Option.bind_eq_bind,
          Option.bind_some]
        exact later
      · rw [List.take_of_length_le]
        rw [length_merkleLevel]
        omega

/-- The loop appends all levels. -/
private theorem merkleTreeLoop_eq (crypto : Crypto) (fuel : Nat) (before level : List UInt256) :
    merkleTreeLoop crypto fuel level.length before.length (before ++ level) =
      some (before ++ level ++ levelsAbove crypto fuel level) := by
  induction fuel generalizing before level with
  | zero => rw [merkleTreeLoop, levelsAbove, List.append_nil]
  | succ fuel induction =>
      rw [merkleTreeLoop, levelsAbove]
      split
      · have appended : merkleTreeLevel crypto before.length level.length level.length (2 * 0)
            (before ++ level ++ (merkleLevel crypto level).take 0) = _ :=
          merkleTreeLevel_eq before level (by omega)
        rw [Nat.mul_zero, List.take_zero, List.append_nil] at appended
        have later := induction (before ++ level) (merkleLevel crypto level)
        rw [length_merkleLevel, List.length_append] at later
        rw [appended, Option.bind_eq_bind, Option.bind_some, later, List.append_assoc (before ++ level)]
      · rw [List.append_nil]

private theorem merkleLoop_succ {fuel : Nat} {level : List UInt256} (several : 1 < level.length) :
    merkleLoop crypto (fuel + 1) level = merkleLoop crypto fuel (merkleLevel crypto level) := by
  match level with
  | [_] => simp at several
  | first :: second :: rest => simp [merkleLoop]

/-- The last element of the vector is the root. -/
private theorem getLast?_stored (crypto : Crypto) {fuel : Nat} {level : List UInt256} (nonempty : level ≠ [])
    (fueled : level.length ≤ fuel) (before : List UInt256) :
    (before ++ level ++ levelsAbove crypto fuel level).getLast? =
      some (merkleLoop crypto fuel level) := by
  induction fuel generalizing before level with
  | zero => exact absurd (List.eq_nil_of_length_eq_zero (Nat.le_zero.mp fueled)) nonempty
  | succ fuel induction =>
      rw [levelsAbove]
      split
      · rename_i several
        have above_nonempty : merkleLevel crypto level ≠ [] := by
          rw [← List.length_pos_iff, length_merkleLevel]
          omega
        have shorter : (merkleLevel crypto level).length ≤ fuel := by
          rw [length_merkleLevel]
          omega
        rw [← List.append_assoc, merkleLoop_succ several, induction above_nonempty shorter]
      · rename_i single
        obtain ⟨root, rfl⟩ : ∃ root, level = [root] := by
          rw [← List.length_eq_one_iff]
          have positive := List.length_pos_iff.mpr nonempty
          omega
        simp [merkleLoop]

/-- The block's vector and its root. -/
theorem CBlock.storeMerkleTree_eq (crypto : Crypto) (block : CBlock) : ∃ vMerkleTree,
    block.storeMerkleTree crypto = some (buildMerkleTree crypto block.vtx, vMerkleTree) ∧
      vMerkleTree = block.vtx.map (CTransaction.getHash crypto) ++
        levelsAbove crypto block.vtx.length (block.vtx.map (CTransaction.getHash crypto)) := by
  have stored := merkleTreeLoop_eq crypto block.vtx.length []
    (block.vtx.map (CTransaction.getHash crypto))
  rw [List.length_map, List.length_nil, List.nil_append] at stored
  refine ⟨_, ?_, rfl⟩
  rw [CBlock.storeMerkleTree, stored, Option.bind_eq_bind, Option.bind_some, buildMerkleTree]
  cases block.vtx with
  | nil => rfl
  | cons tx vtx =>
      have last := getLast?_stored crypto (List.cons_ne_nil (tx.getHash crypto)
        (vtx.map (CTransaction.getHash crypto))) le_rfl []
      rw [List.nil_append, List.length_cons, List.length_map] at last
      rw [List.map_cons, List.length_cons, last]
      rfl

/-! ## The branch -/

/-- The stored levels give the siblings. -/
private theorem storedBranchLoop_eq (crypto : Crypto) (fuel : Nat) (before level : List UInt256)
    (nIndex : Nat) :
    storedBranchLoop (before ++ level ++ levelsAbove crypto fuel level) fuel level.length
        before.length nIndex = some (merkleBranchLoop crypto fuel nIndex level) := by
  induction fuel generalizing before level nIndex with
  | zero => rw [storedBranchLoop, merkleBranchLoop]
  | succ fuel induction =>
      rw [storedBranchLoop, merkleBranchLoop]
      split
      · rename_i several
        have inside : min (nIndex ^^^ 1) (level.length - 1) < level.length := by omega
        have later := induction (before ++ level) (merkleLevel crypto level) (nIndex / 2)
        rw [length_merkleLevel, List.length_append] at later
        rw [levelsAbove, if_pos several, if_neg (Nat.not_le.mpr several)]
        simp only [getElem?_stored before level _ inside, List.getElem?_eq_getElem inside,
          Option.bind_eq_bind, Option.bind_some, Option.getD_some]
        rw [← List.append_assoc, later]
        rfl
      · rename_i single
        rw [if_pos (Nat.not_lt.mp single)]

/-- An element and its sibling make their parent. -/
private theorem getElem?_parent (crypto : Crypto) {level : List UInt256} {nIndex : Nat}
    {hash : UInt256} (stored : level[nIndex]? = some hash) :
    (merkleLevel crypto level)[nIndex / 2]? = some
      (if (nIndex : Int) % 2 ≠ 0 then
        merkleNode crypto ((level[min (nIndex ^^^ 1) (level.length - 1)]?).getD 0) hash
      else merkleNode crypto hash ((level[min (nIndex ^^^ 1) (level.length - 1)]?).getD 0)) := by
  have small := (List.getElem?_eq_some_iff.mp stored).1
  have inside : min (nIndex ^^^ 1) (level.length - 1) < level.length := by omega
  have sibling := List.getElem?_eq_getElem inside
  rw [merkleLevel_eq, sibling, Option.getD_some]
  rcases Nat.even_or_odd nIndex with even | odd
  · have flipped := Nat.xor_one_of_even even
    rw [Nat.even_iff] at even
    have halved : 2 * (nIndex / 2) = nIndex := by omega
    rw [if_neg (by omega)]
    exact getElem?_level (halved.symm ▸ stored) (halved.symm ▸ flipped ▸ sibling)
  · have flipped := Nat.xor_one_of_odd odd
    rw [Nat.odd_iff] at odd
    have halved : 2 * (nIndex / 2) = min (nIndex ^^^ 1) (level.length - 1) := by omega
    have at_right : min (2 * (nIndex / 2) + 1) (level.length - 1) = nIndex := by omega
    rw [if_pos (by omega)]
    exact getElem?_level (halved.symm ▸ sibling) (at_right.symm ▸ stored)

/-- The branch of an element leads to the root. -/
private theorem checkMerkleBranchLoop_eq {fuel : Nat} {level : List UInt256} {nIndex : Nat}
    {hash : UInt256} (stored : level[nIndex]? = some hash) (fueled : level.length ≤ fuel) :
    checkMerkleBranchLoop crypto hash (merkleBranchLoop crypto fuel nIndex level) nIndex =
      merkleLoop crypto fuel level := by
  have small := (List.getElem?_eq_some_iff.mp stored).1
  induction fuel generalizing level nIndex hash with
  | zero => omega
  | succ fuel induction =>
      rw [merkleBranchLoop]
      split
      · rename_i single
        obtain ⟨root, rfl⟩ : ∃ root, level = [root] := by
          rw [← List.length_eq_one_iff]
          omega
        obtain rfl : nIndex = 0 := by simpa using small
        obtain rfl : root = hash := by simpa using stored
        simp [checkMerkleBranchLoop, merkleLoop]
      · rename_i several
        have parent := getElem?_parent crypto stored
        have small' := (List.getElem?_eq_some_iff.mp parent).1
        rw [length_merkleLevel] at small'
        rw [merkleLoop_succ (Nat.not_le.mp several), checkMerkleBranchLoop]
        have halved : (nIndex : Int) / 2 = (nIndex / 2 : Nat) := by omega
        rw [halved]
        exact induction parent (by rw [length_merkleLevel]; omega)
          (by rw [length_merkleLevel]; exact small')

/-- The stored tree gives the branches of the levels. -/
theorem CBlock.storedMerkleBranch_eq (block : CBlock) {root : UInt256}
    {vMerkleTree : List UInt256} (stored : block.storeMerkleTree crypto = some (root, vMerkleTree))
    (nIndex : Nat) :
    storedBranchLoop vMerkleTree block.vtx.length block.vtx.length 0 nIndex =
      some (block.getMerkleBranch crypto nIndex) := by
  obtain ⟨levels, result, rfl⟩ := block.storeMerkleTree_eq crypto
  obtain ⟨-, rfl⟩ := Prod.mk.inj (Option.some.inj (stored.symm.trans result))
  have branch := storedBranchLoop_eq crypto block.vtx.length []
    (block.vtx.map (CTransaction.getHash crypto)) nIndex
  rwa [List.nil_append, List.length_map, List.length_nil] at branch

end FooCoin

import FooCoin.Library.PairTree
import FooCoin.SampleChain

/-!
# The Merkle root binds the transactions

`buildMerkleTree` pairs an odd last hash with itself, so that different lists of hashes can have the
same root.  Blocks that pass `CheckBlock` repeat no transaction, and then equal roots mean equal
transactions.
-/

namespace FooCoin

open PairTree

/-- The two-argument `Hash` of an inner node. -/
def merkleNode (crypto : Crypto) (left right : UInt256) : UInt256 :=
  crypto.Hash (uint256Bytes left ++ uint256Bytes right)

/-- The pairs that the loop of `BuildMerkleTree` hashes. -/
def merklePairs (crypto : Crypto) : Nat → List UInt256 → List (UInt256 × UInt256)
  | _, [] => []
  | _, [_] => []
  | 0, _ => []
  | fuel + 1, level => pairs level ++ merklePairs crypto fuel (merkleLevel crypto level)

/-- The pairs hashed in the Merkle tree of a block. -/
def CBlock.merklePairs (crypto : Crypto) (block : CBlock) : List (UInt256 × UInt256) :=
  FooCoin.merklePairs crypto block.vtx.length (block.vtx.map (CTransaction.getHash crypto))

/-- Among what two blocks hash, inner nodes with different children differ, no inner node is a
transaction id, and different transactions have different ids. -/
structure HashesApart (crypto : Crypto) (first second : CBlock) : Prop where
  inner_injective : ∀ left ∈ first.merklePairs crypto ++ second.merklePairs crypto,
    ∀ right ∈ first.merklePairs crypto ++ second.merklePairs crypto,
      merkleNode crypto left.1 left.2 = merkleNode crypto right.1 right.2 → left = right
  inner_ne_id : ∀ pair ∈ first.merklePairs crypto ++ second.merklePairs crypto,
    ∀ tx ∈ first.vtx ++ second.vtx, merkleNode crypto pair.1 pair.2 ≠ tx.getHash crypto
  ids_injective : ∀ left ∈ first.vtx ++ second.vtx, ∀ right ∈ first.vtx ++ second.vtx,
    left.getHash crypto = right.getHash crypto → left = right

variable {crypto : Crypto}

theorem merkleLevel_eq (below : List UInt256) :
    merkleLevel crypto below = level (merkleNode crypto) below := by
  induction below using pairs.induct with
  | case1 => rfl
  | case2 last => rfl
  | case3 first second rest induction =>
      rw [merkleLevel, induction]
      rfl

/-- The loop of `BuildMerkleTree` climbs to its result over the pairs it hashes. -/
private theorem merkleLoop_climbs {fuel : Nat} {leaves : List UInt256} (nonempty : leaves ≠ [])
    (fueled : leaves.length ≤ fuel) :
    ∃ steps, Climbs (merkleNode crypto) {pair | pair ∈ merklePairs crypto fuel leaves} leaves steps
      (merkleLoop crypto fuel leaves) := by
  induction fuel generalizing leaves with
  | zero => exact absurd (List.eq_nil_of_length_eq_zero (Nat.le_zero.mp fueled)) nonempty
  | succ fuel induction =>
      match leaves with
      | [] => exact absurd rfl nonempty
      | [root] => exact ⟨0, rfl, fun step within => absurd within (Nat.not_lt_zero _)⟩
      | first :: second :: rest =>
          have shorter := @length_level_lt _ (merkleNode crypto) first second rest
          rw [← merkleLevel_eq] at shorter
          have above_nonempty : merkleLevel crypto (first :: second :: rest) ≠ [] :=
            List.cons_ne_nil _ _
          simp only [List.length_cons] at fueled
          obtain ⟨steps, climbs⟩ := induction above_nonempty (by omega)
          refine ⟨steps + 1, ?_, ?_⟩
          · rw [Function.iterate_succ_apply, ← merkleLevel_eq]
            exact climbs.root_eq
          · intro step within pair mem
            cases step with
            | zero => exact List.mem_append_left _ mem
            | succ step =>
                rw [Function.iterate_succ_apply, ← merkleLevel_eq] at mem
                exact List.mem_append_right _ (climbs.pairs_mem step (by omega) pair mem)

/-- What `CheckBlock` ensures of the Merkle tree. -/
private theorem climbs_of_checkBlock {nAdjustedTime : Int} {block : CBlock}
    (accepted : block.checkBlock crypto nAdjustedTime = .ok ()) :
    (block.vtx.map (CTransaction.getHash crypto)).Nodup ∧
      block.vtx.map (CTransaction.getHash crypto) ≠ [] ∧
      ∃ steps, Climbs (merkleNode crypto) {pair | pair ∈ block.merklePairs crypto}
        (block.vtx.map (CTransaction.getHash crypto)) steps block.hashMerkleRoot := by
  have checked := CBlock.checked_of_checkBlock accepted
  have ids_nonempty : block.vtx.map (CTransaction.getHash crypto) ≠ [] := by
    simpa using checked.vtx_ne_nil
  have root : block.hashMerkleRoot = buildMerkleTree crypto block.vtx := by
    simp only [CBlock.checkBlock, except_bind_eq_ok, require_eq_ok] at accepted
    obtain ⟨_, _, _, _, _, _, _, _, _, _, _, _, _, _, _, _, root⟩ := accepted
    exact root
  rw [root]
  exact ⟨checked.nodup, ids_nonempty, merkleLoop_climbs ids_nonempty (by simp)⟩

/-- Blocks that pass `CheckBlock` with the same Merkle root have the same transactions. -/
theorem vtx_eq_of_hashMerkleRoot_eq {first second : CBlock} {firstTime secondTime : Int}
    (apart : HashesApart crypto first second)
    (first_accepted : first.checkBlock crypto firstTime = .ok ())
    (second_accepted : second.checkBlock crypto secondTime = .ok ())
    (same_root : first.hashMerkleRoot = second.hashMerkleRoot) : first.vtx = second.vtx := by
  obtain ⟨first_nodup, first_nonempty, firstSteps, first_climbs⟩ :=
    climbs_of_checkBlock first_accepted
  obtain ⟨second_nodup, second_nonempty, secondSteps, second_climbs⟩ :=
    climbs_of_checkBlock second_accepted
  rw [← same_root] at second_climbs
  let hashed : Set (UInt256 × UInt256) :=
    {pair | pair ∈ first.merklePairs crypto ++ second.merklePairs crypto}
  have separates : Separates (merkleNode crypto) hashed := fun left left_mem right right_mem =>
    apart.inner_injective left left_mem right right_mem
  have ids_eq := PairTree.Climbs.leaves_eq separates first_nodup second_nodup
    (first_climbs.mono fun pair mem => List.mem_append_left _ mem)
    (second_climbs.mono fun pair mem => List.mem_append_right _ mem)
    first_nonempty second_nonempty
    (fun pair pair_mem id_mem => by
      obtain ⟨tx, tx_mem, same⟩ := List.mem_map.mp id_mem
      exact apart.inner_ne_id pair pair_mem tx (List.mem_append_left _ tx_mem) same.symm)
    (fun pair pair_mem id_mem => by
      obtain ⟨tx, tx_mem, same⟩ := List.mem_map.mp id_mem
      exact apart.inner_ne_id pair pair_mem tx (List.mem_append_right _ tx_mem) same.symm)
  have ids_injective : {tx | tx ∈ first.vtx ++ second.vtx}.InjOn (CTransaction.getHash crypto) :=
    fun left left_mem right right_mem => apart.ids_injective left left_mem right right_mem
  exact map_eq_on ids_injective (fun tx mem => List.mem_append_left _ mem)
    (fun tx mem => List.mem_append_right _ mem) ids_eq

/-- A coinbase and a transaction that spends it. -/
def pairTransactions : List CTransaction :=
  let coinBase := sampleCoinBase 1 [100]
  [coinBase, sampleSpend 2 [coinBase.outpoint 0] [100]]

-- A bounded quantifier is decided over its list, not over all pairs of 256-bit words.
private local instance (priority := 2000) decidableEachPair {α : Type} {p : α → Prop} [DecidablePred p]
    (values : List α) : Decidable (∀ value ∈ values, p value) :=
  List.decidableBAll p values

theorem vtx_eq_of_hashMerkleRoot_eq_pairTransactions :
    (sampleBlock 0 1400000000 pairTransactions).vtx =
      (sampleBlock 0 1400000120 pairTransactions).vtx :=
  @vtx_eq_of_hashMerkleRoot_eq sampleCrypto (sampleBlock 0 1400000000 pairTransactions)
    (sampleBlock 0 1400000120 pairTransactions) 1400000000 1400000120
    ⟨by decide +kernel, by decide +kernel, by decide +kernel⟩ (by decide +kernel)
    (by decide +kernel) rfl

end FooCoin

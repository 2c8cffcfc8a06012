import FooCoin.Node

/-!
# The block tree

Chains that lead back to the genesis block, how the fork of two of them and the branches above it
are found, and the `pnext` links of a chain.
-/

namespace FooCoin

open Function

variable {env : Env}

/-- A checked block on disk with the index entry that `AddToBlockIndex` makes for it on top of a
chain that ends in the block's predecessor. -/
structure Stacked (env : Env) (pindex : CBlockIndex) (pprev : BlockChain) (block : CBlock) :
    Prop where
  stored : env.Stored pindex.nFile pindex.nBlockPos block
  checked : block.Checked env.crypto
  link : block.hashPrevBlock = getBlockHash pprev
  entry : pindex = .ofBlock env.crypto pindex.nFile pindex.nBlockPos block pprev

/-- A placed block is the one that is read through its entry. -/
theorem Stacked.readBlockAt_eq {pindex : CBlockIndex} {pprev : BlockChain} {block : CBlock}
    (placed : Stacked env pindex pprev block) : env.readBlockAt pindex = some block := by
  have hash : block.getHash env.crypto = pindex.hashBlock := by rw [placed.entry]; rfl
  simp [Env.readBlockAt, placed.stored.readBlock_eq placed.checked, hash]

/-- Chains of placed blocks on top of the genesis block. -/
inductive Rooted (env : Env) (genesis : CBlockIndex) : BlockChain → Prop
  | genesis : Rooted env genesis [genesis]
  | block {pindex : CBlockIndex} {pprev : BlockChain} {block : CBlock} :
      Rooted env genesis pprev → Stacked env pindex pprev block →
      Rooted env genesis (pindex :: pprev)

variable {genesis : CBlockIndex}

theorem Rooted.ne_nil {chain : BlockChain} (rooted : Rooted env genesis chain) : chain ≠ [] := by
  cases rooted <;> simp

/-- An entry above the genesis block has a placed block. -/
theorem Rooted.placed {pindex : CBlockIndex} {pprev : BlockChain}
    (rooted : Rooted env genesis (pindex :: pprev)) (above : pprev ≠ []) :
    Rooted env genesis pprev ∧ ∃ block, Stacked env pindex pprev block := by
  cases rooted with
  | genesis => exact absurd rfl above
  | block lower placed => exact ⟨lower, _, placed⟩

theorem Rooted.suffix {chain part : BlockChain} (rooted : Rooted env genesis chain)
    (suffix : part <:+ chain) (part_ne : part ≠ []) : Rooted env genesis part := by
  induction rooted with
  | genesis =>
      obtain rfl | last := List.suffix_cons_iff.mp suffix
      · exact .genesis
      · exact absurd (List.suffix_nil.mp last) part_ne
  | block lower placed induction =>
      obtain rfl | later := List.suffix_cons_iff.mp suffix
      · exact .block lower placed
      · exact induction later

/-! ## Known chains -/

/-- A map from hashes to chains that contains every part of the chains in it. -/
structure Closed (mapBlockIndex : UInt256 → Option BlockChain) : Prop where
  hash : ∀ hash chain, mapBlockIndex hash = some chain → getBlockHash chain = hash
  tail : ∀ hash entry pprev, mapBlockIndex hash = some (entry :: pprev) → pprev ≠ [] →
    mapBlockIndex (getBlockHash pprev) = some pprev

variable {mapBlockIndex : UInt256 → Option BlockChain}

/-- The chain is the one in the map under its own hash. -/
def Known (mapBlockIndex : UInt256 → Option BlockChain) (chain : BlockChain) : Prop :=
  mapBlockIndex (getBlockHash chain) = some chain

theorem Closed.known_suffix (closed : Closed mapBlockIndex) {chain part : BlockChain}
    (known : Known mapBlockIndex chain) (suffix : part <:+ chain) (part_ne : part ≠ []) :
    Known mapBlockIndex part := by
  induction chain with
  | nil => exact absurd (List.suffix_nil.mp suffix) part_ne
  | cons entry pprev induction =>
      obtain rfl | later := List.suffix_cons_iff.mp suffix
      · exact known
      · have pprev_ne : pprev ≠ [] := by
          rintro rfl
          exact part_ne (List.suffix_nil.mp later)
        exact induction (closed.tail _ _ _ known pprev_ne) later

/-- Known chains with the same hash are the same. -/
theorem Known.eq {left right : BlockChain} (left_known : Known mapBlockIndex left)
    (right_known : Known mapBlockIndex right) (same : getBlockHash left = getBlockHash right) :
    left = right := by
  rw [Known, same, right_known] at left_known
  exact (Option.some.inj left_known).symm

/-! ## Links -/

/-- The part of a chain that follows the entry with a hash. -/
def nextOn : BlockChain → UInt256 → BlockChain
  | pindex :: entry :: pprev, hash =>
      if hash = entry.hashBlock then pindex :: entry :: pprev else nextOn (entry :: pprev) hash
  | _, _ => []

/-- What follows an entry of a chain is a part of the chain on top of that entry. -/
theorem nextOn_ne_nil {chain : BlockChain} {hash : UInt256} (next : nextOn chain hash ≠ []) :
    ∃ entry pprev, entry :: pprev <:+ chain ∧ entry :: pprev ≠ chain ∧ entry.hashBlock = hash := by
  fun_induction nextOn chain hash with
  | case1 pindex entry pprev => exact ⟨entry, pprev, List.suffix_cons _ _, by simp, rfl⟩
  | case2 hash pindex entry pprev other induction =>
      obtain ⟨below, rest, suffix, _, found⟩ := induction next
      have longer := suffix.length_le
      refine ⟨below, rest, suffix.trans (List.suffix_cons _ _), fun same => ?_, found⟩
      simp [same] at longer
  | case3 => exact absurd rfl next

/-- Nothing follows the tip of a known chain. -/
theorem Closed.nextOn_tip (closed : Closed mapBlockIndex) {chain : BlockChain}
    (known : Known mapBlockIndex chain) : nextOn chain (getBlockHash chain) = [] := by
  by_contra next
  obtain ⟨entry, pprev, suffix, proper, found⟩ := nextOn_ne_nil next
  exact proper ((closed.known_suffix known suffix (by simp)).eq known found)

/-- What follows an entry of a known chain is the next part of the chain. -/
theorem Closed.nextOn_suffix (closed : Closed mapBlockIndex) {pindex entry : CBlockIndex}
    {pprev chain : BlockChain} (known : Known mapBlockIndex chain)
    (suffix : pindex :: entry :: pprev <:+ chain) :
    nextOn chain entry.hashBlock = pindex :: entry :: pprev := by
  induction chain with
  | nil => simp at suffix
  | cons top rest induction =>
      obtain same_parts | deeper := List.suffix_cons_iff.mp suffix
      · rw [← same_parts]
        simp [nextOn]
      · cases rest with
        | nil => simp at deeper
        | cons below rest =>
            have below_known : Known mapBlockIndex (below :: rest) :=
              closed.known_suffix known (List.suffix_cons top _) (by simp)
            have entry_known := closed.known_suffix known
              ((List.suffix_cons pindex _).trans suffix) (by simp)
            have other : entry.hashBlock ≠ below.hashBlock := by
              intro same
              have equal : entry :: pprev = below :: rest := entry_known.eq below_known same
              have longer := deeper.length_le
              rw [equal] at longer
              simp at longer
            rw [nextOn, if_neg other]
            exact induction below_known deeper

/-- Linking the tip of a chain to its predecessor. -/
theorem link_nextOn (pindex entry : CBlockIndex) (pprev : BlockChain) :
    link (nextOn (entry :: pprev)) (pindex :: entry :: pprev) =
      nextOn (pindex :: entry :: pprev) := by
  funext hash
  simp [link, nextOn, update_apply]

/-- Unlinking the tip of a known chain. -/
theorem Closed.unlink_nextOn (closed : Closed mapBlockIndex) {pindex entry : CBlockIndex}
    {pprev : BlockChain} (known : Known mapBlockIndex (entry :: pprev)) :
    unlink (nextOn (pindex :: entry :: pprev)) (pindex :: entry :: pprev) =
      nextOn (entry :: pprev) := by
  funext hash
  have tip := closed.nextOn_tip known
  simp only [unlink, nextOn, update_apply]
  split
  · rename_i same
    rw [same]
    exact tip.symm
  · rfl

/-! ## Forks -/

theorem dropHigher_suffix {nHeight : Nat} {chain rest : BlockChain}
    (dropped : dropHigher nHeight chain = some rest) : rest <:+ chain ∧ rest ≠ [] := by
  induction chain with
  | nil => simp [dropHigher] at dropped
  | cons entry pprev induction =>
      simp only [dropHigher] at dropped
      split at dropped
      · obtain ⟨suffix, rest_ne⟩ := induction dropped
        exact ⟨suffix.trans (List.suffix_cons entry pprev), rest_ne⟩
      · cases dropped
        exact ⟨List.suffix_rfl, by simp⟩

/-- The fork is a part of both chains. -/
theorem findFork_suffix {pfork plonger pindex : BlockChain}
    (found : findFork pfork plonger = some pindex) :
    pindex <:+ pfork ∧ pindex <:+ plonger ∧ pindex ≠ [] := by
  induction pfork generalizing plonger with
  | nil => simp [findFork] at found
  | cons entry pprev induction =>
      simp only [findFork] at found
      split at found
      · rename_i same
        cases found
        rw [← same]
        exact ⟨List.suffix_rfl, List.suffix_rfl, by simp⟩
      · split at found
        · simp at found
        · rename_i rest dropped
          obtain ⟨suffix, rest_ne⟩ := dropHigher_suffix dropped
          split at found
          · rename_i same
            cases found
            rw [same]
            exact ⟨List.suffix_rfl, suffix, rest_ne⟩
          · obtain ⟨left, right, pindex_ne⟩ := induction found
            exact ⟨left.trans (List.suffix_cons entry pprev), right.trans suffix, pindex_ne⟩

@[simp]
theorem branchAbove_self (pfork : BlockChain) : branchAbove pfork pfork = [] := by
  cases pfork <;> simp [branchAbove]

@[simp]
theorem branchAbove_cons (pindex : CBlockIndex) (front pfork : BlockChain) :
    branchAbove pfork (pindex :: (front ++ pfork)) =
      (pindex :: (front ++ pfork)) :: branchAbove pfork (front ++ pfork) := by
  have longer : pindex :: (front ++ pfork) ≠ pfork := by
    intro same
    have lengths := congrArg List.length same
    simp at lengths
    omega
  simp [branchAbove, longer]

/-- Unlinking the blocks above a fork. -/
theorem Closed.foldl_unlink (closed : Closed mapBlockIndex) {front pfork : BlockChain}
    (known : Known mapBlockIndex (front ++ pfork)) (pfork_ne : pfork ≠ []) :
    (branchAbove pfork (front ++ pfork)).foldl unlink (nextOn (front ++ pfork)) = nextOn pfork := by
  induction front with
  | nil => simp
  | cons pindex front induction =>
      have above : front ++ pfork ≠ [] := by simp [pfork_ne]
      have lower : Known mapBlockIndex (front ++ pfork) :=
        closed.known_suffix known (List.suffix_cons pindex _) above
      have unlinked : unlink (nextOn (pindex :: (front ++ pfork))) (pindex :: (front ++ pfork)) =
          nextOn (front ++ pfork) := by
        obtain ⟨entry, pprev, parts⟩ := List.exists_cons_of_ne_nil above
        rw [parts] at lower ⊢
        exact closed.unlink_nextOn lower
      rw [List.cons_append, branchAbove_cons, List.foldl_cons, unlinked]
      exact induction lower

/-- Linking the blocks above a fork. -/
theorem foldl_link {front pfork : BlockChain} (pfork_ne : pfork ≠ []) :
    (branchAbove pfork (front ++ pfork)).reverse.foldl link (nextOn pfork) =
      nextOn (front ++ pfork) := by
  induction front with
  | nil => simp
  | cons pindex front induction =>
      have above : front ++ pfork ≠ [] := by simp [pfork_ne]
      rw [List.cons_append, branchAbove_cons, List.reverse_cons, List.foldl_append, induction]
      obtain ⟨entry, pprev, parts⟩ := List.exists_cons_of_ne_nil above
      rw [parts]
      exact link_nextOn pindex entry pprev

/-- Each pointer extends the one before it by one entry, from the tip to the chain. -/
def Ascends : BlockChain → List BlockChain → BlockChain → Prop
  | tip, [], chain => tip = chain
  | tip, pindex :: pointers, chain =>
      (∃ entry, pindex = entry :: tip) ∧ Ascends pindex pointers chain

theorem Ascends.append {tip middle chain : BlockChain} {lower upper : List BlockChain}
    (first : Ascends tip lower middle) (second : Ascends middle upper chain) :
    Ascends tip (lower ++ upper) chain := by
  induction lower generalizing tip with
  | nil =>
      cases first
      exact second
  | cons pindex lower induction => exact ⟨first.1, induction first.2⟩

theorem Ascends.suffix {tip chain : BlockChain} {pointers : List BlockChain}
    (ascends : Ascends tip pointers chain) : tip <:+ chain := by
  induction pointers generalizing tip with
  | nil =>
      cases ascends
      exact List.suffix_rfl
  | cons pindex pointers induction =>
      obtain ⟨⟨entry, rfl⟩, rest⟩ := ascends
      exact (List.suffix_cons entry tip).trans (induction rest)

/-- The blocks above a fork, oldest first, ascend from it. -/
theorem ascends_branchAbove (front pfork : BlockChain) :
    Ascends pfork (branchAbove pfork (front ++ pfork)).reverse (front ++ pfork) := by
  induction front with
  | nil => simp [Ascends]
  | cons pindex front induction =>
      rw [List.cons_append, branchAbove_cons, List.reverse_cons]
      exact induction.append ⟨⟨pindex, rfl⟩, rfl⟩

/-- The blocks that `Reorganize` reaches and the ones it postpones make up the chain. -/
theorem postpone_spec (bnBestWork : Int) (chain : BlockChain) :
    ∃ front, chain = front ++ (postpone bnBestWork chain).2 ∧
      (postpone bnBestWork chain).1 = branchAbove (postpone bnBestWork chain).2 chain := by
  induction chain with
  | nil => exact ⟨[], rfl, rfl⟩
  | cons entry pprev induction =>
      obtain ⟨front, parts, postponed⟩ := induction
      simp only [postpone]
      split
      · refine ⟨entry :: front, by rw [List.cons_append, ← parts], ?_⟩
        have above := branchAbove_cons entry front (postpone bnBestWork pprev).2
        rw [← parts] at above
        rw [above, postponed]
      · exact ⟨[], rfl, (branchAbove_self _).symm⟩

theorem postpone_ne_nil (bnBestWork : Int) {chain : BlockChain} (chain_ne : chain ≠ []) :
    (postpone bnBestWork chain).2 ≠ [] := by
  induction chain with
  | nil => exact absurd rfl chain_ne
  | cons entry pprev induction =>
      simp only [postpone]
      split
      · rename_i more
        exact induction more.1
      · simp

end FooCoin

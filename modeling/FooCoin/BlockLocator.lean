import FooCoin.Coherence

/-!
# Block locators

A locator names ever sparser ancestors of a block, so that another node finds the fork with its own
main chain without asking for every block.  The first ten steps back are by one block and each later
one doubles, which keeps the block that is found within twice the distance to the fork.
-/

namespace FooCoin

open Function

/-- `CBlockLocator`. -/
structure CBlockLocator where
  vHave : List UInt256
  deriving DecidableEq

namespace CBlockLocator

/-- The loop of `CBlockLocator::Set`, `none` where the fuel runs out. -/
def setLoop : Nat → BlockChain → Int32 → List UInt256 → Option (List UInt256)
  | _, [], _, vHave => some vHave
  | 0, _ :: _, _, _ => none
  | fuel + 1, pindex :: pprev, nStep, vHave =>
      let vHave := vHave ++ [pindex.hashBlock]
      setLoop fuel ((pindex :: pprev).drop nStep.toInt.toNat)
        (if 10 < vHave.length then nStep * 2 else nStep) vHave

/-- `CBlockLocator::Set`. -/
def set (hashGenesisBlock : UInt256) (fuel : Nat) (pindex : BlockChain) : Option CBlockLocator := do
  let vHave ← setLoop fuel pindex 1 []
  pure { vHave := vHave ++ [hashGenesisBlock] }

end CBlockLocator

/-- `CBlockIndex::IsInMainChain`. -/
def Node.isInMainChain (node : Node) (pindex : BlockChain) : Bool :=
  node.pnext (getBlockHash pindex) ≠ [] ∨ pindex = node.pindexBest

/-- One round of the loop over `vHave`: the block with the hash if it is in the main chain. -/
def Node.findInMainChain (node : Node) (hash : UInt256) : Option BlockChain :=
  match node.mapBlockIndex hash with
  | none => none
  | some pindex => if node.isInMainChain pindex then some pindex else none

namespace CBlockLocator

/-- `CBlockLocator::GetBlockIndex`. -/
def getBlockIndex (node : Node) (locator : CBlockLocator) : BlockChain :=
  (locator.vHave.findSome? node.findInMainChain).getD node.pindexGenesisBlock

/-- The loop of `CBlockLocator::GetDistanceBack`. -/
def getDistanceBackLoop (node : Node) : List UInt256 → Int32 → Int32 → Int32
  | [], _, nDistance => nDistance
  | hash :: vHave, nStep, nDistance =>
      if (node.findInMainChain hash).isSome then nDistance
      else
        let nDistance := nDistance + nStep
        getDistanceBackLoop node vHave (if 10 < nDistance then nStep * 2 else nStep) nDistance

/-- `CBlockLocator::GetDistanceBack`. -/
def getDistanceBack (node : Node) (locator : CBlockLocator) : Int32 :=
  getDistanceBackLoop node locator.vHave 1 0

end CBlockLocator

/-! ## Main chains -/

/-- A block tree with consistent heights and a main chain in it. -/
structure MainChain (hashGenesisBlock : UInt256) (node : Node) : Prop where
  closed : Closed node.mapBlockIndex
  start : ∃ genesis : CBlockIndex, node.pindexGenesisBlock = [genesis] ∧
    genesis.hashBlock = hashGenesisBlock ∧ genesis.nHeight = 0 ∧
    ∀ hash chain, node.mapBlockIndex hash = some chain → [genesis] <:+ chain
  height : ∀ hash pindex prev pprev, node.mapBlockIndex hash = some (pindex :: prev :: pprev) →
    pindex.nHeight = prev.nHeight + 1
  /-- Heights are `int`s. -/
  small : ∀ hash pindex pprev, node.mapBlockIndex hash = some (pindex :: pprev) →
    pindex.nHeight < 2 ^ 31
  best : Known node.mapBlockIndex node.pindexBest
  links : ∀ hash chain, node.mapBlockIndex hash = some chain →
    node.pnext hash = nextOn node.pindexBest hash

/-- The last common ancestor of two blocks. -/
structure IsFork (first second fork : BlockChain) : Prop where
  left : fork <:+ first
  right : fork <:+ second
  last : ∀ common, common <:+ first → common <:+ second → common <:+ fork

/-- Two blocks have a last common ancestor. -/
theorem exists_isFork (first second : BlockChain) : ∃ fork, IsFork first second fork := by
  induction first with
  | nil => exact ⟨[], List.suffix_rfl, List.nil_suffix, fun _ common _ => common⟩
  | cons entry pprev induction =>
      by_cases below : entry :: pprev <:+ second
      · exact ⟨_, List.suffix_rfl, below, fun _ common _ => common⟩
      · obtain ⟨fork, isFork⟩ := induction
        refine ⟨fork, isFork.left.trans (List.suffix_cons _ _), isFork.right, ?_⟩
        intro common left right
        rcases List.suffix_cons_iff.mp left with rfl | deeper
        · exact absurd right below
        · exact isFork.last common deeper right

/-- `nHeight` of a block. -/
def heightOf (pindex : BlockChain) : Nat := (pindex.head?.map CBlockIndex.nHeight).getD 0

namespace MainChain

variable {hashGenesisBlock : UInt256} {node : Node} {chain part : BlockChain}

theorem ne_nil (main : MainChain hashGenesisBlock node) (known : Known node.mapBlockIndex chain) :
    chain ≠ [] := by
  obtain ⟨genesis, _, _, _, rooted⟩ := main.start
  rintro rfl
  have bottom := rooted _ _ known
  simp at bottom

/-- The height of a block is the number of blocks below it. -/
theorem heightOf_eq (main : MainChain hashGenesisBlock node)
    (known : Known node.mapBlockIndex chain) : heightOf chain + 1 = chain.length := by
  obtain ⟨genesis, _, _, ground, rooted⟩ := main.start
  induction chain with
  | nil => exact absurd rfl (main.ne_nil known)
  | cons pindex pprev induction =>
      cases pprev with
      | nil =>
          have bottom := rooted _ _ known
          rw [List.suffix_cons_iff] at bottom
          rcases bottom with same | deeper
          · cases same
            simp [heightOf, ground]
          · simp at deeper
      | cons prev pprev =>
          have lower : Known node.mapBlockIndex (prev :: pprev) :=
            main.closed.known_suffix known (List.suffix_cons _ _) (by simp)
          have height := main.height _ _ _ _ known
          have below := induction lower
          simp only [heightOf, List.head?_cons, Option.map_some, Option.getD_some,
            List.length_cons] at below ⊢
          omega

theorem length_le (main : MainChain hashGenesisBlock node)
    (known : Known node.mapBlockIndex chain) : chain.length ≤ 2 ^ 31 := by
  have height := main.heightOf_eq known
  obtain ⟨pindex, pprev, rfl⟩ := List.exists_cons_of_ne_nil (main.ne_nil known)
  have small := main.small _ _ _ known
  simp only [heightOf, List.head?_cons, Option.map_some, Option.getD_some] at height
  omega

/-- The blocks with a successor and the best one are the ancestors of the best one. -/
theorem isInMainChain_iff (main : MainChain hashGenesisBlock node)
    (known : Known node.mapBlockIndex chain) :
    node.isInMainChain chain = true ↔ chain <:+ node.pindexBest := by
  rw [Node.isInMainChain, decide_eq_true_eq, main.links _ _ known]
  constructor
  · rintro (next | rfl)
    · obtain ⟨entry, pprev, suffix, _, found⟩ := nextOn_ne_nil next
      have listed := main.closed.known_suffix main.best suffix (by simp)
      rwa [known.eq listed found.symm]
    · exact List.suffix_rfl
  · rintro ⟨front, parts⟩
    rcases List.eq_nil_or_concat front with rfl | ⟨upper, pindex, rfl⟩
    · exact .inr parts
    · left
      obtain ⟨entry, pprev, rfl⟩ := List.exists_cons_of_ne_nil (main.ne_nil known)
      have suffix : pindex :: entry :: pprev <:+ node.pindexBest := ⟨upper, by rw [← parts]; simp⟩
      have next := main.closed.nextOn_suffix main.best suffix
      rw [show getBlockHash (entry :: pprev) = entry.hashBlock from rfl, next]
      simp

end MainChain

/-- The nodes that calm runs lead to have a main chain. -/
theorem InStep.mainChain {env : Env} {genesis : CBlockIndex} {node : Node}
    (inStep : InStep env genesis node) (ground : genesis.nHeight = 0)
    (small : ∀ hash pindex pprev, node.mapBlockIndex hash = some (pindex :: pprev) →
      pindex.nHeight < 2 ^ 31) : MainChain genesis.hashBlock node where
  closed := inStep.tree.closed
  start := by
    refine ⟨genesis, inStep.tree.start, rfl, ground, fun hash chain found => ?_⟩
    have rooted := inStep.tree.rooted hash chain found
    clear found
    induction rooted with
    | genesis => exact List.suffix_rfl
    | block _ _ induction => exact induction.trans (List.suffix_cons _ _)
  height hash pindex prev pprev found := by
    obtain ⟨-, block, stacked⟩ := (inStep.tree.rooted _ _ found).placed (by simp)
    rw [stacked.entry]
    rfl
  small := small
  best := inStep.tree.best
  links hash _ _ := by rw [inStep.aligned.pnext]

/-! ## The blocks that a locator names -/

/-- How many blocks back the `i`-th hash of a locator lies. -/
def locatorDepth (i : Nat) : Nat := if i ≤ 10 then i else 9 + 2 ^ (i - 10)

/-- The step after the `i`-th hash. -/
def locatorStep (i : Nat) : Nat := if i ≤ 10 then 1 else 2 ^ (i - 10)

theorem locatorDepth_succ (i : Nat) : locatorDepth (i + 1) = locatorDepth i + locatorStep i := by
  rcases Nat.lt_trichotomy i 10 with below | rfl | above
  · simp only [locatorDepth, locatorStep, Nat.succ_le_of_lt below, below.le, if_true]
  · rfl
  · have exponent : i + 1 - 10 = i - 10 + 1 := by omega
    have later : ¬i + 1 ≤ 10 := by omega
    simp only [locatorDepth, locatorStep, later, Nat.not_le.mpr above, if_false, exponent, pow_succ]
    omega

theorem locatorDepth_mono : Monotone locatorDepth :=
  monotone_nat_of_le_succ fun i => by
    rw [locatorDepth_succ]
    exact Nat.le_add_right _ _

theorem locatorStep_pos (i : Nat) : 0 < locatorStep i := by
  unfold locatorStep
  split_ifs <;> positivity

theorem le_locatorDepth (i : Nat) : i ≤ locatorDepth i := by
  induction i with
  | zero => exact Nat.zero_le _
  | succ i induction =>
      have step := locatorStep_pos i
      rw [locatorDepth_succ]
      omega

theorem locatorStep_succ {i : Nat} (later : 10 ≤ i) : locatorStep (i + 1) = locatorStep i * 2 := by
  rcases Nat.eq_or_lt_of_le later with rfl | above
  · rfl
  · have exponent : i + 1 - 10 = i - 10 + 1 := by omega
    simp only [locatorStep, Nat.not_le.mpr above, Nat.not_le.mpr (Nat.lt_succ_of_lt above),
      if_false, exponent, pow_succ]

/-- The step after a hash is a word as long as it matters. -/
theorem locatorStep_lt {i : Nat} (reached : locatorDepth i < 2 ^ 31) : locatorStep i < 2 ^ 31 := by
  unfold locatorDepth at reached
  unfold locatorStep
  split_ifs at reached ⊢
  · norm_num
  · omega

namespace CBlockLocator

private theorem toInt_double {nStep : Int32} {step : Nat} (value : nStep.toInt = step)
    (small : step * 2 < 2 ^ 31) : (nStep * 2).toInt = (step * 2 : Nat) := by
  have two : (2 : Int32).toInt = 2 := rfl
  rw [Int32.toInt_mul, value, two, Int.bmod_eq_of_le (by omega) (by omega)]
  push_cast
  rfl

/-- The loop has run off the start of the chain. -/
private theorem setLoop_passed {pindex : BlockChain} {vHave : List UInt256} (fuel : Nat)
    (nStep : Int32) (passed : pindex.length ≤ locatorDepth vHave.length) :
    ∃ hashes, setLoop fuel (pindex.drop (locatorDepth vHave.length)) nStep vHave =
        some (vHave ++ hashes) ∧
      ∀ i, hashes[i]? =
        (pindex.drop (locatorDepth (vHave.length + i))).head?.map CBlockIndex.hashBlock := by
  have ended : ∀ i, pindex.drop (locatorDepth (vHave.length + i)) = [] := fun i =>
    List.drop_eq_nil_iff.mpr (passed.trans (locatorDepth_mono (Nat.le_add_right _ _)))
  refine ⟨[], ?_, fun i => by rw [ended i]; rfl⟩
  have now := ended 0
  rw [Nat.add_zero] at now
  rw [now, List.append_nil]
  cases fuel <;> rfl

/-- The loop pushes the hashes at the depths of a locator. -/
private theorem setLoop_eq {pindex : BlockChain} (small : pindex.length ≤ 2 ^ 31) {fuel : Nat}
    {nStep : Int32} {vHave : List UInt256}
    (enough : pindex.length ≤ fuel + locatorDepth vHave.length)
    (step : locatorDepth vHave.length < pindex.length → nStep.toInt = locatorStep vHave.length) :
    ∃ hashes, setLoop fuel (pindex.drop (locatorDepth vHave.length)) nStep vHave =
        some (vHave ++ hashes) ∧
      ∀ i, hashes[i]? =
        (pindex.drop (locatorDepth (vHave.length + i))).head?.map CBlockIndex.hashBlock := by
  induction fuel generalizing nStep vHave with
  | zero => exact setLoop_passed 0 nStep (by omega)
  | succ fuel induction =>
      by_cases reached : locatorDepth vHave.length < pindex.length
      · obtain ⟨entry, pprev, here⟩ :=
          List.exists_cons_of_ne_nil (List.drop_eq_nil_iff.not.mpr (Nat.not_le.mpr reached))
        have next := locatorDepth_succ vHave.length
        have pushed : (vHave ++ [entry.hashBlock]).length = vHave.length + 1 := by simp
        have back : (entry :: pprev).drop nStep.toInt.toNat =
            pindex.drop (locatorDepth (vHave ++ [entry.hashBlock]).length) := by
          rw [← here, List.drop_drop, step reached, Int.toNat_natCast, pushed, next]
        have progress := locatorStep_pos vHave.length
        obtain ⟨hashes, later, entries⟩ := @induction
          (if 10 < (vHave ++ [entry.hashBlock]).length then nStep * 2 else nStep)
          (vHave ++ [entry.hashBlock]) (by rw [pushed]; omega) fun reached_next => by
            rw [pushed] at reached_next ⊢
            have fits := locatorStep_lt (reached_next.trans_le small)
            rcases Nat.lt_or_ge 10 (vHave.length + 1) with doubled | plain
            · have twice := locatorStep_succ (Nat.le_of_lt_succ doubled)
              rw [if_pos doubled, twice]
              exact toInt_double (step reached) (twice ▸ fits)
            · rw [if_neg (Nat.not_lt.mpr plain), step reached]
              simp only [locatorStep, plain, Nat.le_of_succ_le plain, if_true]
        refine ⟨entry.hashBlock :: hashes, ?_, fun i => ?_⟩
        · rw [here]
          simp only [setLoop]
          rw [back, later, List.append_assoc]
          rfl
        · cases i with
          | zero => rw [Nat.add_zero, here]; rfl
          | succ i =>
              rw [List.getElem?_cons_succ, entries, pushed, Nat.add_right_comm, Nat.add_assoc]
      · exact setLoop_passed _ nStep (Nat.not_lt.mp reached)

/-- `Set` ends, with the hashes at the depths of a locator and that of the genesis block. -/
private theorem set_eq (hashGenesisBlock : UInt256) {pindex : BlockChain}
    (small : pindex.length ≤ 2 ^ 31) :
    ∃ hashes, (∀ fuel, pindex.length ≤ fuel →
        set hashGenesisBlock fuel pindex = some { vHave := hashes ++ [hashGenesisBlock] }) ∧
      ∀ i, hashes[i]? = (pindex.drop (locatorDepth i)).head?.map CBlockIndex.hashBlock := by
  have loop : ∀ fuel, pindex.length ≤ fuel → ∃ hashes, setLoop fuel pindex 1 [] = some hashes ∧
      ∀ i, hashes[i]? = (pindex.drop (locatorDepth i)).head?.map CBlockIndex.hashBlock := by
    intro fuel enough
    obtain ⟨hashes, pushed, entries⟩ := @setLoop_eq pindex small fuel 1 [] enough fun _ => rfl
    exact ⟨hashes, pushed, fun i => (entries i).trans (by rw [List.length_nil, Nat.zero_add])⟩
  obtain ⟨hashes, pushed, entries⟩ := loop pindex.length le_rfl
  refine ⟨hashes, fun fuel enough => ?_, entries⟩
  obtain ⟨others, also_pushed, other_entries⟩ := loop fuel enough
  have same : others = hashes :=
    List.ext_getElem? fun i => (other_entries i).trans (entries i).symm
  rw [set, also_pushed, same]
  rfl

end CBlockLocator

/-! ## Finding the fork -/

private theorem findSome?_of_first {α β : Type} {choose : α → Option β} {values : List α}
    {i : Nat} {value : α} {found : β} (listed : values[i]? = some value)
    (chosen : choose value = some found)
    (earlier : ∀ j < i, ∀ other, values[j]? = some other → choose other = none) :
    values.findSome? choose = some found := by
  induction values generalizing i with
  | nil => simp at listed
  | cons first values induction =>
      cases i with
      | zero =>
          cases listed
          rw [List.findSome?_cons, chosen]
      | succ i =>
          rw [List.findSome?_cons, earlier 0 (Nat.succ_pos i) first rfl]
          exact induction listed fun j below other there =>
            earlier (j + 1) (Nat.succ_lt_succ below) other there

section Fork

variable {hashGenesisBlock : UInt256} {node : Node} {pindex fork : BlockChain}

/-- An ancestor of a block is in the main chain from the fork on. -/
private theorem IsFork.drop_suffix_iff {best : BlockChain} (isFork : IsFork pindex best fork)
    (depth : Nat) : pindex.drop depth <:+ best ↔ pindex.length - fork.length ≤ depth := by
  have fork_eq := List.suffix_iff_eq_drop.mp isFork.left
  constructor
  · intro common
    have shorter := (isFork.last _ (List.drop_suffix depth pindex) common).length_le
    rw [List.length_drop] at shorter
    omega
  · intro deep
    have deeper : pindex.drop depth = fork.drop (depth - (pindex.length - fork.length)) := by
      rw [fork_eq, List.drop_drop, List.length_drop]
      congr 1
      omega
    rw [deeper]
    exact (List.drop_suffix _ fork).trans isFork.right

/-- Where the search for a locator's blocks ends. -/
private theorem findInMainChain_drop (main : MainChain hashGenesisBlock node)
    (known : Known node.mapBlockIndex pindex) (isFork : IsFork pindex node.pindexBest fork)
    {depth : Nat} {hash : UInt256}
    (listed : (pindex.drop depth).head?.map CBlockIndex.hashBlock = some hash) :
    node.findInMainChain hash =
      if pindex.length - fork.length ≤ depth then some (pindex.drop depth) else none := by
  have part_ne : pindex.drop depth ≠ [] := by
    intro ended
    simp [ended] at listed
  have part := main.closed.known_suffix known (List.drop_suffix depth pindex) part_ne
  have found : node.mapBlockIndex hash = some (pindex.drop depth) := by
    rw [Known, getBlockHash, listed, Option.getD_some] at part
    exact part
  have reached := main.isInMainChain_iff part
  rw [isFork.drop_suffix_iff] at reached
  simp only [Node.findInMainChain, found, reached]

/-- The first hash at the fork or below is found. -/
private theorem firstFound (main : MainChain hashGenesisBlock node)
    (known : Known node.mapBlockIndex pindex) (isFork : IsFork pindex node.pindexBest fork)
    {hashes : List UInt256} {i : Nat}
    (entries : ∀ i, hashes[i]? = (pindex.drop (locatorDepth i)).head?.map CBlockIndex.hashBlock)
    (deep : pindex.length - fork.length ≤ locatorDepth i)
    (first : ∀ j < i, locatorDepth j < pindex.length - fork.length)
    (reached : locatorDepth i < pindex.length) :
    ∃ hash, (hashes ++ [hashGenesisBlock])[i]? = some hash ∧
      node.findInMainChain hash = some (pindex.drop (locatorDepth i)) ∧
      ∀ j < i, ∀ other, (hashes ++ [hashGenesisBlock])[j]? = some other →
        node.findInMainChain other = none := by
  have above : pindex.drop (locatorDepth i) ≠ [] :=
    List.drop_eq_nil_iff.not.mpr (Nat.not_le.mpr reached)
  obtain ⟨entry, pprev, here⟩ := List.exists_cons_of_ne_nil above
  have listed : hashes[i]? = some entry.hashBlock := by rw [entries, here]; rfl
  obtain ⟨small, -⟩ := List.getElem?_eq_some_iff.mp listed
  have chosen := findInMainChain_drop main known isFork ((entries i).symm.trans listed)
  rw [if_pos deep] at chosen
  refine ⟨_, (List.getElem?_append_left small).trans listed, chosen, fun j below other there => ?_⟩
  rw [List.getElem?_append_left (below.trans small), entries] at there
  rw [findInMainChain_drop main known isFork there, if_neg (Nat.not_le.mpr (first j below))]

/-- The block of the first hash at the fork or below is returned. -/
private theorem getBlockIndex_reached (main : MainChain hashGenesisBlock node)
    (known : Known node.mapBlockIndex pindex) (isFork : IsFork pindex node.pindexBest fork)
    {hashes : List UInt256} {i : Nat}
    (entries : ∀ i, hashes[i]? = (pindex.drop (locatorDepth i)).head?.map CBlockIndex.hashBlock)
    (deep : pindex.length - fork.length ≤ locatorDepth i)
    (first : ∀ j < i, locatorDepth j < pindex.length - fork.length)
    (reached : locatorDepth i < pindex.length) :
    CBlockLocator.getBlockIndex node { vHave := hashes ++ [hashGenesisBlock] } =
      pindex.drop (locatorDepth i) := by
  obtain ⟨hash, listed, found, earlier⟩ :=
    firstFound main known isFork entries deep first reached
  rw [CBlockLocator.getBlockIndex, findSome?_of_first listed found earlier]
  rfl

/-- No hash reaches the fork, and the genesis block is found. -/
private theorem getBlockIndex_passed (main : MainChain hashGenesisBlock node)
    (known : Known node.mapBlockIndex pindex) (isFork : IsFork pindex node.pindexBest fork)
    {hashes : List UInt256}
    (entries : ∀ i, hashes[i]? = (pindex.drop (locatorDepth i)).head?.map CBlockIndex.hashBlock)
    (missed : ∀ i, locatorDepth i < pindex.length →
      locatorDepth i < pindex.length - fork.length) :
    CBlockLocator.getBlockIndex node { vHave := hashes ++ [hashGenesisBlock] } =
      node.pindexGenesisBlock := by
  obtain ⟨genesis, start, hash, -, rooted⟩ := main.start
  have none_found : hashes.findSome? node.findInMainChain = none := by
    rw [List.findSome?_eq_none_iff]
    intro other member
    obtain ⟨i, small, there⟩ := List.getElem_of_mem member
    have listed : hashes[i]? = some other := by rw [List.getElem?_eq_getElem small, there]
    rw [entries] at listed
    have reached : locatorDepth i < pindex.length := by
      by_contra passed
      rw [List.drop_eq_nil_iff.mpr (Nat.not_lt.mp passed)] at listed
      simp at listed
    rw [findInMainChain_drop main known isFork listed, if_neg (Nat.not_le.mpr (missed i reached))]
  have bottom : Known node.mapBlockIndex [genesis] :=
    main.closed.known_suffix known (rooted _ _ known) (by simp)
  have found : node.mapBlockIndex hashGenesisBlock = some [genesis] := hash ▸ bottom
  rw [CBlockLocator.getBlockIndex, List.findSome?_append, none_found, start]
  simp only [List.findSome?_cons, List.findSome?_nil, Node.findInMainChain, found]
  split_ifs <;> rfl

private theorem missed_of_passed {i depth length : Nat} (first : ∀ j < i, locatorDepth j < depth)
    (passed : ¬locatorDepth i < length) (j : Nat) (inside : locatorDepth j < length) :
    locatorDepth j < depth := by
  refine first j ?_
  by_contra later
  exact passed ((locatorDepth_mono (Nat.not_lt.mp later)).trans_lt inside)

/-- The depths of a locator are at most twice apart. -/
private theorem locatorDepth_le {i depth : Nat} (first : ∀ j < i, locatorDepth j < depth) :
    locatorDepth i ≤ 2 * depth := by
  cases i with
  | zero => exact Nat.zero_le _
  | succ i =>
      have before := first i (Nat.lt_succ_self i)
      rw [locatorDepth_succ]
      unfold locatorDepth locatorStep at *
      split_ifs at * <;> omega

/-- The first hash at the fork or below. -/
private theorem exists_firstBehind (depth : Nat) :
    ∃ i, depth ≤ locatorDepth i ∧ ∀ j < i, locatorDepth j < depth := by
  have exists_deep : ∃ i, depth ≤ locatorDepth i := ⟨_, le_locatorDepth _⟩
  exact ⟨Nat.find exists_deep, Nat.find_spec exists_deep, fun j below =>
    Nat.not_le.mp (Nat.find_min exists_deep below)⟩

/-- `Set` ends, and the locator leads to a main-chain ancestor of the block: to the fork if that is
at most ten blocks away, and else to the genesis block or no more than twice as far. -/
theorem getBlockIndex_set (main : MainChain hashGenesisBlock node)
    (known : Known node.mapBlockIndex pindex) (isFork : IsFork pindex node.pindexBest fork) :
    ∃ locator, (∀ fuel, pindex.length ≤ fuel →
        CBlockLocator.set hashGenesisBlock fuel pindex = some locator) ∧
      (locator.getBlockIndex node ≠ [] ∧ locator.getBlockIndex node <:+ pindex ∧
        locator.getBlockIndex node <:+ node.pindexBest) ∧
      (heightOf pindex ≤ heightOf fork + 10 → locator.getBlockIndex node = fork) ∧
      (locator.getBlockIndex node = node.pindexGenesisBlock ∨
        heightOf pindex ≤
          heightOf (locator.getBlockIndex node) + 2 * (heightOf pindex - heightOf fork)) := by
  obtain ⟨hashes, ends, entries⟩ :=
    CBlockLocator.set_eq hashGenesisBlock (main.length_le known)
  refine ⟨_, ends, ?_⟩
  obtain ⟨genesis, start, -, -, rooted⟩ := main.start
  have fork_bottom := isFork.last _ (rooted _ _ known) (rooted _ _ main.best)
  have fork_known := main.closed.known_suffix known isFork.left (by
    rintro rfl
    simp at fork_bottom)
  have height := main.heightOf_eq known
  have fork_height := main.heightOf_eq fork_known
  have shorter := isFork.left.length_le
  obtain ⟨i, deep, first⟩ := exists_firstBehind (pindex.length - fork.length)
  have exact_near : pindex.length - fork.length ≤ 10 →
      locatorDepth i = pindex.length - fork.length := by
    intro near
    have index_le : i ≤ pindex.length - fork.length := by
      by_contra later
      exact absurd (first _ (Nat.not_le.mp later)) (Nat.not_lt.mpr (le_locatorDepth _))
    rw [locatorDepth, if_pos (index_le.trans near)] at deep ⊢
    exact le_antisymm index_le deep
  by_cases reached : locatorDepth i < pindex.length
  · rw [getBlockIndex_reached main known isFork entries deep first reached]
    have part_ne : pindex.drop (locatorDepth i) ≠ [] :=
      List.drop_eq_nil_iff.not.mpr (Nat.not_le.mpr reached)
    have suffix := List.drop_suffix (locatorDepth i) pindex
    refine ⟨⟨part_ne, suffix, (isFork.drop_suffix_iff _).mpr deep⟩, fun near => ?_, .inr ?_⟩
    · rw [exact_near (by omega)]
      exact (List.suffix_iff_eq_drop.mp isFork.left).symm
    · have part_height := main.heightOf_eq (main.closed.known_suffix known suffix part_ne)
      have within := locatorDepth_le first
      rw [List.length_drop] at part_height
      omega
  · rw [getBlockIndex_passed main known isFork entries (missed_of_passed first reached)]
    refine ⟨⟨by simp [start], ?_, ?_⟩, fun near => ?_, .inl rfl⟩
    · exact start ▸ rooted _ _ known
    · exact start ▸ rooted _ _ main.best
    · exact absurd (exact_near (by omega)) (by omega)

/-- The distance follows the depths of a locator up to the first hash that is found. -/
private theorem getDistanceBackLoop_eq {vHave : List UInt256} {nStep nDistance : Int32} {i k : Nat}
    {hash : UInt256} (listed : vHave[i]? = some hash)
    (found : (node.findInMainChain hash).isSome = true)
    (earlier : ∀ j < i, ∀ other, vHave[j]? = some other → node.findInMainChain other = none)
    (distance : nDistance.toInt = locatorDepth k) (step : nStep.toInt = locatorStep k)
    (small : locatorDepth (k + i) < 2 ^ 31) :
    (CBlockLocator.getDistanceBackLoop node vHave nStep nDistance).toInt =
      locatorDepth (k + i) := by
  induction vHave generalizing i k nStep nDistance with
  | nil => simp at listed
  | cons first vHave induction =>
      cases i with
      | zero =>
          cases listed
          rw [CBlockLocator.getDistanceBackLoop, if_pos found, distance, Nat.add_zero]
      | succ i =>
          have missing := earlier 0 (Nat.succ_pos i) first rfl
          have reached : locatorDepth (k + 1) < 2 ^ 31 :=
            (locatorDepth_mono (by omega)).trans_lt small
          have next := locatorDepth_succ k
          have sum : (nDistance + nStep).toInt = locatorDepth (k + 1) := by
            rw [Int32.toInt_add, distance, step, Int.bmod_eq_of_le (by omega) (by omega), next]
            push_cast
            rfl
          have position : k + (i + 1) = k + 1 + i := by omega
          rw [CBlockLocator.getDistanceBackLoop, if_neg (by simp [missing]), position]
          refine induction listed (fun j below other there =>
            earlier (j + 1) (Nat.succ_lt_succ below) other there) sum ?_ (position ▸ small)
          have far : 10 < nDistance + nStep ↔ 10 ≤ k := by
            rw [Int32.lt_iff_toInt_lt, sum]
            have later := le_locatorDepth (k + 1)
            have ten : (10 : Int32).toInt = 10 := rfl
            rw [ten]
            refine ⟨fun above => ?_, fun above => by omega⟩
            by_contra near
            rw [locatorDepth, if_pos (by omega)] at above
            omega
          have fits := locatorStep_lt reached
          rcases Nat.lt_or_ge k 10 with near | doubled
          · rw [if_neg (far.not.mpr (Nat.not_le.mpr near)), step, locatorStep, locatorStep,
              if_pos near.le, if_pos (Nat.succ_le_of_lt near)]
          · rw [if_pos (far.mpr doubled), locatorStep_succ doubled]
            exact CBlockLocator.toInt_double step (locatorStep_succ doubled ▸ fits)

/-- `GetDistanceBack` of a locator is the distance to the block that it leads to, unless it leads to
the genesis block. -/
theorem getDistanceBack_set (main : MainChain hashGenesisBlock node)
    (known : Known node.mapBlockIndex pindex) :
    ∃ locator, (∀ fuel, pindex.length ≤ fuel →
        CBlockLocator.set hashGenesisBlock fuel pindex = some locator) ∧
      (locator.getBlockIndex node ≠ node.pindexGenesisBlock →
        (locator.getDistanceBack node).toInt + heightOf (locator.getBlockIndex node) =
          heightOf pindex) := by
  obtain ⟨fork, isFork⟩ := exists_isFork pindex node.pindexBest
  have small := main.length_le known
  obtain ⟨hashes, ends, entries⟩ := CBlockLocator.set_eq hashGenesisBlock small
  refine ⟨_, ends, fun above => ?_⟩
  obtain ⟨i, deep, first⟩ := exists_firstBehind (pindex.length - fork.length)
  by_cases reached : locatorDepth i < pindex.length
  · have part_ne : pindex.drop (locatorDepth i) ≠ [] :=
      List.drop_eq_nil_iff.not.mpr (Nat.not_le.mpr reached)
    obtain ⟨hash, listed, found, earlier⟩ :=
      firstFound main known isFork entries deep first reached
    have distance := @getDistanceBackLoop_eq node _ 1 0 i 0 hash listed (by rw [found]; rfl) earlier
      rfl rfl (by rw [Nat.zero_add]; exact reached.trans_le small)
    rw [Nat.zero_add] at distance
    have height := main.heightOf_eq known
    have part_height := main.heightOf_eq
      (main.closed.known_suffix known (List.drop_suffix (locatorDepth i) pindex) part_ne)
    rw [List.length_drop] at part_height
    rw [getBlockIndex_reached main known isFork entries deep first reached,
      CBlockLocator.getDistanceBack, distance]
    omega
  · exact absurd (getBlockIndex_passed main known isFork entries (missed_of_passed first reached))
      above

end Fork

/-! ## A side branch -/

/-- An entry with a hash and a height. -/
def locatorEntry (hash : UInt256) (nHeight : Nat) : CBlockIndex where
  hashBlock := hash
  nFile := 1
  nBlockPos := 0
  nHeight := nHeight
  bnChainWork := 1
  nVersion := 1
  hashMerkleRoot := 0
  nTime := 0
  nBits := 0
  nNonce := 0

/-- The genesis block, a block on top of it, and two blocks on top of that one. -/
def locatorBlocks : List BlockChain :=
  [[locatorEntry 1 0], [locatorEntry 2 1, locatorEntry 1 0],
    [locatorEntry 3 2, locatorEntry 2 1, locatorEntry 1 0],
    [locatorEntry 4 2, locatorEntry 2 1, locatorEntry 1 0]]

/-- A node whose best block is the first of the two upper blocks. -/
def locatorNode : Node :=
  { genesisNode (locatorEntry 1 0) [] with
    mapBlockIndex := fun hash => locatorBlocks.find? fun chain => getBlockHash chain = hash
    pindexBest := [locatorEntry 3 2, locatorEntry 2 1, locatorEntry 1 0]
    pnext := nextOn [locatorEntry 3 2, locatorEntry 2 1, locatorEntry 1 0] }

private theorem locatorNode_listed {hash : UInt256} {chain : BlockChain}
    (found : locatorNode.mapBlockIndex hash = some chain) :
    chain ∈ locatorBlocks ∧ getBlockHash chain = hash := by
  change locatorBlocks.find? (fun chain => getBlockHash chain = hash) = some chain at found
  exact ⟨List.mem_of_find?_eq_some found, by simpa using List.find?_some found⟩

theorem locatorNode_mainChain : MainChain 1 locatorNode where
  closed :=
    { hash := fun _ _ found => (locatorNode_listed found).2
      tail := by
        intro hash entry pprev found above
        have known : ∀ chain ∈ locatorBlocks, chain.tail ≠ [] →
            locatorNode.mapBlockIndex (getBlockHash chain.tail) = some chain.tail := by
          decide +kernel
        exact known _ (locatorNode_listed found).1 above }
  start := by
    refine ⟨locatorEntry 1 0, rfl, rfl, rfl, fun hash chain found => ?_⟩
    have rooted : ∀ chain ∈ locatorBlocks, [locatorEntry 1 0] <:+ chain := by decide +kernel
    exact rooted _ (locatorNode_listed found).1
  height := by
    intro hash pindex prev pprev found
    have heights : ∀ chain ∈ locatorBlocks, chain.tail ≠ [] →
        heightOf chain = heightOf chain.tail + 1 := by
      decide +kernel
    exact heights _ (locatorNode_listed found).1 (by simp)
  small := by
    intro hash pindex pprev found
    have heights : ∀ chain ∈ locatorBlocks, heightOf chain < 2 ^ 31 := by decide +kernel
    exact heights _ (locatorNode_listed found).1
  best := rfl
  links _ _ _ := rfl

/-- The fork with the other upper block is found. -/
theorem getBlockIndex_set_locatorNode :
    ∃ locator, (∀ fuel, 3 ≤ fuel →
        CBlockLocator.set 1 fuel [locatorEntry 4 2, locatorEntry 2 1, locatorEntry 1 0] =
          some locator) ∧
      locator.getBlockIndex locatorNode = [locatorEntry 2 1, locatorEntry 1 0] := by
  have isFork : IsFork [locatorEntry 4 2, locatorEntry 2 1, locatorEntry 1 0]
      locatorNode.pindexBest [locatorEntry 2 1, locatorEntry 1 0] := by
    refine ⟨List.suffix_cons _ _, List.suffix_cons _ _, fun common left right => ?_⟩
    rcases List.suffix_cons_iff.mp left with rfl | deeper
    · revert right
      decide +kernel
    · exact deeper
  obtain ⟨locator, ends, -, near, -⟩ :=
    getBlockIndex_set locatorNode_mainChain (by rfl) isFork
  exact ⟨locator, ends, near (by decide)⟩

end FooCoin

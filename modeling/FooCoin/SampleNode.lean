import FooCoin.NodeRun
import FooCoin.SampleChain

/-!
# Sample nodes

A node whose genesis block is the first of a list of sample blocks, and to which the other ones
arrive.
-/

namespace FooCoin

open Relation

/-- The block files hold the blocks, the first of them the genesis block. -/
def sampleNodeEnv (blocks : Nat → CBlock) : Env :=
  sampleEnv blocks ((blocks 0).getHash sampleCrypto)

/-- A clock that always shows the same late time. -/
def sampleClock (_ : UInt256) : Int := 2000000000

/-- The node that has the genesis block. -/
def sampleStartNode (blocks : Nat → CBlock) (wallets : List CWallet) : Node :=
  (addToBlockIndex (sampleNodeEnv blocks) sampleClock 1 8 (blocks 0) (.initial wallets)).2

/-- The arrival of the `i`-th block. -/
def sampleArrival (blocks : Nat → CBlock) (clock : UInt256 → Int) (i : Nat) : NodeEvent :=
  .block clock (i + 1) 8 (blocks i)

/-- The node after events. -/
def sampleNode (blocks : Nat → CBlock) (wallets : List CWallet) (events : List NodeEvent) : Node :=
  events.foldl (Node.handle (sampleNodeEnv blocks)) (sampleStartNode blocks wallets)

/-- A spend to a key. -/
def payToKey : CScript := [0x76, 0xa9, 0x14] ++ List.replicate 20 0 ++ [0x88, 0xac]

/-- A wallet without transactions that has every key. -/
def sampleWallet : CWallet where
  keystore :=
    { haveKey := fun _ => true
      mapScripts := [] }
  nMinimumInputValue := 0
  mapWallet _ := none

variable {blocks : Nat → CBlock} {wallets : List CWallet}

theorem sampleStartNode_started (heavy : (0 : Int) < getBlockWork (blocks 0).nBits) :
    Started (sampleNodeEnv blocks) (sampleStartNode blocks wallets) := by
  refine ⟨sampleClock, 1, 8, blocks 0, wallets, rfl, heavy, Prod.ext ?_ rfl⟩
  have heavier : (0 : Int) <
      getChainWork [.ofBlock (sampleNodeEnv blocks).crypto 1 8 (blocks 0) []] := by
    simpa [getChainWork, CBlockIndex.ofBlock] using heavy
  have genesis : (blocks 0).getHash (sampleNodeEnv blocks).crypto =
      (sampleNodeEnv blocks).hashGenesisBlock := rfl
  simp only [addToBlockIndex, Node.initial, Option.isSome_none, Bool.false_eq_true, if_false,
    Option.getD_none, heavier, if_true, setBestChain, genesis, and_self]

/-- The `i`-th block arrives if it passes `CheckBlock` and its predecessor is known. -/
theorem sampleArrives {node : Node} {i : Nat} (usable : i + 1 ≠ 0xffffffff)
    (checked : ((blocks i).checkBlock sampleCrypto 2000000000).isOk = true)
    (previous : (node.mapBlockIndex (blocks i).hashPrevBlock).isSome = true) :
    Arrives (sampleNodeEnv blocks) node (i + 1) 8 (blocks i) := by
  obtain ⟨_, accepted⟩ := exists_of_isOk checked
  exact ⟨sampleEnv_stored blocks _ usable, ⟨2000000000, accepted⟩, previous⟩

/-- The `i`-th block is new and heavier than the best chain. -/
theorem sampleAdd {node : Node} {clock : UInt256 → Int} {i : Nat} {pprev : BlockChain}
    (new : node.mapBlockIndex ((blocks i).getHash sampleCrypto) = none)
    (previous : (node.mapBlockIndex (blocks i).hashPrevBlock).getD [] = pprev)
    (heavier : node.bnBestChainWork < getChainWork (sampleEntry i (blocks i) pprev :: pprev)) :
    addToBlockIndex (sampleNodeEnv blocks) clock (i + 1) 8 (blocks i) node =
      setBestChain (sampleNodeEnv blocks) clock (blocks i) (sampleEntry i (blocks i) pprev :: pprev)
        (node.enter (sampleEntry i (blocks i) pprev :: pprev)) := by
  have entry : sampleEntry i (blocks i) pprev =
      .ofBlock (sampleNodeEnv blocks).crypto (i + 1) 8 (blocks i) pprev := rfl
  rw [addToBlockIndex_eq clock new previous entry, if_pos heavier]

/-- Events that are admissible when they come make a run. -/
theorem sampleNode_run {condition : NodeEvent → Node → Prop} {events : List NodeEvent}
    (steps : ∀ i (small : i < events.length),
      events[i].Admissible (sampleNodeEnv blocks) (sampleNode blocks wallets (events.take i)) ∧
        condition events[i] (sampleNode blocks wallets (events.take i))) :
    NodeRun (sampleNodeEnv blocks) condition (sampleStartNode blocks wallets)
      (sampleNode blocks wallets events) := by
  have prefixes (count : Nat) (within : count ≤ events.length) :
      NodeRun (sampleNodeEnv blocks) condition (sampleStartNode blocks wallets)
        (sampleNode blocks wallets (events.take count)) := by
    induction count with
    | zero => exact .refl
    | succ count induction =>
        obtain ⟨admissible, holds⟩ := steps count within
        refine (induction (Nat.le_of_succ_le within)).tail ⟨events[count], admissible, holds, ?_⟩
        have next : events[count]? = some events[count] := List.getElem?_eq_getElem within
        rw [sampleNode, List.take_add_one, next, List.foldl_append]
        rfl
  have all := prefixes events.length le_rfl
  rwa [List.take_length] at all

/-- Arrivals of blocks, each at a clock. -/
def sampleArrivals (blocks : Nat → CBlock) (arrivals : List ((UInt256 → Int) × Nat)) :
    List NodeEvent :=
  arrivals.map fun arrival => sampleArrival blocks arrival.1 arrival.2

/-- The block passes `CheckBlock` at a late time, and its predecessor is known. -/
def sampleChecked (blocks : Nat → CBlock) (node : Node) (i : Nat) : Bool :=
  decide (i + 1 ≠ 0xffffffff) && ((blocks i).checkBlock sampleCrypto 2000000000).isOk &&
    (node.mapBlockIndex (blocks i).hashPrevBlock).isSome

/-- Checked arrivals that meet a condition make a run. -/
theorem sampleArrivals_run {condition : NodeEvent → Node → Prop}
    {arrivals : List ((UInt256 → Int) × Nat)}
    (checked : ∀ i (small : i < arrivals.length), sampleChecked blocks
      (sampleNode blocks wallets (sampleArrivals blocks (arrivals.take i))) arrivals[i].2 = true)
    (holds : ∀ i (small : i < arrivals.length),
      condition (sampleArrival blocks arrivals[i].1 arrivals[i].2)
        (sampleNode blocks wallets (sampleArrivals blocks (arrivals.take i)))) :
    NodeRun (sampleNodeEnv blocks) condition (sampleStartNode blocks wallets)
      (sampleNode blocks wallets (sampleArrivals blocks arrivals)) := by
  refine sampleNode_run fun i small => ?_
  have small_arrival : i < arrivals.length := by simpa [sampleArrivals] using small
  have event : (sampleArrivals blocks arrivals)[i] =
      sampleArrival blocks arrivals[i].1 arrivals[i].2 := by simp [sampleArrivals]
  have before : (sampleArrivals blocks arrivals).take i = sampleArrivals blocks (arrivals.take i) := by
    simp [sampleArrivals, List.map_take]
  rw [event, before]
  have check := checked i small_arrival
  simp only [sampleChecked, Bool.and_eq_true, decide_eq_true_eq] at check
  exact ⟨sampleArrives check.1.1 check.1.2 check.2, holds i small_arrival⟩

end FooCoin

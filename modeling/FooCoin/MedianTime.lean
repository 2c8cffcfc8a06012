import FooCoin.Library.OrderStatistic
import FooCoin.Miner

/-!
# The median time past

`AcceptBlock` asks that a block is younger than the median of the last eleven blocks below it.
Along a chain of such blocks the median never goes back, so the time that `UpdateTime` gives a block
is always accepted.
-/

namespace FooCoin

open OrderStatistic

/-- `mapCheckpoints`. -/
def mapCheckpoints (nHeight : Nat) : Option UInt256 := if nHeight = 0 then some 0 else none

/-- `Checkpoints::CheckBlock`. -/
def checkpointsCheckBlock (fTestNet : Bool) (nHeight : Nat) (hash : UInt256) : Bool :=
  if fTestNet then true
  else
    match mapCheckpoints nHeight with
    | none => true
    | some checkpoint => hash = checkpoint

/-- The checks of `CBlock::AcceptBlock`, up to where the block is written to disk. -/
def CBlock.acceptBlock (env : Env) (mapBlockIndex : UInt256 → Option BlockChain)
    (block : CBlock) : Outcome Unit := do
  let hash := block.getHash env.crypto
  require (mapBlockIndex hash = none)
  match mapBlockIndex block.hashPrevBlock with
  | none => throw .rejected
  | some [] => throw .nullPointer
  | some (prev :: pprev) => do
      let nHeight := prev.nHeight + 1
      let nBits ← getNextWorkRequired env.fTestNet (prev :: pprev) block.nTime
      require (block.nBits = nBits)
      require (getMedianTimePast (prev :: pprev) < block.nTime.toNat)
      require (∀ tx ∈ block.vtx, tx.isFinal nHeight block.nTime.toNat = true)
      require (checkpointsCheckBlock env.fTestNet nHeight hash = true)

/-- The time that `CBlock::UpdateTime` assigns. -/
def updatedTime (nAdjustedTime : Int) (pindexPrev : BlockChain) : UInt32 :=
  UInt32.ofInt (max ((getMedianTimePast pindexPrev : Int) + 1) nAdjustedTime)

/-- `CBlock::UpdateTime`. -/
def CBlock.updateTime (fTestNet : Bool) (nAdjustedTime : Int) (pindexPrev : BlockChain)
    (block : CBlock) : Outcome CBlock := do
  let block := { block with nTime := updatedTime nAdjustedTime pindexPrev }
  if fTestNet then
    let nBits ← getNextWorkRequired fTestNet pindexPrev block.nTime
    pure { block with nBits }
  else pure block

/-- A chain whose blocks have passed the timestamp check of `AcceptBlock` on their parents. -/
inductive TimeChecked : BlockChain → Prop
  /-- The genesis block. -/
  | genesis (pindex : CBlockIndex) : TimeChecked [pindex]
  /-- One more block. -/
  | block {pindex prev : CBlockIndex} {pprev : BlockChain} (below : TimeChecked (prev :: pprev))
      (later : getMedianTimePast (prev :: pprev) < pindex.nTime.toNat) :
      TimeChecked (pindex :: prev :: pprev)

theorem getMedianTimePast_eq (pindex : BlockChain) :
    getMedianTimePast pindex = median ((pindex.take 11).map fun entry => entry.nTime.toNat) 0 := rfl

/-- A block that is younger than the median does not bring it back. -/
theorem getMedianTimePast_le {pindex : CBlockIndex} {pprev : BlockChain} (above : pprev ≠ [])
    (later : getMedianTimePast pprev < pindex.nTime.toNat) :
    getMedianTimePast pprev ≤ getMedianTimePast (pindex :: pprev) := by
  rw [getMedianTimePast_eq] at later
  have window : ((pindex :: pprev).take 11).map (fun entry => entry.nTime.toNat) =
      (pindex.nTime.toNat :: (pprev.take 11).map fun entry => entry.nTime.toNat).take 11 := by
    rw [List.take_succ_cons, List.map_cons, List.take_succ_cons, ← List.map_take, List.take_take]
    rfl
  rw [getMedianTimePast_eq, getMedianTimePast_eq, window]
  refine median_le_push ?_ ?_ later
  · simpa using above
  · simp

/-- A block that `AcceptBlock` takes is younger than the median. -/
theorem CBlock.acceptBlock_time {env : Env} {mapBlockIndex : UInt256 → Option BlockChain}
    {block : CBlock} (accepted : block.acceptBlock env mapBlockIndex = .ok ()) :
    ∃ pindexPrev, mapBlockIndex block.hashPrevBlock = some pindexPrev ∧ pindexPrev ≠ [] ∧
      getMedianTimePast pindexPrev < block.nTime.toNat := by
  simp only [acceptBlock, except_bind_eq_ok] at accepted
  obtain ⟨_, _, accepted⟩ := accepted
  split at accepted
  · simp at accepted
  · simp at accepted
  · rename_i prev pprev found
    simp only [except_bind_eq_ok, require_eq_ok] at accepted
    obtain ⟨_, _, _, _, _, later, _⟩ := accepted
    exact ⟨prev :: pprev, found, by simp, later⟩

/-- The chain of a block that `AcceptBlock` takes passes the check again. -/
theorem TimeChecked.accept {env : Env} {mapBlockIndex : UInt256 → Option BlockChain}
    {nFile nBlockPos : Nat} {block : CBlock}
    (checked : ∀ hash chain, mapBlockIndex hash = some chain → TimeChecked chain)
    (accepted : block.acceptBlock env mapBlockIndex = .ok ()) :
    ∃ pindexPrev, mapBlockIndex block.hashPrevBlock = some pindexPrev ∧
      TimeChecked (.ofBlock env.crypto nFile nBlockPos block pindexPrev :: pindexPrev) := by
  obtain ⟨pindexPrev, found, above, later⟩ := CBlock.acceptBlock_time accepted
  obtain ⟨prev, pprev, rfl⟩ := List.exists_cons_of_ne_nil above
  exact ⟨_, found, .block (checked _ _ found) later⟩

/-- The time of `UpdateTime` is above the median, whatever the clock says. -/
theorem lt_updatedTime {nAdjustedTime : Int} {pindexPrev : BlockChain}
    (fits : max ((getMedianTimePast pindexPrev : Int) + 1) nAdjustedTime < 2 ^ 32) :
    getMedianTimePast pindexPrev < (updatedTime nAdjustedTime pindexPrev).toNat := by
  have positive : 0 ≤ max ((getMedianTimePast pindexPrev : Int) + 1) nAdjustedTime := by omega
  have value : ((updatedTime nAdjustedTime pindexPrev).toNat : Int) =
      max ((getMedianTimePast pindexPrev : Int) + 1) nAdjustedTime := by
    rw [updatedTime, UInt32.ofInt, UInt32.toNat_ofNat']
    omega
  omega

theorem CBlock.updateTime_time {fTestNet : Bool} {nAdjustedTime : Int} {pindexPrev : BlockChain}
    {block updated : CBlock}
    (succeeds : block.updateTime fTestNet nAdjustedTime pindexPrev = .ok updated) :
    updated.nTime = updatedTime nAdjustedTime pindexPrev := by
  unfold updateTime at succeeds
  split_ifs at succeeds
  · simp only [except_bind_eq_ok, pure_eq_ok] at succeeds
    obtain ⟨nBits, _, rfl⟩ := succeeds
    rfl
  · cases succeeds
    rfl

/-- Along every checked chain the median time never goes back, and `UpdateTime` gives a block on top
of it a time that passes the check. -/
theorem getMedianTimePast_monotone {chain : BlockChain} (checked : TimeChecked chain) :
    (∀ pindex pprev, pindex :: pprev <:+ chain → pprev ≠ [] →
        getMedianTimePast pprev ≤ getMedianTimePast (pindex :: pprev)) ∧
      ∀ (fTestNet : Bool) (nAdjustedTime : Int) (block updated : CBlock),
        max ((getMedianTimePast chain : Int) + 1) nAdjustedTime < 2 ^ 32 →
        block.updateTime fTestNet nAdjustedTime chain = .ok updated →
        getMedianTimePast chain < updated.nTime.toNat := by
  constructor
  · intro entry rest suffix above
    induction checked with
    | genesis pindex =>
        rcases List.suffix_cons_iff.mp suffix with same | deeper
        · cases same
          exact absurd rfl above
        · simp at deeper
    | block below later induction =>
        rcases List.suffix_cons_iff.mp suffix with same | deeper
        · cases same
          exact getMedianTimePast_le above later
        · exact induction deeper
  · intro fTestNet nAdjustedTime block updated fits succeeds
    rw [CBlock.updateTime_time succeeds]
    exact lt_updatedTime fits

/-- An entry with a time. -/
def timeEntry (nTime : UInt32) : CBlockIndex where
  hashBlock := 0
  nFile := 1
  nBlockPos := 0
  nHeight := 0
  bnChainWork := 1
  nVersion := 1
  hashMerkleRoot := 0
  nTime := nTime
  nBits := 0
  nNonce := 0

/-- The fourth block is younger than the fifth. -/
theorem getMedianTimePast_monotone_timeEntry :
    getMedianTimePast [timeEntry 150, timeEntry 106, timeEntry 105, timeEntry 100] ≤
      getMedianTimePast
        [timeEntry 107, timeEntry 150, timeEntry 106, timeEntry 105, timeEntry 100] := by
  have checked : TimeChecked
      [timeEntry 107, timeEntry 150, timeEntry 106, timeEntry 105, timeEntry 100] :=
    .block (.block (.block (.block (.genesis _) (by decide)) (by decide)) (by decide)) (by decide)
  exact (getMedianTimePast_monotone checked).1 _ _ List.suffix_rfl (by simp)

end FooCoin

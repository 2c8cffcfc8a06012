import FooCoin.Difficulty

/-!
# The minimum work after a checkpoint

`computeMinWork` bounds the target of a block by the time that has passed since a checkpoint, at most
a factor of four for each period of four days.  The retargets are not bounded in that way: each looks
at a window of blocks that may start long before the checkpoint, and four windows in a row see the
same gap.
-/

namespace FooCoin

open Rounding

/-- The loop of `ComputeMinWork`. -/
def minWorkLoop : Nat → Int → Int → Int
  | 0, _, bnResult => bnResult
  | fuel + 1, nTime, bnResult =>
      if 0 < nTime ∧ bnResult < bnProofOfWorkLimit then
        minWorkLoop fuel (nTime - nTargetTimespan * 4) (bnResult * 4)
      else bnResult

/-- `ComputeMinWork`. -/
def computeMinWork (fTestNet : Bool) (nBase : UInt32) (nTime : Int) : UInt32 :=
  if fTestNet ∧ nTargetSpacing * 2 < nTime then getCompact bnProofOfWorkLimit
  else
    let bnResult := minWorkLoop nTime.toNat nTime (setCompact nBase)
    getCompact (if bnProofOfWorkLimit < bnResult then bnProofOfWorkLimit else bnResult)

/-- The periods of four days that a time has started. -/
def startedPeriods (nTime : Int) : Nat := ((nTime + (345600 - 1)) / 345600).toNat

/-- The timespans that the retargets of the entries `between` use, the latest first; `base` is the
chain below them. -/
def retargetTimespans (base : BlockChain) : List CBlockIndex → List Int
  | [] => []
  | _ :: between =>
      match between ++ base with
      | [] => retargetTimespans base between
      | last :: pprev =>
          if (last.nHeight + 1) % nInterval ≠ 0 then retargetTimespans base between
          else
            match (last :: pprev).drop (blocksToGoBack last.nHeight) with
            | [] => retargetTimespans base between
            | first :: _ => actualTimespan last first :: retargetTimespans base between

/-- A target after retargets over the timespans, the latest first. -/
def retargeted (bnOld : Int) (timespans : List Int) : Int :=
  timespans.foldr (fun timespan bn => setCompact (getCompact (retarget bn timespan))) bnOld

private theorem retargeted_cons (bnOld timespan : Int) (timespans : List Int) :
    retargeted bnOld (timespan :: timespans) =
      setCompact (getCompact (retarget (retargeted bnOld timespans) timespan)) :=
  List.foldr_cons ..

/-! ## The loop -/

private theorem startedPeriods_of_nonpos {nTime : Int} (nonpos : nTime ≤ 0) :
    startedPeriods nTime = 0 := by
  simp only [startedPeriods]
  omega

private theorem startedPeriods_succ {nTime : Int} (positive : 0 < nTime) :
    startedPeriods nTime = startedPeriods (nTime - nTargetTimespan * 4) + 1 := by
  have period : nTargetTimespan * 4 = 345600 := rfl
  simp only [startedPeriods, period]
  omega

/-- Clipped at the limit, the loop gives a factor of four for each started period. -/
private theorem min_minWorkLoop {fuel : Nat} {nTime bnResult : Int} (nonneg : 0 ≤ bnResult)
    (enough : nTime.toNat ≤ fuel) :
    min (minWorkLoop fuel nTime bnResult) bnProofOfWorkLimit =
      min (4 ^ startedPeriods nTime * bnResult) bnProofOfWorkLimit := by
  induction fuel generalizing nTime bnResult with
  | zero => rw [minWorkLoop, startedPeriods_of_nonpos (by omega), pow_zero, one_mul]
  | succ fuel induction =>
      simp only [minWorkLoop]
      split
      · rename_i continues
        have period : nTargetTimespan * 4 = 345600 := rfl
        rw [induction (by omega) (by omega), startedPeriods_succ continues.1, pow_succ, mul_assoc,
          mul_comm bnResult]
      · rename_i stops
        by_cases positive : 0 < nTime
        · have over_limit : bnProofOfWorkLimit ≤ bnResult := by
            by_contra below
            exact stops ⟨positive, not_le.mp below⟩
          have grown : bnResult ≤ 4 ^ startedPeriods nTime * bnResult :=
            le_mul_of_one_le_left nonneg (one_le_pow₀ (by norm_num))
          rw [min_eq_right over_limit, min_eq_right (over_limit.trans grown)]
        · rw [startedPeriods_of_nonpos (not_lt.mp positive), pow_zero, one_mul]

private theorem computeMinWork_eq {nBase : UInt32} (nTime : Int)
    (nonneg : 0 ≤ setCompact nBase) :
    computeMinWork false nBase nTime =
      getCompact (min (4 ^ startedPeriods nTime * setCompact nBase) bnProofOfWorkLimit) := by
  have clipped (bn : Int) :
      (if bnProofOfWorkLimit < bn then bnProofOfWorkLimit else bn) = min bn bnProofOfWorkLimit := by
    split
    · exact (min_eq_right (le_of_lt ‹_›)).symm
    · exact (min_eq_left (not_lt.mp ‹_›)).symm
  simp only [computeMinWork, Bool.false_eq_true, false_and, if_false, clipped]
  rw [min_minWorkLoop nonneg le_rfl]

/-- A target within the limit that an encoding stands for is below the minimum work exactly if it has
grown by at most a factor of four for each started period. -/
private theorem le_computeMinWork_iff {nBase nBits : UInt32} (nTime : Int)
    (base_limited : setCompact nBase ∈ limitedTargets)
    (limited : setCompact nBits ∈ limitedTargets) :
    setCompact nBits ≤ setCompact (computeMinWork false nBase nTime) ↔
      setCompact nBits ≤ 4 ^ startedPeriods nTime * setCompact nBase := by
  have inside : min (4 ^ startedPeriods nTime * setCompact nBase) bnProofOfWorkLimit ∈
      limitedTargets :=
    ⟨le_min (mul_nonneg (by positivity) base_limited.1) (by decide), min_le_right _ _⟩
  rw [computeMinWork_eq nTime base_limited.1]
  calc
    setCompact nBits ≤ setCompact (getCompact
          (min (4 ^ startedPeriods nTime * setCompact nBase) bnProofOfWorkLimit)) ↔
        setCompact nBits ≤ min (4 ^ startedPeriods nTime * setCompact nBase) bnProofOfWorkLimit :=
      getCompact_roundsDown.le_round_iff inside ⟨nBits, rfl⟩
    _ ↔ setCompact nBits ≤ 4 ^ startedPeriods nTime * setCompact nBase :=
      ⟨fun below => below.trans (min_le_left _ _), fun below => le_min below limited.2⟩

/-! ## The retargets -/

/-- The part of a checked chain below its tip is checked. -/
private theorem WorkChecked.parent {pindex prev : CBlockIndex} {pprev : BlockChain}
    (checked : WorkChecked (pindex :: prev :: pprev)) :
    WorkChecked (prev :: pprev) ∧
      getNextWorkRequired false (prev :: pprev) pindex.nTime = .ok pindex.nBits := by
  cases checked with
  | block below _ work => exact ⟨below, work⟩

private theorem WorkChecked.suffix {base : BlockChain} (nonempty : base ≠ []) :
    ∀ {between : List CBlockIndex}, WorkChecked (between ++ base) → WorkChecked base
  | [], checked => checked
  | pindex :: between, checked => by
      cases rest : between ++ base with
      | nil => simp [nonempty] at rest
      | cons prev pprev =>
          have below := (rest ▸ checked : WorkChecked (pindex :: prev :: pprev)).parent.1
          exact WorkChecked.suffix nonempty (rest ▸ below)

/-- The target of the tip is that of the base entry after the retargets between them. -/
private theorem target_eq_retargeted {entry : CBlockIndex} {base : BlockChain} :
    ∀ {between : List CBlockIndex}, WorkChecked (between ++ entry :: base) →
      ∀ tip ∈ (between ++ entry :: base).head?,
        setCompact tip.nBits =
          retargeted (setCompact entry.nBits) (retargetTimespans (entry :: base) between)
  | [], _, tip, here => by
      obtain rfl : entry = tip := by simpa using here
      rfl
  | pindex :: between, checked, tip, here => by
      obtain rfl : pindex = tip := by simpa using here
      cases rest : between ++ entry :: base with
      | nil => simp at rest
      | cons prev pprev =>
          obtain ⟨below, work⟩ :=
            (rest ▸ checked : WorkChecked (pindex :: prev :: pprev)).parent
          have earlier := target_eq_retargeted (rest ▸ below) prev (by rw [rest]; rfl)
          simp only [retargetTimespans, rest]
          by_cases retargets : (prev.nHeight + 1) % nInterval = 0
          · obtain ⟨first, older, walked, next⟩ :=
              getNextWorkRequired_retarget pindex.nTime below retargets
            rw [if_neg (not_not.mpr retargets), walked]
            rw [next] at work
            rw [← Except.ok.inj work, earlier]
            exact (retargeted_cons _ _ _).symm
          · rw [getNextWorkRequired_keep pindex.nTime retargets] at work
            rw [if_pos retargets, ← Except.ok.inj work, earlier]

private theorem limited_of_checkpoint {between : List CBlockIndex} {entry tip : CBlockIndex}
    {base : BlockChain} (checked : WorkChecked (between ++ entry :: base))
    (tip_mem : tip ∈ (between ++ entry :: base).head?) :
    setCompact entry.nBits ∈ limitedTargets ∧ setCompact tip.nBits ∈ limitedTargets :=
  ⟨(checked.suffix (List.cons_ne_nil _ _)).limited entry rfl, checked.limited tip tip_mem⟩

private theorem retargetTimespans_limited (base : BlockChain) (between : List CBlockIndex) :
    ∀ timespan ∈ retargetTimespans base between, ∃ n, timespan = limitTimespan n := by
  induction between with
  | nil => simp [retargetTimespans]
  | cons pindex between induction =>
      simp only [retargetTimespans]
      split
      · exact induction
      · split_ifs
        · exact induction
        · split
          · exact induction
          · rintro timespan mem
            rcases List.mem_cons.mp mem with rfl | mem
            · exact ⟨_, rfl⟩
            · exact induction timespan mem

/-- Retargets raise a target by at most a factor of four each. -/
private theorem retargeted_le {bnOld : Int} (mem : bnOld ∈ limitedTargets)
    (timespans : List Int) (limited : ∀ timespan ∈ timespans, ∃ n, timespan = limitTimespan n) :
    retargeted bnOld timespans ∈ limitedTargets ∧
      retargeted bnOld timespans ≤ 4 ^ timespans.length * bnOld := by
  induction timespans with
  | nil => exact ⟨mem, by simp [retargeted]⟩
  | cons timespan timespans induction =>
      obtain ⟨inside, below⟩ :=
        induction fun other other_mem => limited other (List.mem_cons_of_mem _ other_mem)
      obtain ⟨nActualTimespan, rfl⟩ := limited timespan List.mem_cons_self
      obtain ⟨next_inside, _, most⟩ := @retarget_range _ nActualTimespan inside
      have rounded := getCompact_roundsDown.round_le next_inside
      rw [retargeted_cons, List.length_cons, pow_succ]
      refine ⟨⟨setCompact_getCompact_nonneg next_inside, rounded.trans next_inside.2⟩, ?_⟩
      beta_reduce at rounded
      linarith

/-- The work check never condemns a block when no more retargets than started periods lie between it
and the checkpoint. -/
theorem le_computeMinWork_of_length_le {between : List CBlockIndex}
    {checkpoint tip : CBlockIndex} {base : BlockChain}
    (checked : WorkChecked (between ++ checkpoint :: base))
    (tip_mem : tip ∈ (between ++ checkpoint :: base).head?)
    (few : (retargetTimespans (checkpoint :: base) between).length ≤
      startedPeriods ((tip.nTime.toNat : Int) - checkpoint.nTime.toNat)) :
    setCompact tip.nBits ≤
      setCompact (computeMinWork false checkpoint.nBits
        ((tip.nTime.toNat : Int) - checkpoint.nTime.toNat)) := by
  obtain ⟨checkpoint_limited, tip_limited⟩ := limited_of_checkpoint checked tip_mem
  rw [le_computeMinWork_iff _ checkpoint_limited tip_limited,
    target_eq_retargeted checked tip tip_mem]
  obtain ⟨_, below⟩ := retargeted_le checkpoint_limited
    (retargetTimespans (checkpoint :: base) between) (retargetTimespans_limited _ _)
  refine below.trans (mul_le_mul_of_nonneg_right ?_ checkpoint_limited.1)
  exact pow_le_pow_right₀ (by norm_num) few

/-! ## An outage before a checkpoint -/

/-- The time of a block: one each two minutes, but for twelve days before block 15119. -/
def outageTime (nHeight : Nat) : Nat :=
  if nHeight = 0 then 0
  else if nHeight < 15119 then 120 * (nHeight + 1)
  else 120 * (nHeight + 1) + 12 * 86400

/-- `nBits` of a block. -/
def outageBits (nHeight : Nat) : UInt32 :=
  if nHeight < 15120 then 0x1c010000
  else if nHeight < 15840 then 0x1c040000
  else if nHeight < 16560 then 0x1c100000
  else if nHeight < 17280 then 0x1c400000
  else 0x1d010000

/-- The entry of a block. -/
def outageEntry (nHeight : Nat) : CBlockIndex :=
  workEntry nHeight (UInt32.ofNat (outageTime nHeight)) (outageBits nHeight)

/-- The chain up to a height. -/
def outageChain : Nat → BlockChain
  | 0 => [outageEntry 0]
  | nHeight + 1 => outageEntry (nHeight + 1) :: outageChain nHeight

private theorem outageChain_cons (nHeight : Nat) :
    ∃ pprev, outageChain nHeight = outageEntry nHeight :: pprev := by
  cases nHeight with
  | zero => exact ⟨_, rfl⟩
  | succ nHeight => exact ⟨_, rfl⟩

private theorem drop_outageChain {count nHeight : Nat} (within : count ≤ nHeight) :
    (outageChain nHeight).drop count = outageChain (nHeight - count) := by
  induction count generalizing nHeight with
  | zero => rfl
  | succ count induction =>
      cases nHeight with
      | zero => omega
      | succ nHeight =>
          rw [outageChain, List.drop_succ_cons, induction (by omega), Nat.add_sub_add_right]

private theorem outageTime_toNat {nHeight : Nat} (within : nHeight ≤ 17280) :
    (outageEntry nHeight).nTime.toNat = outageTime nHeight := by
  have small : outageTime nHeight < 2 ^ 32 := by
    simp only [outageTime]
    split_ifs <;> omega
  exact (UInt32.toNat_ofNat').trans (Nat.mod_eq_of_lt small)

/-- The four windows that contain the outage give the longest timespan, the windows before it the
target one. -/
private theorem outage_timespan {nHeight : Nat} (within : nHeight < 17280)
    (retargets : (nHeight + 1) % 720 = 0) :
    blocksToGoBack nHeight ≤ nHeight ∧
      actualTimespan (outageEntry nHeight) (outageEntry (nHeight - blocksToGoBack nHeight)) =
        if nHeight < 15119 then 86400 else 345600 := by
  have fix : coinFix1Block = 15000 := rfl
  have interval := nInterval_eq
  have history : nReTargetHistoryFact * nInterval = 2880 := rfl
  have back : blocksToGoBack nHeight =
      if 15000 < nHeight then 2880 else if nHeight + 1 ≠ 720 then 720 else 719 := by
    rw [blocksToGoBack, fix, history, interval]
  have height : (outageEntry nHeight).nHeight = nHeight := rfl
  have known (timespan : Int) (exactly : timespan = 86400 ∨ timespan = 345600) :
      limitTimespan timespan = timespan := by
    rcases exactly with rfl | rfl <;> decide
  have enough : blocksToGoBack nHeight ≤ nHeight := by
    rw [back]
    split_ifs <;> omega
  refine ⟨enough, ?_⟩
  simp only [actualTimespan, height, fix, outageTime_toNat within.le,
    outageTime_toNat ((Nat.sub_le _ _).trans within.le), back]
  by_cases late : 15000 < nHeight
  · have after : (outageTime nHeight : Int) = 120 * (nHeight + 1) + 12 * 86400 := by
      rw [outageTime, if_neg (by omega), if_neg (by omega)]
      push_cast
      ring
    have before : (outageTime (nHeight - 2880) : Int) = 120 * (nHeight - 2880 + 1) := by
      rw [outageTime, if_neg (by omega), if_pos (by omega)]
      push_cast [show 2880 ≤ nHeight by omega]
      ring
    have elapsed : (outageTime nHeight : Int) - outageTime (nHeight - 2880) = 345600 * 4 := by
      rw [after, before]
      ring
    have average : (345600 * 4 : Int).tdiv nReTargetHistoryFact = 345600 := rfl
    rw [if_pos late, if_pos late, if_neg (by omega), elapsed, average]
    exact known _ (.inr rfl)
  · have elapsed : (outageTime nHeight : Int) -
        outageTime (nHeight - if nHeight + 1 ≠ 720 then 720 else 719) = 86400 := by
      have now : outageTime nHeight = 120 * (nHeight + 1) := by
        rw [outageTime, if_neg (by omega), if_pos (by omega)]
      by_cases first : nHeight + 1 = 720
      · have genesis : nHeight - 719 = 0 := by omega
        have genesis_time : outageTime 0 = 0 := rfl
        rw [if_neg (not_not.mpr first), genesis, genesis_time, now]
        omega
      · have earlier : outageTime (nHeight - 720) = 120 * (nHeight - 720 + 1) := by
          rw [outageTime, if_neg (by omega), if_pos (by omega)]
        rw [if_pos first, earlier, now]
        omega
    rw [if_neg late, if_neg late, elapsed, if_pos (by omega)]
    exact known _ (.inl rfl)

private theorem outage_keep :
    getCompact (retarget (setCompact 0x1c010000) 86400) = 0x1c010000 := by
  decide +kernel

private theorem outage_raise :
    getCompact (retarget (setCompact 0x1c010000) 345600) = 0x1c040000 ∧
      getCompact (retarget (setCompact 0x1c040000) 345600) = 0x1c100000 ∧
      getCompact (retarget (setCompact 0x1c100000) 345600) = 0x1c400000 ∧
      getCompact (retarget (setCompact 0x1c400000) 345600) = 0x1d010000 := by
  decide +kernel

private theorem outageBits_retarget {nHeight : Nat} (within : nHeight < 17280)
    (retargets : (nHeight + 1) % 720 = 0) :
    getCompact (retarget (setCompact (outageBits nHeight))
      (if nHeight < 15119 then 86400 else 345600)) = outageBits (nHeight + 1) := by
  by_cases early : nHeight < 15119
  · have now : outageBits nHeight = 0x1c010000 := if_pos (by omega)
    have next : outageBits (nHeight + 1) = 0x1c010000 := if_pos (by omega)
    rw [if_pos early, now, next, outage_keep]
  · obtain ⟨first, second, third, fourth⟩ := outage_raise
    obtain rfl | rfl | rfl | rfl :
        nHeight = 15119 ∨ nHeight = 15839 ∨ nHeight = 16559 ∨ nHeight = 17279 := by omega
    · exact first
    · exact second
    · exact third
    · exact fourth

private theorem outageBits_keep {nHeight : Nat} (keeps : (nHeight + 1) % 720 ≠ 0) :
    outageBits (nHeight + 1) = outageBits nHeight := by
  have same (bound : Nat) (interval : bound % 720 = 0) :
      nHeight + 1 < bound ↔ nHeight < bound := by omega
  simp only [outageBits, same 15120 rfl, same 15840 rfl, same 16560 rfl, same 17280 rfl]

/-- The chain passes the `nBits` checks. -/
theorem outageChain_workChecked {nHeight : Nat} (within : nHeight ≤ 17280) :
    WorkChecked (outageChain nHeight) := by
  induction nHeight with
  | zero => exact .genesis rfl (by decide +kernel) (by decide +kernel)
  | succ nHeight induction =>
      have below := induction (by omega)
      obtain ⟨pprev, chain⟩ := outageChain_cons nHeight
      rw [outageChain, chain]
      rw [chain] at below
      refine .block below rfl ?_
      have bits (height : Nat) : (outageEntry height).nBits = outageBits height := rfl
      by_cases retargets : (nHeight + 1) % 720 = 0
      · obtain ⟨enough, timespan⟩ := outage_timespan (by omega) retargets
        obtain ⟨first, rest, walked, next⟩ :=
          getNextWorkRequired_retarget (outageEntry (nHeight + 1)).nTime below retargets
        have first_eq : first = outageEntry (nHeight - blocksToGoBack nHeight) := by
          obtain ⟨older, reached⟩ := outageChain_cons (nHeight - blocksToGoBack nHeight)
          have dropped := drop_outageChain enough
          rw [chain, reached] at dropped
          have same := walked.symm.trans dropped
          exact (List.cons.inj same).1
        rw [next, first_eq, timespan, bits, bits, outageBits_retarget (by omega) retargets]
      · rw [getNextWorkRequired_keep _ retargets, bits, bits, outageBits_keep retargets]

/-! ## The work check -/

private theorem outage_fails :
    ¬setCompact (outageEntry 17280).nBits ≤
      setCompact (computeMinWork false (outageEntry 15119).nBits
        (((outageEntry 17280).nTime.toNat : Int) - (outageEntry 15119).nTime.toNat)) := by
  have elapsed : ((outageTime 17280 : Nat) : Int) - (outageTime 15119 : Nat) = 259320 := rfl
  have low : ¬setCompact 0x1d010000 ≤ setCompact (computeMinWork false 0x1c010000 259320) := by
    decide +kernel
  rw [outageTime_toNat le_rfl, outageTime_toNat (by norm_num), elapsed]
  exact low

end FooCoin

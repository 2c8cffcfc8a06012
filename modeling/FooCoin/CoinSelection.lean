import FooCoin.Amount
import FooCoin.Crypto

/-!
# Selecting coins

`SelectCoinsMinConf` chooses coins for a target.  Coins that are too small are tried in random
subsets, of which `ApproximateBestSubset` keeps the best, and the least of the larger coins may be
taken instead.  Shuffling, sorting and random bits are arbitrary.
-/

namespace FooCoin

/-- An output of a wallet transaction: its key in `mapWallet` and its position. -/
abbrev Coin := UInt256 × Nat

/-- `COutput`. -/
structure COutput where
  tx : UInt256
  i : Nat
  nDepth : Int
deriving DecidableEq

/-- The coin of an output. -/
def COutput.coin (output : COutput) : Coin := (output.tx, output.i)

/-- The order and the random bits that a selection finds. -/
structure SelectionChance where
  /-- `random_shuffle`. -/
  shuffle : List COutput → List COutput
  shuffle_perm : ∀ vCoins, (shuffle vCoins).Perm vCoins
  /-- `sort` by falling values. -/
  sort : List (Int × Coin) → List (Int × Coin)
  sort_perm : ∀ vValue, (sort vValue).Perm vValue
  sort_sorted : ∀ vValue, (sort vValue).Pairwise fun left right => right.1 ≤ left.1
  /-- `rand() % 2` in a run of `ApproximateBestSubset`, a repetition and a position. -/
  rand : Nat → Nat → Nat → Bool

/-! ## `ApproximateBestSubset` -/

/-- The variables of a repetition. -/
structure SubsetState where
  nTotal : Int
  vfIncluded : List Bool
  fReachedTarget : Bool
  nBest : Int
  vfBest : List Bool

/-- Include the value at position `i`, but only for a comparison if it reaches the target. -/
def SubsetState.includeAt (nTargetValue : Int) (i : Nat) (value : Int) (state : SubsetState) :
    Outcome SubsetState := do
  let nTotal ← int64 (state.nTotal + value)
  let vfIncluded := state.vfIncluded.set i true
  if nTargetValue ≤ nTotal then
    let better := nTotal < state.nBest
    pure
      { nTotal := nTotal - value
        vfIncluded := vfIncluded.set i false
        fReachedTarget := true
        nBest := if better then nTotal else state.nBest
        vfBest := if better then vfIncluded else state.vfBest }
  else pure { state with nTotal, vfIncluded }

/-- A pass over the values from position `i` on. -/
def subsetPass (nTargetValue : Int) (picks : Nat → Bool → Bool) :
    Nat → List Int → SubsetState → Outcome SubsetState
  | _, [], state => pure state
  | i, value :: values, state => do
      let state ←
        if picks i ((state.vfIncluded[i]?).getD false) then state.includeAt nTargetValue i value
        else pure state
      subsetPass nTargetValue picks (i + 1) values state

/-- The repetitions from `nRep` on. -/
def subsetLoop (nTargetValue : Int) (rand : Nat → Nat → Bool) (values : List Int) :
    Nat → Nat → List Bool × Int → Outcome (List Bool × Int)
  | 0, _, (vfBest, nBest) => pure (vfBest, nBest)
  | left + 1, nRep, (vfBest, nBest) =>
      if nBest = nTargetValue then pure (vfBest, nBest)
      else do
        let state : SubsetState :=
          { nTotal := 0
            vfIncluded := .replicate values.length false
            fReachedTarget := false
            nBest
            vfBest }
        let state ← subsetPass nTargetValue (fun i _ => rand nRep i) 0 values state
        let state ←
          if state.fReachedTarget then pure state
          else subsetPass nTargetValue (fun _ fIncluded => !fIncluded) 0 values state
        subsetLoop nTargetValue rand values left (nRep + 1) (state.vfBest, state.nBest)

/-- `ApproximateBestSubset`, with `vfBest` and `nBest`. -/
def approximateBestSubset (values : List Int) (nTotalLower nTargetValue : Int)
    (rand : Nat → Nat → Bool) (iterations : Nat) : Outcome (List Bool × Int) :=
  subsetLoop nTargetValue rand values iterations 0 (.replicate values.length true, nTotalLower)

/-! ## `SelectCoinsMinConf` -/

/-- The variables of the loop over the coins. -/
structure CoinScan where
  coinLowestLarger : Int × Option Coin
  vValue : List (Int × Coin)
  nTotalLower : Int

/-- The result of a selection. -/
structure Selection where
  fSelected : Bool
  setCoinsRet : Finset Coin
  nValueRet : Int

/-- A selection without coins. -/
def Selection.none (fSelected : Bool) : Selection := ⟨fSelected, ∅, 0⟩

/-- A selected coin. -/
def Selection.add (coin : Int × Coin) (selection : Selection) : Outcome Selection := do
  let nValueRet ← int64 (selection.nValueRet + coin.1)
  pure { selection with setCoinsRet := insert coin.2 selection.setCoinsRet, nValueRet }

/-- Select coins one after the other. -/
def Selection.addAll : List (Int × Coin) → Selection → Outcome Selection
  | [], selection => pure selection
  | coin :: coins, selection => do Selection.addAll coins (← selection.add coin)

/-- The coins that a vector of flags selects. -/
def flagged {α : Type} : List Bool → List α → List α
  | fFlag :: flags, value :: values =>
      if fFlag then value :: flagged flags values else flagged flags values
  | _, _ => []

section Select

variable (isFromMe : UInt256 → Bool) (nValue : Coin → Int) (nTargetValue nConfMine nConfTheirs : Int)

/-- An output has enough confirmations. -/
def COutput.Eligible (output : COutput) : Prop :=
  ¬output.nDepth < if isFromMe output.tx then nConfMine else nConfTheirs

instance (output : COutput) : Decidable (output.Eligible isFromMe nConfMine nConfTheirs) :=
  inferInstanceAs (Decidable (¬_))

/-- The loop over the coins, which ends early at a coin of the target value. -/
def scanCoins : List COutput → CoinScan → Outcome (Option (Int × Coin) × CoinScan)
  | [], scan => pure (none, scan)
  | output :: vCoins, scan =>
      if output.nDepth < (if isFromMe output.tx then nConfMine else nConfTheirs) then
        scanCoins vCoins scan
      else do
        let n := nValue output.coin
        if n = nTargetValue then pure (some (n, output.coin), scan)
        else if n < (← int64 (nTargetValue + cent)) then
          let nTotalLower ← int64 (scan.nTotalLower + n)
          scanCoins vCoins
            { scan with vValue := scan.vValue ++ [(n, output.coin)], nTotalLower }
        else if n < scan.coinLowestLarger.1 then
          scanCoins vCoins { scan with coinLowestLarger := (n, some output.coin) }
        else scanCoins vCoins scan

/-- The runs of `ApproximateBestSubset`, the second one for a target that leaves a cent. -/
def solveSubsetSum (chance : SelectionChance) (values : List Int) (nTotalLower : Int) :
    Outcome (List Bool × Int) := do
  let best ← approximateBestSubset values nTotalLower nTargetValue (chance.rand 0) 1000
  if best.2 = nTargetValue then pure best
  else do
    let raised ← int64 (nTargetValue + cent)
    if raised ≤ nTotalLower then
      approximateBestSubset values nTotalLower raised (chance.rand 1) 1000
    else pure best

/-- The larger coin is taken if the best subset is no good solution or worth more. -/
def selectBest (vValue : List (Int × Coin)) (best : List Bool × Int) :
    Int × Option Coin → Outcome Selection
  | (_, none) => (Selection.none true).addAll (flagged best.1 vValue)
  | (n, some coin) => do
      let raised ← int64 (nTargetValue + cent)
      if (best.2 ≠ nTargetValue ∧ best.2 < raised) ∨ n ≤ best.2 then
        (Selection.none true).add (n, coin)
      else (Selection.none true).addAll (flagged best.1 vValue)

/-- `SelectCoinsMinConf` after the loop over the coins. -/
def selectScanned (chance : SelectionChance) (scan : CoinScan) : Outcome Selection :=
  if scan.nTotalLower = nTargetValue then (Selection.none true).addAll scan.vValue
  else if scan.nTotalLower < nTargetValue then
    match scan.coinLowestLarger with
    | (_, none) => pure (Selection.none false)
    | (n, some coin) => (Selection.none true).add (n, coin)
  else do
    let vValue := chance.sort scan.vValue
    let best ← solveSubsetSum nTargetValue chance (vValue.map Prod.fst) scan.nTotalLower
    selectBest nTargetValue vValue best scan.coinLowestLarger

/-- `SelectCoinsMinConf`. -/
def selectCoinsMinConf (chance : SelectionChance) (vCoins : List COutput) : Outcome Selection := do
  let start : CoinScan := ⟨(int64Max, none), [], 0⟩
  match ← scanCoins isFromMe nValue nTargetValue nConfMine nConfTheirs (chance.shuffle vCoins)
      start with
  | (some coin, _) => (Selection.none true).add coin
  | (none, scan) => selectScanned nTargetValue chance scan

end Select

/-! ## Flags -/

section Flags

variable {α : Type} {values : List α}

theorem flagged_sublist (flags : List Bool) (values : List α) :
    (flagged flags values).Sublist values := by
  induction flags, values using flagged.induct with
  | case1 flags value values induction =>
      rw [flagged, if_pos rfl]
      exact induction.cons_cons value
  | case2 fFlag flags value values unset induction =>
      rw [flagged, if_neg unset]
      exact induction.cons value
  | case3 flags values short =>
      rw [flagged]
      · exact values.nil_sublist
      · exact short

@[simp]
theorem flagged_replicate_true (values : List α) :
    flagged (.replicate values.length true) values = values := by
  induction values with
  | nil => rfl
  | cons value values induction =>
      rw [List.length_cons, List.replicate_succ, flagged, if_pos rfl, induction]

@[simp]
theorem flagged_replicate_false (values : List α) :
    flagged (.replicate values.length false) values = [] := by
  induction values with
  | nil => rfl
  | cons value values induction =>
      rw [List.length_cons, List.replicate_succ, flagged, if_neg Bool.false_ne_true, induction]

theorem map_flagged {β : Type} (f : α → β) (flags : List Bool) (values : List α) :
    (flagged flags values).map f = flagged flags (values.map f) := by
  induction flags, values using flagged.induct with
  | case1 flags value values induction => simp [flagged, induction]
  | case2 fFlag flags value values unset induction => simp [flagged, unset, induction]
  | case3 flags values short =>
      cases flags with
      | nil => rfl
      | cons fFlag flags =>
          cases values with
          | nil => rfl
          | cons first values => exact absurd rfl (short fFlag flags first values rfl)

/-- A flag that is set adds its value. -/
theorem sum_flagged_set {flags : List Bool} {values : List Int} {i : Nat} {value : Int}
    (unset : flags[i]? = some false) (at_i : values[i]? = some value) :
    (flagged (flags.set i true) values).sum = (flagged flags values).sum + value := by
  induction flags, values using flagged.induct generalizing i with
  | case1 flags first values induction =>
      cases i with
      | zero => simp at unset
      | succ i =>
          simp only [List.getElem?_cons_succ] at unset at_i
          simp only [List.set_cons_succ, flagged, if_true, List.sum_cons, induction unset at_i]
          ring
  | case2 fFlag flags first values clear induction =>
      obtain rfl : fFlag = false := by simpa using clear
      cases i with
      | zero =>
          obtain rfl : first = value := by simpa using at_i
          simp only [List.set_cons_zero, flagged, if_true, List.sum_cons, Bool.false_eq_true,
            if_false]
          ring
      | succ i =>
          simp only [List.getElem?_cons_succ] at unset at_i
          simp only [List.set_cons_succ, flagged, Bool.false_eq_true, if_false,
            induction unset at_i]
  | case3 flags values short =>
      cases flags with
      | nil => simp at unset
      | cons fFlag flags =>
          cases values with
          | nil => simp at at_i
          | cons first values => exact absurd rfl (short fFlag flags first values rfl)

theorem sum_flagged_le {values : List Int} (nonneg : ∀ value ∈ values, 0 ≤ value)
    (flags : List Bool) : 0 ≤ (flagged flags values).sum ∧
      (flagged flags values).sum ≤ values.sum := by
  have listed := flagged_sublist flags values
  exact ⟨List.sum_nonneg fun value member => nonneg value (listed.subset member),
    listed.sum_le_sum nonneg⟩

end Flags

/-! ## The best subset -/

/-- The best flags so far select their value, which reaches the target. -/
structure BestSubset (values : List Int) (nTargetValue : Int) (best : List Bool × Int) : Prop where
  sum_eq : best.2 = (flagged best.1 values).sum
  target_le : nTargetValue ≤ best.2

/-- The included flags select the running total. -/
structure SubsetState.Tracks (values : List Int) (nTargetValue : Int) (state : SubsetState) :
    Prop where
  length_eq : state.vfIncluded.length = values.length
  total_eq : state.nTotal = (flagged state.vfIncluded values).sum
  best : BestSubset values nTargetValue (state.vfBest, state.nBest)

section Subset

variable {values : List Int} {nTargetValue : Int} (nonneg : ∀ value ∈ values, 0 ≤ value)
  (small : values.sum ≤ int64Max)

include nonneg small

/-- A value whose flag is not set is included. -/
private theorem SubsetState.Tracks.includeAt {state : SubsetState} {i : Nat} {value : Int}
    (tracks : state.Tracks values nTargetValue) (unset : state.vfIncluded[i]? = some false)
    (at_i : values[i]? = some value) : ∃ after, state.includeAt nTargetValue i value = .ok after ∧
      after.Tracks values nTargetValue ∧ ∀ j, j ≠ i → after.vfIncluded[j]? = state.vfIncluded[j]? := by
  have total := sum_flagged_set unset at_i
  obtain ⟨low, high⟩ := sum_flagged_le nonneg (state.vfIncluded.set i true)
  have fits : int64 (state.nTotal + value) = .ok (state.nTotal + value) := by
    rw [tracks.total_eq, ← total]
    exact int64_of_mem (le_trans (by decide) low) (high.trans small)
  have others (flag : Bool) (j : Nat) (different : j ≠ i) :
      (state.vfIncluded.set i flag)[j]? = state.vfIncluded[j]? :=
    List.getElem?_set_ne different.symm
  rw [SubsetState.includeAt, fits]
  refine ⟨_, (apply_ite Except.ok ..).symm, ?_⟩
  split
  · rename_i reached
    refine ⟨⟨?_, ?_, ?_⟩, fun j different => ?_⟩
    · simpa using tracks.length_eq
    · have restored : (state.vfIncluded.set i true).set i false = state.vfIncluded := by
        rw [List.set_set]
        apply List.ext_getElem?
        intro j
        by_cases same : j = i
        · subst same
          rw [List.getElem?_set_self (List.getElem?_eq_some_iff.mp unset).1, unset]
        · exact others false j same
      simp only [restored, add_sub_cancel_right, tracks.total_eq]
    · dsimp only
      split
      · exact ⟨by rw [total, tracks.total_eq], reached⟩
      · exact tracks.best
    · rw [List.set_set]
      exact others false j different
  · refine ⟨⟨?_, ?_, tracks.best⟩, others true⟩
    · simpa using tracks.length_eq
    · rw [total, tracks.total_eq]

/-- A pass keeps the totals, if it picks no value twice. -/
private theorem subsetPass_eq {picks : Nat → Bool → Bool} {i : Nat} {rest : List Int}
    {state : SubsetState} (tracks : state.Tracks values nTargetValue)
    (at_rest : values.drop i = rest)
    (fresh : ∀ j, i ≤ j → picks j ((state.vfIncluded[j]?).getD false) = true →
      (state.vfIncluded[j]?).getD false = false) :
    ∃ after, subsetPass nTargetValue picks i rest state = .ok after ∧
      after.Tracks values nTargetValue := by
  induction rest generalizing i state with
  | nil => exact ⟨state, rfl, tracks⟩
  | cons value rest induction =>
      have at_i : values[i]? = some value := by
        rw [← List.head?_drop, at_rest, List.head?_cons]
      have later : values.drop (i + 1) = rest := by
        rw [← List.tail_drop, at_rest, List.tail_cons]
      rw [subsetPass]
      cases picked : picks i ((state.vfIncluded[i]?).getD false) with
      | false =>
          obtain ⟨after, passed, kept⟩ :=
            induction tracks later fun j past => fresh j (Nat.le_of_succ_le past)
          exact ⟨after, passed, kept⟩
      | true =>
          have inside : i < state.vfIncluded.length :=
            tracks.length_eq ▸ (List.getElem?_eq_some_iff.mp at_i).1
          have unset : state.vfIncluded[i]? = some false := by
            have clear := fresh i le_rfl picked
            rw [List.getElem?_eq_getElem inside] at clear ⊢
            exact congrArg some clear
          obtain ⟨next, included, next_tracks, others⟩ := tracks.includeAt nonneg small unset at_i
          obtain ⟨after, passed, kept⟩ := induction next_tracks later fun j past => by
            rw [others j (by omega)]
            exact fresh j (Nat.le_of_succ_le past)
          refine ⟨after, ?_, kept⟩
          rw [if_pos rfl, included]
          exact passed

/-- The loop improves the flags. -/
private theorem subsetLoop_eq (rand : Nat → Nat → Bool) {left nRep : Nat} {best : List Bool × Int}
    (good : BestSubset values nTargetValue best) :
    ∃ after, subsetLoop nTargetValue rand values left nRep best = .ok after ∧
      BestSubset values nTargetValue after := by
  induction left generalizing nRep best with
  | zero => exact ⟨best, rfl, good⟩
  | succ left induction =>
      rw [subsetLoop]
      split
      · exact ⟨best, rfl, good⟩
      · let start : SubsetState :=
          { nTotal := 0
            vfIncluded := .replicate values.length false
            fReachedTarget := false
            nBest := best.2
            vfBest := best.1 }
        have start_tracks : start.Tracks values nTargetValue :=
          ⟨List.length_replicate, by simp [start], good⟩
        obtain ⟨passed, first, tracks⟩ := @subsetPass_eq values nTargetValue nonneg small
          (fun i _ => rand nRep i) 0 values start start_tracks rfl fun j _ _ => by
            simp only [start, List.getElem?_replicate]
            split <;> rfl
        obtain ⟨again, second, again_tracks⟩ := @subsetPass_eq values nTargetValue nonneg small
          (fun _ fIncluded => !fIncluded) 0 values passed tracks rfl fun j _ unset => by
            simpa using unset
        cases reached : passed.fReachedTarget with
        | true =>
            obtain ⟨after, looped, after_good⟩ := @induction (nRep + 1) _ tracks.best
            refine ⟨after, except_bind_eq_ok.mpr ⟨passed, first, ?_⟩, after_good⟩
            simp only [reached, if_true]
            exact looped
        | false =>
            obtain ⟨after, looped, after_good⟩ := @induction (nRep + 1) _ again_tracks.best
            refine ⟨after, except_bind_eq_ok.mpr ⟨passed, first, ?_⟩, after_good⟩
            simp only [reached, Bool.false_eq_true, if_false]
            exact except_bind_eq_ok.mpr ⟨again, second, looped⟩

/-- `ApproximateBestSubset` selects a subset that reaches the target. -/
theorem approximateBestSubset_eq (rand : Nat → Nat → Bool) (iterations : Nat)
    (enough : nTargetValue ≤ values.sum) :
    ∃ best, approximateBestSubset values values.sum nTargetValue rand iterations = .ok best ∧
      BestSubset values nTargetValue best :=
  subsetLoop_eq nonneg small rand ⟨by rw [flagged_replicate_true], enough⟩

end Subset

end FooCoin

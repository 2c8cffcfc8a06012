import FooCoin.CoinSelectionExact

/-!
# What a selection that succeeds has selected

Without a bound on the values a selection may overflow.  One that does not has selected different
coins whose values reach the target.
-/

namespace FooCoin

section Select

variable {isFromMe : UInt256 → Bool} {nValue : Coin → Int}
  {nTargetValue nConfMine nConfTheirs : Int}

/-- Coins with their values from the outputs seen so far. -/
def ValuedCoins (nValue : Coin → Int) (seen : List COutput) (coins : List (Int × Coin)) : Prop :=
  (coins.map Prod.snd).Sublist (seen.map COutput.coin) ∧ ∀ coin ∈ coins, nValue coin.2 = coin.1

/-- What the loop over the coins has, however large the values are. -/
structure CoinScan.Seen (nValue : Coin → Int) (nTargetValue : Int) (seen : List COutput)
    (scan : CoinScan) : Prop where
  values : ValuedCoins nValue seen scan.vValue
  total : scan.nTotalLower = (scan.vValue.map Prod.fst).sum
  larger : ∀ n coin, scan.coinLowestLarger = (n, some coin) →
    coin ∈ seen.map COutput.coin ∧ nValue coin = n ∧ nTargetValue ≤ n

/-- A selection of different coins that reaches the target. -/
structure Selection.Sound (nValue : Coin → Int) (nTargetValue : Int) (vCoins : List COutput)
    (selection : Selection) : Prop where
  subset : selection.setCoinsRet ⊆ (vCoins.map COutput.coin).toFinset
  value : selection.nValueRet = ∑ coin ∈ selection.setCoinsRet, nValue coin
  enough : nTargetValue ≤ selection.nValueRet

private theorem ValuedCoins.concat {seen : List COutput} {coins : List (Int × Coin)}
    (valued : ValuedCoins nValue seen coins) (output : COutput) :
    ValuedCoins nValue (seen ++ [output]) (coins ++ [(nValue output.coin, output.coin)]) := by
  refine ⟨?_, fun coin member => ?_⟩
  · rw [List.map_append, List.map_append]
    exact valued.1.append (List.Sublist.refl _)
  · rcases List.mem_append.mp member with before | last
    · exact valued.2 coin before
    · obtain rfl := List.mem_singleton.mp last
      rfl

private theorem CoinScan.Seen.skip {seen : List COutput} {scan : CoinScan}
    (facts : scan.Seen nValue nTargetValue seen) (output : COutput) :
    scan.Seen nValue nTargetValue (seen ++ [output]) := by
  have sub : (seen.map COutput.coin).Sublist ((seen ++ [output]).map COutput.coin) :=
    (List.sublist_append_left seen [output]).map _
  refine ⟨⟨facts.values.1.trans sub, facts.values.2⟩, facts.total, fun n coin found => ?_⟩
  obtain ⟨member, value, reaches⟩ := facts.larger n coin found
  exact ⟨sub.subset member, value, reaches⟩

/-- What a scan of some outputs returns. -/
def ScanSound (nValue : Coin → Int) (nTargetValue : Int) (seen : List COutput) :
    Option (Int × Coin) × CoinScan → Prop
  | (none, scan) => scan.Seen nValue nTargetValue seen
  | (some coin, _) => coin.1 = nTargetValue ∧ nValue coin.2 = coin.1 ∧
      coin.2 ∈ seen.map COutput.coin

/-- The loop over the coins. -/
private theorem scanCoins_sound {seen vCoins : List COutput} {scan : CoinScan}
    {result : Option (Int × Coin) × CoinScan} (facts : scan.Seen nValue nTargetValue seen)
    (scanned : scanCoins isFromMe nValue nTargetValue nConfMine nConfTheirs vCoins scan =
      .ok result) : ScanSound nValue nTargetValue (seen ++ vCoins) result := by
  induction vCoins generalizing seen scan with
  | nil =>
      obtain rfl := Except.ok.inj scanned
      rwa [List.append_nil]
  | cons output vCoins induction =>
      have later {next : CoinScan} (kept : next.Seen nValue nTargetValue (seen ++ [output]))
          (rest : scanCoins isFromMe nValue nTargetValue nConfMine nConfTheirs vCoins next =
            .ok result) := induction kept rest
      rw [List.append_assoc, List.singleton_append] at later
      rw [scanCoins] at scanned
      by_cases ineligible : output.nDepth < if isFromMe output.tx then nConfMine else nConfTheirs
      · rw [if_pos ineligible] at scanned
        exact later (facts.skip output) scanned
      · rw [if_neg ineligible] at scanned
        by_cases matched : nValue output.coin = nTargetValue
        · simp only [if_pos matched, pure_eq_ok] at scanned
          obtain rfl := scanned
          exact ⟨matched, rfl, by simp⟩
        · simp only [if_neg matched, except_bind_eq_ok] at scanned
          obtain ⟨raised, fits, scanned⟩ := scanned
          obtain ⟨-, rfl⟩ := int64_eq_ok.mp fits
          split_ifs at scanned with small less
          · obtain ⟨nTotalLower, total, scanned⟩ := except_bind_eq_ok.mp scanned
            obtain ⟨-, rfl⟩ := int64_eq_ok.mp total
            refine later ?_ scanned
            exact ⟨facts.values.concat output, by simp [facts.total], (facts.skip output).larger⟩
          · refine later ?_ scanned
            refine ⟨(facts.skip output).values, facts.total, fun n coin lowest => ?_⟩
            simp only [Prod.mk.injEq, Option.some.injEq] at lowest
            obtain ⟨rfl, rfl⟩ := lowest
            have := cent_pos
            exact ⟨by simp, rfl, by omega⟩
          · exact later (facts.skip output) scanned

/-- The values that were collected have been added up. -/
private theorem scanCoins_fits {vCoins : List COutput} {scan after : CoinScan}
    {found : Option (Int × Coin)} (start : scan.nTotalLower ≤ int64Max)
    (scanned : scanCoins isFromMe nValue nTargetValue nConfMine nConfTheirs vCoins scan =
      .ok (found, after)) : after.nTotalLower ≤ int64Max := by
  induction vCoins generalizing scan with
  | nil =>
      obtain ⟨rfl, rfl⟩ := Prod.mk.inj (Except.ok.inj scanned)
      exact start
  | cons output vCoins induction =>
      rw [scanCoins] at scanned
      by_cases ineligible : output.nDepth < if isFromMe output.tx then nConfMine else nConfTheirs
      · rw [if_pos ineligible] at scanned
        exact induction start scanned
      · rw [if_neg ineligible] at scanned
        by_cases matched : nValue output.coin = nTargetValue
        · simp only [if_pos matched, pure_eq_ok, Prod.mk.injEq] at scanned
          exact scanned.2 ▸ start
        · simp only [if_neg matched, except_bind_eq_ok] at scanned
          obtain ⟨raised, -, scanned⟩ := scanned
          split_ifs at scanned with small less
          · obtain ⟨nTotalLower, total, scanned⟩ := except_bind_eq_ok.mp scanned
            obtain ⟨⟨-, high⟩, rfl⟩ := int64_eq_ok.mp total
            exact induction high scanned
          · refine induction ?_ scanned
            exact start
          · exact induction start scanned

private theorem Selection.addAll_ok {coins : List (Int × Coin)} {selection after : Selection}
    (added : selection.addAll coins = .ok after) :
    after = { fSelected := selection.fSelected
              setCoinsRet := selection.setCoinsRet ∪ (coins.map Prod.snd).toFinset
              nValueRet := selection.nValueRet + (coins.map Prod.fst).sum } := by
  induction coins generalizing selection with
  | nil =>
      obtain rfl := Except.ok.inj added
      simp
  | cons coin coins induction =>
      obtain ⟨next, first, rest⟩ := except_bind_eq_ok.mp added
      obtain ⟨nValueRet, fits, single⟩ := except_bind_eq_ok.mp first
      obtain ⟨-, rfl⟩ := int64_eq_ok.mp fits
      obtain rfl := pure_eq_ok.mp single
      rw [induction rest]
      simp [add_assoc]

private theorem Selection.sound_of_addAll {vCoins : List COutput} {coins : List (Int × Coin)}
    {after : Selection} (listed : coins.map Prod.snd ⊆ vCoins.map COutput.coin)
    (different : (coins.map Prod.snd).Nodup) (values : ∀ coin ∈ coins, nValue coin.2 = coin.1)
    (enough : nTargetValue ≤ (coins.map Prod.fst).sum)
    (added : (Selection.none true).addAll coins = .ok after) :
    after.Sound nValue nTargetValue vCoins := by
  obtain rfl := Selection.addAll_ok added
  refine ⟨?_, ?_, ?_⟩
  · intro coin member
    simp only [Selection.none, Finset.empty_union, List.mem_toFinset] at member ⊢
    exact listed member
  · simp only [Selection.none, Finset.empty_union, zero_add, List.sum_toFinset nValue different,
      List.map_map]
    exact congrArg List.sum (List.map_congr_left fun pair inside => (values pair inside).symm)
  · simpa [Selection.none] using enough

private theorem Selection.sound_of_add {vCoins : List COutput} {n : Int} {coin : Coin}
    {after : Selection} (member : coin ∈ vCoins.map COutput.coin) (value : nValue coin = n)
    (enough : nTargetValue ≤ n) (added : (Selection.none true).add (n, coin) = .ok after) :
    after.Sound nValue nTargetValue vCoins := by
  obtain ⟨nValueRet, fits, single⟩ := except_bind_eq_ok.mp added
  obtain ⟨-, rfl⟩ := int64_eq_ok.mp fits
  obtain rfl := pure_eq_ok.mp single
  refine ⟨?_, ?_, ?_⟩
  · simpa [Selection.none] using member
  · simp [Selection.none, value]
  · simpa [Selection.none] using enough

/-- The best subset that is found reaches the target. -/
private theorem solveSubsetSum_best {chance : SelectionChance} {values : List Int}
    {best : List Bool × Int} (nonneg : ∀ value ∈ values, 0 ≤ value)
    (small : values.sum ≤ int64Max) (enough : nTargetValue ≤ values.sum)
    (solved : solveSubsetSum nTargetValue chance values values.sum = .ok best) :
    best.2 = (flagged best.1 values).sum ∧ nTargetValue ≤ best.2 := by
  obtain ⟨first, found, rest⟩ := except_bind_eq_ok.mp solved
  obtain ⟨expected, same, good⟩ :=
    approximateBestSubset_eq nonneg small (chance.rand 0) 1000 enough
  obtain rfl := Except.ok.inj (found.symm.trans same)
  split_ifs at rest with matched
  · obtain rfl := pure_eq_ok.mp rest
    exact ⟨good.sum_eq, good.target_le⟩
  · obtain ⟨raised, fits, rest⟩ := except_bind_eq_ok.mp rest
    obtain ⟨-, rfl⟩ := int64_eq_ok.mp fits
    split_ifs at rest with room
    · obtain ⟨expected, same, better⟩ :=
        approximateBestSubset_eq nonneg small (chance.rand 1) 1000 room
      obtain rfl := Except.ok.inj (rest.symm.trans same)
      have := cent_pos
      have reaches := better.target_le
      exact ⟨better.sum_eq, by omega⟩
    · obtain rfl := pure_eq_ok.mp rest
      exact ⟨good.sum_eq, good.target_le⟩

private theorem selectScanned_sound {chance : SelectionChance} {vCoins : List COutput}
    {scan : CoinScan} {selection : Selection} (distinct : (vCoins.map COutput.coin).Nodup)
    (nonneg : ∀ coin ∈ vCoins.map COutput.coin, 0 ≤ nValue coin)
    (fits : (scan.vValue.map Prod.fst).sum ≤ int64Max)
    (facts : scan.Seen nValue nTargetValue vCoins)
    (selected : selectScanned nTargetValue chance scan = .ok selection)
    (success : selection.fSelected = true) : selection.Sound nValue nTargetValue vCoins := by
  rw [selectScanned] at selected
  split_ifs at selected with equal short
  · exact Selection.sound_of_addAll facts.values.1.subset (distinct.sublist facts.values.1)
      facts.values.2 (facts.total ▸ equal.ge) selected
  · rcases found : scan.coinLowestLarger with ⟨n, _ | coin⟩
    · rw [found] at selected
      obtain rfl := pure_eq_ok.mp selected
      exact absurd success Bool.false_ne_true
    · rw [found] at selected
      obtain ⟨member, value, reaches⟩ := facts.larger n coin found
      exact Selection.sound_of_add member value reaches selected
  · obtain ⟨best, solved, selected⟩ := except_bind_eq_ok.mp selected
    have perm := chance.sort_perm scan.vValue
    have sum := (perm.map Prod.fst).sum_eq
    have values_nonneg : ∀ value ∈ (chance.sort scan.vValue).map Prod.fst, 0 ≤ value := by
      intro value member
      obtain ⟨coin, inside, rfl⟩ := List.mem_map.mp member
      have listed := perm.mem_iff.mp inside
      rw [← facts.values.2 coin listed]
      exact nonneg _ (facts.values.1.subset (List.mem_map_of_mem listed))
    rw [facts.total, ← sum] at solved
    have best_facts := solveSubsetSum_best values_nonneg (sum.trans_le fits)
      (by rw [sum, ← facts.total]; exact Int.not_lt.mp short) solved
    have subset (added : (Selection.none true).addAll
        (flagged best.1 (chance.sort scan.vValue)) = .ok selection) :
        selection.Sound nValue nTargetValue vCoins := by
      have listed := flagged_sublist best.1 (chance.sort scan.vValue)
      have sorted_perm := perm.map Prod.snd
      refine Selection.sound_of_addAll ?_ ?_ ?_ ?_ added
      · intro coin member
        exact facts.values.1.subset (sorted_perm.subset ((listed.map Prod.snd).subset member))
      · exact (sorted_perm.nodup_iff.mpr (distinct.sublist facts.values.1)).sublist
          (listed.map Prod.snd)
      · exact fun coin member => facts.values.2 coin (perm.mem_iff.mp (listed.subset member))
      · rw [map_flagged, ← best_facts.1]
        exact best_facts.2
    rcases found : scan.coinLowestLarger with ⟨n, _ | coin⟩
    · rw [found] at selected
      exact subset selected
    · rw [found] at selected
      obtain ⟨raised, -, selected⟩ := except_bind_eq_ok.mp selected
      split_ifs at selected
      · obtain ⟨member, value, reaches⟩ := facts.larger n coin found
        exact Selection.sound_of_add member value reaches selected
      · exact subset selected

/-- A selection that succeeds has selected different outputs that reach the target. -/
theorem selectCoinsMinConf_sound {chance : SelectionChance} {vCoins : List COutput}
    {selection : Selection} (distinct : (vCoins.map COutput.coin).Nodup)
    (nonneg : ∀ coin ∈ vCoins.map COutput.coin, 0 ≤ nValue coin)
    (selected : selectCoinsMinConf isFromMe nValue nTargetValue nConfMine nConfTheirs chance
      vCoins = .ok selection) (success : selection.fSelected = true) :
    selection.Sound nValue nTargetValue vCoins := by
  have perm := (chance.shuffle_perm vCoins).map COutput.coin
  have back {shuffled : Selection}
      (sound : shuffled.Sound nValue nTargetValue (chance.shuffle vCoins)) :
      shuffled.Sound nValue nTargetValue vCoins :=
    ⟨sound.subset.trans (List.toFinset_eq_of_perm _ _ perm).subset, sound.value, sound.enough⟩
  have start : CoinScan.Seen nValue nTargetValue [] ⟨(int64Max, none), [], 0⟩ :=
    ⟨⟨List.Sublist.refl _, by simp⟩, rfl, by simp⟩
  obtain ⟨⟨found, scan⟩, scanned, selected⟩ := except_bind_eq_ok.mp selected
  have facts := scanCoins_sound start scanned
  refine back ?_
  cases found with
  | some coin =>
      obtain ⟨value, same, member⟩ := facts
      exact Selection.sound_of_add member same value.ge selected
  | none =>
      have fits := scanCoins_fits (by decide) scanned
      have total := facts.total
      exact selectScanned_sound (perm.nodup_iff.mpr distinct)
        (fun coin member => nonneg coin (perm.mem_iff.mp member)) (total ▸ fits) facts selected
        success

end Select

end FooCoin

import FooCoin.CoinSelection

/-!
# What `SelectCoinsMinConf` returns

A selection consists of eligible coins, knows their sum and reaches the target.  It fails only where
all eligible coins together do not reach the target, unless a coin has the greatest value of an
`int64`, with which the search for the least larger coin starts.
-/

namespace FooCoin

section Select

variable (isFromMe : UInt256 → Bool) (nValue : Coin → Int) (nTargetValue nConfMine nConfTheirs : Int)

/-- The eligible ones among some outputs. -/
def eligibleOutputs (vCoins : List COutput) : List COutput :=
  vCoins.filter fun output => output.Eligible isFromMe nConfMine nConfTheirs

/-- The eligible coins. -/
def eligibleCoins (vCoins : List COutput) : Finset Coin :=
  ((eligibleOutputs isFromMe nConfMine nConfTheirs vCoins).map COutput.coin).toFinset

/-- The coins that are selected are among the eligible ones and reach the target, and there are none
only if all of them do not. -/
structure Selection.Exact (eligible : Finset Coin) (selection : Selection) : Prop where
  subset : selection.fSelected = true → selection.setCoinsRet ⊆ eligible
  value : selection.fSelected = true →
    selection.nValueRet = ∑ coin ∈ selection.setCoinsRet, nValue coin
  enough : selection.fSelected = true → nTargetValue ≤ selection.nValueRet
  complete : selection.fSelected = false ↔ ∑ coin ∈ eligible, nValue coin < nTargetValue

/-- The loop over the coins has found a larger one, or there is none. -/
def LowestLarger (seen : List COutput) : Int × Option Coin → Prop
  | (n, none) => n = int64Max ∧ ∀ output ∈ eligibleOutputs isFromMe nConfMine nConfTheirs seen,
      nTargetValue + cent ≤ nValue output.coin → int64Max ≤ nValue output.coin
  | (n, some coin) => nTargetValue + cent ≤ n ∧
      ∃ output ∈ eligibleOutputs isFromMe nConfMine nConfTheirs seen,
        output.coin = coin ∧ nValue coin = n

/-- What the loop over the coins keeps. -/
structure CoinScan.Scanned (seen : List COutput) (scan : CoinScan) : Prop where
  unmatched : ∀ output ∈ eligibleOutputs isFromMe nConfMine nConfTheirs seen,
    nValue output.coin ≠ nTargetValue
  vValue_eq : scan.vValue = ((eligibleOutputs isFromMe nConfMine nConfTheirs seen).filter
    fun output => nValue output.coin < nTargetValue + cent).map
      fun output => (nValue output.coin, output.coin)
  total_eq : scan.nTotalLower = (scan.vValue.map Prod.fst).sum
  larger : LowestLarger isFromMe nValue nTargetValue nConfMine nConfTheirs seen
    scan.coinLowestLarger

variable {isFromMe nValue nTargetValue nConfMine nConfTheirs}

/-- Some outputs have positive values whose sum fits. -/
def Affordable (nValue : Coin → Int) (vCoins : List COutput) : Prop :=
  (∀ output ∈ vCoins, 0 < nValue output.coin) ∧
    (vCoins.map fun output => nValue output.coin).sum ≤ int64Max

theorem Affordable.sublist {some all : List COutput} (affordable : Affordable nValue all)
    (listed : some.Sublist all) : Affordable nValue some := by
  refine ⟨fun output member => affordable.1 output (listed.subset member), ?_⟩
  refine le_trans (List.Sublist.sum_le_sum (listed.map _) fun value member => ?_) affordable.2
  obtain ⟨output, inside, rfl⟩ := List.mem_map.mp member
  exact (affordable.1 output inside).le

theorem Affordable.perm {left right : List COutput} (affordable : Affordable nValue left)
    (perm : right.Perm left) : Affordable nValue right :=
  ⟨fun output member => affordable.1 output (perm.mem_iff.mp member),
    (perm.map _).sum_eq.trans_le affordable.2⟩

private theorem scanned_nil : CoinScan.Scanned isFromMe nValue nTargetValue nConfMine nConfTheirs []
    ⟨(int64Max, none), [], 0⟩ := by
  refine ⟨?_, rfl, rfl, rfl, ?_⟩
  · intro output member
    exact absurd member List.not_mem_nil
  · intro output member
    exact absurd member List.not_mem_nil

@[simp]
private theorem eligibleOutputs_concat_of (seen : List COutput) {output : COutput}
    (eligible : output.Eligible isFromMe nConfMine nConfTheirs) :
    eligibleOutputs isFromMe nConfMine nConfTheirs (seen ++ [output]) =
      eligibleOutputs isFromMe nConfMine nConfTheirs seen ++ [output] := by
  simp [eligibleOutputs, eligible]

/-- A coin that is not less than the least larger one does not replace it. -/
private theorem LowestLarger.keep {seen : List COutput} {output : COutput}
    {lowest : Int × Option Coin}
    (larger : LowestLarger isFromMe nValue nTargetValue nConfMine nConfTheirs seen lowest)
    (eligible : output.Eligible isFromMe nConfMine nConfTheirs)
    (greater : nTargetValue + cent ≤ nValue output.coin → lowest.1 ≤ nValue output.coin) :
    LowestLarger isFromMe nValue nTargetValue nConfMine nConfTheirs (seen ++ [output]) lowest := by
  match lowest with
  | (n, none) =>
      obtain ⟨rfl, above⟩ := larger
      refine ⟨rfl, ?_⟩
      rw [eligibleOutputs_concat_of seen eligible]
      intro other member
      rcases List.mem_append.mp member with before | last
      · exact above other before
      · obtain rfl := List.mem_singleton.mp last
        exact greater
  | (n, some coin) =>
      obtain ⟨reaches, found, member, same⟩ := larger
      refine ⟨reaches, found, ?_, same⟩
      rw [eligibleOutputs_concat_of seen eligible]
      exact List.mem_append_left _ member

/-- An ineligible output is passed over. -/
private theorem CoinScan.Scanned.pass {seen : List COutput} {scan : CoinScan} {output : COutput}
    (scanned : scan.Scanned isFromMe nValue nTargetValue nConfMine nConfTheirs seen)
    (ineligible : ¬output.Eligible isFromMe nConfMine nConfTheirs) :
    scan.Scanned isFromMe nValue nTargetValue nConfMine nConfTheirs (seen ++ [output]) := by
  have same : eligibleOutputs isFromMe nConfMine nConfTheirs (seen ++ [output]) =
      eligibleOutputs isFromMe nConfMine nConfTheirs seen := by
    simp [eligibleOutputs, ineligible]
  obtain ⟨unmatched, vValue_eq, total_eq, larger⟩ := scanned
  refine ⟨same ▸ unmatched, same ▸ vValue_eq, total_eq, ?_⟩
  unfold LowestLarger at larger ⊢
  rwa [same]

/-- A coin that is too small is collected. -/
private theorem CoinScan.Scanned.collect {seen : List COutput} {scan : CoinScan}
    {output : COutput} (scanned : scan.Scanned isFromMe nValue nTargetValue nConfMine nConfTheirs seen)
    (eligible : output.Eligible isFromMe nConfMine nConfTheirs)
    (different : nValue output.coin ≠ nTargetValue)
    (small : nValue output.coin < nTargetValue + cent) :
    CoinScan.Scanned isFromMe nValue nTargetValue nConfMine nConfTheirs (seen ++ [output])
      { scan with
        vValue := scan.vValue ++ [(nValue output.coin, output.coin)]
        nTotalLower := scan.nTotalLower + nValue output.coin } := by
  obtain ⟨unmatched, vValue_eq, total_eq, larger⟩ := scanned
  constructor
  · rw [eligibleOutputs_concat_of seen eligible]
    simpa [or_imp, forall_and] using ⟨unmatched, different⟩
  · simp [eligibleOutputs_concat_of seen eligible, vValue_eq, small]
  · simp [total_eq]
  · exact larger.keep eligible fun above => absurd small (Int.not_lt.mpr above)

/-- A larger coin is passed over, or it is the least one so far. -/
private theorem CoinScan.Scanned.weigh {seen : List COutput} {scan : CoinScan}
    {output : COutput} (scanned : scan.Scanned isFromMe nValue nTargetValue nConfMine nConfTheirs seen)
    (eligible : output.Eligible isFromMe nConfMine nConfTheirs)
    (different : nValue output.coin ≠ nTargetValue)
    (large : ¬nValue output.coin < nTargetValue + cent) {lowest : Int × Option Coin}
    (larger : LowestLarger isFromMe nValue nTargetValue nConfMine nConfTheirs (seen ++ [output])
      lowest) :
    CoinScan.Scanned isFromMe nValue nTargetValue nConfMine nConfTheirs (seen ++ [output])
      { scan with coinLowestLarger := lowest } := by
  obtain ⟨unmatched, vValue_eq, total_eq, -⟩ := scanned
  constructor
  · rw [eligibleOutputs_concat_of seen eligible]
    simpa [or_imp, forall_and] using ⟨unmatched, different⟩
  · simp [eligibleOutputs_concat_of seen eligible, vValue_eq, large]
  · exact total_eq
  · exact larger

/-- The values of the small coins fit. -/
private theorem CoinScan.Scanned.total_range {seen : List COutput} {scan : CoinScan}
    (scanned : scan.Scanned isFromMe nValue nTargetValue nConfMine nConfTheirs seen)
    (affordable : Affordable nValue seen) :
    0 ≤ scan.nTotalLower ∧ scan.nTotalLower ≤ (seen.map fun output => nValue output.coin).sum := by
  rw [scanned.total_eq, scanned.vValue_eq, List.map_map]
  have listed : ((eligibleOutputs isFromMe nConfMine nConfTheirs seen).filter
      fun output => nValue output.coin < nTargetValue + cent).Sublist seen :=
    List.filter_sublist.trans List.filter_sublist
  constructor
  · refine List.sum_nonneg fun value member => ?_
    obtain ⟨output, inside, rfl⟩ := List.mem_map.mp member
    exact (affordable.1 output (listed.subset inside)).le
  · refine List.Sublist.sum_le_sum (listed.map _) fun value member => ?_
    obtain ⟨output, inside, rfl⟩ := List.mem_map.mp member
    exact (affordable.1 output inside).le

/-- The loop over the coins. -/
private theorem scanCoins_eq {seen vCoins : List COutput} {scan : CoinScan}
    (affordable : Affordable nValue (seen ++ vCoins)) (low : int64Min ≤ nTargetValue)
    (high : nTargetValue + cent ≤ int64Max)
    (scanned : scan.Scanned isFromMe nValue nTargetValue nConfMine nConfTheirs seen) :
    ∃ found after,
      scanCoins isFromMe nValue nTargetValue nConfMine nConfTheirs vCoins scan =
        .ok (found, after) ∧
      match (found : Option (Int × Coin)) with
      | none => after.Scanned isFromMe nValue nTargetValue nConfMine nConfTheirs (seen ++ vCoins)
      | some coin => coin.1 = nTargetValue ∧
          ∃ output ∈ eligibleOutputs isFromMe nConfMine nConfTheirs (seen ++ vCoins),
            coin = (nValue output.coin, output.coin) := by
  induction vCoins generalizing seen scan with
  | nil => exact ⟨none, scan, rfl, by rwa [List.append_nil]⟩
  | cons output vCoins induction =>
      have affordable_seen : Affordable nValue (seen ++ [output]) :=
        affordable.sublist (by simp)
      have raised : int64 (nTargetValue + cent) = .ok (nTargetValue + cent) :=
        int64_of_mem (by have := cent_pos; omega) high
      rw [scanCoins]
      by_cases eligible : output.Eligible isFromMe nConfMine nConfTheirs
      · rw [if_neg eligible]
        by_cases matched : nValue output.coin = nTargetValue
        · refine ⟨_, scan, if_pos matched, matched, output, ?_, rfl⟩
          exact List.mem_filter.mpr ⟨by simp, decide_eq_true eligible⟩
        · rw [List.append_cons] at affordable ⊢
          simp only [if_neg matched, raised, except_ok_bind]
          by_cases small : nValue output.coin < nTargetValue + cent
          · have collected := scanned.collect eligible matched small
            obtain ⟨low_total, high_total⟩ := collected.total_range affordable_seen
            have fits : int64 (scan.nTotalLower + nValue output.coin) =
                .ok (scan.nTotalLower + nValue output.coin) :=
              int64_of_mem (le_trans (by decide) low_total)
                (high_total.trans affordable_seen.2)
            simp only [if_pos small, fits, except_ok_bind]
            exact induction affordable collected
          · rw [if_neg small]
            by_cases less : nValue output.coin < scan.coinLowestLarger.1
            · rw [if_pos less]
              refine induction affordable (scanned.weigh eligible matched small ?_)
              refine ⟨Int.not_lt.mp small, output, ?_, rfl, rfl⟩
              rw [eligibleOutputs_concat_of seen eligible]
              exact List.mem_append_right _ (List.mem_singleton_self output)
            · rw [if_neg less]
              have kept := scanned.larger.keep eligible fun _ => Int.not_lt.mp less
              exact induction affordable (scanned.weigh eligible matched small kept)
      · rw [if_pos (not_not.mp eligible)]
        rw [List.append_cons] at affordable ⊢
        exact induction affordable (scanned.pass eligible)

/-! ## Selected coins -/

/-- Coins are selected one after the other, if their values fit. -/
private theorem Selection.addAll_eq {coins : List (Int × Coin)} {selection : Selection}
    (nonneg : ∀ coin ∈ coins, 0 ≤ coin.1) (start : 0 ≤ selection.nValueRet)
    (fits : selection.nValueRet + (coins.map Prod.fst).sum ≤ int64Max) :
    selection.addAll coins = .ok
      { fSelected := selection.fSelected
        setCoinsRet := selection.setCoinsRet ∪ (coins.map Prod.snd).toFinset
        nValueRet := selection.nValueRet + (coins.map Prod.fst).sum } := by
  induction coins generalizing selection with
  | nil => simp [Selection.addAll, pure, Except.pure]
  | cons coin coins induction =>
      obtain ⟨first, rest⟩ := List.forall_mem_cons.mp nonneg
      have rest_nonneg : 0 ≤ (coins.map Prod.fst).sum :=
        List.sum_nonneg (by simpa using fun value coin member => rest (value, coin) member)
      rw [List.map_cons, List.sum_cons, ← add_assoc] at fits
      have added : selection.add coin = .ok
          { selection with
            setCoinsRet := insert coin.2 selection.setCoinsRet
            nValueRet := selection.nValueRet + coin.1 } := by
        rw [Selection.add, int64_of_mem (le_trans (by decide) (add_nonneg start first)) (by omega)]
        rfl
      rw [Selection.addAll, added, except_ok_bind, induction rest (add_nonneg start first) fits]
      simp [add_assoc]

variable {vCoins : List COutput} (distinct : (vCoins.map COutput.coin).Nodup)
  (affordable : Affordable nValue vCoins)

include distinct in
private theorem sum_eligibleCoins :
    ∑ coin ∈ eligibleCoins isFromMe nConfMine nConfTheirs vCoins, nValue coin =
      ((eligibleOutputs isFromMe nConfMine nConfTheirs vCoins).map
        fun output => nValue output.coin).sum := by
  have listed : ((eligibleOutputs isFromMe nConfMine nConfTheirs vCoins).map COutput.coin).Nodup :=
    distinct.sublist (List.filter_sublist.map _)
  rw [eligibleCoins, List.sum_toFinset nValue listed, List.map_map]
  rfl

include distinct affordable in
/-- Different eligible coins that reach the target may be selected. -/
private theorem Selection.addAll_exact {coins : List (Int × Coin)}
    (chosen : ∀ coin ∈ coins, nValue coin.2 = coin.1 ∧
      coin.2 ∈ eligibleCoins isFromMe nConfMine nConfTheirs vCoins)
    (different : (coins.map Prod.snd).Nodup) (enough : nTargetValue ≤ (coins.map Prod.fst).sum) :
    ∃ selection, (Selection.none true).addAll coins = .ok selection ∧
      selection.Exact nValue nTargetValue
        (eligibleCoins isFromMe nConfMine nConfTheirs vCoins) := by
  have positive : ∀ coin ∈ eligibleCoins isFromMe nConfMine nConfTheirs vCoins, 0 ≤ nValue coin := by
    intro coin member
    obtain ⟨output, eligible, rfl⟩ := List.mem_map.mp (List.mem_toFinset.mp member)
    exact (affordable.1 output (List.mem_filter.mp eligible).1).le
  have subset : (coins.map Prod.snd).toFinset ⊆
      eligibleCoins isFromMe nConfMine nConfTheirs vCoins := by
    intro coin member
    obtain ⟨pair, inside, rfl⟩ := List.mem_map.mp (List.mem_toFinset.mp member)
    exact (chosen pair inside).2
  have total : (coins.map Prod.fst).sum = ∑ coin ∈ (coins.map Prod.snd).toFinset, nValue coin := by
    rw [List.sum_toFinset nValue different, List.map_map]
    exact congrArg List.sum (List.map_congr_left fun pair inside => (chosen pair inside).1.symm)
  have bounded : (coins.map Prod.fst).sum ≤
      ∑ coin ∈ eligibleCoins isFromMe nConfMine nConfTheirs vCoins, nValue coin := by
    rw [total]
    exact Finset.sum_le_sum_of_subset_of_nonneg subset fun coin member _ => positive coin member
  have fits : (coins.map Prod.fst).sum ≤ int64Max := by
    rw [sum_eligibleCoins distinct] at bounded
    exact bounded.trans (affordable.sublist List.filter_sublist).2
  have added := @Selection.addAll_eq coins (Selection.none true)
    (fun pair inside => (chosen pair inside).1 ▸ positive _ (chosen pair inside).2) le_rfl
    (by simpa [Selection.none] using fits)
  refine ⟨_, added, ?_, ?_, ?_, ?_⟩
  · intro _
    simpa [Selection.none] using subset
  · intro _
    simpa [Selection.none] using total
  · intro _
    simpa [Selection.none] using enough
  · constructor
    · intro failed
      exact absurd failed (by simp [Selection.none])
    · intro short
      omega

include distinct affordable in
/-- A coin that reaches the target may be selected. -/
private theorem Selection.add_exact {n : Int} {coin : Coin} (value : nValue coin = n)
    (eligible : coin ∈ eligibleCoins isFromMe nConfMine nConfTheirs vCoins)
    (enough : nTargetValue ≤ n) :
    ∃ selection, (Selection.none true).add (n, coin) = .ok selection ∧
      selection.Exact nValue nTargetValue
        (eligibleCoins isFromMe nConfMine nConfTheirs vCoins) := by
  obtain ⟨selection, added, exact_selection⟩ :=
    @Selection.addAll_exact isFromMe nValue nTargetValue nConfMine nConfTheirs vCoins distinct
      affordable [(n, coin)] (by simpa using ⟨value, eligible⟩) (by simp) (by simpa using enough)
  obtain ⟨first, single, rest⟩ := except_bind_eq_ok.mp added
  obtain rfl := pure_eq_ok.mp rest
  exact ⟨first, single, exact_selection⟩

/-! ## After the loop -/

section Scanned

variable {scan : CoinScan}
  (scanned : scan.Scanned isFromMe nValue nTargetValue nConfMine nConfTheirs vCoins)

include scanned in
/-- The coins that are too small are eligible. -/
private theorem CoinScan.Scanned.chosen {coin : Int × Coin} (member : coin ∈ scan.vValue) :
    nValue coin.2 = coin.1 ∧ coin.2 ∈ eligibleCoins isFromMe nConfMine nConfTheirs vCoins := by
  rw [scanned.vValue_eq] at member
  obtain ⟨output, small, rfl⟩ := List.mem_map.mp member
  exact ⟨rfl, List.mem_toFinset.mpr (List.mem_map_of_mem (List.mem_filter.mp small).1)⟩

include scanned distinct in
private theorem CoinScan.Scanned.nodup : (scan.vValue.map Prod.snd).Nodup := by
  rw [scanned.vValue_eq, List.map_map]
  exact distinct.sublist ((List.filter_sublist.trans List.filter_sublist).map _)

include scanned in
/-- The least larger coin is eligible and reaches the target. -/
private theorem CoinScan.Scanned.lowest {n : Int} {coin : Coin}
    (found : scan.coinLowestLarger = (n, some coin)) : nValue coin = n ∧
      coin ∈ eligibleCoins isFromMe nConfMine nConfTheirs vCoins ∧ nTargetValue ≤ n := by
  have larger := scanned.larger
  rw [found] at larger
  obtain ⟨reaches, output, eligible, rfl, value⟩ := larger
  refine ⟨value, List.mem_toFinset.mpr (List.mem_map_of_mem eligible), ?_⟩
  have := cent_pos
  omega

include scanned distinct affordable in
/-- Without a larger coin, all eligible coins are too small. -/
private theorem CoinScan.Scanned.sum_eq {n : Int} (missing : scan.coinLowestLarger = (n, none))
    (below : ∀ coin ∈ eligibleCoins isFromMe nConfMine nConfTheirs vCoins, nValue coin ≠ int64Max) :
    ∑ coin ∈ eligibleCoins isFromMe nConfMine nConfTheirs vCoins, nValue coin =
      scan.nTotalLower := by
  have larger := scanned.larger
  rw [missing] at larger
  have small : ∀ output ∈ eligibleOutputs isFromMe nConfMine nConfTheirs vCoins,
      nValue output.coin < nTargetValue + cent := by
    intro output eligible
    by_contra large
    have greatest := larger.2 output eligible (Int.not_lt.mp large)
    have least : nValue output.coin ≤ int64Max := by
      have single : Affordable nValue [output] :=
        affordable.sublist (List.singleton_sublist.mpr (List.mem_filter.mp eligible).1)
      simpa using single.2
    exact below output.coin (List.mem_toFinset.mpr (List.mem_map_of_mem eligible))
      (le_antisymm least greatest)
  rw [sum_eligibleCoins distinct, scanned.total_eq, scanned.vValue_eq, List.map_map,
    List.filter_eq_self.mpr fun output eligible => decide_eq_true (small output eligible)]
  rfl

include scanned affordable in
/-- The best subset reaches the target, also where it reaches the target with a cent. -/
private theorem CoinScan.Scanned.best (chance : SelectionChance) (low : int64Min ≤ nTargetValue)
    (high : nTargetValue + cent ≤ int64Max) (enough : nTargetValue ≤ scan.nTotalLower) :
    ∃ best, solveSubsetSum nTargetValue chance ((chance.sort scan.vValue).map Prod.fst)
        scan.nTotalLower = .ok best ∧
      BestSubset ((chance.sort scan.vValue).map Prod.fst) nTargetValue best := by
  have perm := chance.sort_perm scan.vValue
  have total : scan.nTotalLower = ((chance.sort scan.vValue).map Prod.fst).sum := by
    rw [scanned.total_eq]
    exact (perm.map Prod.fst).sum_eq.symm
  have nonneg : ∀ value ∈ (chance.sort scan.vValue).map Prod.fst, 0 ≤ value := by
    intro value member
    obtain ⟨coin, inside, rfl⟩ := List.mem_map.mp member
    obtain ⟨same, eligible⟩ := scanned.chosen (perm.mem_iff.mp inside)
    obtain ⟨output, listed, at_coin⟩ := List.mem_map.mp (List.mem_toFinset.mp eligible)
    rw [← same, ← at_coin]
    exact (affordable.1 output (List.mem_filter.mp listed).1).le
  have small : ((chance.sort scan.vValue).map Prod.fst).sum ≤ int64Max :=
    total ▸ (scanned.total_range affordable).2.trans affordable.2
  have raised : int64 (nTargetValue + cent) = .ok (nTargetValue + cent) :=
    int64_of_mem (by have := cent_pos; omega) high
  rw [total] at enough ⊢
  obtain ⟨first, run, good⟩ := approximateBestSubset_eq nonneg small (chance.rand 0) 1000 enough
  rw [solveSubsetSum, run, except_ok_bind]
  by_cases same : first.2 = nTargetValue
  · exact ⟨first, if_pos same, good⟩
  · rw [if_neg same, raised, except_ok_bind]
    by_cases above : nTargetValue + cent ≤ ((chance.sort scan.vValue).map Prod.fst).sum
    · obtain ⟨best, again, better⟩ :=
        approximateBestSubset_eq nonneg small (chance.rand 1) 1000 above
      refine ⟨best, (if_pos above).trans again, better.sum_eq, ?_⟩
      have := better.target_le
      have := cent_pos
      omega
    · exact ⟨first, if_neg above, good⟩

include scanned distinct affordable in
/-- What is selected after the loop. -/
private theorem selectScanned_exact (chance : SelectionChance) (low : int64Min ≤ nTargetValue)
    (high : nTargetValue + cent ≤ int64Max)
    (below : nTargetValue ≤ 0 ∨
      ∀ coin ∈ eligibleCoins isFromMe nConfMine nConfTheirs vCoins, nValue coin ≠ int64Max) :
    ∃ selection, selectScanned nTargetValue chance scan = .ok selection ∧
      selection.Exact nValue nTargetValue
        (eligibleCoins isFromMe nConfMine nConfTheirs vCoins) := by
  have total := scanned.total_eq
  rw [selectScanned]
  by_cases equal : scan.nTotalLower = nTargetValue
  · rw [if_pos equal]
    exact Selection.addAll_exact distinct affordable (fun coin => scanned.chosen)
      (scanned.nodup distinct) (total ▸ equal.ge)
  rw [if_neg equal]
  by_cases short : scan.nTotalLower < nTargetValue
  · rw [if_pos short]
    match found : scan.coinLowestLarger with
    | (n, none) =>
        refine ⟨_, rfl, ?_⟩
        have positive := (scanned.total_range affordable).1
        have sum := scanned.sum_eq distinct affordable found (below.resolve_left (by omega))
        constructor
        · exact fun selected => absurd selected Bool.false_ne_true
        · exact fun selected => absurd selected Bool.false_ne_true
        · exact fun selected => absurd selected Bool.false_ne_true
        · exact ⟨fun _ => sum.trans_lt short, fun _ => rfl⟩
    | (n, some coin) =>
        obtain ⟨value, eligible, reaches⟩ := scanned.lowest found
        exact Selection.add_exact distinct affordable value eligible reaches
  · rw [if_neg short]
    obtain ⟨best, solved, good⟩ :=
      scanned.best affordable chance low high (Int.not_lt.mp short)
    have subset : ∃ selection,
        (Selection.none true).addAll (flagged best.1 (chance.sort scan.vValue)) = .ok selection ∧
        selection.Exact nValue nTargetValue
          (eligibleCoins isFromMe nConfMine nConfTheirs vCoins) := by
      have listed := flagged_sublist best.1 (chance.sort scan.vValue)
      have perm := chance.sort_perm scan.vValue
      refine Selection.addAll_exact distinct affordable (fun coin member => ?_) ?_ ?_
      · exact scanned.chosen (perm.mem_iff.mp (listed.subset member))
      · exact ((perm.map Prod.snd).nodup_iff.mpr (scanned.nodup distinct)).sublist
          (listed.map Prod.snd)
      · rw [map_flagged, ← good.sum_eq]
        exact good.target_le
    simp only [solved, except_ok_bind]
    match found : scan.coinLowestLarger with
    | (n, none) => exact subset
    | (n, some coin) =>
        have raised : int64 (nTargetValue + cent) = .ok (nTargetValue + cent) :=
          int64_of_mem (by have := cent_pos; omega) high
        rw [selectBest, raised, except_ok_bind]
        split
        · obtain ⟨value, eligible, reaches⟩ := scanned.lowest found
          exact Selection.add_exact distinct affordable value eligible reaches
        · exact subset

end Scanned

/-! ## The coin of the greatest value -/

/-- A coin of the greatest value leaves no room for others. -/
private theorem Affordable.eq_singleton (affordable : Affordable nValue vCoins) {output : COutput}
    (member : output ∈ vCoins) (greatest : nValue output.coin = int64Max) : vCoins = [output] := by
  obtain ⟨before, after, rfl⟩ := List.append_of_mem member
  obtain ⟨positive, small⟩ := affordable
  have empty : ∀ outputs : List COutput, (∀ other ∈ outputs, 0 < nValue other.coin) →
      0 ≤ (outputs.map fun other => nValue other.coin).sum ∧
        ((outputs.map fun other => nValue other.coin).sum ≤ 0 → outputs = []) := by
    intro outputs
    induction outputs with
    | nil => simp
    | cons other outputs induction =>
        intro above
        obtain ⟨first, rest⟩ := List.forall_mem_cons.mp above
        obtain ⟨nonneg, -⟩ := induction rest
        simp only [List.map_cons, List.sum_cons]
        exact ⟨by omega, fun none_left => by omega⟩
  obtain ⟨before_nonneg, no_before⟩ := empty before fun other inside =>
    positive other (List.mem_append_left _ inside)
  obtain ⟨after_nonneg, no_after⟩ := empty after fun other inside =>
    positive other (List.mem_append_right _ (List.mem_cons_of_mem _ inside))
  simp only [List.map_append, List.map_cons, List.sum_append, List.sum_cons, greatest] at small
  rw [no_before (by omega), no_after (by omega), List.nil_append]

/-- The search for the least larger coin misses a coin of the greatest value. -/
private theorem selectCoinsMinConf_greatest (chance : SelectionChance) {output : COutput}
    (eligible : output.Eligible isFromMe nConfMine nConfTheirs)
    (greatest : nValue output.coin = int64Max) (positive : 0 < nTargetValue)
    (high : nTargetValue + cent ≤ int64Max) :
    selectCoinsMinConf isFromMe nValue nTargetValue nConfMine nConfTheirs chance [output] =
      .ok (Selection.none false) := by
  have raised : int64 (nTargetValue + cent) = .ok (nTargetValue + cent) :=
    int64_of_mem (le_trans (by decide : int64Min ≤ 0) (by have := cent_pos; omega)) high
  have large : ¬int64Max < nTargetValue + cent := Int.not_lt.mpr high
  have different : ¬int64Max = nTargetValue := by
    have := cent_pos
    omega
  have shuffled : chance.shuffle [output] = [output] :=
    List.perm_singleton.mp (chance.shuffle_perm [output])
  have zero : ¬(0 : Int) = nTargetValue := positive.ne
  rw [selectCoinsMinConf, shuffled, scanCoins, if_neg eligible]
  simp only [greatest, if_neg different, raised, except_ok_bind, if_neg large, lt_irrefl, if_false,
    scanCoins]
  change selectScanned nTargetValue chance ⟨(int64Max, none), [], 0⟩ = _
  rw [selectScanned, if_neg zero, if_pos positive]
  rfl

/-- A selection is exact unless the target is positive and an eligible coin has the greatest value
of an `int64`. -/
theorem selectCoinsMinConf_exact_iff (chance : SelectionChance) (vCoins : List COutput)
    (distinct : (vCoins.map COutput.coin).Nodup) (affordable : Affordable nValue vCoins)
    (low : int64Min ≤ nTargetValue) (high : nTargetValue + cent ≤ int64Max) :
    (∃ selection, selectCoinsMinConf isFromMe nValue nTargetValue nConfMine nConfTheirs chance
        vCoins = .ok selection ∧
      selection.Exact nValue nTargetValue
        (eligibleCoins isFromMe nConfMine nConfTheirs vCoins)) ↔
      nTargetValue ≤ 0 ∨
        ∀ coin ∈ eligibleCoins isFromMe nConfMine nConfTheirs vCoins, nValue coin ≠ int64Max := by
  constructor
  · rintro ⟨selection, selected, exact_selection⟩
    by_contra neither
    push Not at neither
    obtain ⟨positive, coin, eligible, greatest⟩ := neither
    obtain ⟨output, listed, rfl⟩ := List.mem_map.mp (List.mem_toFinset.mp eligible)
    obtain ⟨member, passes⟩ := List.mem_filter.mp listed
    obtain rfl := affordable.eq_singleton member greatest
    rw [selectCoinsMinConf_greatest chance (of_decide_eq_true passes) greatest positive high]
      at selected
    obtain rfl := Except.ok.inj selected
    have short := exact_selection.complete.mp rfl
    rw [sum_eligibleCoins distinct, eligibleOutputs,
      List.filter_eq_self.mpr (by simpa using passes), List.map_singleton, List.sum_singleton,
      greatest] at short
    have := cent_pos
    omega
  · intro below
    have perm := chance.shuffle_perm vCoins
    have same : eligibleCoins isFromMe nConfMine nConfTheirs (chance.shuffle vCoins) =
        eligibleCoins isFromMe nConfMine nConfTheirs vCoins :=
      List.toFinset_eq_of_perm _ _ ((perm.filter _).map COutput.coin)
    have shuffled_distinct : ((chance.shuffle vCoins).map COutput.coin).Nodup :=
      (perm.map COutput.coin).nodup_iff.mpr distinct
    have shuffled_affordable := affordable.perm perm
    obtain ⟨found, after, scanned, facts⟩ :=
      @scanCoins_eq isFromMe nValue nTargetValue nConfMine nConfTheirs [] (chance.shuffle vCoins) _
        shuffled_affordable low high scanned_nil
    simp only [selectCoinsMinConf, scanned, except_ok_bind]
    match found with
    | none =>
        have selected := selectScanned_exact shuffled_distinct shuffled_affordable facts chance low
          high (same.symm ▸ below)
        rwa [same] at selected
    | some coin =>
        obtain ⟨value, output, eligible, rfl⟩ := facts
        have selected := Selection.add_exact shuffled_distinct shuffled_affordable rfl
          (List.mem_toFinset.mpr (List.mem_map_of_mem eligible)) value.ge
        rwa [same] at selected

end Select

/-! ## Two wallets -/

/-- Coins in their order, and no random bit is set. -/
def plainChance : SelectionChance where
  shuffle vCoins := vCoins
  shuffle_perm := List.Perm.refl
  sort := List.insertionSort fun left right => right.1 ≤ left.1
  sort_perm := List.perm_insertionSort _
  sort_sorted := List.pairwise_insertionSort _
  rand _ _ _ := false

/-- Two confirmed outputs. -/
def confirmedOutputs : List COutput := [⟨1, 0, 6⟩, ⟨2, 0, 6⟩]

theorem selectCoinsMinConf_exact_pair : ∃ selection,
    selectCoinsMinConf (fun _ => false) (fun coin => coin.1.toNat * cent) (2 * cent + 1) 1 6
      plainChance confirmedOutputs = .ok selection ∧
    selection.Exact (fun coin => coin.1.toNat * cent) (2 * cent + 1)
      (eligibleCoins (fun _ => false) 1 6 confirmedOutputs) := by
  have affordable : Affordable (fun coin : Coin => (coin.1.toNat : Int) * cent) confirmedOutputs := by
    unfold Affordable
    decide
  exact (selectCoinsMinConf_exact_iff plainChance confirmedOutputs (by decide) affordable
    (by decide) (by decide)).mpr (.inr (by decide))

/-- A single coin of the greatest value is not selected for the least target. -/
theorem selectCoinsMinConf_not_exact : ¬∃ selection,
    selectCoinsMinConf (fun _ => false) (fun _ => int64Max) 1 1 6 plainChance [⟨1, 0, 6⟩] =
      .ok selection ∧
    selection.Exact (fun _ => int64Max) 1 (eligibleCoins (fun _ => false) 1 6 [⟨1, 0, 6⟩]) := by
  rintro ⟨selection, selected, exact_selection⟩
  rw [selectCoinsMinConf_greatest plainChance (by decide) rfl (by decide) (by decide)] at selected
  obtain rfl := Except.ok.inj selected
  exact absurd (exact_selection.complete.mp rfl) (by decide)

end FooCoin

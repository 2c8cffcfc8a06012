import FooCoin.Amount
import FooCoin.Library.OrderStatistic
import FooCoin.NetAddr
import Mathlib.Logic.Function.Basic

/-!
# The offset of the network time

Each peer reports its clock once, and the median of the reports moves our own clock.  The function
that keeps the move under 35 minutes compares an absolute value which is negative for the smallest
number, so the offset stays in its bounds as long as that number has no majority.
-/

namespace FooCoin

open Function

/-- An `int64` after an operation that wraps. -/
def wrap64 (value : Int) : Int := value.bmod (2 ^ 64)

/-- `abs64`. -/
def abs64 (n : Int) : Int := if 0 ≤ n then n else wrap64 (-n)

/-- `CMedianFilter<int64>`. -/
structure CMedianFilter where
  nSize : Nat
  vValues : List Int
  vSorted : List Int
  ne_nil : vValues ≠ []
  vSorted_eq : vSorted = vValues.insertionSort (· ≤ ·)

namespace CMedianFilter

/-- The constructor. -/
def new (size : Nat) (initial_value : Int) : CMedianFilter where
  nSize := size
  vValues := [initial_value]
  vSorted := [initial_value]
  ne_nil := List.cons_ne_nil _ _
  vSorted_eq := rfl

/-- The values after `input`. -/
def inputValues (filter : CMedianFilter) (value : Int) : List Int :=
  (if filter.vValues.length = filter.nSize then filter.vValues.tail else filter.vValues) ++ [value]

def input (filter : CMedianFilter) (value : Int) : CMedianFilter where
  nSize := filter.nSize
  vValues := filter.inputValues value
  vSorted := (filter.inputValues value).insertionSort (· ≤ ·)
  ne_nil := List.append_ne_nil_of_right_ne_nil _ (List.cons_ne_nil _ _)
  vSorted_eq := rfl

/-- `median`: the mean of the two middle values wraps and is rounded towards zero. -/
def median (filter : CMedianFilter) : Int :=
  let size := filter.vSorted.length
  if size % 2 = 1 then filter.vSorted.getD (size / 2) 0
  else (wrap64 (filter.vSorted.getD (size / 2 - 1) 0 + filter.vSorted.getD (size / 2) 0)).tdiv 2

def size (filter : CMedianFilter) : Nat := filter.vValues.length

end CMedianFilter

/-- The text of the warning about a wrong clock. -/
def clockWarning : String :=
  "Warning: Please check that your computer's date and time are correct.  " ++
    "If your clock is wrong FooCoin will not work properly."

/-- What `AddTimeData` keeps. -/
structure TimeData where
  nTimeOffset : Int
  setKnown : CNetAddr → Bool
  vTimeOffsets : CMedianFilter
  fDone : Bool
  strMiscWarning : String

/-- Before the first peer. -/
def TimeData.initial : TimeData where
  nTimeOffset := 0
  setKnown _ := false
  vTimeOffsets := .new 200 0
  fDone := false
  strMiscWarning := ""

/-- A call of `AddTimeData` while `GetTime()` is `now`. -/
structure TimeReport where
  ip : CNetAddr
  nTime : Int
  now : Int

/-- `nOffsetSample`. -/
def TimeReport.nOffsetSample (report : TimeReport) : Int := wrap64 (report.nTime - report.now)

namespace TimeData

/-- The largest offset, in seconds. -/
def maxOffset : Int := 35 * 60

/-- What a median does that is not accepted. -/
def resetOffset (data : TimeData) : TimeData :=
  let fMatch := data.vTimeOffsets.vSorted.any fun nOffset =>
    nOffset ≠ 0 && abs64 nOffset < 5 * 60
  if data.fDone || fMatch then { data with nTimeOffset := 0 }
  else { data with nTimeOffset := 0, fDone := true, strMiscWarning := clockWarning }

/-- What `AddTimeData` does with the samples. -/
def adjust (data : TimeData) : TimeData :=
  if 5 ≤ data.vTimeOffsets.size ∧ data.vTimeOffsets.size % 2 = 1 then
    let nMedian := data.vTimeOffsets.median
    if abs64 nMedian < maxOffset then { data with nTimeOffset := nMedian }
    else data.resetOffset
  else data

/-- `AddTimeData`. -/
def addTimeData (data : TimeData) (report : TimeReport) : TimeData :=
  if data.setKnown report.ip then data
  else
    adjust { data with
      setKnown := update data.setKnown report.ip true
      vTimeOffsets := data.vTimeOffsets.input report.nOffsetSample }

/-- The reports of any peers in any order. -/
def run (reports : List TimeReport) : TimeData := reports.foldl addTimeData initial

/-- The offset is less than 35 minutes. -/
def Bounded (data : TimeData) : Prop := -maxOffset < data.nTimeOffset ∧ data.nTimeOffset < maxOffset

/-- The smallest number has no majority among the samples, or the report does not move the clock. -/
def Outvoted (data : TimeData) (report : TimeReport) : Prop :=
  let window := data.vTimeOffsets.inputValues report.nOffsetSample
  data.setKnown report.ip = true ∨ window.length < 5 ∨ window.length % 2 = 0 ∨
    2 * window.count int64Min < window.length

/-! ## One report -/

private theorem wrap64_ge (value : Int) : int64Min ≤ wrap64 value := by
  have low : -((2 ^ 64 : Nat) / 2 : Int) ≤ value.bmod (2 ^ 64) := Int.le_bmod (by decide)
  have half : -((2 ^ 64 : Nat) / 2 : Int) = int64Min := by decide
  rwa [half] at low

/-- The bound on the absolute value accepts one number too many. -/
private theorem abs64_lt_iff {n : Int} (low : int64Min ≤ n) :
    abs64 n < maxOffset ↔ n = int64Min ∨ -maxOffset < n ∧ n < maxOffset := by
  have bound : maxOffset = 2100 := by decide
  have least : int64Min = -9223372036854775808 := by decide
  rw [abs64]
  split_ifs with sign
  · omega
  · by_cases smallest : n = int64Min
    · subst smallest
      have wrapped : wrap64 (-int64Min) = int64Min := by decide
      rw [wrapped]
      omega
    · have fits : wrap64 (-n) = -n := by
        rw [wrap64]
        exact Int.bmod_eq_of_le (by omega) (by omega)
      omega

private theorem mem_inputValues {filter : CMedianFilter} {value other : Int}
    (member : other ∈ filter.inputValues value) : other ∈ filter.vValues ∨ other = value := by
  rcases List.mem_append.mp member with member | member
  · left
    split_ifs at member
    · exact List.mem_of_mem_tail member
    · exact member
  · exact .inr (List.mem_singleton.mp member)

private theorem median_of_odd {filter : CMedianFilter} (odd : filter.vValues.length % 2 = 1) :
    filter.median = OrderStatistic.median filter.vValues 0 := by
  have length : filter.vSorted.length = filter.vValues.length := by
    rw [filter.vSorted_eq, List.length_insertionSort]
  rw [CMedianFilter.median, length, if_pos odd, OrderStatistic.median, List.length_insertionSort,
    filter.vSorted_eq]

/-- The median is the smallest number exactly when that has a majority. -/
private theorem median_ne_min_iff {values : List Int} (nonempty : values ≠ [])
    (odd : values.length % 2 = 1) (ranged : ∀ value ∈ values, int64Min ≤ value) :
    int64Min < OrderStatistic.median values 0 ↔ 2 * values.count int64Min < values.length := by
  have smallest : values.countP (· < int64Min + 1) = values.count int64Min := by
    refine List.countP_congr fun value member => ?_
    have low := ranged value member
    simp only [decide_eq_true_eq, beq_iff_eq]
    omega
  rw [Int.lt_iff_add_one_le, OrderStatistic.le_median_iff nonempty, smallest]
  omega

private theorem min_le_median {values : List Int} (nonempty : values ≠ [])
    (ranged : ∀ value ∈ values, int64Min ≤ value) :
    int64Min ≤ OrderStatistic.median values 0 := by
  have none_below : values.countP (· < int64Min) = 0 := by
    rw [List.countP_eq_zero]
    intro value member
    simpa using ranged value member
  rw [OrderStatistic.le_median_iff nonempty, none_below]
  exact Nat.zero_le _

private theorem nTimeOffset_resetOffset (data : TimeData) : data.resetOffset.nTimeOffset = 0 := by
  rw [resetOffset]
  split_ifs
  · rfl
  · rfl

private theorem bounded_zero {data : TimeData} (zero : data.nTimeOffset = 0) : data.Bounded := by
  rw [Bounded, zero]
  decide

/-- What the samples do to an offset that was in its bounds. -/
private theorem bounded_adjust {data : TimeData} (bounded : data.Bounded)
    (ranged : ∀ value ∈ data.vTimeOffsets.vValues, int64Min ≤ value) :
    data.adjust.Bounded ↔ data.vTimeOffsets.vValues.length < 5 ∨
      data.vTimeOffsets.vValues.length % 2 = 0 ∨
      2 * data.vTimeOffsets.vValues.count int64Min < data.vTimeOffsets.vValues.length := by
  have nonempty := data.vTimeOffsets.ne_nil
  rw [adjust, CMedianFilter.size]
  split_ifs with counted
  · obtain ⟨many, odd⟩ := counted
    rw [median_of_odd odd]
    have low := min_le_median nonempty ranged
    have small := abs64_lt_iff low
    have majority := median_ne_min_iff nonempty odd ranged
    have least : ¬-maxOffset < int64Min := by decide
    have others : data.vTimeOffsets.vValues.length < 5 ∨
        data.vTimeOffsets.vValues.length % 2 = 0 ∨
        2 * data.vTimeOffsets.vValues.count int64Min < data.vTimeOffsets.vValues.length ↔
          int64Min < OrderStatistic.median data.vTimeOffsets.vValues 0 := by omega
    rw [others]
    dsimp only
    split_ifs with accepted
    · constructor
      · intro inside
        refine lt_of_le_of_ne low fun same => least ?_
        rw [same]
        exact inside.1
      · intro above
        exact (small.mp accepted).resolve_left above.ne'
    · refine iff_of_true (bounded_zero (nTimeOffset_resetOffset data)) (lt_of_le_of_ne low ?_)
      exact fun same => accepted (small.mpr (.inl same.symm))
  · refine iff_of_true bounded ?_
    omega

private def Ranged (data : TimeData) : Prop :=
  ∀ value ∈ data.vTimeOffsets.vValues, int64Min ≤ value

private theorem ranged_input {data : TimeData} (ranged : data.Ranged) (report : TimeReport) :
    ∀ value ∈ (data.vTimeOffsets.input report.nOffsetSample).vValues, int64Min ≤ value := by
  intro value member
  rcases mem_inputValues member with member | rfl
  · exact ranged value member
  · exact wrap64_ge _

private theorem vTimeOffsets_adjust (data : TimeData) :
    data.adjust.vTimeOffsets = data.vTimeOffsets := by
  rw [adjust]
  dsimp only
  split_ifs
  · rfl
  · rw [resetOffset]
    split_ifs
    · rfl
    · rfl
  · rfl

private theorem ranged_addTimeData {data : TimeData} (ranged : data.Ranged) (report : TimeReport) :
    (data.addTimeData report).Ranged := by
  rw [addTimeData]
  split_ifs
  · exact ranged
  · rw [Ranged, vTimeOffsets_adjust]
    exact ranged_input ranged report

private theorem bounded_addTimeData {data : TimeData} (bounded : data.Bounded)
    (ranged : data.Ranged) (report : TimeReport) :
    (data.addTimeData report).Bounded ↔ data.Outvoted report := by
  rw [addTimeData, Outvoted]
  split_ifs with known
  · exact iff_of_true bounded (.inl known)
  · rw [bounded_adjust]
    · exact (or_iff_right known).symm
    · exact bounded
    · exact ranged_input ranged report

/-! ## Every sequence of reports -/

private theorem run_concat (reports : List TimeReport) (report : TimeReport) :
    run (reports ++ [report]) = (run reports).addTimeData report := by
  rw [run, List.foldl_append]
  rfl

private theorem ranged_run (reports : List TimeReport) : (run reports).Ranged := by
  induction reports using List.reverseRecOn with
  | nil => simp [run, initial, Ranged, CMedianFilter.new, int64Min]
  | append_singleton reports report induction =>
      rw [run_concat]
      exact ranged_addTimeData induction report

end TimeData

/-- The offset stays under 35 minutes in a run exactly when in every step the smallest number is
outvoted. -/
theorem nTimeOffset_bounded_iff (reports : List TimeReport) :
    (∀ earlier later, reports = earlier ++ later → (TimeData.run earlier).Bounded) ↔
      ∀ earlier report later, reports = earlier ++ report :: later →
        (TimeData.run earlier).Outvoted report := by
  constructor
  · intro bounded earlier report later split
    have before := bounded earlier (report :: later) split
    have after := bounded (earlier ++ [report]) later (by simp [split])
    rw [TimeData.run_concat] at after
    exact (TimeData.bounded_addTimeData before (TimeData.ranged_run earlier) report).mp after
  · intro outvoted earlier later split
    induction earlier using List.reverseRecOn generalizing later with
    | nil => exact TimeData.bounded_zero rfl
    | append_singleton earlier report induction =>
        rw [List.append_assoc, List.singleton_append] at split
        rw [TimeData.run_concat]
        exact (TimeData.bounded_addTimeData (induction (report :: later) split)
          (TimeData.ranged_run earlier) report).mpr (outvoted earlier report later split)

/-- Four peers whose clocks differ from ours by the smallest number. -/
def distantClocks : List TimeReport :=
  [1, 2, 3, 4].map fun byte => ⟨⟨Vector.replicate 16 byte⟩, 1400000000 - 2 ^ 63, 1400000000⟩

theorem not_nTimeOffset_bounded :
    ¬∀ reports, (TimeData.run reports).Bounded := fun bounded =>
  absurd (bounded distantClocks).1 (by decide +kernel)

end FooCoin

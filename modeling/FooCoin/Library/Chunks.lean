import FooCoin.Library.Codec

/-!
# Reading in chunks

A reader that takes its values in chunks of bounded size takes the same values from the same bytes as
one that takes them all at once.
-/

namespace Codec

variable {α : Type}

/-- A count of values can be taken in two parts. -/
structure Splits (take : Nat → Reader (List α)) : Prop where
  /-- No values. -/
  zero : take 0 = pure []
  /-- Two parts. -/
  add : ∀ first second, take (first + second) = do
    let front ← take first
    let back ← take second
    pure (front ++ back)

/-- Take `nSize` values, at most `chunk` at a time. -/
def readInChunks (take : Nat → Reader (List α)) (chunk : Nat) : Nat → Nat → Reader (List α)
  | 0, _ => pure []
  | fuel + 1, nSize =>
      if nSize = 0 then pure []
      else do
        let front ← take (min nSize chunk)
        let back ← readInChunks take chunk fuel (nSize - min nSize chunk)
        pure (front ++ back)

/-- The chunks make no difference. -/
theorem Splits.readInChunks_eq {take : Nat → Reader (List α)} (splits : Splits take)
    {chunk fuel nSize : Nat} (positive : 0 < chunk) (fueled : nSize ≤ fuel) :
    readInChunks take chunk fuel nSize = take nSize := by
  induction fuel generalizing nSize with
  | zero => rw [Nat.le_zero.mp fueled, splits.zero, readInChunks]
  | succ fuel induction =>
      by_cases empty : nSize = 0
      · rw [empty, splits.zero, readInChunks, if_pos rfl]
      · have parts : nSize = min nSize chunk + (nSize - min nSize chunk) := by omega
        rw [readInChunks, if_neg empty, induction (by omega), ← splits.add, ← parts]

theorem splits_readBytes : Splits readBytes where
  zero := by
    funext input
    rw [readBytes, if_neg (Nat.not_lt_zero _), List.take_zero, List.drop_zero]
    rfl
  add first second := by
    funext input
    change readBytes (first + second) input = (readBytes first input).bind fun front =>
      (readBytes second front.2).bind fun back => some (front.1 ++ back.1, back.2)
    simp only [readBytes]
    by_cases enough : input.length < first
    · have short : input.length < first + second := by omega
      simp [enough, short]
    · by_cases more : input.length - first < second
      · have short : input.length < first + second := by omega
        simp [enough, more, short]
      · have long : ¬input.length < first + second := by omega
        simp [enough, more, long, List.take_add]

theorem splits_readMany (reader : Reader α) : Splits (readMany reader) where
  zero := rfl
  add first second := by
    induction first with
    | zero => simp [readMany]
    | succ first induction =>
        rw [Nat.succ_add, readMany, readMany, induction]
        simp

end Codec

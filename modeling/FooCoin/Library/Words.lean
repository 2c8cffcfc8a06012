import Mathlib.Data.Nat.Bitwise
import Mathlib.Tactic

/-!
# Numbers in words

Words of one width, least significant first, stand for a number.  A bit of the number is a bit of
one word, the words of a given count are told by their number, numbers are ordered by their highest
different words, and a remainder goes word by word.
-/

namespace Words

variable {width : Nat}

/-- The number that words stand for, least significant first. -/
def value : List (BitVec width) → Nat
  | [] => 0
  | word :: words => word.toNat + 2 ^ width * value words

variable {words others : List (BitVec width)}

theorem value_lt (words : List (BitVec width)) : value words < 2 ^ (width * words.length) := by
  induction words with
  | nil => simp [value]
  | cons word words induction =>
      have low := word.isLt
      rw [value, List.length_cons, Nat.mul_succ, Nat.add_comm (width * _), pow_add]
      calc
        word.toNat + 2 ^ width * value words < 2 ^ width * (value words + 1) := by
          rw [Nat.mul_succ]
          omega
        _ ≤ 2 ^ width * 2 ^ (width * words.length) := Nat.mul_le_mul_left _ induction

theorem value_append (front back : List (BitVec width)) :
    value (front ++ back) = value front + 2 ^ (width * front.length) * value back := by
  induction front with
  | nil => simp [value]
  | cons word words induction =>
      rw [List.cons_append, value, value, induction, List.length_cons, Nat.mul_succ, pow_add]
      ring

/-- A remainder at one more word is the remainder of the lowest word and that of the rest. -/
theorem mod_succ (width count number : Nat) : number % 2 ^ (width * (count + 1)) =
    number % 2 ^ width + 2 ^ width * (number / 2 ^ width % 2 ^ (width * count)) := by
  rw [Nat.mul_succ, Nat.add_comm, pow_add, Nat.mod_mul]

/-! ## Bits -/

/-- A bit of the number is a bit of the word at its place. -/
theorem testBit_value (positive : 0 < width) (words : List (BitVec width)) (position : Nat) :
    (value words).testBit position =
      (words.getD (position / width) 0).getLsbD (position % width) := by
  induction words generalizing position with
  | nil => simp [value]
  | cons word words induction =>
      rw [value, Nat.add_comm, Nat.testBit_two_pow_mul_add _ word.isLt]
      split
      next low =>
        rw [Nat.div_eq_of_lt low, Nat.mod_eq_of_lt low, List.getD_cons_zero, BitVec.getLsbD]
      next high =>
        obtain ⟨above, rfl⟩ := Nat.exists_eq_add_of_le (Nat.le_of_not_lt high)
        rw [Nat.add_sub_cancel_left, induction, Nat.add_div_left _ positive, Nat.add_mod_left,
          List.getD_cons_succ]

private theorem getD_zipWith {op : BitVec width → BitVec width → BitVec width} (zero : op 0 0 = 0)
    (same : words.length = others.length) (position : Nat) :
    (List.zipWith op words others).getD position 0 =
      op (words.getD position 0) (others.getD position 0) := by
  induction words generalizing others position with
  | nil =>
      rw [List.eq_nil_of_length_eq_zero same.symm]
      simpa using zero.symm
  | cons word words induction =>
      obtain ⟨other, rest, rfl⟩ := List.exists_cons_of_length_eq_add_one same.symm
      cases position with
      | zero => rfl
      | succ position => exact induction (Nat.succ.inj same) position

/-- An operation on the bits of words is the operation on the bits of the numbers. -/
theorem value_zipWith (positive : 0 < width) {op : BitVec width → BitVec width → BitVec width}
    {number : Nat → Nat → Nat} {bit : Bool → Bool → Bool} (off : bit false false = false)
    (words_bit : ∀ x y position, (op x y).getLsbD position =
      bit (x.getLsbD position) (y.getLsbD position))
    (number_bit : ∀ x y position, (number x y).testBit position =
      bit (x.testBit position) (y.testBit position))
    (same : words.length = others.length) :
    value (List.zipWith op words others) = number (value words) (value others) := by
  have zero : op 0 0 = 0 := by
    refine BitVec.eq_of_getLsbD_eq fun position _ => ?_
    have clear : (0 : BitVec width).getLsbD position = false := BitVec.getLsbD_zero
    rw [words_bit, clear, off]
  refine Nat.eq_of_testBit_eq fun position => ?_
  rw [number_bit, testBit_value positive, testBit_value positive, testBit_value positive,
    getD_zipWith zero same, words_bit]

theorem value_map_not (words : List (BitVec width)) :
    value (words.map fun word => ~~~word) = 2 ^ (width * words.length) - 1 - value words := by
  induction words with
  | nil => simp [value]
  | cons word words induction =>
      have low := word.isLt
      have high := value_lt words
      have scale : 2 ^ (width * (words.length + 1)) = 2 ^ width * 2 ^ (width * words.length) := by
        rw [Nat.mul_succ, Nat.add_comm, pow_add]
      rw [List.map_cons, value, value, induction, List.length_cons, scale, BitVec.toNat_not]
      generalize 2 ^ (width * words.length) = places at *
      obtain ⟨more, rfl⟩ := Nat.exists_eq_add_of_lt high
      rw [show value words + more + 1 - 1 - value words = more by omega, Nat.mul_add, Nat.mul_add]
      omega

/-! ## Order -/

theorem value_inj (same : words.length = others.length) :
    value words = value others ↔ words = others := by
  constructor
  · intro equal
    induction words generalizing others with
    | nil => exact (List.eq_nil_of_length_eq_zero same.symm).symm
    | cons word words induction =>
        obtain ⟨other, rest, rfl⟩ := List.exists_cons_of_length_eq_add_one same.symm
        have low := congrArg (· % 2 ^ width) equal
        have high := congrArg (· / 2 ^ width) equal
        simp only [value, Nat.add_mul_mod_self_left, Nat.mod_eq_of_lt (BitVec.isLt _)] at low
        simp only [value, Nat.add_mul_div_left _ _ (Nat.two_pow_pos width),
          Nat.div_eq_of_lt (BitVec.isLt _), Nat.zero_add] at high
        rw [BitVec.eq_of_toNat_eq low, induction (Nat.succ.inj same) high]
  · exact congrArg value

/-- The highest words decide, and where they are equal the words below. -/
theorem value_concat_lt_iff {top other : BitVec width} (same : words.length = others.length) :
    value (words ++ [top]) < value (others ++ [other]) ↔
      top < other ∨ top = other ∧ value words < value others := by
  have low := value_lt words
  have other_low := value_lt others
  rw [value_append, value_append, same]
  rw [same] at low
  simp only [value, mul_zero, add_zero, BitVec.lt_def, ← BitVec.toNat_inj]
  generalize 2 ^ (width * others.length) = places at *
  rcases Nat.lt_trichotomy top.toNat other.toNat with less | equal | greater
  · have step := Nat.mul_le_mul_left places less
    rw [Nat.mul_succ] at step
    constructor
    · exact fun _ => Or.inl less
    · omega
  · rw [equal]
    constructor
    · exact fun below => Or.inr ⟨rfl, by omega⟩
    · omega
  · have step := Nat.mul_le_mul_left places greater
    rw [Nat.mul_succ] at step
    constructor
    · omega
    · omega

end Words

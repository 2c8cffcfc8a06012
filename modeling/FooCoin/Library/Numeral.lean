import Mathlib.Data.List.TakeWhile
import Mathlib.Data.Nat.Digits.Lemmas
import Mathlib.Tactic

/-!
# Numerals with leading zeros

A list of digits, most significant first, is told by its number of leading zeros and its value.  To
change the base and keep the leading zeros is therefore undone by changing the base back.
-/

namespace Numeral

variable {base : Nat} {digits : List Nat}

/-- The number of zeros in front. -/
def leading (digits : List Nat) : Nat := (digits.takeWhile (· = 0)).length

/-- The number that the digits stand for. -/
def value (base : Nat) (digits : List Nat) : Nat := Nat.ofDigits base digits.reverse

/-- The digits of a number behind some zeros. -/
def numeral (base zeros number : Nat) : List Nat :=
  List.replicate zeros 0 ++ (Nat.digits base number).reverse

/-- The same number in another base behind the same zeros. -/
def rebase (base other : Nat) (digits : List Nat) : List Nat :=
  numeral other (leading digits) (value base digits)

private theorem takeWhile_digits (base number : Nat) :
    (Nat.digits base number).reverse.takeWhile (· = 0) = [] := by
  by_cases zero : number = 0
  · simp [zero]
  · have nonempty : Nat.digits base number ≠ [] := Nat.digits_ne_nil_iff_ne_zero.mpr zero
    have first := Nat.getLast_digit_ne_zero base zero
    rw [← List.dropLast_append_getLast nonempty, List.reverse_append, List.reverse_singleton,
      List.singleton_append, List.takeWhile_cons_of_neg (by simpa using first)]

@[simp]
theorem leading_numeral (base zeros number : Nat) :
    leading (numeral base zeros number) = zeros := by
  have all_zero : ∀ digit ∈ List.replicate zeros 0, decide (digit = 0) = true := by simp
  rw [leading, numeral, List.takeWhile_append_of_pos all_zero, takeWhile_digits]
  simp

@[simp]
theorem value_numeral (base zeros number : Nat) :
    value base (numeral base zeros number) = number := by
  rw [value, numeral, List.reverse_append, List.reverse_reverse, List.reverse_replicate,
    Nat.ofDigits_append_replicate_zero, Nat.ofDigits_digits]

/-- Two numerals written one behind the other. -/
theorem value_append (base : Nat) (front back : List Nat) :
    value base (front ++ back) = value base front * base ^ back.length + value base back := by
  rw [value, List.reverse_append, Nat.ofDigits_append, List.length_reverse, ← value, ← value]
  ring

@[simp]
theorem value_replicate (base zeros : Nat) : value base (List.replicate zeros 0) = 0 := by
  rw [value, List.reverse_replicate, Nat.ofDigits_replicate_zero]

theorem value_lt (base_gt : 1 < base) (small : ∀ digit ∈ digits, digit < base) :
    value base digits < base ^ digits.length := by
  have bound := Nat.ofDigits_lt_base_pow_length (l := digits.reverse) base_gt fun digit mem =>
    small digit (List.mem_reverse.mp mem)
  rwa [List.length_reverse] at bound

theorem value_replicate_append (base zeros : Nat) (digits : List Nat) :
    value base (List.replicate zeros 0 ++ digits) = value base digits := by
  rw [value, List.reverse_append, List.reverse_replicate, Nat.ofDigits_append_replicate_zero, value]

/-- Digits are written back from their leading zeros and their value. -/
theorem numeral_leading_value (base_gt : 1 < base) (small : ∀ digit ∈ digits, digit < base) :
    numeral base (leading digits) (value base digits) = digits := by
  have front : digits.takeWhile (· = 0) = List.replicate (leading digits) 0 :=
    List.eq_replicate_iff.mpr ⟨rfl, fun digit mem => by simpa using List.mem_takeWhile_imp mem⟩
  have parts : List.replicate (leading digits) 0 ++ digits.dropWhile (· = 0) = digits := by
    rw [← front, List.takeWhile_append_dropWhile]
  have back : Nat.digits base (value base digits) = (digits.dropWhile (· = 0)).reverse := by
    rw [← parts, value_replicate_append, parts, value]
    refine Nat.digits_ofDigits base base_gt _ (fun digit mem => ?_) fun nonempty => ?_
    · exact small digit ((List.dropWhile_sublist _).mem (List.mem_reverse.mp mem))
    · rw [List.getLast_reverse]
      have inhabited : digits.dropWhile (· = 0) ≠ [] := by simpa using nonempty
      simpa using List.head_dropWhile_not (fun digit => decide (digit = 0)) inhabited
  rw [numeral, back, List.reverse_reverse, parts]


theorem lt_of_mem_numeral {zeros number digit : Nat} (base_gt : 1 < base)
    (mem : digit ∈ numeral base zeros number) : digit < base := by
  rcases List.mem_append.mp mem with zero | written
  · rw [List.eq_of_mem_replicate zero]
    exact Nat.zero_lt_of_lt base_gt
  · exact Nat.digits_lt_base base_gt (List.mem_reverse.mp written)

theorem lt_of_mem_rebase {other digit : Nat} (other_gt : 1 < other)
    (mem : digit ∈ rebase base other digits) : digit < other :=
  lt_of_mem_numeral other_gt mem

/-- A change of base is undone by the change back. -/
theorem rebase_rebase (base_gt : 1 < base) (other : Nat)
    (small : ∀ digit ∈ digits, digit < base) :
    rebase other base (rebase base other digits) = digits := by
  rw [rebase, rebase, leading_numeral, value_numeral, numeral_leading_value base_gt small]

/-- Zeros are cut off or put in front until a number fills some places. -/
theorem length_numeral (base places number : Nat) :
    (numeral base (places - (Nat.digits base number).length) number).length =
      max places (Nat.digits base number).length := by
  simp only [numeral, List.length_append, List.length_replicate, List.length_reverse]
  omega

theorem value_eq_zero (base_pos : 0 < base) :
    value base digits = 0 ↔ ∀ digit ∈ digits, digit = 0 := by
  induction digits with
  | nil => simp [value]
  | cons digit digits induction =>
      rw [← List.singleton_append, value_append, Nat.add_eq_zero_iff, induction, mul_eq_zero]
      simp [value, base_pos.ne']

/-! ## Characters -/

/-- Characters for the digits of a base. -/
structure DigitAlphabet (α : Type) (base : Nat) where
  /-- The character of a digit. -/
  char : Nat → α
  /-- The digit that a character stands for. -/
  digit : α → Nat
  /-- A character stands for a digit. -/
  isDigit : α → Bool
  digit_lt : ∀ c, isDigit c → digit c < base
  isDigit_char : ∀ d < base, isDigit (char d)
  digit_char : ∀ d < base, digit (char d) = d

namespace DigitAlphabet

variable {α : Type} (alphabet : DigitAlphabet α base) {text : List α}

/-- The number that a text of digits stands for. -/
def number (text : List α) : Nat := value base (text.map alphabet.digit)

/-- The text of a number behind some zeros. -/
def print (zeros number : Nat) : List α := (numeral base zeros number).map alphabet.char

@[simp]
theorem number_nil : alphabet.number [] = 0 := by
  simp [number, value]

theorem number_append (front back : List α) :
    alphabet.number (front ++ back) =
      alphabet.number front * base ^ back.length + alphabet.number back := by
  rw [number, List.map_append, value_append, List.length_map, ← number, ← number]

theorem number_cons (c : α) (text : List α) :
    alphabet.number (c :: text) =
      alphabet.digit c * base ^ text.length + alphabet.number text := by
  rw [← List.singleton_append, number_append]
  simp [number, value]

@[simp]
theorem number_replicate {c : α} (zero : alphabet.digit c = 0) (zeros : Nat) :
    alphabet.number (List.replicate zeros c) = 0 := by
  rw [number, List.map_replicate, zero, value_replicate]

theorem number_lt (base_gt : 1 < base) (digits : text.all alphabet.isDigit) :
    alphabet.number text < base ^ text.length := by
  have small : ∀ digit ∈ text.map alphabet.digit, digit < base := by
    intro digit mem
    obtain ⟨c, written, rfl⟩ := List.mem_map.mp mem
    exact alphabet.digit_lt c (List.all_eq_true.mp digits c written)
  simpa [number] using value_lt base_gt small

theorem number_eq_zero (base_pos : 0 < base) :
    alphabet.number text = 0 ↔ ∀ c ∈ text, alphabet.digit c = 0 := by
  rw [number, value_eq_zero base_pos, List.forall_mem_map]

theorem isDigit_print (base_gt : 1 < base) (zeros number : Nat) :
    (alphabet.print zeros number).all alphabet.isDigit := by
  rw [print, List.all_map, List.all_eq_true]
  exact fun digit mem => alphabet.isDigit_char digit (lt_of_mem_numeral base_gt mem)

/-- What is printed for a number stands for it. -/
theorem number_print (base_gt : 1 < base) (zeros number : Nat) :
    alphabet.number (alphabet.print zeros number) = number := by
  have same : ((numeral base zeros number).map alphabet.char).map alphabet.digit =
      (numeral base zeros number).map id := by
    rw [List.map_map]
    exact List.map_congr_left fun digit mem =>
      alphabet.digit_char digit (lt_of_mem_numeral base_gt mem)
  rw [DigitAlphabet.number, print, same, List.map_id, value_numeral]

end DigitAlphabet

end Numeral

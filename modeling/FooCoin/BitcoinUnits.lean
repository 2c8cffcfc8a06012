import FooCoin.Amount
import FooCoin.Library.Numeral
import FooCoin.Library.Segments

/-!
# Amounts in the user interface

`BitcoinUnits::format` writes an amount in a unit and `BitcoinUnits::parse` reads it back: it splits
the text at the point, fills the fraction up with zeros and reads both halves as one integer.  A
fraction of other characters than digits therefore gets another meaning than it has in the text.
-/

namespace FooCoin

open Numeral Segments

/-- The code units of a text. -/
abbrev QString := List UInt16

/-- What counts as a blank: digits, signs and the point do not. -/
structure QBlanks where
  /-- `QChar::isSpace`. -/
  isSpace : UInt16 → Bool
  space : isSpace 32 = true
  visible : ∀ c, 48 ≤ c ∧ c ≤ 57 ∨ c = 43 ∨ c = 45 ∨ c = 46 → isSpace c = false

/-- The decimal digits. -/
def qDigits : DigitAlphabet UInt16 10 where
  char digit := UInt16.ofNat (48 + digit)
  digit c := c.toNat - 48
  isDigit c := 48 ≤ c && c ≤ 57
  digit_lt c digit := by
    simp only [UInt16.le_iff_toNat_le, Bool.and_eq_true, decide_eq_true_eq] at digit
    have upper : c.toNat ≤ 57 := digit.2
    omega
  isDigit_char digit small := by
    have number : (UInt16.ofNat (48 + digit)).toNat = 48 + digit := by
      rw [UInt16.toNat_ofNat']
      omega
    simp only [UInt16.le_iff_toNat_le, number, Bool.and_eq_true, decide_eq_true_eq]
    exact ⟨Nat.le_add_right 48 digit, show 48 + digit ≤ 57 by omega⟩
  digit_char digit small := by
    rw [UInt16.toNat_ofNat']
    omega

namespace QString

/-- `QString::number`. -/
def number (n : Int) : QString :=
  (if n < 0 then [45] else []) ++ qDigits.print (1 - (Nat.digits 10 n.natAbs).length) n.natAbs

/-- `QString::rightJustified`. -/
def rightJustified (str : QString) (width : Nat) (fill : UInt16) : QString :=
  List.replicate (width - str.length) fill ++ str

/-- `QString::leftJustified`. -/
def leftJustified (str : QString) (width : Nat) (fill : UInt16) : QString :=
  str ++ List.replicate (width - str.length) fill

/-- `QString::chop`. -/
def chop (str : QString) (n : Nat) : QString := str.take (str.length - n)

/-- `QString::trimmed`. -/
def trimmed (blanks : QBlanks) (str : QString) : QString :=
  ((str.dropWhile blanks.isSpace).reverse.dropWhile blanks.isSpace).reverse

/-- The integer that a text stands for. -/
def integer (blanks : QBlanks) (str : QString) : Option Int :=
  let digits (negative : Bool) (str : QString) : Option Int :=
    if str ≠ [] ∧ str.all qDigits.isDigit then
      some (if negative then -qDigits.number str else qDigits.number str)
    else none
  match str.trimmed blanks with
  | 45 :: str => digits true str
  | 43 :: str => digits false str
  | str => digits false str

/-- `QString::toLongLong`: whether the conversion was successful, and its result. -/
def toLongLong (blanks : QBlanks) (str : QString) : Bool × Int :=
  match str.integer blanks with
  | some value => if int64Min ≤ value ∧ value ≤ int64Max then (true, value) else (false, 0)
  | none => (false, 0)

end QString

/-- `BitcoinUnits::Unit`, and what else an `int` may hold. -/
inductive BitcoinUnit
  | BTC
  | mBTC
  | uBTC
  | invalid (unit : Int)
  deriving DecidableEq

namespace BitcoinUnits

/-- `BitcoinUnits::valid`. -/
def valid : BitcoinUnit → Bool
  | .BTC | .mBTC | .uBTC => true
  | .invalid _ => false

/-- `BitcoinUnits::factor`. -/
def factor : BitcoinUnit → Int
  | .BTC => 100000000
  | .mBTC => 100000
  | .uBTC => 100
  | .invalid _ => 100000000

/-- `BitcoinUnits::decimals`. -/
def decimals : BitcoinUnit → Nat
  | .BTC => 8
  | .mBTC => 5
  | .uBTC => 2
  | .invalid _ => 0

/-- The number of zeros that `format` cuts off the decimals, given from their end. -/
def trimCount : QString → Nat
  | [] => 0
  | c :: str => if 2 ≤ str.length ∧ c = 48 then trimCount str + 1 else 0

/-- `BitcoinUnits::format`. -/
def format (unit : BitcoinUnit) (n : Int) (fPlus : Bool) : Outcome QString := do
  if valid unit then
    let coin := factor unit
    let num_decimals := decimals unit
    let n_abs ← (if 0 < n then .ok n else int64 (-n) : Outcome Int)
    let quotient := n_abs.tdiv coin
    let remainder := n_abs.tmod coin
    let quotient_str := QString.number quotient
    let remainder_str := (QString.number remainder).rightJustified num_decimals 48
    let nTrim := trimCount remainder_str.reverse
    let remainder_str := remainder_str.chop nTrim
    let quotient_str :=
      if n < 0 then 45 :: quotient_str
      else if fPlus ∧ 0 < n then 43 :: quotient_str
      else quotient_str
    .ok (quotient_str ++ [46] ++ remainder_str)
  else .ok []

/-- `BitcoinUnits::parse`: what it returns and the `val_out` it leaves. -/
def parse (blanks : QBlanks) (unit : BitcoinUnit) (value : QString) (val_out : Int) : Bool × Int :=
  if valid unit = false ∨ value = [] then (false, val_out)
  else
    let num_decimals := decimals unit
    let parts := value.splitOn 46
    if 2 < parts.length then (false, val_out)
    else
      let whole := parts.getD 0 []
      let decimals := if 1 < parts.length then parts.getD 1 [] else []
      if num_decimals < decimals.length then (false, val_out)
      else
        let str := whole ++ QString.leftJustified decimals num_decimals 48
        if 18 < str.length then (false, val_out) else QString.toLongLong blanks str

end BitcoinUnits

/-! ## Texts of numbers -/

/-- An optional sign. -/
inductive QSign
  | none
  | plus
  | minus

namespace QSign

/-- The text of a sign. -/
def text : QSign → QString
  | none => []
  | plus => [43]
  | minus => [45]

/-- The factor that a sign stands for. -/
def factor : QSign → Int
  | none | plus => 1
  | minus => -1

end QSign

/-- A text of an integer, and the integer: digits behind an optional sign between blanks. -/
inductive IntegerText (blanks : QBlanks) : QString → Int → Prop
  | intro {before digits after : QString} (sign : QSign) (before_space : before.all blanks.isSpace)
      (nonempty : digits ≠ []) (all_digits : digits.all qDigits.isDigit)
      (after_space : after.all blanks.isSpace) :
      IntegerText blanks (before ++ sign.text ++ digits ++ after)
        (sign.factor * qDigits.number digits)

section Text

variable {blanks : QBlanks} {str digits : QString} {number : Int}

private theorem isDigit_iff {c : UInt16} : qDigits.isDigit c ↔ 48 ≤ c ∧ c ≤ 57 := by
  simp [qDigits]

private theorem not_isSpace_of_isDigit {c : UInt16} (digit : qDigits.isDigit c) :
    blanks.isSpace c = false :=
  blanks.visible c (.inl (isDigit_iff.mp digit))

private theorem not_isDigit_of_isSpace {c : UInt16} (space : blanks.isSpace c) :
    qDigits.isDigit c = false := by
  by_contra digit
  rw [Bool.not_eq_false] at digit
  simp [not_isSpace_of_isDigit digit] at space

private theorem sign_visible (sign : QSign) : ∀ c ∈ sign.text, blanks.isSpace c = false := by
  intro c mem
  cases sign with
  | none => simp [QSign.text] at mem
  | plus => exact blanks.visible c (.inr (.inl (List.mem_singleton.mp mem)))
  | minus => exact blanks.visible c (.inr (.inr (.inl (List.mem_singleton.mp mem))))

private theorem sign_no_digit (sign : QSign) : ∀ c ∈ sign.text, qDigits.isDigit c = false := by
  intro c mem
  cases sign with
  | none => simp [QSign.text] at mem
  | plus => rw [List.mem_singleton.mp mem]; rfl
  | minus => rw [List.mem_singleton.mp mem]; rfl

private theorem digits_visible (all_digits : digits.all qDigits.isDigit) :
    ∀ c ∈ digits, blanks.isSpace c = false :=
  fun c mem => not_isSpace_of_isDigit (List.all_eq_true.mp all_digits c mem)

private theorem core_visible (sign : QSign) (all_digits : digits.all qDigits.isDigit) :
    ∀ c ∈ sign.text ++ digits, blanks.isSpace c = false := by
  intro c mem
  rcases List.mem_append.mp mem with in_sign | in_digits
  · exact sign_visible sign c in_sign
  · exact digits_visible all_digits c in_digits

private theorem trimmed_append {before core after : QString}
    (before_space : before.all blanks.isSpace) (visible : ∀ c ∈ core, blanks.isSpace c = false)
    (after_space : after.all blanks.isSpace) :
    (before ++ core ++ after).trimmed blanks = core :=
  trim before_space after_space (fun c head => visible c (List.mem_of_mem_head? head))
    fun c last => visible c (List.mem_of_mem_getLast? last)

/-- A text is its trimmed text between blanks. -/
private theorem exists_trimmed (blanks : QBlanks) (str : QString) :
    ∃ before after, before.all blanks.isSpace ∧ after.all blanks.isSpace ∧
      str = before ++ str.trimmed blanks ++ after := by
  obtain ⟨before, rest, before_space, first, rfl⟩ := exists_span blanks.isSpace str
  obtain ⟨after, core, after_space, last, parts⟩ := exists_span blanks.isSpace rest.reverse
  have rest_eq : rest = core.reverse ++ after.reverse := by
    rw [← List.reverse_append, ← parts, List.reverse_reverse]
  subst rest_eq
  have cut : QString.trimmed blanks (before ++ core.reverse ++ after.reverse) = core.reverse := by
    refine trim before_space (by rwa [List.all_reverse]) (fun c head => first c ?_)
      (by rwa [List.getLast?_reverse])
    rw [Option.mem_def] at head ⊢
    rw [List.head?_append, head]
    rfl
  refine ⟨before, after.reverse, before_space, by rwa [List.all_reverse], ?_⟩
  rw [← List.append_assoc, cut]

/-- `toLongLong` reads the texts of integers. -/
private theorem integer_eq_some :
    str.integer blanks = some number ↔ IntegerText blanks str number := by
  constructor
  · intro read
    obtain ⟨before, after, before_space, after_space, parts⟩ := exists_trimmed blanks str
    rw [parts]
    have text (sign : QSign) (digits : QString) (trimmed : str.trimmed blanks = sign.text ++ digits)
        (value : (if digits ≠ [] ∧ digits.all qDigits.isDigit then
          some (sign.factor * (qDigits.number digits : Int)) else none) = some number) :
        IntegerText blanks (before ++ str.trimmed blanks ++ after) number := by
      split at value
      next good =>
        rw [trimmed, ← List.append_assoc, ← Option.some.inj value]
        exact .intro sign before_space good.1 good.2 after_space
      next => simp at value
    rw [QString.integer] at read
    dsimp only at read
    split at read
    next digits trimmed => exact text .minus digits trimmed (by simpa [QSign.factor] using read)
    next digits trimmed => exact text .plus digits trimmed (by simpa [QSign.factor] using read)
    next => exact text .none (str.trimmed blanks) rfl (by simpa [QSign.factor] using read)
  · rintro ⟨sign, before_space, nonempty, all_digits, after_space⟩
    have cut := trimmed_append before_space (core_visible sign all_digits) after_space
    rw [← List.append_assoc] at cut
    rw [QString.integer, cut]
    cases sign with
    | plus => simp [QSign.text, QSign.factor, nonempty, all_digits]
    | minus => simp [QSign.text, QSign.factor, nonempty, all_digits]
    | none =>
        obtain ⟨c, digits, rfl⟩ := List.exists_cons_of_ne_nil nonempty
        have digit : qDigits.isDigit c := by simp_all
        have no_minus : c ≠ 45 := fun minus => by simp [minus, qDigits] at digit
        have no_plus : c ≠ 43 := fun plus => by simp [plus, qDigits] at digit
        dsimp only [QSign.text, List.nil_append]
        split
        · simp_all
        · simp_all
        · rw [if_pos ⟨nonempty, all_digits⟩]
          simp [QSign.factor]

/-- A blank stands in front of an integer or behind it. -/
private theorem blank_sides {left right : QString} {c : UInt16}
    (text : IntegerText blanks (left ++ c :: right) number) (space : blanks.isSpace c) :
    left.all blanks.isSpace ∨ right.all blanks.isSpace := by
  generalize same : left ++ c :: right = str at text
  obtain ⟨sign, before_space, -, all_digits, after_space⟩ := text
  rw [List.append_assoc _ sign.text] at same
  exact all_or_all before_space (core_visible sign all_digits) after_space space same.symm

private theorem integer_bound (text : IntegerText blanks str number) (short : str.length ≤ 18) :
    int64Min ≤ number ∧ number ≤ int64Max := by
  obtain @⟨before, digits, after, sign, -, -, all_digits, -⟩ := text
  have fits : digits.length ≤ 18 := by
    simp only [List.length_append] at short
    omega
  have below : qDigits.number digits < 10 ^ 18 :=
    (qDigits.number_lt (by norm_num) all_digits).trans_le (Nat.pow_le_pow_right (by norm_num) fits)
  simp only [int64Min, int64Max]
  cases sign <;> simp only [QSign.factor] <;> omega

end Text

namespace BitcoinUnits

/-- A text, and its halves in front of and behind the point. -/
inductive Halves : QString → QString → QString → Prop
  | whole {value : QString} (no_point : 46 ∉ value) : Halves value value []
  | point {whole fraction : QString} (whole_no_point : 46 ∉ whole)
      (fraction_no_point : 46 ∉ fraction) : Halves (whole ++ 46 :: fraction) whole fraction

/-- The digits that `parse` reads as one integer. -/
def joined (unit : BitcoinUnit) (whole fraction : QString) : QString :=
  whole ++ fraction.leftJustified (decimals unit) 48

/-- A text passes the checks of `parse`, and its joined halves are the text of an integer. -/
structure Accepted (blanks : QBlanks) (unit : BitcoinUnit) (value whole fraction : QString)
    (number : Int) : Prop where
  valid_unit : valid unit
  nonempty : value ≠ []
  halves : Halves value whole fraction
  precision : fraction.length ≤ decimals unit
  short : (joined unit whole fraction).length ≤ 18
  text : IntegerText blanks (joined unit whole fraction) number

/-- A text of an amount, with at least some digits in front of the point, and the amount. -/
inductive AmountText (blanks : QBlanks) (unit : BitcoinUnit) (fewest : Nat) : QString → ℚ → Prop
  | whole {before whole after : QString} (sign : QSign) (before_space : before.all blanks.isSpace)
      (whole_digits : whole.all qDigits.isDigit) (enough : fewest ≤ whole.length)
      (after_space : after.all blanks.isSpace) :
      AmountText blanks unit fewest (before ++ sign.text ++ whole ++ after)
        (sign.factor * qDigits.number whole)
  | point {before whole fraction after : QString} (sign : QSign)
      (before_space : before.all blanks.isSpace) (whole_digits : whole.all qDigits.isDigit)
      (enough : fewest ≤ whole.length) (fraction_digits : fraction.all qDigits.isDigit)
      (precision : fraction.length ≤ decimals unit) (after_space : after.all blanks.isSpace) :
      AmountText blanks unit fewest (before ++ sign.text ++ whole ++ 46 :: (fraction ++ after))
        (sign.factor *
          (qDigits.number whole + qDigits.number fraction / 10 ^ fraction.length))

/-- Whatever `parse` reads in a text is the amount of the text. -/
def ReadsExactly (blanks : QBlanks) (unit : BitcoinUnit) (fewest : Nat) (value : QString) : Prop :=
  ∀ val_out read : Int, parse blanks unit value val_out = (true, read) →
    ∃ number, AmountText blanks unit fewest value number ∧ (read : ℚ) = number * factor unit

/-- Both halves show zeros only, and blanks stand on the outside. -/
def ZeroHalves (blanks : QBlanks) (whole fraction : QString) : Prop :=
  ∃ (before after : QString) (sign : QSign) (zeros more : Nat),
    before.all blanks.isSpace ∧ after.all blanks.isSpace ∧
      whole = before ++ sign.text ++ List.replicate zeros 48 ∧
        fraction = List.replicate more 48 ++ after

/-- A text is accepted though its fraction is not one of digits, or its whole part has too few. -/
def Misread (blanks : QBlanks) (unit : BitcoinUnit) (fewest : Nat) (value : QString) : Prop :=
  ∃ whole fraction number, Accepted blanks unit value whole fraction number ∧
    (fraction.all qDigits.isDigit = false ∧ ¬ZeroHalves blanks whole fraction ∨
      whole.countP qDigits.isDigit < fewest)

section Parse

variable {blanks : QBlanks} {unit : BitcoinUnit} {fewest : Nat} {value whole fraction : QString}
  {number read val_out : Int}

private theorem splitOn_point {whole : QString} (fraction : QString) (no_point : 46 ∉ whole) :
    (whole ++ 46 :: fraction).splitOn 46 = whole :: fraction.splitOn 46 := by
  rw [List.splitOn_append_cons_self, List.splitOn_eq_singleton no_point, List.singleton_append]

private theorem splitOn_halves (halves : Halves value whole fraction) :
    (46 ∉ value ∧ value = whole ∧ fraction = [] ∧ value.splitOn 46 = [whole]) ∨
      (46 ∈ value ∧ value.splitOn 46 = [whole, fraction]) := by
  cases halves with
  | whole no_point => exact .inl ⟨no_point, rfl, rfl, List.splitOn_eq_singleton no_point⟩
  | point whole_no_point fraction_no_point =>
      right
      rw [splitOn_point fraction whole_no_point, List.splitOn_eq_singleton fraction_no_point]
      exact ⟨by simp, rfl⟩

/-- A text has halves unless it has more than one point. -/
private theorem halves_or_long (value : QString) :
    (∃ whole fraction, Halves value whole fraction) ∨ 2 < (value.splitOn 46).length := by
  by_cases point : 46 ∈ value
  · obtain ⟨whole, rest, rfl, no_point⟩ := List.eq_append_cons_of_mem point
    by_cases second : 46 ∈ rest
    · right
      obtain ⟨middle, rest, rfl, no_second⟩ := List.eq_append_cons_of_mem second
      have nonempty := List.length_pos_of_ne_nil (List.splitOn_ne_nil 46 rest)
      rw [splitOn_point _ no_point, splitOn_point rest no_second]
      simp only [List.length_cons]
      omega
    · exact .inl ⟨whole, rest, .point no_point second⟩
  · exact .inl ⟨value, [], .whole point⟩

private theorem toLongLong_eq_true {str : QString} (short : str.length ≤ 18) :
    str.toLongLong blanks = (true, read) ↔ IntegerText blanks str read := by
  rw [QString.toLongLong]
  constructor
  · intro converted
    split at converted
    next number exact_value =>
      split at converted
      next => exact integer_eq_some.mp (by simp_all)
      next => simp at converted
    next => simp at converted
  · intro text
    rw [integer_eq_some.mpr text]
    exact if_pos (integer_bound text short)

/-- `parse` reads the accepted texts. -/
private theorem parse_eq_true :
    parse blanks unit value val_out = (true, read) ↔
      ∃ whole fraction, Accepted blanks unit value whole fraction read := by
  by_cases refused : valid unit = false ∨ value = []
  · rw [parse, if_pos refused]
    refine ⟨fun returned => by simp at returned, fun ⟨_, _, accepted⟩ => ?_⟩
    rcases refused with invalid | empty
    · simp [accepted.valid_unit] at invalid
    · exact absurd empty accepted.nonempty
  obtain ⟨valid_unit, nonempty⟩ := not_or.mp refused
  rw [parse, if_neg refused]
  obtain ⟨whole, fraction, halves⟩ | long := halves_or_long value
  · have only {first last : QString} (other : Halves value first last) :
        first = whole ∧ last = fraction := by
      have split := splitOn_halves halves
      have split_other := splitOn_halves other
      grind
    have parts : ¬2 < (value.splitOn 46).length ∧ (value.splitOn 46).getD 0 [] = whole ∧
        (if 1 < (value.splitOn 46).length then (value.splitOn 46).getD 1 [] else []) =
          fraction := by
      obtain ⟨-, -, no_fraction, split⟩ | ⟨-, split⟩ := splitOn_halves halves <;>
        simp [*]
    dsimp only
    rw [if_neg parts.1, parts.2.1, parts.2.2]
    by_cases precision : decimals unit < fraction.length
    · rw [if_pos precision]
      refine ⟨fun returned => by simp at returned, fun ⟨_, _, accepted⟩ => ?_⟩
      obtain ⟨rfl, rfl⟩ := only accepted.halves
      exact absurd accepted.precision (not_le.mpr precision)
    rw [if_neg precision]
    by_cases long : 18 < (joined unit whole fraction).length
    · rw [joined] at long
      rw [if_pos long]
      refine ⟨fun returned => by simp at returned, fun ⟨_, _, accepted⟩ => ?_⟩
      obtain ⟨rfl, rfl⟩ := only accepted.halves
      exact absurd accepted.short (not_le.mpr long)
    · have short := not_lt.mp long
      rw [joined] at long
      rw [if_neg long, ← joined, toLongLong_eq_true short]
      constructor
      · intro text
        exact ⟨whole, fraction, by simpa using valid_unit, nonempty, halves,
          not_lt.mp precision, short, text⟩
      · rintro ⟨first, last, accepted⟩
        obtain ⟨rfl, rfl⟩ := only accepted.halves
        exact accepted.text
  · dsimp only
    rw [if_pos long]
    refine ⟨fun returned => by simp at returned, fun ⟨_, _, accepted⟩ => ?_⟩
    obtain ⟨-, -, -, split⟩ | ⟨-, split⟩ := splitOn_halves accepted.halves <;> simp [split] at long

/-! ## What is read -/

private theorem factor_eq (valid_unit : valid unit) : (factor unit : ℚ) = 10 ^ decimals unit := by
  cases unit with
  | invalid => simp [valid] at valid_unit
  | BTC | mBTC | uBTC => norm_num [factor, decimals]

private theorem decimals_pos (valid_unit : valid unit) : 0 < decimals unit := by
  cases unit with
  | invalid => simp [valid] at valid_unit
  | BTC | mBTC | uBTC => decide

private theorem front_no_digit {before : QString} (sign : QSign)
    (before_space : before.all blanks.isSpace) :
    ∀ c ∈ before ++ sign.text, qDigits.isDigit c = false := by
  intro c mem
  rcases List.mem_append.mp mem with blank | in_sign
  · exact not_isDigit_of_isSpace (List.all_eq_true.mp before_space c blank)
  · exact sign_no_digit sign c in_sign

private theorem countP_whole {before digits : QString} (sign : QSign)
    (before_space : before.all blanks.isSpace) (all_digits : digits.all qDigits.isDigit) :
    (before ++ sign.text ++ digits).countP qDigits.isDigit = digits.length := by
  have front : (before ++ sign.text).countP qDigits.isDigit = 0 :=
    List.countP_eq_zero.mpr fun c mem => by simp [front_no_digit sign before_space c mem]
  rw [List.countP_append, front, zero_add,
    List.countP_eq_length.mpr (List.all_eq_true.mp all_digits)]

private theorem digits_replicate (zeros : Nat) :
    (List.replicate zeros (48 : UInt16)).all qDigits.isDigit := by
  simp [List.all_replicate, qDigits]

private theorem number_replicate_zero (zeros : Nat) :
    qDigits.number (List.replicate zeros 48) = 0 :=
  qDigits.number_replicate rfl zeros

/-- Digits behind the point are digits of the integer that is read. -/
private theorem exists_whole_of_digits (accepted : Accepted blanks unit value whole fraction number)
    (fraction_digits : fraction.all qDigits.isDigit) :
    ∃ (before digits : QString) (sign : QSign), before.all blanks.isSpace ∧
      digits.all qDigits.isDigit ∧ whole = before ++ sign.text ++ digits ∧
        number = sign.factor * (qDigits.number digits * 10 ^ decimals unit +
          qDigits.number fraction * 10 ^ (decimals unit - fraction.length)) := by
  have text := accepted.text
  generalize same : joined unit whole fraction = str at text
  obtain @⟨before, digits, after, sign, before_space, -, all_digits, after_space⟩ := text
  have filled : (fraction.leftJustified (decimals unit) 48).length = decimals unit := by
    rw [QString.leftJustified, List.length_append, List.length_replicate,
      Nat.add_sub_cancel' accepted.precision]
  have filled_digits : (fraction.leftJustified (decimals unit) 48).all qDigits.isDigit := by
    rw [QString.leftJustified, List.all_append, fraction_digits, digits_replicate]
    rfl
  have filled_nonempty : fraction.leftJustified (decimals unit) 48 ≠ [] := by
    intro empty
    have none_left := decimals_pos accepted.valid_unit
    rw [← filled, empty] at none_left
    simp at none_left
  obtain rfl :=
    nil_of_append_eq after_space (digits_visible filled_digits) filled_nonempty same.symm
  rw [List.append_nil] at same
  obtain ⟨kept, rfl, whole_eq⟩ :=
    exists_of_append_eq (front_no_digit sign before_space) filled_digits same.symm
  rw [List.all_append, Bool.and_eq_true] at all_digits
  refine ⟨before, kept, sign, before_space, all_digits.1, whole_eq, ?_⟩
  rw [DigitAlphabet.number_append, filled, QString.leftJustified, DigitAlphabet.number_append,
    List.length_replicate, number_replicate_zero]
  push_cast
  ring

/-- Halves that show zeros only are read as zero. -/
private theorem number_of_zeroHalves (accepted : Accepted blanks unit value whole fraction number)
    (zero : ZeroHalves blanks whole fraction) : number = 0 := by
  obtain ⟨before, after, sign, zeros, more, before_space, after_space, rfl, rfl⟩ := zero
  have text := accepted.text
  have only_zero : ∀ c ∈ joined unit (before ++ sign.text ++ List.replicate zeros 48)
      (List.replicate more 48 ++ after), qDigits.isDigit c → qDigits.digit c = 0 := by
    intro c mem digit
    simp only [joined, QString.leftJustified, List.mem_append, List.mem_replicate] at mem
    obtain ((in_before | in_sign) | ⟨-, rfl⟩) | (⟨-, rfl⟩ | in_after) | ⟨-, rfl⟩ := mem
    · simp [not_isDigit_of_isSpace (List.all_eq_true.mp before_space c in_before)] at digit
    · simp [sign_no_digit sign c in_sign] at digit
    · rfl
    · rfl
    · simp [not_isDigit_of_isSpace (List.all_eq_true.mp after_space c in_after)] at digit
    · rfl
  generalize joined unit (before ++ sign.text ++ List.replicate zeros 48)
    (List.replicate more 48 ++ after) = str at text only_zero
  obtain @⟨_, digits, _, sign, -, -, all_digits, -⟩ := text
  have zero_digits : qDigits.number digits = 0 :=
    (qDigits.number_eq_zero (by norm_num)).mpr fun c mem =>
      only_zero c (by simp [mem]) (List.all_eq_true.mp all_digits c mem)
  rw [zero_digits, Nat.cast_zero, mul_zero]

private theorem readsExactly_of_not_misread (right : ¬Misread blanks unit fewest value) :
    ReadsExactly blanks unit fewest value := by
  intro val_out read returned
  obtain ⟨whole, fraction, accepted⟩ := parse_eq_true.mp returned
  have enough : fewest ≤ whole.countP qDigits.isDigit := by
    by_contra few
    exact right ⟨whole, fraction, read, accepted, .inr (not_le.mp few)⟩
  have scale := factor_eq accepted.valid_unit
  have precision := accepted.precision
  by_cases fraction_digits : fraction.all qDigits.isDigit
  · obtain ⟨before, digits, sign, before_space, all_digits, rfl, rfl⟩ :=
      exists_whole_of_digits accepted fraction_digits
    rw [countP_whole sign before_space all_digits] at enough
    obtain ⟨rfl, rfl⟩ | ⟨rfl⟩ : value = before ++ sign.text ++ digits ∧ fraction = [] ∨
        value = before ++ sign.text ++ digits ++ 46 :: fraction := by
      cases accepted.halves <;> simp
    · have text : AmountText blanks unit fewest (before ++ sign.text ++ digits ++ []) _ :=
        .whole sign before_space all_digits enough rfl
      rw [List.append_nil] at text
      refine ⟨_, text, ?_⟩
      rw [scale]
      push_cast
      simp
      ring
    · have text : AmountText blanks unit fewest
          (before ++ sign.text ++ digits ++ 46 :: (fraction ++ [])) _ :=
        .point sign before_space all_digits enough fraction_digits precision rfl
      rw [List.append_nil] at text
      refine ⟨_, text, ?_⟩
      have split : (10 : ℚ) ^ decimals unit =
          10 ^ fraction.length * 10 ^ (decimals unit - fraction.length) := by
        rw [← pow_add, Nat.add_sub_cancel' precision]
      have nonzero : (10 : ℚ) ^ fraction.length ≠ 0 := by positivity
      rw [scale, split]
      push_cast
      rw [split]
      field_simp
  · have zero : ZeroHalves blanks whole fraction := by
      by_contra other
      exact right ⟨whole, fraction, read, accepted, .inl ⟨by simpa using fraction_digits, other⟩⟩
    obtain rfl := number_of_zeroHalves accepted zero
    have value_eq : value = whole ++ 46 :: fraction := by
      cases accepted.halves with
      | whole => simp at fraction_digits
      | point => rfl
    obtain ⟨before, after, sign, zeros, more, before_space, after_space, rfl, rfl⟩ := zero
    rw [countP_whole sign before_space (digits_replicate zeros)] at enough
    subst value_eq
    have fits : (List.replicate more (48 : UInt16)).length ≤ decimals unit := by
      rw [List.length_append] at precision
      omega
    refine ⟨_, .point sign before_space (digits_replicate zeros) enough (digits_replicate more)
      fits after_space, ?_⟩
    simp [number_replicate_zero]

private theorem eq_replicate_of_number_eq_zero {digits : QString}
    (all_digits : digits.all qDigits.isDigit) (zero : qDigits.number digits = 0) :
    digits = List.replicate digits.length 48 := by
  refine List.eq_replicate_iff.mpr ⟨rfl, fun c mem => ?_⟩
  have digit := isDigit_iff.mp (List.all_eq_true.mp all_digits c mem)
  have number_zero : c.toNat - 48 = 0 := (qDigits.number_eq_zero (by norm_num)).mp zero c mem
  rw [UInt16.le_iff_toNat_le] at digit
  refine UInt16.toNat_inj.mp ?_
  have lower : 48 ≤ c.toNat := digit.1
  exact show c.toNat = 48 by omega

/-- Blanks behind the fraction are read as decimals, so only zeros keep their value. -/
private theorem zeroHalves_of_blanks {before digits more after : QString} (sign : QSign)
    (accepted : Accepted blanks unit value (before ++ sign.text ++ digits) (more ++ after) number)
    (before_space : before.all blanks.isSpace) (all_digits : digits.all qDigits.isDigit)
    (more_digits : more.all qDigits.isDigit) (after_space : after.all blanks.isSpace)
    (nonempty : after ≠ [])
    (same : (number : ℚ) = sign.factor *
      (qDigits.number digits + qDigits.number more / 10 ^ more.length) * factor unit) :
    ZeroHalves blanks (before ++ sign.text ++ digits) (more ++ after) := by
  suffices zero : digits = List.replicate digits.length 48 ∧
      more = List.replicate more.length 48 from
    ⟨before, after, sign, digits.length, more.length, before_space, after_space,
      by rw [← zero.1], by rw [← zero.2]⟩
  have empty {text : QString} (text_digits : text.all qDigits.isDigit)
      (blank : text.all blanks.isSpace) : text = [] := by
    refine List.eq_nil_iff_forall_not_mem.mpr fun c mem => ?_
    have visible : blanks.isSpace c = false := digits_visible text_digits c mem
    simp [List.all_eq_true.mp blank c mem] at visible
  have text := accepted.text
  obtain ⟨c, after, rfl⟩ := List.exists_cons_of_ne_nil nonempty
  have blank : blanks.isSpace c = true := by simp_all
  have joined_eq : joined unit (before ++ sign.text ++ digits) (more ++ c :: after) =
      (before ++ sign.text ++ digits ++ more) ++ c :: (after ++
        List.replicate (decimals unit - (more ++ c :: after).length) 48) := by
    simp [joined, QString.leftJustified]
  rw [joined_eq] at text
  rcases blank_sides text blank with left | right
  · simp only [List.all_append, Bool.and_eq_true] at left
    rw [empty all_digits left.1.2, empty more_digits left.2]
    exact ⟨rfl, rfl⟩
  · -- No zeros are filled in behind a blank, so the integer ends with the fraction's digits.
    rw [List.all_append, Bool.and_eq_true] at right
    have no_fill := empty (digits_replicate _) right.2
    have full : more.length + (after.length + 1) = decimals unit := by
      have precision := accepted.precision
      have missing := congrArg List.length no_fill
      simp only [List.length_append, List.length_cons, List.length_replicate,
        List.length_nil] at precision missing
      omega
    by_cases none_read : digits ++ more = []
    · rw [List.append_eq_nil_iff] at none_read
      rw [none_read.1, none_read.2]
      exact ⟨rfl, rfl⟩
    have both_digits : (digits ++ more).all qDigits.isDigit := by
      rw [List.all_append, all_digits, more_digits]
      rfl
    have direct := IntegerText.intro sign before_space none_read both_digits after_space
    rw [no_fill, List.append_nil, List.append_assoc _ digits] at text
    have read : number = sign.factor * qDigits.number (digits ++ more) :=
      Option.some.inj ((integer_eq_some.mpr text).symm.trans (integer_eq_some.mpr direct))
    have scaled : (qDigits.number (digits ++ more) : ℚ) =
        qDigits.number (digits ++ more) * 10 ^ (after.length + 1) := by
      have sign_nonzero : (sign.factor : ℚ) ≠ 0 := by cases sign <;> norm_num [QSign.factor]
      have power_nonzero : (10 : ℚ) ^ more.length ≠ 0 := by positivity
      rw [read, factor_eq accepted.valid_unit, ← full, pow_add] at same
      refine mul_left_cancel₀ sign_nonzero ?_
      push_cast at same
      rw [same, DigitAlphabet.number_append]
      push_cast
      field_simp
    have zero : qDigits.number (digits ++ more) = 0 := by
      have grows : qDigits.number (digits ++ more) =
          qDigits.number (digits ++ more) * 10 ^ (after.length + 1) := by
        exact_mod_cast scaled
      have large : 10 ≤ 10 ^ (after.length + 1) := Nat.le_self_pow (by omega) 10
      nlinarith
    have parts := eq_replicate_of_number_eq_zero both_digits zero
    rw [List.length_append, List.replicate_add] at parts
    exact List.append_inj parts (by simp)

private theorem not_misread_of_readsExactly
    (exact_reading : ReadsExactly blanks unit fewest value) : ¬Misread blanks unit fewest value := by
  rintro ⟨whole, fraction, read, accepted, bad⟩
  obtain ⟨number, text, same⟩ := exact_reading 0 read (parse_eq_true.mpr ⟨_, _, accepted⟩)
  have no_point {text : QString} {test : UInt16 → Bool} (all : text.all test)
      (fails : test 46 = false) : 46 ∉ text := not_mem_of_all all fails
  have sign_no_point (sign : QSign) : 46 ∉ sign.text := by cases sign <;> decide
  have blank_point : blanks.isSpace 46 = false := blanks.visible 46 (by decide)
  cases text with
  | @whole before digits after sign before_space whole_digits enough after_space =>
      have pointless : 46 ∉ before ++ sign.text ++ digits ++ after := by
        simp only [List.mem_append, not_or]
        exact ⟨⟨⟨no_point before_space blank_point, sign_no_point sign⟩,
          no_point whole_digits rfl⟩, no_point after_space blank_point⟩
      obtain ⟨-, rfl, rfl, -⟩ | ⟨point, -⟩ := splitOn_halves accepted.halves
      · rcases bad with ⟨no_digit, -⟩ | few
        · simp at no_digit
        · rw [List.countP_append, countP_whole sign before_space whole_digits] at few
          omega
      · exact pointless point
  | @point before digits more after sign before_space whole_digits enough fraction_digits precision
      after_space =>
      have whole_pointless : 46 ∉ before ++ sign.text ++ digits := by
        simp only [List.mem_append, not_or]
        exact ⟨⟨no_point before_space blank_point, sign_no_point sign⟩, no_point whole_digits rfl⟩
      have fraction_pointless : 46 ∉ more ++ after := by
        simp only [List.mem_append, not_or]
        exact ⟨no_point fraction_digits rfl, no_point after_space blank_point⟩
      obtain ⟨pointless, -⟩ | ⟨-, split⟩ := splitOn_halves accepted.halves
      · simp at pointless
      · rw [splitOn_point _ whole_pointless, List.splitOn_eq_singleton fraction_pointless,
          List.cons_eq_cons, List.cons_eq_cons] at split
        obtain ⟨rfl, rfl, -⟩ := split
        rcases bad with ⟨no_digit, nonzero⟩ | few
        · refine nonzero (zeroHalves_of_blanks sign accepted before_space whole_digits
            fraction_digits after_space ?_ same)
          rintro rfl
          rw [List.append_nil, fraction_digits] at no_digit
          simp at no_digit
        · rw [countP_whole sign before_space whole_digits] at few
          omega

end Parse

/-! ## What is written -/

section Format

variable {unit : BitcoinUnit} {n : Int}

private theorem exists_trim (str : QString) :
    ∃ kept, str = List.replicate (trimCount str) 48 ++ kept := by
  induction str with
  | nil => exact ⟨[], rfl⟩
  | cons c str induction =>
      rw [trimCount]
      split
      next zero =>
        obtain ⟨kept, split⟩ := induction
        obtain rfl := zero.2
        exact ⟨kept, by rw [List.replicate_succ, List.cons_append, ← split]⟩
      next => exact ⟨c :: str, rfl⟩

/-- What is left of the decimals, and the zeros that were cut off. -/
private theorem exists_chop (str : QString) :
    ∃ zeros, str = str.chop (trimCount str.reverse) ++ List.replicate zeros 48 := by
  obtain ⟨kept, split⟩ := exists_trim str.reverse
  have parts : str = kept.reverse ++ List.replicate (trimCount str.reverse) 48 := by
    have back := congrArg List.reverse split
    rwa [List.reverse_reverse, List.reverse_append, List.reverse_replicate] at back
  refine ⟨trimCount str.reverse, ?_⟩
  generalize trimCount str.reverse = zeros at *
  rw [QString.chop]
  conv_rhs => rw [parts]
  rw [List.length_append, List.length_replicate, Nat.add_sub_cancel, List.take_left]
  exact parts

private theorem number_of_nonneg (nonneg : 0 ≤ n) :
    QString.number n = qDigits.print (1 - (Nat.digits 10 n.natAbs).length) n.natAbs := by
  simp [QString.number, not_lt.mpr nonneg]

private theorem number_digits (nonneg : 0 ≤ n) :
    (QString.number n).all qDigits.isDigit ∧ (qDigits.number (QString.number n) : Int) = n := by
  rw [number_of_nonneg nonneg, DigitAlphabet.number_print _ (by norm_num)]
  exact ⟨qDigits.isDigit_print (by norm_num) _ _, Int.natAbs_of_nonneg nonneg⟩

private theorem number_length {places : Nat} (nonneg : 0 ≤ n) (below : n < 10 ^ places)
    (some_place : 0 < places) : (QString.number n).length ≤ places := by
  rw [number_of_nonneg nonneg, DigitAlphabet.print, List.length_map, length_numeral]
  refine max_le some_place ((Nat.digits_length_le_iff (by norm_num) _).mpr ?_)
  zify
  rwa [abs_of_nonneg nonneg]

/-- The sign that is written in front of an amount. -/
private def writtenSign (n : Int) (fPlus : Bool) : QSign :=
  if n < 0 then .minus else if fPlus ∧ 0 < n then .plus else .none

private theorem writtenSign_factor (n : Int) (fPlus : Bool) :
    (writtenSign n fPlus).factor * |n| = n := by
  rw [writtenSign]
  split
  next negative => rw [abs_of_neg negative, QSign.factor, neg_one_mul, neg_neg]
  next nonneg =>
    rw [abs_of_nonneg (not_lt.mp nonneg)]
    split <;> rw [QSign.factor, one_mul]

private theorem format_eq {kept : QString} (valid_unit : valid unit) (small : |n| < 10 ^ 17)
    (fPlus : Bool) (chopped : ((QString.number (|n|.tmod (factor unit))).rightJustified
      (decimals unit) 48).chop (trimCount ((QString.number (|n|.tmod (factor unit))).rightJustified
        (decimals unit) 48).reverse) = kept) :
    format unit n fPlus = .ok ((writtenSign n fPlus).text ++
      QString.number (|n|.tdiv (factor unit)) ++ 46 :: kept) := by
  have absolute : (if 0 < n then Except.ok n else int64 (-n)) = (.ok |n| : Outcome Int) := by
    split
    next positive => rw [abs_of_pos positive]
    next negative =>
      rw [abs_of_nonpos (not_lt.mp negative)] at small ⊢
      refine int64_of_mem ?_ ?_ <;> simp only [int64Min, int64Max] <;> omega
  rw [format, if_pos valid_unit]
  dsimp only
  rw [absolute, except_ok_bind, chopped, writtenSign]
  split
  · simp [QSign.text]
  · split <;> simp [QSign.text]

/-- What `format` writes is accepted as the amount. -/
private theorem exists_format (blanks : QBlanks) (valid_unit : valid unit) (small : |n| < 10 ^ 17)
    (fPlus : Bool) : ∃ str whole fraction,
      format unit n fPlus = .ok str ∧ Accepted blanks unit str whole fraction n := by
  have scale : factor unit = 10 ^ decimals unit ∧ decimals unit < 17 := by
    cases unit with
    | invalid => simp [valid] at valid_unit
    | BTC | mBTC | uBTC => decide
  have factor_pos : 0 < factor unit := by
    rw [scale.1]
    positivity
  have quotient_nonneg : 0 ≤ |n|.tdiv (factor unit) := Int.tdiv_nonneg (abs_nonneg n) factor_pos.le
  have remainder_nonneg : 0 ≤ |n|.tmod (factor unit) := Int.tmod_nonneg _ (abs_nonneg n)
  have quotient_lt : |n|.tdiv (factor unit) < 10 ^ (17 - decimals unit) := by
    rw [Int.tdiv_eq_ediv_of_nonneg (abs_nonneg n)]
    refine Int.ediv_lt_of_lt_mul factor_pos ?_
    rwa [scale.1, ← pow_add, Nat.sub_add_cancel scale.2.le]
  have remainder_lt : |n|.tmod (factor unit) < 10 ^ decimals unit := by
    rw [← scale.1, Int.tmod_eq_emod_of_nonneg (abs_nonneg n)]
    exact Int.emod_lt_of_pos _ factor_pos
  have total := Int.tdiv_mul_add_tmod |n| (factor unit)
  obtain ⟨quotient_digits, quotient_value⟩ := number_digits quotient_nonneg
  obtain ⟨remainder_digits, remainder_value⟩ := number_digits remainder_nonneg
  have quotient_length := number_length quotient_nonneg quotient_lt (by omega)
  have remainder_length := number_length remainder_nonneg remainder_lt (decimals_pos valid_unit)
  obtain ⟨zeros, filled⟩ := exists_chop
    ((QString.number (|n|.tmod (factor unit))).rightJustified (decimals unit) 48)
  generalize chopped : QString.chop _ _ = kept at filled
  have written := format_eq valid_unit small fPlus chopped
  generalize QString.number (|n|.tdiv (factor unit)) = quotient at *
  generalize QString.number (|n|.tmod (factor unit)) = remainder at *
  generalize sign_eq : writtenSign n fPlus = sign at *
  have decimals_length : (remainder.rightJustified (decimals unit) 48).length = decimals unit := by
    rw [QString.rightJustified, List.length_append, List.length_replicate,
      Nat.sub_add_cancel remainder_length]
  have decimals_digits : (remainder.rightJustified (decimals unit) 48).all qDigits.isDigit := by
    rw [QString.rightJustified, List.all_append, digits_replicate, remainder_digits]
    rfl
  have decimals_value : qDigits.number (remainder.rightJustified (decimals unit) 48) =
      qDigits.number remainder := by
    rw [QString.rightJustified, DigitAlphabet.number_append, number_replicate_zero, zero_mul, zero_add]
  generalize remainder.rightJustified (decimals unit) 48 = justified at *
  subst filled
  rw [List.length_append, List.length_replicate] at decimals_length
  have fill : QString.leftJustified kept (decimals unit) 48 = kept ++ List.replicate zeros 48 := by
    rw [QString.leftJustified, ← decimals_length, Nat.add_sub_cancel_left]
  have joined_eq : joined unit (sign.text ++ quotient) kept =
      [] ++ sign.text ++ (quotient ++ (kept ++ List.replicate zeros 48)) ++ [] := by
    rw [joined, fill]
    simp
  have sign_short : sign.text.length ≤ 1 := by cases sign <;> decide
  have sign_no_point : 46 ∉ sign.text := by cases sign <;> decide
  have kept_digits : List.all kept qDigits.isDigit := by
    rw [List.all_append, Bool.and_eq_true] at decimals_digits
    exact decimals_digits.1
  have text : IntegerText blanks (joined unit (sign.text ++ quotient) kept) n := by
    have value_eq : sign.factor *
        (qDigits.number (quotient ++ (kept ++ List.replicate zeros 48)) : Int) = n := by
      rw [DigitAlphabet.number_append, decimals_value, List.length_append, List.length_replicate,
        decimals_length]
      push_cast
      rw [quotient_value, remainder_value, ← scale.1, total, ← sign_eq, writtenSign_factor]
    have nonempty : quotient ++ (kept ++ List.replicate zeros 48) ≠ [] := by
      intro empty
      have none_left := congrArg List.length empty
      have positive := decimals_pos valid_unit
      simp only [List.length_append, List.length_replicate, List.length_nil] at none_left
      omega
    rw [joined_eq]
    conv => rhs; rw [← value_eq]
    refine .intro sign rfl nonempty ?_ rfl
    rw [List.all_append, quotient_digits, decimals_digits]
    rfl
  refine ⟨_, sign.text ++ quotient, kept, written, valid_unit, by simp, .point ?_ ?_, by omega,
    ?_, text⟩
  · simp only [List.mem_append, not_or]
    exact ⟨sign_no_point, not_mem_of_all quotient_digits rfl⟩
  · exact not_mem_of_all kept_digits rfl
  · rw [joined_eq]
    simp only [List.length_append, List.length_replicate, List.length_nil]
    omega

end Format

/-- What `format` writes is read back; the texts that `parse` reads as other amounts are the
misread ones. -/
theorem parse_format_and_exact (blanks : QBlanks) (unit : BitcoinUnit) :
    (∀ (n val_out : Int) (fPlus : Bool), valid unit → |n| < 10 ^ 17 →
      ∃ str, format unit n fPlus = .ok str ∧ parse blanks unit str val_out = (true, n)) ∧
    ∀ (fewest : Nat) (value : QString),
      ReadsExactly blanks unit fewest value ↔ ¬Misread blanks unit fewest value := by
  refine ⟨fun n val_out fPlus valid_unit small => ?_, fun fewest value =>
    ⟨not_misread_of_readsExactly, readsExactly_of_not_misread⟩⟩
  obtain ⟨str, whole, fraction, written, accepted⟩ :=
    exists_format blanks valid_unit small fPlus
  exact ⟨str, written, parse_eq_true.mpr ⟨whole, fraction, accepted⟩⟩

/-- The blanks among the characters of ASCII. -/
def asciiBlanks : QBlanks where
  isSpace c := c = 32 || (9 ≤ c && c ≤ 13)
  space := by decide
  visible c shown := by
    have low : c ≠ 32 ∧ ¬c ≤ 13 := by
      rcases shown with ⟨lower, -⟩ | rfl | rfl | rfl
      · rw [UInt16.le_iff_toNat_le] at lower ⊢
        have lower : 48 ≤ c.toNat := lower
        refine ⟨fun blank => ?_, fun upper : c.toNat ≤ 13 => by omega⟩
        simp [blank] at lower
      all_goals decide
    simp [low]

/-- Two coins and a half with a sign in front are read and written. -/
theorem parse_format_and_exact_sample :
    (∃ str, format .BTC 250000000 true = .ok str ∧
        parse asciiBlanks .BTC str 0 = (true, 250000000)) ∧
      (ReadsExactly asciiBlanks .BTC 1 [43, 50, 46, 53] ↔
        ¬Misread asciiBlanks .BTC 1 [43, 50, 46, 53]) :=
  ⟨(parse_format_and_exact asciiBlanks .BTC).1 250000000 0 true rfl (by norm_num),
    (parse_format_and_exact asciiBlanks .BTC).2 1 [43, 50, 46, 53]⟩

private theorem zeroHalves_chars {blanks : QBlanks} {whole fraction : QString}
    (zero : ZeroHalves blanks whole fraction) {c : UInt16} (mem : c ∈ whole ++ fraction)
    (digit : qDigits.isDigit c) : c = 48 := by
  obtain ⟨before, after, sign, zeros, more, before_space, after_space, rfl, rfl⟩ := zero
  simp only [List.mem_append, List.mem_replicate] at mem
  obtain ((in_before | in_sign) | ⟨-, rfl⟩) | ⟨-, rfl⟩ | in_after := mem
  · simp [not_isDigit_of_isSpace (List.all_eq_true.mp before_space c in_before)] at digit
  · simp [sign_no_digit sign c in_sign] at digit
  · rfl
  · rfl
  · simp [not_isDigit_of_isSpace (List.all_eq_true.mp after_space c in_after)] at digit

/-- One coin with eight blanks behind the point is read as one base unit, and a sign behind the
point is the sign of the amount. -/
theorem not_parse_exact :
    (parse asciiBlanks .BTC (49 :: 46 :: List.replicate 8 32) 0 = (true, 1) ∧
      ¬ReadsExactly asciiBlanks .BTC 0 (49 :: 46 :: List.replicate 8 32)) ∧
    parse asciiBlanks .BTC [46, 45, 53] 0 = (true, -5000000) ∧
      ¬ReadsExactly asciiBlanks .BTC 0 [46, 45, 53] := by
  have misread {value whole fraction : QString} {number : Int} {c : UInt16}
      (halves : Halves value whole fraction)
      (read : parse asciiBlanks .BTC value 0 = (true, number))
      (not_digits : fraction.all qDigits.isDigit = false) (mem : c ∈ whole ++ fraction)
      (digit : qDigits.isDigit c) (nonzero : c ≠ 48) :
      ¬ReadsExactly asciiBlanks .BTC 0 value := by
    intro exact_reading
    obtain ⟨first, last, accepted⟩ := parse_eq_true.mp read
    have split := splitOn_halves halves
    have split_other := splitOn_halves accepted.halves
    obtain ⟨rfl, rfl⟩ : first = whole ∧ last = fraction := by grind
    exact not_misread_of_readsExactly exact_reading ⟨_, _, _, accepted,
      .inl ⟨not_digits, fun zero => nonzero (zeroHalves_chars zero mem digit)⟩⟩
  have coin : parse asciiBlanks .BTC (49 :: 46 :: List.replicate 8 32) 0 = (true, 1) := by
    decide +kernel
  have sign : parse asciiBlanks .BTC [46, 45, 53] 0 = (true, -5000000) := by decide +kernel
  have coin_halves : Halves ([49] ++ 46 :: List.replicate 8 32) [49] (List.replicate 8 32) :=
    .point (by decide) (by decide)
  have sign_halves : Halves ([] ++ 46 :: [45, 53]) [] [45, 53] := .point (by decide) (by decide)
  exact ⟨⟨coin, misread coin_halves coin (by decide) List.mem_cons_self rfl (by decide)⟩, sign,
    misread (c := 53) sign_halves sign (by decide) (by decide) rfl (by decide)⟩

end BitcoinUnits

end FooCoin

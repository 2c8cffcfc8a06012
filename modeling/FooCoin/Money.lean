import FooCoin.Amount
import FooCoin.Base58
import FooCoin.Library.Numeral
import FooCoin.Library.Segments

/-!
# Reading and writing amounts

`ParseMoney` reads the whole part of an amount into a string and the fraction, digit by digit, into
base units; `FormatMoney` writes eight decimals and cuts zeros off behind the second.
-/

namespace FooCoin

open Numeral Segments

/-- `isdigit`. -/
def isdigit (c : UInt8) : Bool := 48 ≤ c && c ≤ 57

/-- The decimal digits. -/
def decimalDigits : DigitAlphabet UInt8 10 where
  char digit := UInt8.ofNat (48 + digit)
  digit c := c.toNat - 48
  isDigit := isdigit
  digit_lt c digit := by
    simp only [isdigit, UInt8.le_iff_toNat_le, Bool.and_eq_true, decide_eq_true_eq] at digit
    have upper : c.toNat ≤ 57 := digit.2
    omega
  isDigit_char digit small := by
    have number : (UInt8.ofNat (48 + digit)).toNat = 48 + digit := by
      rw [UInt8.toNat_ofNat']
      omega
    simp only [isdigit, UInt8.le_iff_toNat_le, number, Bool.and_eq_true, decide_eq_true_eq]
    exact ⟨Nat.le_add_right 48 digit, show 48 + digit ≤ 57 by omega⟩
  digit_char digit small := by
    rw [UInt8.toNat_ofNat']
    omega

/-- The number that decimal digits stand for. -/
def decimal (digits : List UInt8) : Nat := decimalDigits.number digits

/-- What `%0*d` prints, and with a width of 1 what `%d` prints. -/
def printInt (width : Nat) (number : Int) : List UInt8 :=
  let sign : List UInt8 := if number < 0 then [45] else []
  let digits := (Nat.digits 10 number.natAbs).length
  sign ++ decimalDigits.print (width - sign.length - digits) number.natAbs

/-- The number of zeros that `FormatMoney` cuts off a string, given from its end. -/
def trimCount : List UInt8 → Nat
  | [] => 0
  | c :: str => if c = 48 ∧ isdigit (str.getD 1 0) then trimCount str + 1 else 0

/-- `FormatMoney`. -/
def formatMoney (n : Int) (fPlus : Bool) : Outcome (List UInt8) := do
  let n_abs ← (if 0 < n then .ok n else int64 (-n) : Outcome Int)
  let quotient := n_abs.tdiv coin
  let remainder := n_abs.tmod coin
  let str := printInt 1 quotient ++ 46 :: printInt 8 remainder
  let nTrim := trimCount str.reverse
  let str := str.take (str.length - nTrim)
  .ok (if n < 0 then 45 :: str else if fPlus ∧ 0 < n then 43 :: str else str)

/-- `strtoll` in base 10: the value that `atoi64` returns. -/
def atoi64 (psz : List UInt8) : Int :=
  let psz := psz.dropWhile isspace
  let number (psz : List UInt8) : Int := decimal (psz.takeWhile isdigit)
  let exact :=
    match psz with
    | 45 :: psz => -number psz
    | 43 :: psz => number psz
    | psz => number psz
  max int64Min (min int64Max exact)

/-- The digits behind the point: the base units and the rest of the text. -/
def parseFraction : Int → Int → List UInt8 → Outcome (Int × List UInt8)
  | nUnits, _, [] => .ok (nUnits, [])
  | nUnits, nMult, c :: p =>
      if isdigit c ∧ 0 < nMult then do
        let units ← int64 (nMult * (c.toNat - 48))
        let nUnits ← int64 (nUnits + units)
        parseFraction nUnits (nMult.tdiv 10) p
      else .ok (nUnits, c :: p)

/-- The first loop of `ParseMoney`: `strWhole`, `nUnits` and the rest of the text. -/
def parseMoneyLoop : List UInt8 → List UInt8 → Outcome (List UInt8 × Int × List UInt8)
  | strWhole, [] => .ok (strWhole, 0, [])
  | strWhole, c :: p =>
      if c = 46 then (parseFraction 0 (cent * 10) p).map fun (nUnits, p) => (strWhole, nUnits, p)
      else if isspace c then .ok (strWhole, 0, c :: p)
      else if !isdigit c then .error .rejected
      else parseMoneyLoop (strWhole ++ [c]) p

/-- The end of `ParseMoney`, behind its first loop. -/
def moneyValue (strWhole : List UInt8) (nUnits : Int) (p : List UInt8) : Outcome Int := do
  require (p.all isspace)
  require (strWhole.length ≤ 10)
  require ¬(nUnits < 0 ∨ coin < nUnits)
  let nWhole := atoi64 strWhole
  let whole ← int64 (nWhole * coin)
  int64 (whole + nUnits)

/-- The value that `ParseMoney` of a C string gives to `nRet`. -/
def parseMoneyPsz (pszIn : List UInt8) : Outcome Int := do
  let (strWhole, nUnits, p) ← parseMoneyLoop [] (pszIn.dropWhile isspace)
  moneyValue strWhole nUnits p

/-- `ParseMoney`: what it returns and the `nRet` it leaves. -/
def parseMoney (str : List UInt8) (nRet : Int) : Outcome (Bool × Int) :=
  match parseMoneyPsz (c_str str) with
  | .ok nValue => .ok (true, nValue)
  | .error .rejected => .ok (false, nRet)
  | .error failure => .error failure

/-- A text of a decimal number, and the number. -/
inductive MoneyText : List UInt8 → ℚ → Prop
  | whole {before whole after : List UInt8} (before_space : before.all isspace)
      (whole_digits : whole.all isdigit) (whole_length : whole.length ≤ 10)
      (after_space : after.all isspace) : MoneyText (before ++ whole ++ after) (decimal whole)
  | point {before whole fraction after : List UInt8} (before_space : before.all isspace)
      (whole_digits : whole.all isdigit) (whole_length : whole.length ≤ 10)
      (fraction_digits : fraction.all isdigit) (fraction_length : fraction.length ≤ 8)
      (after_space : after.all isspace) :
      MoneyText (before ++ whole ++ 46 :: fraction ++ after)
        (decimal whole + decimal fraction / 10 ^ fraction.length)

/-! ## Digits -/

private theorem isdigit_iff {c : UInt8} : isdigit c ↔ 48 ≤ c.toNat ∧ c.toNat ≤ 57 := by
  simp [isdigit, UInt8.le_iff_toNat_le]

private theorem not_isspace_of_isdigit {c : UInt8} (digit : isdigit c) : isspace c = false := by
  have bounds := isdigit_iff.mp digit
  have not_blank : c ≠ 32 := fun blank => by simp [blank] at bounds
  have high : ¬c ≤ 13 := by
    rw [UInt8.le_iff_toNat_le]
    simpa using bounds.1.trans_lt' (by norm_num)
  simp [isspace, not_blank, high]

private theorem decimal_lt {digits : List UInt8} (all_digits : digits.all isdigit) :
    decimal digits < 10 ^ digits.length :=
  decimalDigits.number_lt (by norm_num) all_digits

/-! ## Reading -/

/-- The power of ten that stands for the next of the remaining places. -/
private def place (places : Nat) : Int := if places = 0 then 0 else 10 ^ (places - 1)

private theorem place_succ (places : Nat) : place (places + 1) = 10 ^ places := by
  simp [place]

private theorem place_tdiv (places : Nat) : (place (places + 1)).tdiv 10 = place places := by
  cases places with
  | zero => rfl
  | succ places =>
      rw [place_succ, place_succ, pow_succ, Int.mul_tdiv_cancel _ (by norm_num)]

/-- Up to the remaining places, the digits of the fraction are read. -/
private theorem parseFraction_append {digits rest : List UInt8} {places : Nat} {nUnits : Int}
    (all_digits : digits.all isdigit) (fits : digits.length ≤ places)
    (stop : digits.length = places ∨ ∀ c ∈ rest.head?, isdigit c = false)
    (lower : 0 ≤ nUnits) (upper : nUnits + 10 ^ places ≤ coin) :
    parseFraction nUnits (place places) (digits ++ rest) =
      .ok (nUnits + decimal digits * 10 ^ (places - digits.length), rest) := by
  induction digits generalizing places nUnits with
  | nil =>
      have unread : parseFraction nUnits (place places) rest = .ok (nUnits, rest) := by
        cases rest with
        | nil => rfl
        | cons c rest =>
            rw [parseFraction, if_neg]
            rintro ⟨digit, positive⟩
            rcases stop with full | nondigit
            · rw [← full] at positive
              simp [place] at positive
            · simp [nondigit c rfl] at digit
      simpa [decimal] using unread
  | cons c digits induction =>
      obtain ⟨places, rfl⟩ : ∃ left, places = left + 1 := ⟨places - 1, by simp at fits; omega⟩
      obtain ⟨digit, all_digits⟩ := by simpa using all_digits
      have bounds := isdigit_iff.mp digit
      have small : c.toNat - 48 < 10 := decimalDigits.digit_lt c digit
      have number : (c.toNat : Int) - 48 = (c.toNat - 48 : Nat) := by omega
      have read : decimal (c :: digits) = (c.toNat - 48) * 10 ^ digits.length + decimal digits :=
        decimalDigits.number_cons c digits
      have positive : (0 : Int) < 10 ^ places := by positivity
      have added :
          (10 : Int) ^ places * (c.toNat - 48 : Nat) + 10 ^ places ≤ 10 ^ (places + 1) := by
        rw [pow_succ]
        nlinarith [show ((c.toNat - 48 : Nat) : Int) ≤ 9 by omega]
      have nonneg : (0 : Int) ≤ 10 ^ places * (c.toNat - 48 : Nat) := by positivity
      have next : ((10 : Int) ^ places).tdiv 10 = place places := by
        rw [← place_succ, place_tdiv]
      have coin_max : coin ≤ int64Max := by decide
      have min_zero : int64Min ≤ 0 := by decide
      rw [List.cons_append, parseFraction, if_pos ⟨digit, by rw [place_succ]; exact positive⟩,
        place_succ, number, int64_of_mem (by omega) (by omega), except_ok_bind,
        int64_of_mem (by omega) (by omega), except_ok_bind, next,
        induction (by simpa using all_digits) (by simpa using fits)
          (stop.imp_left fun full => by simpa using full) (by omega) (by omega), read]
      have split : (10 : Int) ^ places = 10 ^ digits.length * 10 ^ (places - digits.length) := by
        rw [← pow_add, Nat.add_sub_cancel' (by simpa using fits)]
      rw [List.length_cons, Nat.add_sub_add_right, split]
      push_cast
      congr 2
      ring

private theorem parseMoneyLoop_append {whole : List UInt8} (strWhole rest : List UInt8)
    (all_digits : whole.all isdigit) :
    parseMoneyLoop strWhole (whole ++ rest) = parseMoneyLoop (strWhole ++ whole) rest := by
  induction whole generalizing strWhole with
  | nil => simp
  | cons c whole induction =>
      obtain ⟨digit, all_digits⟩ := by simpa using all_digits
      have bounds := isdigit_iff.mp digit
      have no_point : c ≠ 46 := fun point => by simp [point] at bounds
      rw [List.cons_append, parseMoneyLoop, if_neg no_point, not_isspace_of_isdigit digit,
        if_neg (by simp), digit, if_neg (by simp), induction _ (by simpa using all_digits),
        List.append_assoc, List.singleton_append]

private theorem atoi64_digits {whole : List UInt8} (all_digits : whole.all isdigit)
    (short : whole.length ≤ 10) : atoi64 whole = decimal whole := by
  have bound : decimal whole < 10 ^ 10 :=
    (decimal_lt all_digits).trans_le (Nat.pow_le_pow_right (by norm_num) short)
  have read : whole.takeWhile isdigit = whole :=
    List.takeWhile_eq_self_iff.mpr (List.all_eq_true.mp all_digits)
  have clipped : max int64Min (min int64Max (decimal whole : Int)) = decimal whole := by
    simp only [int64Min, int64Max]
    omega
  cases whole with
  | nil => exact clipped
  | cons c whole =>
      have digit : isdigit c := by simp_all
      have bounds := isdigit_iff.mp digit
      have minus : c ≠ 45 := fun sign => by simp [sign] at bounds
      have plus : c ≠ 43 := fun sign => by simp [sign] at bounds
      rw [atoi64, List.dropWhile_cons_of_neg (by simp [not_isspace_of_isdigit digit])]
      dsimp only
      split
      · simp_all
      · simp_all
      · rw [read, clipped]

/-- Behind a short whole part and a fraction below one coin, blanks end the amount. -/
private theorem moneyValue_digits {whole rest : List UInt8} {nUnits : Int}
    (all_digits : whole.all isdigit) (short : whole.length ≤ 10) (lower : 0 ≤ nUnits)
    (upper : nUnits ≤ coin) (blank : rest.all isspace) :
    moneyValue whole nUnits rest = .ok (decimal whole * coin + nUnits) := by
  have bound : decimal whole < 10 ^ 10 :=
    (decimal_lt all_digits).trans_le (Nat.pow_le_pow_right (by norm_num) short)
  have scaled : (decimal whole : Int) * coin + coin ≤ int64Max := by
    simp only [coin, int64Max]
    omega
  have nonneg : 0 ≤ (decimal whole : Int) * coin := by
    simp only [coin]
    omega
  have min_zero : int64Min ≤ 0 := by decide
  have in_range : ¬(nUnits < 0 ∨ coin < nUnits) := by omega
  have product : int64 (decimal whole * coin) = .ok (decimal whole * coin) :=
    int64_of_mem (by omega) (by omega)
  have sum : int64 (decimal whole * coin + nUnits) = .ok (decimal whole * coin + nUnits) :=
    int64_of_mem (by omega) (by omega)
  simp only [moneyValue, require, blank, short, in_range, not_false_eq_true, if_true,
    except_ok_bind, atoi64_digits all_digits short, product, sum]

private theorem moneyValue_rejects {strWhole rest : List UInt8} {nUnits : Int}
    (bad : rest.all isspace = false ∨ 10 < strWhole.length) :
    moneyValue strWhole nUnits rest = .error .rejected := by
  by_cases blank : rest.all isspace
  · have long : ¬strWhole.length ≤ 10 := by
      rcases bad with seen | long
      · simp [blank] at seen
      · omega
    simp only [moneyValue, require, if_pos blank, if_neg long]
    rfl
  · simp only [moneyValue, require, if_neg blank]
    rfl

private theorem dropWhile_isspace_append {before rest : List UInt8}
    (blank : before.all isspace) :
    (before ++ rest).dropWhile isspace = rest.dropWhile isspace :=
  List.dropWhile_append_of_pos (List.all_eq_true.mp blank)

/-- Blanks and digits in front leave the rest of the text to the first loop. -/
private theorem parseMoneyPsz_append {before whole : List UInt8} (rest : List UInt8)
    (blank : before.all isspace) (all_digits : whole.all isdigit)
    (starts : whole ≠ [] ∨ ∀ c ∈ rest.head?, isspace c = false) :
    parseMoneyPsz (before ++ whole ++ rest) =
      parseMoneyLoop whole rest >>= fun (strWhole, nUnits, p) => moneyValue strWhole nUnits p := by
  have visible : (whole ++ rest).dropWhile isspace = whole ++ rest := by
    cases whole with
    | nil =>
        cases rest with
        | nil => rfl
        | cons c rest =>
            rcases starts with nonempty | visible
            · exact absurd rfl nonempty
            · exact List.dropWhile_cons_of_neg (by simp [visible c rfl])
    | cons c whole =>
        have digit : isdigit c := by simp_all
        exact List.dropWhile_cons_of_neg (by simp [not_isspace_of_isdigit digit])
  rw [parseMoneyPsz, List.append_assoc, dropWhile_isspace_append blank, visible,
    parseMoneyLoop_append [] rest all_digits, List.nil_append]

private theorem parseMoneyLoop_blank (whole : List UInt8) {after : List UInt8}
    (blank : after.all isspace) : parseMoneyLoop whole after = .ok (whole, 0, after) := by
  cases after with
  | nil => rfl
  | cons c after =>
      obtain ⟨space, -⟩ := by simpa using blank
      have no_point : c ≠ 46 := fun point => by simp [point, isspace] at space
      rw [parseMoneyLoop, if_neg no_point, if_pos space]

/-- At the point, up to eight digits become base units. -/
private theorem parseMoneyLoop_point (whole : List UInt8) {fraction rest : List UInt8}
    (all_digits : fraction.all isdigit) (fits : fraction.length ≤ 8)
    (stop : fraction.length = 8 ∨ ∀ c ∈ rest.head?, isdigit c = false) :
    parseMoneyLoop whole (46 :: (fraction ++ rest)) =
      .ok (whole, decimal fraction * 10 ^ (8 - fraction.length), rest) := by
  have first : cent * 10 = place 8 := by decide
  rw [parseMoneyLoop, if_pos rfl, first,
    parseFraction_append all_digits fits stop le_rfl (by decide), zero_add]
  rfl

private theorem head_of_blank {after : List UInt8} (blank : after.all isspace) :
    ∀ c ∈ after.head?, isdigit c = false := by
  intro c head
  obtain ⟨rest, rfl⟩ := List.head?_eq_some_iff.mp head
  obtain ⟨space, -⟩ := by simpa using blank
  by_contra digit
  simp [not_isspace_of_isdigit (Bool.of_not_eq_false digit)] at space

private theorem fraction_le_coin {fraction : List UInt8} (all_digits : fraction.all isdigit)
    (fits : fraction.length ≤ 8) :
    (decimal fraction : Int) * 10 ^ (8 - fraction.length) ≤ coin := by
  have below := decimal_lt all_digits
  have scaled : decimal fraction * 10 ^ (8 - fraction.length) ≤ 10 ^ 8 := by
    calc
      decimal fraction * 10 ^ (8 - fraction.length)
          ≤ 10 ^ fraction.length * 10 ^ (8 - fraction.length) := Nat.mul_le_mul_right _ below.le
      _ = 10 ^ 8 := by rw [← pow_add, Nat.add_sub_cancel' fits]
  simp only [coin]
  exact_mod_cast scaled

/-- The text of a number is read as that number of coins. -/
private theorem parseMoneyPsz_of_text {psz : List UInt8} {number : ℚ}
    (text : MoneyText psz number) :
    ∃ nValue, parseMoneyPsz psz = .ok nValue ∧ (nValue : ℚ) = number * coin := by
  cases text with
  | @whole before whole after before_space whole_digits whole_length after_space =>
      refine ⟨decimal whole * coin + 0, ?_, by push_cast; ring⟩
      by_cases empty : whole = []
      · have blank : (before ++ after).all isspace := by
          rw [List.all_append, before_space, after_space, Bool.and_self]
        have read := parseMoneyPsz_append [] blank whole_digits (.inr fun _ head => nomatch head)
        subst empty
        simp only [List.append_nil] at read ⊢
        rw [read, parseMoneyLoop, except_ok_bind]
        exact moneyValue_digits whole_digits whole_length le_rfl (by decide) rfl
      · rw [parseMoneyPsz_append after before_space whole_digits (.inl empty),
          parseMoneyLoop_blank whole after_space]
        exact moneyValue_digits whole_digits whole_length le_rfl (by decide) after_space
  | @point before whole fraction after before_space whole_digits whole_length fraction_digits
      fraction_length after_space =>
      have point_visible : ∀ c ∈ (46 :: (fraction ++ after)).head?, isspace c = false := by
        simp only [List.head?_cons, Option.mem_some_iff, forall_eq']
        rfl
      refine ⟨decimal whole * coin + decimal fraction * 10 ^ (8 - fraction.length), ?_, ?_⟩
      · rw [List.append_assoc, List.cons_append,
          parseMoneyPsz_append _ before_space whole_digits (.inr point_visible),
          parseMoneyLoop_point whole fraction_digits fraction_length
            (.inr (head_of_blank after_space))]
        exact moneyValue_digits whole_digits whole_length (by positivity)
          (fraction_le_coin fraction_digits fraction_length) after_space
      · have split : (coin : ℚ) = 10 ^ fraction.length * 10 ^ (8 - fraction.length) := by
          rw [← pow_add, Nat.add_sub_cancel' fraction_length]
          norm_num [coin]
        have nonzero : (10 : ℚ) ^ fraction.length ≠ 0 := by positivity
        push_cast
        rw [split]
        field_simp

/-- Once the loops are left, the amount is rejected or its text is that of a number. -/
private theorem moneyValue_cases {whole rest : List UInt8} (nUnits : Int) (goal : Prop)
    (text : whole.length ≤ 10 → rest.all isspace → goal) :
    goal ∨ moneyValue whole nUnits rest = .error .rejected := by
  by_cases fits : whole.length ≤ 10 ∧ rest.all isspace
  · exact .inl (text fits.1 fits.2)
  · right
    apply moneyValue_rejects
    by_cases blank : rest.all isspace
    · exact .inr (by simp_all)
    · exact .inl (by simpa using blank)

/-- What is not the text of a number is rejected. -/
private theorem text_or_rejected (psz : List UInt8) :
    (∃ number, MoneyText psz number) ∨ parseMoneyPsz psz = .error .rejected := by
  obtain ⟨before, p, before_space, visible, rfl⟩ := exists_span isspace psz
  obtain ⟨whole, rest, whole_digits, stop, rfl⟩ := exists_span isdigit p
  have starts : whole ≠ [] ∨ ∀ c ∈ rest.head?, isspace c = false := by
    by_cases empty : whole = []
    · exact .inr (by simpa [empty] using visible)
    · exact .inl empty
  rw [← List.append_assoc, parseMoneyPsz_append rest before_space whole_digits starts]
  cases rest with
  | nil =>
      rw [parseMoneyLoop, except_ok_bind]
      exact moneyValue_cases 0 _ fun short blank =>
        ⟨_, .whole before_space whole_digits short blank⟩
  | cons c rest =>
      by_cases point : c = 46
      · subst point
        obtain ⟨fraction, after, fraction_digits, ended, rfl⟩ := exists_span isdigit rest
        by_cases fits : fraction.length ≤ 8
        · rw [parseMoneyLoop_point whole fraction_digits fits (.inr ended), except_ok_bind]
          refine moneyValue_cases _ _ fun short blank => ?_
          have text := MoneyText.point before_space whole_digits short fraction_digits fits blank
          rw [List.append_assoc, List.cons_append] at text
          exact ⟨_, text⟩
        · -- The ninth digit is left to the check for blanks.
          right
          have taken : (fraction.take 8).all isdigit := by
            rw [List.all_eq_true] at fraction_digits ⊢
            exact fun c mem => fraction_digits c (List.mem_of_mem_take mem)
          have eight : (fraction.take 8).length = 8 := by
            rw [List.length_take]
            omega
          rw [← List.take_append_drop 8 fraction, List.append_assoc,
            parseMoneyLoop_point whole taken eight.le (.inl eight)]
          refine moneyValue_rejects (.inl ?_)
          cases ninth : fraction.drop 8 with
          | nil =>
              have none_left := congrArg List.length ninth
              rw [List.length_drop, List.length_nil] at none_left
              omega
          | cons c left =>
              have mem : c ∈ fraction :=
                List.mem_of_mem_drop (i := 8) (by rw [ninth]; exact List.mem_cons_self)
              simp [not_isspace_of_isdigit (List.all_eq_true.mp fraction_digits c mem)]
      · by_cases space : isspace c
        · rw [parseMoneyLoop, if_neg point, if_pos space, except_ok_bind]
          exact moneyValue_cases 0 _ fun short blank =>
            ⟨_, .whole before_space whole_digits short blank⟩
        · right
          rw [parseMoneyLoop, if_neg point, if_neg space, stop c rfl, if_pos (by rfl)]
          rfl

/-! ## Writing -/

private theorem printInt_of_nonneg (width : Nat) {number : Int} (nonneg : 0 ≤ number) :
    printInt width number =
      decimalDigits.print (width - (Nat.digits 10 number.natAbs).length) number.natAbs := by
  simp [printInt, not_lt.mpr nonneg]

private theorem printInt_digits (width : Nat) {number : Int} (nonneg : 0 ≤ number) :
    (printInt width number).all isdigit ∧ (decimal (printInt width number) : Int) = number := by
  rw [printInt_of_nonneg width nonneg, decimal, DigitAlphabet.number_print _ (by norm_num)]
  exact ⟨decimalDigits.isDigit_print (by norm_num) _ _, Int.natAbs_of_nonneg nonneg⟩

private theorem printInt_length (width : Nat) {number : Int} (nonneg : 0 ≤ number) :
    (printInt width number).length = max width (Nat.digits 10 number.natAbs).length := by
  rw [printInt_of_nonneg width nonneg, DigitAlphabet.print, List.length_map, length_numeral]

private theorem digits_length_le {number : Int} {places : Nat} (nonneg : 0 ≤ number)
    (below : number < 10 ^ places) : (Nat.digits 10 number.natAbs).length ≤ places := by
  rw [Nat.digits_length_le_iff (by norm_num)]
  zify
  rwa [abs_of_nonneg nonneg]

/-- Zeros are cut off as long as two decimals stay. -/
private theorem exists_trim {fraction : List UInt8} (whole : List UInt8)
    (two : 2 ≤ fraction.length) :
    ∃ kept, fraction = List.replicate (trimCount (fraction ++ 46 :: whole)) 48 ++ kept ∧
      2 ≤ kept.length := by
  induction fraction with
  | nil => simp at two
  | cons c fraction induction =>
      rw [List.cons_append, trimCount]
      split
      next zero =>
        obtain ⟨rfl, digit⟩ := zero
        have longer : 2 ≤ fraction.length := by
          by_contra short
          -- The second character behind the zero is the point.
          obtain ⟨d, rfl⟩ : ∃ d, fraction = [d] := List.length_eq_one_iff.mp (by simp at two; omega)
          simp [isdigit] at digit
        obtain ⟨kept, split, enough⟩ := induction longer
        refine ⟨kept, ?_, enough⟩
        rw [List.replicate_succ, List.cons_append, ← split]
      next => exact ⟨c :: fraction, rfl, two⟩

/-- The text that is written for a number of base units is the text of that many coins. -/
private theorem formatMoney_text {n : Int} (lower : 0 ≤ n) (upper : n < 10 ^ 18) :
    ∃ str number, formatMoney n false = .ok str ∧ MoneyText str number ∧ number * coin = n := by
  have quotient_nonneg : 0 ≤ n.tdiv coin := Int.tdiv_nonneg lower (by decide)
  have remainder_nonneg : 0 ≤ n.tmod coin := Int.tmod_nonneg coin lower
  have quotient_lt : n.tdiv coin < 10 ^ 10 := by
    rw [Int.tdiv_eq_ediv_of_nonneg lower]
    simp only [coin]
    omega
  have remainder_lt : n.tmod coin < 10 ^ 8 := by
    rw [Int.tmod_eq_emod_of_nonneg lower]
    simp only [coin]
    omega
  obtain ⟨whole_digits, whole_value⟩ := printInt_digits 1 quotient_nonneg
  obtain ⟨fraction_digits, fraction_value⟩ := printInt_digits 8 remainder_nonneg
  have whole_length : (printInt 1 (n.tdiv coin)).length ≤ 10 := by
    rw [printInt_length 1 quotient_nonneg]
    exact max_le (by norm_num) (digits_length_le quotient_nonneg quotient_lt)
  have fraction_length : (printInt 8 (n.tmod coin)).length = 8 := by
    rw [printInt_length 8 remainder_nonneg]
    exact max_eq_left (digits_length_le remainder_nonneg remainder_lt)
  have absolute : (if 0 < n then Except.ok n else int64 (-n)) = (.ok n : Outcome Int) := by
    split
    · rfl
    · obtain rfl : n = 0 := by omega
      decide
  generalize whole_eq : printInt 1 (n.tdiv coin) = whole at *
  generalize fraction_eq : printInt 8 (n.tmod coin) = fraction at *
  have two : 2 ≤ fraction.reverse.length := by simp [fraction_length]
  obtain ⟨kept, split, enough⟩ := exists_trim whole.reverse two
  have reversed : (whole ++ 46 :: fraction).reverse = fraction.reverse ++ 46 :: whole.reverse := by
    simp
  generalize trimmed : trimCount (fraction.reverse ++ 46 :: whole.reverse) = nTrim at split
  have parts : fraction = kept.reverse ++ List.replicate nTrim 48 := by
    have back := congrArg List.reverse split
    rwa [List.reverse_reverse, List.reverse_append, List.reverse_replicate] at back
  have lengths : kept.length + nTrim = 8 := by
    simpa [parts] using fraction_length
  have cut : (whole ++ 46 :: fraction).take ((whole ++ 46 :: fraction).length - nTrim) =
      whole ++ 46 :: kept.reverse := by
    have text : whole ++ 46 :: fraction =
        (whole ++ 46 :: kept.reverse) ++ List.replicate nTrim 48 := by
      rw [parts, List.append_assoc, List.cons_append]
    rw [text, List.length_append, List.length_replicate, Nat.add_sub_cancel, List.take_left]
  have written : formatMoney n false = .ok (whole ++ 46 :: kept.reverse) := by
    rw [formatMoney, absolute, except_ok_bind]
    dsimp only
    rw [whole_eq, fraction_eq, reversed, trimmed, cut, if_neg (not_lt.mpr lower),
      if_neg (by simp)]
  have kept_digits : kept.reverse.all isdigit := by
    rw [parts, List.all_append] at fraction_digits
    exact (Bool.and_eq_true_iff.mp fraction_digits).1
  have text : MoneyText ([] ++ whole ++ 46 :: kept.reverse ++ []) _ :=
    .point rfl whole_digits whole_length kept_digits (by simp; omega) rfl
  rw [List.nil_append, List.append_nil] at text
  refine ⟨_, _, written, text, ?_⟩
  have zeros : decimalDigits.number (List.replicate nTrim 48) = 0 :=
    decimalDigits.number_replicate rfl nTrim
  rw [parts, decimal, DigitAlphabet.number_append, List.length_replicate, zeros, add_zero, ← decimal]
    at fraction_value
  have scale : (coin : ℚ) = 10 ^ kept.reverse.length * 10 ^ nTrim := by
    rw [← pow_add, List.length_reverse, lengths]
    norm_num [coin]
  have nonzero : (10 : ℚ) ^ kept.reverse.length ≠ 0 := by positivity
  have total : (n : ℚ) = decimal whole * coin + decimal kept.reverse * 10 ^ nTrim := by
    have exact_sum : n = decimal whole * coin + decimal kept.reverse * 10 ^ nTrim := by
      rw [whole_value]
      calc
        n = n.tdiv coin * coin + n.tmod coin := (Int.tdiv_mul_add_tmod n coin).symm
        _ = n.tdiv coin * coin + decimal kept.reverse * 10 ^ nTrim := by
          rw [← fraction_value]
          push_cast
          rfl
    exact_mod_cast exact_sum
  rw [total, add_mul, scale]
  field_simp

/-! ## Both ways -/

private theorem c_str_terminated {str : List UInt8} (terminated : 0 ∉ str) : c_str str = str := by
  refine List.takeWhile_eq_self_iff.mpr fun c mem => ?_
  have nonzero : c ≠ 0 := ne_of_mem_of_not_mem mem terminated
  simpa using nonzero

/-- The text of a number holds no terminator. -/
private theorem c_str_text {str : List UInt8} {number : ℚ} (text : MoneyText str number) :
    c_str str = str := by
  have terminated : 0 ∉ str := by
    cases text with
    | whole before_space whole_digits _ after_space =>
        simp only [List.mem_append, not_or]
        exact ⟨⟨not_mem_of_all before_space rfl, not_mem_of_all whole_digits rfl⟩,
          not_mem_of_all after_space rfl⟩
    | point before_space whole_digits _ fraction_digits _ after_space =>
        simp only [List.mem_append, List.mem_cons, not_or]
        exact ⟨⟨⟨not_mem_of_all before_space rfl, not_mem_of_all whole_digits rfl⟩, by decide,
          not_mem_of_all fraction_digits rfl⟩, not_mem_of_all after_space rfl⟩
  exact c_str_terminated terminated

private theorem parseMoney_of_text {str : List UInt8} {number : ℚ} (text : MoneyText str number)
    (nRet : Int) : ∃ nValue, parseMoney str nRet = .ok (true, nValue) ∧
      (nValue : ℚ) = number * coin := by
  obtain ⟨nValue, read, exact_value⟩ := parseMoneyPsz_of_text text
  exact ⟨nValue, by rw [parseMoney, c_str_text text, read], exact_value⟩

/-- `ParseMoney` reads the texts of numbers exactly, leaves `nRet` at all others, and reads what
`FormatMoney` wrote. -/
theorem parseMoney_exact :
    (∀ (str : List UInt8) (nRet : Int), 0 ∉ str →
      (∀ number, MoneyText str number →
        ∃ nValue : Int, parseMoney str nRet = .ok (true, nValue) ∧ (nValue : ℚ) = number * coin) ∧
      ((¬∃ number, MoneyText str number) → parseMoney str nRet = .ok (false, nRet))) ∧
    ∀ n nRet : Int, 0 ≤ n → n < 10 ^ 18 →
      ∃ str, formatMoney n false = .ok str ∧ parseMoney str nRet = .ok (true, n) := by
  refine ⟨fun str nRet terminated => ⟨fun number text => parseMoney_of_text text nRet,
    fun no_text => ?_⟩, fun n nRet lower upper => ?_⟩
  · have rejected := (text_or_rejected str).resolve_left no_text
    rw [parseMoney, c_str_terminated terminated, rejected]
  · obtain ⟨str, number, written, text, scaled⟩ := formatMoney_text lower upper
    obtain ⟨nValue, read, exact_value⟩ := parseMoney_of_text text nRet
    rw [scaled, Int.cast_inj] at exact_value
    exact ⟨str, written, by rw [read, exact_value]⟩

/-- `" 1.5"` is one coin and a half, and the amount of one coin and a half is read back. -/
theorem parseMoney_exact_samples :
    (∃ nValue : Int, parseMoney [32, 49, 46, 53] 7 = .ok (true, nValue) ∧
        (nValue : ℚ) = (decimal [49] + decimal [53] / 10 ^ 1) * coin) ∧
      ∃ str, formatMoney 150000000 false = .ok str ∧ parseMoney str 7 = .ok (true, 150000000) := by
  obtain ⟨read, back⟩ := parseMoney_exact
  have text : MoneyText ([32] ++ [49] ++ 46 :: [53] ++ []) (decimal [49] + decimal [53] / 10 ^ 1) :=
    .point (by decide) (by decide) (by decide) (by decide) (by decide) rfl
  exact ⟨(read [32, 49, 46, 53] 7 (by decide)).1 _ text, back 150000000 7 (by decide) (by decide)⟩

end FooCoin

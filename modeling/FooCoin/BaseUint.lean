import Mathlib.Data.List.TakeWhile
import FooCoin.Library.BitGroups
import FooCoin.Library.LittleEndian
import FooCoin.Library.Words

/-!
# Integers of a fixed width

`base_uint` keeps an integer in an array of words, the lowest first.  Its operators go through the
array with carries and borrows; they are the operations on naturals modulo `2 ^ BITS`, and the
hexadecimal text of an integer reads back as the integer.
-/

namespace FooCoin

open LittleEndian

/-- `base_uint`: the words of an integer, the lowest first. -/
@[ext]
structure BaseUint (BITS : Nat) where
  pn : List (BitVec 32)
  length_pn : pn.length = BITS / 32

namespace BaseUint

variable {BITS : Nat}

/-- The natural number that the words stand for. -/
def value (a : BaseUint BITS) : Nat := Words.value a.pn

/-! ## Arithmetic -/

/-- The loop of `operator+=` with its carry. -/
def addLoop : BitVec 64 → List (BitVec 32) → List (BitVec 32) → List (BitVec 32)
  | carry, p :: pn, q :: bn =>
      let n := carry + p.setWidth 64 + q.setWidth 64
      (n &&& 0xffffffff).setWidth 32 :: addLoop (n >>> 32) pn bn
  | _, _, _ => []

/-- The loop of `operator++`. -/
def incrementLoop : List (BitVec 32) → List (BitVec 32)
  | [] => []
  | p :: pn =>
      let p := p + 1
      if p = 0 ∧ pn ≠ [] then p :: incrementLoop pn else p :: pn

/-- The loop of `operator--`. -/
def decrementLoop : List (BitVec 32) → List (BitVec 32)
  | [] => []
  | p :: pn =>
      let p := p - 1
      if p = -1 ∧ pn ≠ [] then p :: decrementLoop pn else p :: pn

@[simp]
theorem length_addLoop (carry : BitVec 64) (pn bn : List (BitVec 32)) :
    (addLoop carry pn bn).length = min pn.length bn.length := by
  induction pn generalizing carry bn with
  | nil => simp [addLoop]
  | cons p pn induction =>
      cases bn with
      | nil => simp [addLoop]
      | cons q bn => simp [addLoop, induction, Nat.add_min_add_right]

@[simp]
theorem length_incrementLoop (pn : List (BitVec 32)) : (incrementLoop pn).length = pn.length := by
  induction pn with
  | nil => rfl
  | cons p pn induction =>
      rw [incrementLoop]
      split <;> simp [induction]

@[simp]
theorem length_decrementLoop (pn : List (BitVec 32)) : (decrementLoop pn).length = pn.length := by
  induction pn with
  | nil => rfl
  | cons p pn induction =>
      rw [decrementLoop]
      split <;> simp [induction]

/-- `operator+=`. -/
def addAssign (a b : BaseUint BITS) : BaseUint BITS where
  pn := addLoop 0 a.pn b.pn
  length_pn := by rw [length_addLoop, a.length_pn, b.length_pn, min_self]

/-- The prefix `operator++`. -/
def preIncrement (a : BaseUint BITS) : BaseUint BITS where
  pn := incrementLoop a.pn
  length_pn := by rw [length_incrementLoop, a.length_pn]

/-- The postfix `operator++`: what it returns and what it leaves. -/
def postIncrement (a : BaseUint BITS) : BaseUint BITS × BaseUint BITS := (a, a.preIncrement)

/-- The prefix `operator--`. -/
def preDecrement (a : BaseUint BITS) : BaseUint BITS where
  pn := decrementLoop a.pn
  length_pn := by rw [length_decrementLoop, a.length_pn]

/-- The postfix `operator--`: what it returns and what it leaves. -/
def postDecrement (a : BaseUint BITS) : BaseUint BITS × BaseUint BITS := (a, a.preDecrement)

/-- `operator~`. -/
def complement (a : BaseUint BITS) : BaseUint BITS where
  pn := a.pn.map fun p => ~~~p
  length_pn := by rw [List.length_map, a.length_pn]

/-- The unary `operator-`. -/
def negate (a : BaseUint BITS) : BaseUint BITS :=
  let ret := a.complement
  ret.postIncrement.2

/-- `operator-=`. -/
def subAssign (a b : BaseUint BITS) : BaseUint BITS := a.addAssign b.negate

/-! ## Bits -/

/-- The loops of `operator^=`, `operator&=` and `operator|=`. -/
def bitwise (op : BitVec 32 → BitVec 32 → BitVec 32) (a b : BaseUint BITS) : BaseUint BITS where
  pn := List.zipWith op a.pn b.pn
  length_pn := by rw [List.length_zipWith, a.length_pn, b.length_pn, min_self]

/-- `operator^=`. -/
def xorAssign (a b : BaseUint BITS) : BaseUint BITS := bitwise (· ^^^ ·) a b

/-- `operator&=`. -/
def andAssign (a b : BaseUint BITS) : BaseUint BITS := bitwise (· &&& ·) a b

/-- `operator|=`. -/
def orAssign (a b : BaseUint BITS) : BaseUint BITS := bitwise (· ||| ·) a b

/-- One round of `operator<<=`. -/
def shiftLeftStep (WIDTH k shift : Nat) (a pn : List (BitVec 32)) (i : Nat) : List (BitVec 32) :=
  let pn :=
    if i + k + 1 < WIDTH ∧ shift ≠ 0 then
      pn.modify (i + k + 1) (· ||| a.getD i 0 >>> (32 - shift))
    else pn
  if i + k < WIDTH then pn.modify (i + k) (· ||| a.getD i 0 <<< shift) else pn

/-- One round of `operator>>=`. -/
def shiftRightStep (k shift : Nat) (a pn : List (BitVec 32)) (i : Nat) : List (BitVec 32) :=
  let pn :=
    if k + 1 ≤ i ∧ shift ≠ 0 then pn.modify (i - k - 1) (· ||| a.getD i 0 <<< (32 - shift))
    else pn
  if k ≤ i then pn.modify (i - k) (· ||| a.getD i 0 >>> shift) else pn

/-- The loop of a shift from cleared words. -/
def shiftLoop (step : List (BitVec 32) → Nat → List (BitVec 32)) (WIDTH : Nat) :
    List (BitVec 32) :=
  (List.range WIDTH).foldl step (List.replicate WIDTH 0)

@[simp]
theorem length_shiftLeftStep (WIDTH k shift : Nat) (a pn : List (BitVec 32)) (i : Nat) :
    (shiftLeftStep WIDTH k shift a pn i).length = pn.length := by
  simp only [shiftLeftStep]
  split_ifs <;> simp only [List.length_modify]

@[simp]
theorem length_shiftRightStep (k shift : Nat) (a pn : List (BitVec 32)) (i : Nat) :
    (shiftRightStep k shift a pn i).length = pn.length := by
  simp only [shiftRightStep]
  split_ifs <;> simp only [List.length_modify]

theorem length_shiftLoop {step : List (BitVec 32) → Nat → List (BitVec 32)} (WIDTH : Nat)
    (keeps : ∀ pn i, (step pn i).length = pn.length) : (shiftLoop step WIDTH).length = WIDTH := by
  have fold (rounds : List Nat) (pn : List (BitVec 32)) :
      (rounds.foldl step pn).length = pn.length := by
    induction rounds generalizing pn with
    | nil => rfl
    | cons i rounds induction => rw [List.foldl_cons, induction, keeps]
  rw [shiftLoop, fold, List.length_replicate]

/-- `operator<<=`. -/
def shiftLeftAssign (a : BaseUint BITS) (shift : BitVec 32) : BaseUint BITS where
  pn := shiftLoop (shiftLeftStep (BITS / 32) (shift.toNat / 32) (shift.toNat % 32) a.pn) (BITS / 32)
  length_pn := length_shiftLoop _ fun _ _ => length_shiftLeftStep _ _ _ _ _ _

/-- `operator>>=`. -/
def shiftRightAssign (a : BaseUint BITS) (shift : BitVec 32) : BaseUint BITS where
  pn := shiftLoop (shiftRightStep (shift.toNat / 32) (shift.toNat % 32) a.pn) (BITS / 32)
  length_pn := length_shiftLoop _ fun _ _ => length_shiftRightStep _ _ _ _ _

/-! ## Comparisons -/

/-- The loops of the comparisons, from the highest word on. -/
def compareLoop (first : BitVec 32 → BitVec 32 → Bool) (last : Bool) :
    List (BitVec 32) → List (BitVec 32) → Bool
  | p :: pn, q :: bn =>
      if first p q then true else if first q p then false else compareLoop first last pn bn
  | _, _ => last

/-- `operator<`. -/
def lt (a b : BaseUint BITS) : Bool := compareLoop (· < ·) false a.pn.reverse b.pn.reverse

/-- `operator<=`. -/
def le (a b : BaseUint BITS) : Bool := compareLoop (· < ·) true a.pn.reverse b.pn.reverse

/-- `operator>`. -/
def gt (a b : BaseUint BITS) : Bool := compareLoop (· > ·) false a.pn.reverse b.pn.reverse

/-- `operator>=`. -/
def ge (a b : BaseUint BITS) : Bool := compareLoop (· > ·) true a.pn.reverse b.pn.reverse

/-- The loop of `operator==`. -/
def equalLoop : List (BitVec 32) → List (BitVec 32) → Bool
  | p :: pn, q :: bn => if p ≠ q then false else equalLoop pn bn
  | _, _ => true

/-- `operator==`. -/
def eq (a b : BaseUint BITS) : Bool := equalLoop a.pn b.pn

/-- `operator!=`. -/
def ne (a b : BaseUint BITS) : Bool := !eq a b

/-! ## Hexadecimal text -/

/-- The bytes of the array in memory. -/
def memory (pn : List (BitVec 32)) : List UInt8 := pn.flatMap fun p => leBytes 4 p.toNat

/-- The words at some bytes of memory. -/
def wordsAt : List UInt8 → List (BitVec 32)
  | byte0 :: byte1 :: byte2 :: byte3 :: rest =>
      BitVec.ofNat 32 (ofLE [byte0, byte1, byte2, byte3]) :: wordsAt rest
  | _ => []

/-- A character that `%02x` prints for half a byte. -/
def hexChar (digit : UInt8) : UInt8 := if digit < 10 then 48 + digit else 87 + digit

/-- The two digits of a byte. -/
def hexByte (byte : UInt8) : List UInt8 := [hexChar (byte >>> 4), hexChar (byte &&& 0x0f)]

/-- `GetHex`. -/
def getHex (a : BaseUint BITS) : List UInt8 := (memory a.pn).reverse.flatMap hexByte

/-- `isspace`. -/
def isSpace (c : UInt8) : Bool := c = 32 ∨ 9 ≤ c ∧ c ≤ 13

/-- `tolower`. -/
def toLower (c : UInt8) : UInt8 := if 65 ≤ c ∧ c ≤ 90 then c + 32 else c

/-- `phexdigit`. -/
def phexdigit (c : UInt8) : UInt8 :=
  if 48 ≤ c ∧ c ≤ 57 then c - 48
  else if 65 ≤ c ∧ c ≤ 70 then c - 55
  else if 97 ≤ c ∧ c ≤ 102 then c - 87
  else 0

/-- The bytes of memory that the last loop of `SetHex` leaves, from the last digit on. -/
def setHexLoop : Nat → List UInt8 → List UInt8
  | 0, _ => []
  | room + 1, [] => 0 :: setHexLoop room []
  | room + 1, [low] => phexdigit low :: setHexLoop room []
  | room + 1, low :: high :: psz =>
      (phexdigit low ||| phexdigit high <<< 4) :: setHexLoop room psz

/-- `psz` behind its leading spaces and `0x`. -/
def skipPrefix (psz : List UInt8) : List UInt8 :=
  let psz := psz.dropWhile isSpace
  match psz with
  | zero :: x :: rest => if zero = 48 ∧ toLower x = 120 then rest else psz
  | _ => psz

@[simp]
theorem length_setHexLoop (room : Nat) (psz : List UInt8) :
    (setHexLoop room psz).length = room := by
  induction room generalizing psz with
  | zero => rfl
  | succ room induction =>
      match psz with
      | [] => rw [setHexLoop, List.length_cons, induction]
      | [low] => rw [setHexLoop, List.length_cons, induction]
      | low :: high :: psz => rw [setHexLoop, List.length_cons, induction]

theorem length_wordsAt {count : Nat} {bytes : List UInt8} (size : bytes.length = count * 4) :
    (wordsAt bytes).length = count := by
  induction count generalizing bytes with
  | zero =>
      rw [List.eq_nil_of_length_eq_zero (by omega : bytes.length = 0)]
      rfl
  | succ count induction =>
      match bytes with
      | [] | [_] | [_, _] | [_, _, _] =>
          simp only [List.length_cons, List.length_nil] at size
          omega
      | byte0 :: byte1 :: byte2 :: byte3 :: rest =>
          simp only [List.length_cons] at size
          rw [wordsAt, List.length_cons, induction (by omega)]

/-- `SetHex`. -/
def setHex (BITS : Nat) (psz : List UInt8) : BaseUint BITS where
  pn := wordsAt (setHexLoop (BITS / 32 * 4)
    ((skipPrefix psz).takeWhile fun c => phexdigit c ≠ 0 ∨ c = 48).reverse)
  length_pn := length_wordsAt (length_setHexLoop _ _)

/-! ## Carries and borrows -/

section Loops

variable {pn bn : List (BitVec 32)}

private theorem low_word (n : BitVec 64) :
    ((n &&& 0xffffffff).setWidth 32).toNat = n.toNat % 2 ^ 32 := by
  have mask : (0xffffffff : BitVec 64).toNat = 2 ^ 32 - 1 := rfl
  rw [BitVec.toNat_setWidth, BitVec.toNat_and, mask, Nat.and_two_pow_sub_one_eq_mod, Nat.mod_mod]

private theorem value_addLoop {carry : BitVec 64} (bit : carry.toNat ≤ 1)
    (same : pn.length = bn.length) : Words.value (addLoop carry pn bn) =
      (carry.toNat + Words.value pn + Words.value bn) % 2 ^ (32 * pn.length) := by
  induction pn generalizing carry bn with
  | nil =>
      rw [addLoop]
      · simp [Words.value, Nat.mod_one]
      · simp
  | cons p pn induction =>
      obtain ⟨q, bn, rfl⟩ := List.exists_cons_of_length_eq_add_one same.symm
      have p_lt := p.isLt
      have q_lt := q.isLt
      have sum : (carry + p.setWidth 64 + q.setWidth 64).toNat =
          carry.toNat + p.toNat + q.toNat := by
        rw [BitVec.toNat_add, BitVec.toNat_add, BitVec.toNat_setWidth, BitVec.toNat_setWidth]
        omega
      have carried : ((carry + p.setWidth 64 + q.setWidth 64) >>> 32).toNat =
          (carry.toNat + p.toNat + q.toNat) / 2 ^ 32 := by
        rw [BitVec.toNat_ushiftRight, sum, Nat.shiftRight_eq_div_pow]
      rw [addLoop, List.length_cons, Words.mod_succ]
      simp only [Words.value]
      rw [low_word, induction (by omega) (Nat.succ.inj same), sum, carried]
      have whole : carry.toNat + (p.toNat + 2 ^ 32 * Words.value pn) +
          (q.toNat + 2 ^ 32 * Words.value bn) = carry.toNat + p.toNat + q.toNat +
          2 ^ 32 * (Words.value pn + Words.value bn) := by ring
      rw [whole, Nat.add_mul_mod_self_left, Nat.add_mul_div_left _ _ (by norm_num),
        Nat.add_assoc (_ / _)]

private theorem value_incrementLoop (nonempty : pn ≠ []) :
    Words.value (incrementLoop pn) = (Words.value pn + 1) % 2 ^ (32 * pn.length) := by
  induction pn with
  | nil => exact absurd rfl nonempty
  | cons p pn induction =>
      have p_lt := p.isLt
      have sum : (p + 1).toNat = (p.toNat + 1) % 2 ^ 32 := BitVec.toNat_add p 1
      have whole : p.toNat + 2 ^ 32 * Words.value pn + 1 =
          p.toNat + 1 + 2 ^ 32 * Words.value pn := by ring
      have rest := Words.value_lt pn
      rw [incrementLoop, List.length_cons, Words.mod_succ]
      simp only [Words.value]
      rw [whole, Nat.add_mul_mod_self_left, Nat.add_mul_div_left _ _ (by norm_num)]
      split
      next both =>
        have carried : p.toNat + 1 = 2 ^ 32 := by
          have zero := congrArg BitVec.toNat both.1
          rw [sum, show (0 : BitVec 32).toNat = 0 from rfl] at zero
          omega
        rw [Words.value, sum, induction both.2, carried, Nat.div_self (by norm_num),
          Nat.add_comm 1]
      next stays =>
        rw [Words.value, sum]
        by_cases last : pn = []
        · simp [last, Words.value, Nat.mod_one]
        · have low : p.toNat + 1 < 2 ^ 32 := by
            refine Nat.lt_of_le_of_ne p_lt fun wrapped => stays ⟨?_, last⟩
            rw [← BitVec.toNat_inj, sum, wrapped]
            rfl
          rw [Nat.div_eq_of_lt low, Nat.zero_add, Nat.mod_eq_of_lt rest]

private theorem value_decrementLoop (nonempty : pn ≠ []) :
    Words.value (decrementLoop pn) =
      (Words.value pn + (2 ^ (32 * pn.length) - 1)) % 2 ^ (32 * pn.length) := by
  induction pn with
  | nil => exact absurd rfl nonempty
  | cons p pn induction =>
      have p_lt := p.isLt
      have rest := Words.value_lt pn
      have places := Nat.two_pow_pos (32 * pn.length)
      have scale : 2 ^ (32 * (pn.length + 1)) = 2 ^ 32 * 2 ^ (32 * pn.length) := by
        rw [Nat.mul_succ, Nat.add_comm, pow_add]
      have difference : (p - 1).toNat = (p.toNat + (2 ^ 32 - 1)) % 2 ^ 32 := by
        rw [BitVec.toNat_sub, Nat.add_comm]
        rfl
      have whole : p.toNat + 2 ^ 32 * Words.value pn + (2 ^ (32 * (pn.length + 1)) - 1) =
          p.toNat + (2 ^ 32 - 1) + 2 ^ 32 * (Words.value pn + (2 ^ (32 * pn.length) - 1)) := by
        rw [scale]
        omega
      rw [decrementLoop, List.length_cons, Words.mod_succ]
      simp only [Words.value]
      rw [whole, Nat.add_mul_mod_self_left, Nat.add_mul_div_left _ _ (by norm_num)]
      split
      next both =>
        have zero : p.toNat = 0 := by
          have wrapped := congrArg BitVec.toNat both.1
          rw [difference] at wrapped
          have ones : (-1 : BitVec 32).toNat = 2 ^ 32 - 1 := rfl
          rw [ones] at wrapped
          omega
        rw [Words.value, difference, induction both.2, zero, Nat.zero_add,
          Nat.div_eq_of_lt (by norm_num), Nat.zero_add]
      next stays =>
        rw [Words.value, difference]
        by_cases last : pn = []
        · simp [last, Words.value, Nat.mod_one]
        · have positive : 0 < p.toNat := by
            refine Nat.pos_of_ne_zero fun zero => stays ⟨?_, last⟩
            rw [← BitVec.toNat_inj, difference, zero]
            rfl
          have borrowed : (p.toNat + (2 ^ 32 - 1)) / 2 ^ 32 = 1 := by omega
          have around : 1 + (Words.value pn + (2 ^ (32 * pn.length) - 1)) =
              Words.value pn + 2 ^ (32 * pn.length) := by omega
          rw [borrowed, around, Nat.add_mod_right, Nat.mod_eq_of_lt rest]

end Loops

/-! ## Shifts -/

/-- A word that is or-ed into one place sets its bits there. -/
private theorem modify_bit {pn : List (BitVec 32)} {position j t : Nat} (applies : Prop)
    [Decidable applies] (word : BitVec 32) (inside : j < pn.length) :
    ((if applies then pn.modify position (· ||| word) else pn).getD j 0).getLsbD t = true ↔
      (pn.getD j 0).getLsbD t = true ∨ applies ∧ position = j ∧ word.getLsbD t = true := by
  split
  next holds =>
    rw [List.getD_eq_getElem?_getD, List.getD_eq_getElem?_getD, List.getElem?_modify,
      List.getElem?_eq_getElem inside]
    by_cases here : position = j
    · simp [here, holds]
    · simp [here]
  next not => simp [not]

/-- Where each round of a shift sets some bits, the loop sets those of all rounds. -/
private theorem getLsbD_shiftLoop {step : List (BitVec 32) → Nat → List (BitVec 32)}
    {WIDTH j t : Nat} {bit : Nat → Prop}
    (keeps : ∀ pn i, (step pn i).length = pn.length)
    (round : ∀ pn i, pn.length = WIDTH → (((step pn i).getD j 0).getLsbD t = true ↔
      (pn.getD j 0).getLsbD t = true ∨ bit i)) :
    ((shiftLoop step WIDTH).getD j 0).getLsbD t = true ↔ ∃ i < WIDTH, bit i := by
  have fold (rounds : Nat) :
      ((List.range rounds).foldl step (List.replicate WIDTH 0)).length = WIDTH ∧
      ((((List.range rounds).foldl step (List.replicate WIDTH 0)).getD j 0).getLsbD t = true ↔
        ∃ i < rounds, bit i) := by
    induction rounds with
    | zero => simp
    | succ rounds induction =>
        obtain ⟨length, bits⟩ := induction
        rw [List.range_succ, List.foldl_append, List.foldl_cons, List.foldl_nil]
        refine ⟨(keeps _ _).trans length, ?_⟩
        rw [round _ _ length, bits]
        constructor
        · rintro (⟨i, below, set⟩ | set)
          · exact ⟨i, by omega, set⟩
          · exact ⟨rounds, by omega, set⟩
        · rintro ⟨i, below, set⟩
          rcases Nat.lt_or_eq_of_le (Nat.le_of_lt_succ below) with earlier | rfl
          · exact Or.inl ⟨i, earlier, set⟩
          · exact Or.inr set
  exact (fold WIDTH).2

private theorem shiftLeftStep_bit {WIDTH j : Nat} (k shift t : Nat) {a pn : List (BitVec 32)}
    (i : Nat) (length : pn.length = WIDTH) (inside : j < WIDTH) :
    ((shiftLeftStep WIDTH k shift a pn i).getD j 0).getLsbD t = true ↔
      (pn.getD j 0).getLsbD t = true ∨
      ((i + k + 1 = j ∧ shift ≠ 0 ∧ (a.getD i 0 >>> (32 - shift)).getLsbD t = true) ∨
        i + k = j ∧ (a.getD i 0 <<< shift).getLsbD t = true) := by
  subst length
  simp only [shiftLeftStep]
  rw [modify_bit _ _ (by split <;> simpa using inside), modify_bit _ _ inside, or_assoc]
  constructor
  · rintro (kept | ⟨⟨_, nonzero⟩, place, set⟩ | ⟨_, place, set⟩)
    · exact Or.inl kept
    · exact Or.inr (Or.inl ⟨place, nonzero, set⟩)
    · exact Or.inr (Or.inr ⟨place, set⟩)
  · rintro (kept | ⟨place, nonzero, set⟩ | ⟨place, set⟩)
    · exact Or.inl kept
    · exact Or.inr (Or.inl ⟨⟨place ▸ inside, nonzero⟩, place, set⟩)
    · exact Or.inr (Or.inr ⟨place ▸ inside, place, set⟩)

private theorem shiftRightStep_bit {WIDTH j : Nat} (k shift t : Nat) {a pn : List (BitVec 32)}
    (i : Nat) (length : pn.length = WIDTH) (inside : j < WIDTH) :
    ((shiftRightStep k shift a pn i).getD j 0).getLsbD t = true ↔
      (pn.getD j 0).getLsbD t = true ∨
      ((i = j + k + 1 ∧ shift ≠ 0 ∧ (a.getD i 0 <<< (32 - shift)).getLsbD t = true) ∨
        i = j + k ∧ (a.getD i 0 >>> shift).getLsbD t = true) := by
  subst length
  simp only [shiftRightStep]
  rw [modify_bit _ _ (by split <;> simpa using inside), modify_bit _ _ inside, or_assoc]
  constructor
  · rintro (kept | ⟨⟨reaches, nonzero⟩, place, set⟩ | ⟨reaches, place, set⟩)
    · exact Or.inl kept
    · exact Or.inr (Or.inl ⟨by omega, nonzero, set⟩)
    · exact Or.inr (Or.inr ⟨by omega, set⟩)
  · rintro (kept | ⟨place, nonzero, set⟩ | ⟨place, set⟩)
    · exact Or.inl kept
    · exact Or.inr (Or.inl ⟨⟨by omega, nonzero⟩, by omega, set⟩)
    · exact Or.inr (Or.inr ⟨by omega, by omega, set⟩)

variable {a b : BaseUint BITS}

private theorem testBit_value (a : BaseUint BITS) (position : Nat) :
    a.value.testBit position = (a.pn.getD (position / 32) 0).getLsbD (position % 32) :=
  Words.testBit_value (by norm_num) a.pn position

private theorem value_lt (multiple : 32 ∣ BITS) (a : BaseUint BITS) : a.value < 2 ^ BITS := by
  have below := Words.value_lt a.pn
  rwa [a.length_pn, Nat.mul_div_cancel' multiple] at below

private theorem testBit_beyond (multiple : 32 ∣ BITS) (a : BaseUint BITS) {position : Nat}
    (beyond : BITS ≤ position) : a.value.testBit position = false :=
  Nat.testBit_lt_two_pow
    ((value_lt multiple a).trans_le (Nat.pow_le_pow_right (by norm_num) beyond))

private theorem value_shiftLeftAssign (multiple : 32 ∣ BITS) (a : BaseUint BITS)
    (shift : BitVec 32) :
    (a.shiftLeftAssign shift).value = a.value * 2 ^ shift.toNat % 2 ^ BITS := by
  refine Nat.eq_of_testBit_eq fun position => ?_
  rw [Nat.testBit_mod_two_pow, Nat.testBit_mul_two_pow]
  by_cases inside : position < BITS
  · have place : position / 32 < BITS / 32 := by omega
    rw [Bool.eq_iff_iff, testBit_value, shiftLeftAssign,
      getLsbD_shiftLoop (fun _ _ => length_shiftLeftStep _ _ _ _ _ _)
        fun pn i length => shiftLeftStep_bit _ _ _ i length place]
    simp only [inside, decide_true, Bool.true_and, Bool.and_eq_true, decide_eq_true_eq,
      testBit_value, BitVec.getLsbD_ushiftRight, BitVec.getLsbD_shiftLeft, Bool.not_eq_true',
      decide_eq_false_iff_not]
    generalize shift.toNat = s
    constructor
    · rintro ⟨i, -, ⟨place, nonzero, set⟩ | ⟨place, ⟨-, above⟩, set⟩⟩
      · have low := BitVec.lt_of_getLsbD set
        have word : (position - s) / 32 = i := by omega
        have bit : (position - s) % 32 = 32 - s % 32 + position % 32 := by omega
        exact ⟨by omega, by rw [word, bit, set]⟩
      · have word : (position - s) / 32 = i := by omega
        have bit : (position - s) % 32 = position % 32 - s % 32 := by omega
        exact ⟨by omega, by rw [word, bit, set]⟩
    · rintro ⟨reaches, set⟩
      refine ⟨(position - s) / 32, by omega, ?_⟩
      by_cases above : s % 32 ≤ position % 32
      · have bit : (position - s) % 32 = position % 32 - s % 32 := by omega
        exact Or.inr ⟨by omega, ⟨by omega, by omega⟩, by rw [← bit, set]⟩
      · have bit : (position - s) % 32 = 32 - s % 32 + position % 32 := by omega
        exact Or.inl ⟨by omega, by omega, by rw [← bit, set]⟩
  · rw [testBit_beyond multiple _ (Nat.le_of_not_lt inside)]
    simp [inside]

private theorem value_shiftRightAssign (multiple : 32 ∣ BITS) (a : BaseUint BITS)
    (shift : BitVec 32) : (a.shiftRightAssign shift).value = a.value / 2 ^ shift.toNat := by
  refine Nat.eq_of_testBit_eq fun position => ?_
  rw [Nat.testBit_div_two_pow]
  by_cases inside : position < BITS
  · have place : position / 32 < BITS / 32 := by omega
    rw [Bool.eq_iff_iff, testBit_value, testBit_value, shiftRightAssign,
      getLsbD_shiftLoop (fun _ _ => length_shiftRightStep _ _ _ _ _)
        fun pn i length => shiftRightStep_bit _ _ _ i length place]
    simp only [Bool.and_eq_true, decide_eq_true_eq, BitVec.getLsbD_ushiftRight,
      BitVec.getLsbD_shiftLeft, Bool.not_eq_true', decide_eq_false_iff_not]
    generalize shift.toNat = s
    constructor
    · rintro ⟨i, -, ⟨place, nonzero, ⟨-, above⟩, set⟩ | ⟨place, set⟩⟩
      · have word : (position + s) / 32 = i := by omega
        have bit : (position + s) % 32 = position % 32 - (32 - s % 32) := by omega
        rw [word, bit, set]
      · have low := BitVec.lt_of_getLsbD set
        have word : (position + s) / 32 = i := by omega
        have bit : (position + s) % 32 = s % 32 + position % 32 := by omega
        rw [word, bit, set]
    · intro set
      have reaches : (position + s) / 32 < BITS / 32 := by
        rw [← a.length_pn]
        by_contra beyond
        rw [List.getD_eq_default _ _ (Nat.le_of_not_lt beyond)] at set
        exact absurd set (by simp)
      refine ⟨(position + s) / 32, reaches, ?_⟩
      by_cases above : 32 ≤ position % 32 + s % 32
      · have bit : (position + s) % 32 = position % 32 - (32 - s % 32) := by omega
        exact Or.inl ⟨by omega, by omega, ⟨by omega, by omega⟩, by rw [← bit, set]⟩
      · have bit : (position + s) % 32 = s % 32 + position % 32 := by omega
        exact Or.inr ⟨by omega, by rw [← bit, set]⟩
  · rw [testBit_beyond multiple _ (Nat.le_of_not_lt inside),
      testBit_beyond multiple a (by omega)]

/-! ## Order -/

private theorem compareLoop_swap (last : Bool) (as bs : List (BitVec 32)) :
    compareLoop (· > ·) last as bs = compareLoop (· < ·) last bs as := by
  induction as generalizing bs with
  | nil => cases bs <;> rfl
  | cons p as induction =>
      cases bs with
      | nil => rfl
      | cons q bs =>
          rw [compareLoop, compareLoop, induction]

/-- The comparison from the highest word on decides as the numbers do. -/
private theorem compareLoop_iff {as bs : List (BitVec 32)} (last : Bool)
    (same : as.length = bs.length) :
    compareLoop (· < ·) last as.reverse bs.reverse = true ↔
      Words.value as < Words.value bs ∨ last = true ∧ as = bs := by
  induction as using List.reverseRecOn generalizing bs with
  | nil =>
      rw [List.eq_nil_of_length_eq_zero same.symm]
      simp [compareLoop]
  | append_singleton as p induction =>
      rcases List.eq_nil_or_concat bs with rfl | ⟨bs, q, rfl⟩
      · simp at same
      · rw [List.concat_eq_append] at same ⊢
        have shorter : as.length = bs.length := by simpa using same
        rw [List.reverse_append, List.reverse_append, List.reverse_singleton,
          List.reverse_singleton, List.singleton_append, List.singleton_append, compareLoop,
          Words.value_concat_lt_iff shorter]
        by_cases less : p < q
        · simp [less]
        · by_cases greater : q < p
          · have different : p ≠ q := fun equal => absurd (equal ▸ greater) (BitVec.lt_irrefl _)
            simp [less, greater, different]
          · have equal : p = q :=
              BitVec.le_antisymm (BitVec.not_lt.mp greater) (BitVec.not_lt.mp less)
            subst equal
            simp [induction shorter]

private theorem equalLoop_iff {as bs : List (BitVec 32)} (same : as.length = bs.length) :
    equalLoop as bs = true ↔ as = bs := by
  induction as generalizing bs with
  | nil =>
      rw [List.eq_nil_of_length_eq_zero same.symm]
      simp [equalLoop]
  | cons p as induction =>
      obtain ⟨q, bs, rfl⟩ := List.exists_cons_of_length_eq_add_one same.symm
      rw [equalLoop, List.cons.injEq]
      by_cases equal : p = q
      · simp [equal, induction (Nat.succ.inj same)]
      · simp [equal]

/-! ## Digits -/

private theorem wordsAt_memory (pn : List (BitVec 32)) : wordsAt (memory pn) = pn := by
  induction pn with
  | nil => rfl
  | cons p pn induction =>
      have word : ofLE (leBytes 4 p.toNat) = p.toNat :=
        ofLE_leBytes_of_lt (p.isLt.trans_eq (by norm_num))
      have parts : memory (p :: pn) = leBytes 4 p.toNat ++ memory pn := List.flatMap_cons
      rw [parts]
      simp only [leBytes, List.cons_append, List.nil_append] at word ⊢
      rw [wordsAt, word, BitVec.ofNat_toNat, BitVec.setWidth_eq, induction]

private theorem hexByte_spec (byte : UInt8) :
    ((hexByte byte).all fun c =>
      (phexdigit c ≠ 0 ∨ c = 48) ∧ isSpace c = false ∧ toLower c ≠ 120) = true ∧
    phexdigit (hexChar (byte &&& 0x0f)) ||| phexdigit (hexChar (byte >>> 4)) <<< 4 = byte :=
  @BitGroups.forall_byte (fun byte => ((hexByte byte).all fun c =>
      (phexdigit c ≠ 0 ∨ c = 48) ∧ isSpace c = false ∧ toLower c ≠ 120) = true ∧
    phexdigit (hexChar (byte &&& 0x0f)) ||| phexdigit (hexChar (byte >>> 4)) <<< 4 = byte)
    (by decide +kernel) byte

/-- The digits of some bytes, the last byte in front, are read back from the end. -/
private theorem setHexLoop_hexByte (bytes : List UInt8) :
    setHexLoop bytes.length (bytes.reverse.flatMap hexByte).reverse = bytes := by
  induction bytes with
  | nil => rfl
  | cons byte bytes induction =>
      obtain ⟨-, joined⟩ := hexByte_spec byte
      have last : ((byte :: bytes).reverse.flatMap hexByte).reverse =
          hexChar (byte &&& 0x0f) :: hexChar (byte >>> 4) ::
            (bytes.reverse.flatMap hexByte).reverse := by
        rw [List.reverse_cons, List.flatMap_append, List.reverse_append]
        rfl
      rw [last, List.length_cons, setHexLoop, joined, induction]

private theorem skipPrefix_eq {psz : List UInt8}
    (digits : ∀ c ∈ psz, isSpace c = false ∧ toLower c ≠ 120) : skipPrefix psz = psz := by
  have visible : psz.dropWhile isSpace = psz := by
    cases psz with
    | nil => rfl
    | cons c psz => exact List.dropWhile_cons_of_neg (by simp [digits c (by simp)])
  rw [skipPrefix, visible]
  match psz with
  | [] => rfl
  | [_] => rfl
  | zero :: x :: rest => exact if_neg fun both => (digits x (by simp)).2 both.2

private theorem setHex_getHex (a : BaseUint BITS) : setHex BITS a.getHex = a := by
  have size (pn : List (BitVec 32)) : (memory pn).length = pn.length * 4 := by
    induction pn with
    | nil => rfl
    | cons p pn induction =>
        have parts : memory (p :: pn) = leBytes 4 p.toNat ++ memory pn := List.flatMap_cons
        rw [parts, List.length_append, induction, length_leBytes, List.length_cons]
        ring
  have digits : ∀ c ∈ a.getHex,
      (phexdigit c ≠ 0 ∨ c = 48) ∧ isSpace c = false ∧ toLower c ≠ 120 := by
    intro c mem
    rw [getHex] at mem
    obtain ⟨byte, -, written⟩ := List.mem_flatMap.mp mem
    exact of_decide_eq_true (List.all_eq_true.mp (hexByte_spec byte).1 c written)
  have all : (a.getHex.takeWhile fun c => phexdigit c ≠ 0 ∨ c = 48) = a.getHex :=
    List.takeWhile_eq_self_iff.mpr fun c mem => by simpa using (digits c mem).1
  have words : wordsAt (setHexLoop (BITS / 32 * 4) ((skipPrefix a.getHex).takeWhile fun c =>
      phexdigit c ≠ 0 ∨ c = 48).reverse) = a.pn := by
    rw [skipPrefix_eq fun c mem => (digits c mem).2, all, ← a.length_pn, ← size, getHex,
      setHexLoop_hexByte, wordsAt_memory]
  exact BaseUint.ext words

/-! ## The operators -/

private theorem value_complement (multiple : 32 ∣ BITS) (a : BaseUint BITS) :
    a.complement.value = 2 ^ BITS - 1 - a.value := by
  have complemented := Words.value_map_not a.pn
  rwa [a.length_pn, Nat.mul_div_cancel' multiple] at complemented

private theorem pn_ne_nil (positive : 0 < BITS) (multiple : 32 ∣ BITS) (a : BaseUint BITS) :
    a.pn ≠ [] := by
  rw [← List.length_pos_iff, a.length_pn]
  exact Nat.div_pos (Nat.le_of_dvd positive multiple) (by norm_num)

private theorem value_addAssign (multiple : 32 ∣ BITS) (a b : BaseUint BITS) :
    (a.addAssign b).value = (a.value + b.value) % 2 ^ BITS := by
  have same : a.pn.length = b.pn.length := a.length_pn.trans b.length_pn.symm
  have added := @value_addLoop a.pn b.pn 0 (by simp) same
  rwa [a.length_pn, Nat.mul_div_cancel' multiple, show (0 : BitVec 64).toNat = 0 from rfl,
    Nat.zero_add] at added

private theorem value_preIncrement (positive : 0 < BITS) (multiple : 32 ∣ BITS)
    (a : BaseUint BITS) : a.preIncrement.value = (a.value + 1) % 2 ^ BITS := by
  have incremented := value_incrementLoop (a.pn_ne_nil positive multiple)
  rwa [a.length_pn, Nat.mul_div_cancel' multiple] at incremented

private theorem value_preDecrement (positive : 0 < BITS) (multiple : 32 ∣ BITS)
    (a : BaseUint BITS) : a.preDecrement.value = (a.value + (2 ^ BITS - 1)) % 2 ^ BITS := by
  have decremented := value_decrementLoop (a.pn_ne_nil positive multiple)
  rwa [a.length_pn, Nat.mul_div_cancel' multiple] at decremented

private theorem value_negate (positive : 0 < BITS) (multiple : 32 ∣ BITS) (a : BaseUint BITS) :
    a.negate.value = (2 ^ BITS - a.value) % 2 ^ BITS := by
  have below := value_lt multiple a
  have around : 2 ^ BITS - 1 - a.value + 1 = 2 ^ BITS - a.value := by omega
  rw [negate, postIncrement, value_preIncrement positive multiple, value_complement multiple,
    around]

private theorem value_subAssign (positive : 0 < BITS) (multiple : 32 ∣ BITS)
    (a b : BaseUint BITS) :
    (a.subAssign b).value = (a.value + (2 ^ BITS - b.value)) % 2 ^ BITS := by
  rw [subAssign, value_addAssign multiple, value_negate positive multiple, Nat.add_mod_mod]

private theorem value_bitwise {op : BitVec 32 → BitVec 32 → BitVec 32} {number : Nat → Nat → Nat}
    {bit : Bool → Bool → Bool} (off : bit false false = false)
    (words_bit : ∀ x y position, (op x y).getLsbD position =
      bit (x.getLsbD position) (y.getLsbD position))
    (number_bit : ∀ x y position, (number x y).testBit position =
      bit (x.testBit position) (y.testBit position)) (a b : BaseUint BITS) :
    (bitwise op a b).value = number a.value b.value :=
  Words.value_zipWith (by norm_num) off words_bit number_bit (a.length_pn.trans b.length_pn.symm)

private theorem eq_iff (a b : BaseUint BITS) : eq a b = true ↔ a.value = b.value := by
  have same : a.pn.length = b.pn.length := a.length_pn.trans b.length_pn.symm
  rw [eq, equalLoop_iff same, value, value, Words.value_inj same]

private theorem lt_iff (a b : BaseUint BITS) : lt a b = true ↔ a.value < b.value := by
  rw [lt, compareLoop_iff false (a.length_pn.trans b.length_pn.symm)]
  simp [value]

private theorem le_iff (a b : BaseUint BITS) : le a b = true ↔ a.value ≤ b.value := by
  have same : a.pn.length = b.pn.length := a.length_pn.trans b.length_pn.symm
  rw [le, compareLoop_iff true same, Nat.le_iff_lt_or_eq, value, value, Words.value_inj same]
  simp

/-- Every operator is the operation on naturals modulo `2 ^ BITS`, for every width, all integers and
every shift count, and the hexadecimal text of an integer reads back as the integer. -/
theorem operators_exact (positive : 0 < BITS) (multiple : 32 ∣ BITS) (a b : BaseUint BITS)
    (shift : BitVec 32) :
    (a.value < 2 ^ BITS ∧ (a.value = b.value → a = b)) ∧
    ((a.addAssign b).value = (a.value + b.value) % 2 ^ BITS ∧
      (a.subAssign b).value = (a.value + (2 ^ BITS - b.value)) % 2 ^ BITS ∧
      a.negate.value = (2 ^ BITS - a.value) % 2 ^ BITS) ∧
    (a.preIncrement.value = (a.value + 1) % 2 ^ BITS ∧
      a.postIncrement.1 = a ∧ a.postIncrement.2.value = (a.value + 1) % 2 ^ BITS ∧
      a.preDecrement.value = (a.value + (2 ^ BITS - 1)) % 2 ^ BITS ∧
      a.postDecrement.1 = a ∧ a.postDecrement.2.value = (a.value + (2 ^ BITS - 1)) % 2 ^ BITS) ∧
    ((a.shiftLeftAssign shift).value = a.value * 2 ^ shift.toNat % 2 ^ BITS ∧
      (a.shiftRightAssign shift).value = a.value / 2 ^ shift.toNat) ∧
    (a.complement.value = 2 ^ BITS - 1 - a.value ∧ (a.xorAssign b).value = a.value ^^^ b.value ∧
      (a.andAssign b).value = a.value &&& b.value ∧ (a.orAssign b).value = a.value ||| b.value) ∧
    ((lt a b = true ↔ a.value < b.value) ∧ (le a b = true ↔ a.value ≤ b.value) ∧
      (gt a b = true ↔ a.value > b.value) ∧ (ge a b = true ↔ a.value ≥ b.value) ∧
      (eq a b = true ↔ a.value = b.value) ∧ (ne a b = true ↔ a.value ≠ b.value)) ∧
    setHex BITS a.getHex = a := by
  refine ⟨⟨value_lt multiple a, fun equal => ?_⟩, ⟨value_addAssign multiple a b,
    value_subAssign positive multiple a b, value_negate positive multiple a⟩,
    ⟨value_preIncrement positive multiple a, rfl, value_preIncrement positive multiple a,
      value_preDecrement positive multiple a, rfl, value_preDecrement positive multiple a⟩,
    ⟨value_shiftLeftAssign multiple a shift, value_shiftRightAssign multiple a shift⟩,
    ⟨value_complement multiple a, ?_, ?_, ?_⟩,
    ⟨lt_iff a b, le_iff a b, ?_, ?_, eq_iff a b, ?_⟩, setHex_getHex a⟩
  · exact BaseUint.ext ((Words.value_inj (a.length_pn.trans b.length_pn.symm)).mp equal)
  · exact value_bitwise rfl (fun _ _ _ => BitVec.getLsbD_xor) Nat.testBit_xor a b
  · exact value_bitwise rfl (fun _ _ _ => BitVec.getLsbD_and) Nat.testBit_and a b
  · exact value_bitwise rfl (fun _ _ _ => BitVec.getLsbD_or) Nat.testBit_or a b
  · rw [gt, compareLoop_swap]
    exact lt_iff b a
  · rw [ge, compareLoop_swap]
    exact le_iff b a
  · rw [ne, Bool.not_eq_true', ← Bool.not_eq_true, eq_iff]

/-- A number of two words whose lower word is full. -/
def twoWords : BaseUint 64 where
  pn := [0xffffffff, 1]
  length_pn := rfl

theorem operators_exact_twoWords :
    (twoWords.addAssign twoWords).value = (twoWords.value + twoWords.value) % 2 ^ 64 ∧
      twoWords.negate.value = (2 ^ 64 - twoWords.value) % 2 ^ 64 ∧
      (twoWords.shiftLeftAssign 33).value = twoWords.value * 2 ^ 33 % 2 ^ 64 ∧
      setHex 64 twoWords.getHex = twoWords := by
  obtain ⟨-, ⟨add, -, negate⟩, -, ⟨left, -⟩, -, -, text⟩ :=
    operators_exact (by decide) (by decide) twoWords twoWords 33
  exact ⟨add, negate, left, text⟩

end BaseUint

end FooCoin

import Mathlib.Tactic

/-!
# Little-endian bytes

Fixed-width little-endian words and their value.  `leBytes` writes the low `width` bytes of a
number, `ofLE` reads a byte string back, and the two are inverse on numbers that fit.
-/

namespace LittleEndian

/-- The `width` low bytes of `value`, least significant first. -/
def leBytes : Nat → Nat → List UInt8
  | 0, _ => []
  | width + 1, value => UInt8.ofNat (value % 256) :: leBytes width (value / 256)

/-- The number written least significant byte first. -/
def ofLE : List UInt8 → Nat
  | [] => 0
  | byte :: bytes => byte.toNat + 256 * ofLE bytes

@[simp]
theorem length_leBytes (width value : Nat) : (leBytes width value).length = width := by
  induction width generalizing value with
  | zero => rfl
  | succ width induction => simp [leBytes, induction]

theorem ofLE_leBytes (width value : Nat) : ofLE (leBytes width value) = value % 256 ^ width := by
  induction width generalizing value with
  | zero => simp [leBytes, ofLE, Nat.mod_one]
  | succ width induction =>
      have byte : (UInt8.ofNat (value % 256)).toNat = value % 256 := by
        simp [UInt8.toNat_ofNat']
      rw [leBytes, ofLE, induction, byte, pow_succ, mul_comm (256 ^ width) 256, Nat.mod_mul]

/-- Numbers of `width` bytes are read back exactly. -/
theorem ofLE_leBytes_of_lt {width value : Nat} (fits : value < 256 ^ width) :
    ofLE (leBytes width value) = value := by
  rw [ofLE_leBytes, Nat.mod_eq_of_lt fits]

/-- A byte string stands for a number of its length. -/
theorem ofLE_lt (bytes : List UInt8) : ofLE bytes < 256 ^ bytes.length := by
  induction bytes with
  | nil => simp [ofLE]
  | cons byte bytes induction =>
      have low := byte.toNat_lt
      simp only [ofLE, List.length_cons, pow_succ]
      omega

/-- A byte string is written back from its number. -/
theorem leBytes_ofLE (bytes : List UInt8) : leBytes bytes.length (ofLE bytes) = bytes := by
  induction bytes with
  | nil => rfl
  | cons byte bytes induction =>
      have low := byte.toNat_lt
      have first : (byte.toNat + 256 * ofLE bytes) % 256 = byte.toNat := by omega
      have later : (byte.toNat + 256 * ofLE bytes) / 256 = ofLE bytes := by omega
      rw [ofLE, List.length_cons, leBytes, first, later, induction, UInt8.ofNat_toNat]

/-- Numbers of `width` bytes are told apart by their bytes. -/
theorem leBytes_injective {width left right : Nat} (left_fits : left < 256 ^ width)
    (right_fits : right < 256 ^ width) (same : leBytes width left = leBytes width right) :
    left = right := by
  rw [← ofLE_leBytes_of_lt left_fits, ← ofLE_leBytes_of_lt right_fits, same]

theorem ofLE_append (front back : List UInt8) :
    ofLE (front ++ back) = ofLE front + 256 ^ front.length * ofLE back := by
  induction front with
  | nil => simp [ofLE]
  | cons byte front induction =>
      simp only [List.cons_append, ofLE, induction, List.length_cons, pow_succ]
      ring

theorem ofLE_concat (init : List UInt8) (top : UInt8) :
    ofLE (init ++ [top]) = ofLE init + 256 ^ init.length * top.toNat := by
  rw [ofLE_append]
  simp [ofLE]

theorem ofLE_replicate_zero (count : Nat) : ofLE (List.replicate count 0) = 0 := by
  induction count with
  | zero => rfl
  | succ count induction => rw [List.replicate_succ, ofLE, induction]; rfl

/-- The low bytes stand for the rest of the number. -/
theorem ofLE_take (count : Nat) (bytes : List UInt8) :
    ofLE (bytes.take count) = ofLE bytes % 256 ^ count := by
  rcases Nat.le_total bytes.length count with all | fewer
  · rw [List.take_of_length_le all, Nat.mod_eq_of_lt]
    exact (ofLE_lt bytes).trans_le (Nat.pow_le_pow_right (by norm_num) all)
  · have size : (bytes.take count).length = count := List.length_take_of_le fewer
    have low := ofLE_lt (bytes.take count)
    conv_rhs => rw [← List.take_append_drop count bytes, ofLE_append, size]
    rw [size] at low
    rw [Nat.add_mul_mod_self_left, Nat.mod_eq_of_lt low]

end LittleEndian

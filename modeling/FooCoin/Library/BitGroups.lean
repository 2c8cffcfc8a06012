import Mathlib.Data.Nat.Bitwise
import Mathlib.Tactic

/-!
# Groups of bits

A list of words of a fixed width is a string of bits, most significant first.  The string gives the
words back, also when fewer bits than a word follow.  Shifts, masks and disjunctions of words cut
and join such strings.
-/

namespace BitGroups

/-- The low bits of a number, most significant first. -/
def bits : Nat → Nat → List Bool
  | 0, _ => []
  | width + 1, value => value.testBit width :: bits width value

/-- The bits of some words. -/
def stream (width : Nat) (words : List Nat) : List Bool := words.flatMap (bits width)

variable {width value other : Nat}

@[simp]
theorem length_bits (width value : Nat) : (bits width value).length = width := by
  induction width with
  | zero => rfl
  | succ width induction => rw [bits, List.length_cons, induction]

@[simp]
theorem stream_nil (width : Nat) : stream width [] = [] := rfl

@[simp]
theorem stream_cons (width word : Nat) (words : List Nat) :
    stream width (word :: words) = bits width word ++ stream width words := rfl

theorem stream_singleton (width word : Nat) : stream width [word] = bits width word := by
  rw [stream_cons, stream_nil, List.append_nil]

theorem stream_append (width : Nat) (words others : List Nat) :
    stream width (words ++ others) = stream width words ++ stream width others :=
  List.flatMap_append

@[simp]
theorem length_stream (width : Nat) (words : List Nat) :
    (stream width words).length = width * words.length := by
  induction words with
  | nil => rfl
  | cons word words induction =>
      rw [stream_cons, List.length_append, length_bits, induction, List.length_cons]
      ring

theorem take_stream (width count : Nat) (words : List Nat) :
    (stream width words).take (width * count) = stream width (words.take count) := by
  induction words generalizing count with
  | nil => simp
  | cons word words induction =>
      cases count with
      | zero => simp
      | succ count =>
          have first : width * (count + 1) = (bits width word).length + width * count := by
            rw [length_bits]
            ring
          rw [stream_cons, first, List.take_length_add_append, induction, List.take_succ_cons,
            stream_cons]

theorem drop_stream (width count : Nat) (words : List Nat) :
    (stream width words).drop (width * count) = stream width (words.drop count) := by
  have parts := take_stream width count words ▸
    List.take_append_drop (width * count) (stream width words)
  have split : stream width (words.take count) ++ stream width (words.drop count) =
      stream width words := by
    rw [← stream_append, List.take_append_drop]
  exact List.append_cancel_left (parts.trans split.symm)

/-! ## Bits and numbers -/

theorem bits_eq_iff : bits width value = bits width other ↔
    ∀ position < width, value.testBit position = other.testBit position := by
  induction width with
  | zero => simp [bits]
  | succ width induction =>
      rw [bits, bits, List.cons.injEq, induction]
      constructor
      · rintro ⟨top, low⟩ position inside
        rcases Nat.lt_succ_iff_lt_or_eq.mp inside with less | rfl
        · exact low position less
        · exact top
      · exact fun same => ⟨same width (Nat.lt_succ_self width),
          fun position less => same position (Nat.lt_succ_of_lt less)⟩

/-- A word is told by its bits. -/
theorem bits_injective (small : value < 2 ^ width) (other_small : other < 2 ^ width)
    (same : bits width value = bits width other) : value = other := by
  apply Nat.eq_of_testBit_eq
  intro position
  rcases Nat.lt_or_ge position width with inside | beyond
  · exact bits_eq_iff.mp same position inside
  · have bound := Nat.pow_le_pow_right Nat.two_pos beyond
    rw [Nat.testBit_lt_two_pow (small.trans_le bound),
      Nat.testBit_lt_two_pow (other_small.trans_le bound)]

@[simp]
theorem bits_zero (width : Nat) : bits width 0 = List.replicate width false := by
  induction width with
  | zero => rfl
  | succ width induction => rw [bits, induction, Nat.zero_testBit, List.replicate_succ]

theorem bits_mod (width value : Nat) : bits width (value % 2 ^ width) = bits width value :=
  bits_eq_iff.mpr fun position inside => by simp [Nat.testBit_mod_two_pow, inside]

/-- A mask keeps the bits that it covers. -/
theorem bits_and_mask (width value : Nat) :
    bits width (value &&& (2 ^ width - 1)) = bits width value := by
  rw [Nat.and_two_pow_sub_one_eq_mod, bits_mod]

/-- The bits of a number in two parts. -/
theorem bits_add (high low value : Nat) :
    bits (high + low) value = bits high (value >>> low) ++ bits low value := by
  induction high with
  | zero => simp [bits]
  | succ high induction =>
      rw [Nat.add_right_comm, bits, bits, induction, Nat.testBit_shiftRight, Nat.add_comm low,
        List.cons_append]

/-- A number shifted in front of another one. -/
theorem bits_shift_or (high low : Nat) {front back : Nat} (small : back < 2 ^ low) :
    bits (high + low) (front <<< low ||| back) = bits high front ++ bits low back := by
  rw [bits_add]
  congr 1
  · refine bits_eq_iff.mpr fun position _ => ?_
    have beyond : back.testBit (low + position) = false :=
      Nat.testBit_lt_two_pow (small.trans_le (Nat.pow_le_pow_right Nat.two_pos (by omega)))
    simp [Nat.testBit_shiftRight, Nat.testBit_shiftLeft, beyond]
  · refine bits_eq_iff.mpr fun position inside => ?_
    simp [Nat.testBit_shiftLeft, Nat.not_le.mpr inside]

theorem shift_or_lt {high low front back : Nat} (front_lt : front < 2 ^ high)
    (back_lt : back < 2 ^ low) : front <<< low ||| back < 2 ^ (high + low) := by
  rw [← Nat.shiftLeft_add_eq_or_of_lt back_lt, Nat.shiftLeft_eq, pow_add]
  calc front * 2 ^ low + back
      < front * 2 ^ low + 2 ^ low := by omega
    _ = (front + 1) * 2 ^ low := by ring
    _ ≤ 2 ^ high * 2 ^ low := Nat.mul_le_mul_right _ front_lt

theorem shift_lt {high low front : Nat} (front_lt : front < 2 ^ high) :
    front <<< low < 2 ^ (high + low) := by
  have joined := shift_or_lt front_lt (Nat.two_pow_pos low)
  rwa [Nat.or_zero] at joined

/-- A number shifted in front of zeros. -/
theorem bits_shift (high low front : Nat) :
    bits (high + low) (front <<< low) = bits high front ++ List.replicate low false := by
  have joined := @bits_shift_or high low front 0 (Nat.two_pow_pos low)
  rwa [Nat.or_zero, bits_zero] at joined

theorem shiftRight_lt {high low value : Nat} (small : value < 2 ^ (high + low)) :
    value >>> low < 2 ^ high := by
  rw [Nat.shiftRight_eq_div_pow]
  exact Nat.div_lt_of_lt_mul (by rwa [← pow_add, Nat.add_comm low])

/-- The front of a word joined to the bits carried over, and the back of it carried over. -/
theorem bits_carry (high low keep : Nat) {carried word : Nat} (small : word < 2 ^ (low + keep)) :
    bits (high + low) (carried <<< low ||| word >>> keep) ++ bits keep word =
      bits high carried ++ bits (low + keep) word := by
  rw [bits_shift_or high low (shiftRight_lt small), bits_add low keep, List.append_assoc]

/-- The same with a mask for the bits that are carried on. -/
theorem bits_carry_mask (high low keep : Nat) {carried word : Nat}
    (small : word < 2 ^ (low + keep)) :
    bits high carried ++ bits (low + keep) word =
      bits (high + low) (carried <<< low ||| word >>> keep) ++
        bits keep (word &&& (2 ^ keep - 1)) := by
  rw [bits_and_mask, bits_carry high low keep small]

/-! ## Streams and words -/

/-- What holds of the numbers below 256 holds of every byte. -/
theorem forall_byte {p : UInt8 → Prop} (all : ∀ byte < 256, p (UInt8.ofNat byte))
    (byte : UInt8) : p byte := by
  have holds := all byte.toNat byte.toNat_lt
  rwa [UInt8.ofNat_toNat] at holds

private theorem stream_append_injective {words others : List Nat} {rest other_rest : List Bool}
    (small : ∀ word ∈ words, word < 2 ^ width) (other_small : ∀ word ∈ others, word < 2 ^ width)
    (same_length : words.length = others.length)
    (same : stream width words ++ rest = stream width others ++ other_rest) :
    words = others ∧ rest = other_rest := by
  induction words generalizing others with
  | nil =>
      obtain rfl := List.length_eq_zero_iff.mp same_length.symm
      exact ⟨rfl, same⟩
  | cons word words induction =>
      obtain ⟨head, tail, rfl⟩ := List.exists_cons_of_length_eq_add_one same_length.symm
      rw [stream_cons, stream_cons, List.append_assoc, List.append_assoc] at same
      obtain ⟨first, later⟩ := List.append_inj same (by simp)
      obtain ⟨rfl, rests⟩ := induction (fun word mem => small word (List.mem_cons_of_mem _ mem))
        (fun word mem => other_small word (List.mem_cons_of_mem _ mem))
        (Nat.succ.inj same_length) later
      have words_eq := bits_injective (small word List.mem_cons_self)
        (other_small head List.mem_cons_self) first
      exact ⟨by rw [words_eq], rests⟩

/-- Words and less than a word behind them are told by their bits. -/
theorem stream_append_inj {words others : List Nat} {rest other_rest : List Bool}
    (small : ∀ word ∈ words, word < 2 ^ width) (other_small : ∀ word ∈ others, word < 2 ^ width)
    (short : rest.length < width) (other_short : other_rest.length < width)
    (same : stream width words ++ rest = stream width others ++ other_rest) :
    words = others ∧ rest = other_rest := by
  refine stream_append_injective small other_small ?_ same
  have lengths := congrArg List.length same
  simp only [List.length_append, length_stream] at lengths
  have left : (rest.length + width * words.length) / width = words.length := by
    rw [Nat.add_mul_div_left _ _ (by omega), Nat.div_eq_of_lt short, Nat.zero_add]
  have right : (other_rest.length + width * others.length) / width = others.length := by
    rw [Nat.add_mul_div_left _ _ (by omega), Nat.div_eq_of_lt other_short, Nat.zero_add]
  rw [← left, ← right, Nat.add_comm, lengths, Nat.add_comm]

/-- Words are told by what is left of their bits without less than a word of zeros. -/
theorem stream_inj_of_zeros {words others : List Nat} {front : List Bool} {zeros other_zeros : Nat}
    (small : ∀ word ∈ words, word < 2 ^ width) (other_small : ∀ word ∈ others, word < 2 ^ width)
    (few : zeros < width) (other_few : other_zeros < width)
    (padded : stream width words = front ++ List.replicate zeros false)
    (other_padded : stream width others = front ++ List.replicate other_zeros false) :
    words = others := by
  have lengths := congrArg List.length padded
  have other_lengths := congrArg List.length other_padded
  simp only [List.length_append, length_stream, List.length_replicate] at lengths other_lengths
  have same_zeros : zeros = other_zeros := by
    have residue : (front.length + zeros) % width = (front.length + other_zeros) % width := by
      rw [← lengths, ← other_lengths, Nat.mul_mod_right, Nat.mul_mod_right]
    have cancelled : zeros % width = other_zeros % width :=
      Nat.ModEq.add_left_cancel' front.length residue
    rwa [Nat.mod_eq_of_lt few, Nat.mod_eq_of_lt other_few] at cancelled
  have same : stream width words ++ [] = stream width others ++ [] := by
    rw [padded, other_padded, same_zeros]
  exact (stream_append_inj small other_small (by simp; omega) (by simp; omega) same).1

end BitGroups

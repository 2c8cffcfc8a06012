import FooCoin.Library.BitGroups

/-!
# Base64 and Base32

Both encoders carry the bits that do not fill a character from one byte to the next, both decoders
the bits that do not fill a byte from one character to the next; `mode` tells how many there are.
A decoder stops at the first character that is no digit and then looks at the padding only: what
stands behind a complete text is not read.
-/

namespace FooCoin

open BitGroups

/-! ## Encoders -/

/-- The characters of a C string literal. -/
def characters (text : String) : List UInt8 :=
  text.toList.map fun c => UInt8.ofNat c.toNat

/-- The character `=`. -/
def padChar : UInt8 := 61

/-- `pbase64`. -/
def pbase64 : List UInt8 :=
  characters "ABCDEFGHIJKLMNOPQRSTUVWXYZabcdefghijklmnopqrstuvwxyz0123456789+/"

/-- A character of `pbase64`. -/
def char64 (digit : Nat) : UInt8 := pbase64.getD digit 0

/-- The rest of `EncodeBase64` in a mode with some bits left. -/
def encodeBase64Loop : Nat → Nat → List UInt8 → List UInt8
  | mode, left, [] =>
      if mode = 0 then []
      else if mode = 1 then [char64 left, padChar, padChar]
      else [char64 left, padChar]
  | mode, left, byte :: pch =>
      let enc := byte.toNat
      match mode with
      | 0 => char64 (enc >>> 2) :: encodeBase64Loop 1 ((enc &&& 3) <<< 4) pch
      | 1 => char64 (left ||| enc >>> 4) :: encodeBase64Loop 2 ((enc &&& 15) <<< 2) pch
      | 2 => char64 (left ||| enc >>> 6) :: char64 (enc &&& 63) :: encodeBase64Loop 0 left pch
      | mode => encodeBase64Loop mode left pch

/-- `EncodeBase64`. -/
def encodeBase64 (pch : List UInt8) : List UInt8 := encodeBase64Loop 0 0 pch

/-- `pbase32`. -/
def pbase32 : List UInt8 := characters "abcdefghijklmnopqrstuvwxyz234567"

/-- A character of `pbase32`. -/
def char32 (digit : Nat) : UInt8 := pbase32.getD digit 0

/-- `nPadding`. -/
def nPadding : List Nat := [0, 6, 4, 3, 1]

/-- The rest of `EncodeBase32` in a mode with some bits left. -/
def encodeBase32Loop : Nat → Nat → List UInt8 → List UInt8
  | mode, left, [] =>
      if mode = 0 then [] else char32 left :: List.replicate (nPadding.getD mode 0) padChar
  | mode, left, byte :: pch =>
      let enc := byte.toNat
      match mode with
      | 0 => char32 (enc >>> 3) :: encodeBase32Loop 1 ((enc &&& 7) <<< 2) pch
      | 1 =>
          char32 (left ||| enc >>> 6) :: char32 (enc >>> 1 &&& 31) ::
            encodeBase32Loop 2 ((enc &&& 1) <<< 4) pch
      | 2 => char32 (left ||| enc >>> 4) :: encodeBase32Loop 3 ((enc &&& 15) <<< 1) pch
      | 3 =>
          char32 (left ||| enc >>> 7) :: char32 (enc >>> 2 &&& 31) ::
            encodeBase32Loop 4 ((enc &&& 3) <<< 3) pch
      | 4 => char32 (left ||| enc >>> 5) :: char32 (enc &&& 31) :: encodeBase32Loop 0 left pch
      | mode => encodeBase32Loop mode left pch

/-- `EncodeBase32`. -/
def encodeBase32 (pch : List UInt8) : List UInt8 := encodeBase32Loop 0 0 pch

/-! ## Decoders -/

/-- `decode64_table`. -/
def decode64_table : List Int :=
  [ -1, -1, -1, -1, -1, -1, -1, -1, -1, -1, -1, -1, -1, -1, -1, -1, -1, -1, -1, -1,
    -1, -1, -1, -1, -1, -1, -1, -1, -1, -1, -1, -1, -1, -1, -1, -1, -1, -1, -1, -1,
    -1, -1, -1, 62, -1, -1, -1, 63, 52, 53, 54, 55, 56, 57, 58, 59, 60, 61, -1, -1,
    -1, -1, -1, -1, -1,  0,  1,  2,  3,  4,  5,  6,  7,  8,  9, 10, 11, 12, 13, 14,
    15, 16, 17, 18, 19, 20, 21, 22, 23, 24, 25, -1, -1, -1, -1, -1, -1, 26, 27, 28,
    29, 30, 31, 32, 33, 34, 35, 36, 37, 38, 39, 40, 41, 42, 43, 44, 45, 46, 47, 48,
    49, 50, 51, -1, -1, -1, -1, -1, -1, -1, -1, -1, -1, -1, -1, -1, -1, -1, -1, -1,
    -1, -1, -1, -1, -1, -1, -1, -1, -1, -1, -1, -1, -1, -1, -1, -1, -1, -1, -1, -1,
    -1, -1, -1, -1, -1, -1, -1, -1, -1, -1, -1, -1, -1, -1, -1, -1, -1, -1, -1, -1,
    -1, -1, -1, -1, -1, -1, -1, -1, -1, -1, -1, -1, -1, -1, -1, -1, -1, -1, -1, -1,
    -1, -1, -1, -1, -1, -1, -1, -1, -1, -1, -1, -1, -1, -1, -1, -1, -1, -1, -1, -1,
    -1, -1, -1, -1, -1, -1, -1, -1, -1, -1, -1, -1, -1, -1, -1, -1, -1, -1, -1, -1,
    -1, -1, -1, -1, -1, -1, -1, -1, -1, -1, -1, -1, -1, -1, -1, -1 ]

/-- `decode32_table`. -/
def decode32_table : List Int :=
  [ -1, -1, -1, -1, -1, -1, -1, -1, -1, -1, -1, -1, -1, -1, -1, -1, -1, -1, -1, -1,
    -1, -1, -1, -1, -1, -1, -1, -1, -1, -1, -1, -1, -1, -1, -1, -1, -1, -1, -1, -1,
    -1, -1, -1, -1, -1, -1, -1, -1, -1, -1, 26, 27, 28, 29, 30, 31, -1, -1, -1, -1,
    -1, -1, -1, -1, -1,  0,  1,  2,  3,  4,  5,  6,  7,  8,  9, 10, 11, 12, 13, 14,
    15, 16, 17, 18, 19, 20, 21, 22, 23, 24, 25, -1, -1, -1, -1, -1, -1,  0,  1,  2,
     3,  4,  5,  6,  7,  8,  9, 10, 11, 12, 13, 14, 15, 16, 17, 18, 19, 20, 21, 22,
    23, 24, 25, -1, -1, -1, -1, -1, -1, -1, -1, -1, -1, -1, -1, -1, -1, -1, -1, -1,
    -1, -1, -1, -1, -1, -1, -1, -1, -1, -1, -1, -1, -1, -1, -1, -1, -1, -1, -1, -1,
    -1, -1, -1, -1, -1, -1, -1, -1, -1, -1, -1, -1, -1, -1, -1, -1, -1, -1, -1, -1,
    -1, -1, -1, -1, -1, -1, -1, -1, -1, -1, -1, -1, -1, -1, -1, -1, -1, -1, -1, -1,
    -1, -1, -1, -1, -1, -1, -1, -1, -1, -1, -1, -1, -1, -1, -1, -1, -1, -1, -1, -1,
    -1, -1, -1, -1, -1, -1, -1, -1, -1, -1, -1, -1, -1, -1, -1, -1, -1, -1, -1, -1,
    -1, -1, -1, -1, -1, -1, -1, -1, -1, -1, -1, -1, -1, -1, -1, -1 ]

/-- An entry of a table. -/
def digitOf (table : List Int) (c : UInt8) : Int := table.getD c.toNat (-1)

/-- What the loop of a decoder leaves. -/
structure DecodeState where
  vchRet : List UInt8
  mode : Nat
  left : Nat
  p : List UInt8

/-- A byte in front of those still to come. -/
def DecodeState.push (byte : Nat) (state : DecodeState) : DecodeState :=
  { state with vchRet := UInt8.ofNat byte :: state.vchRet }

/-- The rest of the loop of `DecodeBase64`; the table has no digit for the terminator. -/
def decodeBase64Loop : Nat → Nat → List UInt8 → DecodeState
  | mode, left, [] => ⟨[], mode, left, []⟩
  | mode, left, c :: p =>
      if digitOf decode64_table c = -1 then ⟨[], mode, left, c :: p⟩
      else
        let dec := (digitOf decode64_table c).toNat
        match mode with
        | 0 => decodeBase64Loop 1 dec p
        | 1 => (decodeBase64Loop 2 (dec &&& 15) p).push (left <<< 2 ||| dec >>> 4)
        | 2 => (decodeBase64Loop 3 (dec &&& 3) p).push (left <<< 4 ||| dec >>> 2)
        | 3 => (decodeBase64Loop 0 left p).push (left <<< 6 ||| dec)
        | mode => decodeBase64Loop mode left p

/-- The character that `p` points at, or the terminator. -/
def pointed (p : List UInt8) : UInt8 := p.headD 0

/-- Some padding is missing, or a digit follows it. -/
def badPadding (table : List Int) : Nat → List UInt8 → Bool
  | 0, p => digitOf table (pointed p) ≠ -1
  | count + 1, p => pointed p ≠ padChar || badPadding table count p.tail

/-- `DecodeBase64`: the bytes and `*pfInvalid`. -/
def decodeBase64 (p : List UInt8) : List UInt8 × Bool :=
  let state := decodeBase64Loop 0 0 p
  let pfInvalid :=
    match state.mode with
    | 1 => true
    | 2 => state.left ≠ 0 || badPadding decode64_table 2 state.p
    | 3 => state.left ≠ 0 || badPadding decode64_table 1 state.p
    | _ => false
  (state.vchRet, pfInvalid)

/-- The rest of the loop of `DecodeBase32`; the table has no digit for the terminator. -/
def decodeBase32Loop : Nat → Nat → List UInt8 → DecodeState
  | mode, left, [] => ⟨[], mode, left, []⟩
  | mode, left, c :: p =>
      if digitOf decode32_table c = -1 then ⟨[], mode, left, c :: p⟩
      else
        let dec := (digitOf decode32_table c).toNat
        match mode with
        | 0 => decodeBase32Loop 1 dec p
        | 1 => (decodeBase32Loop 2 (dec &&& 3) p).push (left <<< 3 ||| dec >>> 2)
        | 2 => decodeBase32Loop 3 (left <<< 5 ||| dec) p
        | 3 => (decodeBase32Loop 4 (dec &&& 15) p).push (left <<< 1 ||| dec >>> 4)
        | 4 => (decodeBase32Loop 5 (dec &&& 1) p).push (left <<< 4 ||| dec >>> 1)
        | 5 => decodeBase32Loop 6 (left <<< 5 ||| dec) p
        | 6 => (decodeBase32Loop 7 (dec &&& 7) p).push (left <<< 2 ||| dec >>> 3)
        | 7 => (decodeBase32Loop 0 left p).push (left <<< 5 ||| dec)
        | mode => decodeBase32Loop mode left p

/-- `DecodeBase32`: the bytes and `*pfInvalid`. -/
def decodeBase32 (p : List UInt8) : List UInt8 × Bool :=
  let state := decodeBase32Loop 0 0 p
  let pfInvalid :=
    match state.mode with
    | 1 | 3 | 6 => true
    | 2 => state.left ≠ 0 || badPadding decode32_table 6 state.p
    | 4 => state.left ≠ 0 || badPadding decode32_table 4 state.p
    | 5 => state.left ≠ 0 || badPadding decode32_table 3 state.p
    | 7 => state.left ≠ 0 || badPadding decode32_table 1 state.p
    | _ => false
  (state.vchRet, pfInvalid)

/-! ## Alphabets -/

/-- The digits of a codec with the characters that its decoder reads as them. -/
structure Alphabet where
  width : Nat
  block : Nat
  char : Nat → UInt8
  table : List Int
  /-- The characters that are written back as they are read. -/
  plain : UInt8 → Bool
  digitOf_char : ∀ digit < 2 ^ width, digitOf table (char digit) = digit
  char_digitOf : ∀ c, plain c = true → digitOf table c ≠ -1 →
    (digitOf table c).toNat < 2 ^ width ∧ char (digitOf table c).toNat = c
  digitOf_padChar : digitOf table padChar = -1
  digitOf_zero : digitOf table 0 = -1
  small : width ≤ 8
  block_pos : 0 < block

/-- The alphabet of Base64. -/
def alphabet64 : Alphabet where
  width := 6
  block := 4
  char := char64
  table := decode64_table
  plain _ := true
  digitOf_char := by decide +kernel
  char_digitOf := forall_byte (by decide +kernel)
  digitOf_padChar := by decide
  digitOf_zero := by decide
  small := by decide
  block_pos := by decide

/-- The character is no upper case letter. -/
def notUpper (c : UInt8) : Bool := c < 65 || 90 < c

/-- The alphabet of Base32. -/
def alphabet32 : Alphabet where
  width := 5
  block := 8
  char := char32
  table := decode32_table
  plain := notUpper
  digitOf_char := by decide +kernel
  char_digitOf := forall_byte (by decide +kernel)
  digitOf_padChar := by decide
  digitOf_zero := by decide
  small := by decide
  block_pos := by decide

namespace Alphabet

variable (code : Alphabet)

/-- No digit comes first. -/
def Stops (p : List UInt8) : Prop := ∀ c ∈ p.head?, digitOf code.table c = -1

/-- The number of characters that fill up the last block. -/
def pads (count : Nat) : Nat := (code.block - count % code.block) % code.block

/-- The number of bits that some digits leave over. -/
def leftBits (count : Nat) : Nat := count % code.block * code.width % 8

/-- What is written after some digits with some bits carried over. -/
def Writes (before : Nat) (carried : List Bool) (bytes text : List UInt8) : Prop :=
  ∃ digits : List Nat, ∃ zeros, (∀ digit ∈ digits, digit < 2 ^ code.width) ∧ zeros < code.width ∧
    stream code.width digits =
      carried ++ stream 8 (bytes.map UInt8.toNat) ++ List.replicate zeros false ∧
    text = digits.map code.char ++ List.replicate (code.pads (before + digits.length)) padChar

/-- What is read of a text. -/
def Reads (p : List UInt8) (read : List UInt8 × Bool) : Prop :=
  ∃ digits : List Nat, ∃ left rest, (∀ digit ∈ digits, digit < 2 ^ code.width) ∧
    p = digits.map code.char ++ rest ∧ code.Stops rest ∧
    left < 2 ^ code.leftBits digits.length ∧
    stream code.width digits =
      stream 8 (read.1.map UInt8.toNat) ++ bits (code.leftBits digits.length) left ∧
    (read.2 = false ↔ code.leftBits digits.length < code.width ∧ left = 0 ∧
      ∃ behind, rest = List.replicate (code.pads digits.length) padChar ++ behind ∧
        code.Stops behind)

private theorem split_unique {digits others : List Nat} {rest other_rest : List UInt8}
    (small : ∀ digit ∈ digits, digit < 2 ^ code.width)
    (other_small : ∀ digit ∈ others, digit < 2 ^ code.width) (stops : code.Stops rest)
    (other_stops : code.Stops other_rest)
    (same : digits.map code.char ++ rest = others.map code.char ++ other_rest) :
    digits = others ∧ rest = other_rest := by
  induction digits generalizing others with
  | nil =>
      cases others with
      | nil => exact ⟨rfl, same⟩
      | cons other others =>
          have first := stops (code.char other) (by simp at same; simp [same])
          rw [code.digitOf_char other (other_small other List.mem_cons_self)] at first
          exact absurd first (by omega)
  | cons digit digits induction =>
      have found := code.digitOf_char digit (small digit List.mem_cons_self)
      cases others with
      | nil =>
          have first := other_stops (code.char digit) (by simp at same; simp [← same])
          exact absurd (found.symm.trans first) (by omega)
      | cons other others =>
          rw [List.map_cons, List.map_cons, List.cons_append, List.cons_append,
            List.cons.injEq] at same
          have other_found := code.digitOf_char other (other_small other List.mem_cons_self)
          rw [same.1, other_found, Int.natCast_inj] at found
          obtain ⟨later, rests⟩ := induction
            (fun digit mem => small digit (List.mem_cons_of_mem _ mem))
            (fun digit mem => other_small digit (List.mem_cons_of_mem _ mem)) same.2
          exact ⟨by rw [found, later], rests⟩

private theorem stops_pads (count : Nat) {behind : List UInt8} (stops : code.Stops behind) :
    code.Stops (List.replicate (code.pads count) padChar ++ behind) := by
  intro c first
  cases pads : code.pads count with
  | zero => exact stops c (by simpa [pads] using first)
  | succ more =>
      rw [pads, List.replicate_succ, List.cons_append, List.head?_cons,
        Option.mem_some_iff] at first
      rw [← first]
      exact code.digitOf_padChar

private theorem bytes_lt (bytes : List UInt8) : ∀ word ∈ bytes.map UInt8.toNat, word < 2 ^ 8 := by
  intro word mem
  obtain ⟨byte, -, rfl⟩ := List.mem_map.mp mem
  exact byte.toNat_lt

/-- A text is read as some bytes exactly if it is what is written for them, with something behind
that does not begin with a digit. -/
theorem accepted_iff {encode : List UInt8 → List UInt8} {decode : List UInt8 → List UInt8 × Bool}
    {p bytes : List UInt8} (writes : code.Writes 0 [] bytes (encode bytes))
    (reads : code.Reads p (decode p)) :
    decode p = (bytes, false) ↔ ∃ behind, p = encode bytes ++ behind ∧ code.Stops behind := by
  obtain ⟨written, zeros, written_small, few, padded, text⟩ := writes
  obtain ⟨digits, left, rest, small, parts, stops, left_lt, streams, valid⟩ := reads
  rw [List.nil_append] at padded
  rw [Nat.zero_add] at text
  constructor
  · intro accepted
    rw [accepted] at streams valid
    obtain ⟨few_left, rfl, behind, padding, behind_stops⟩ := valid.mp rfl
    rw [bits_zero] at streams
    have same := stream_inj_of_zeros small written_small few_left few streams padded
    refine ⟨behind, ?_, behind_stops⟩
    rw [parts, padding, text, same, List.append_assoc]
  · rintro ⟨behind, rfl, behind_stops⟩
    rw [text, List.append_assoc] at parts
    obtain ⟨rfl, padding⟩ := code.split_unique written_small small
      (code.stops_pads _ behind_stops) stops parts
    have short : (bits (code.leftBits written.length) left).length < 8 := by
      rw [length_bits]
      exact Nat.mod_lt _ (by omega)
    have other_short : (List.replicate zeros false).length < 8 := by
      rw [List.length_replicate]
      exact few.trans_le code.small
    obtain ⟨same_bytes, same_bits⟩ := stream_append_inj (bytes_lt _) (bytes_lt _) short other_short
      (streams.symm.trans padded)
    have count : code.leftBits written.length = zeros := by
      simpa using congrArg List.length same_bits
    have none_left : left = 0 := by
      rw [← count, ← bits_zero] at same_bits
      exact bits_injective left_lt (Nat.two_pow_pos _) same_bits
    have bytes_eq := List.map_injective_iff.mpr (fun _ _ => UInt8.toNat_inj.mp) same_bytes
    have accepted := valid.mpr ⟨count ▸ few, none_left, behind, padding.symm, behind_stops⟩
    exact Prod.ext bytes_eq accepted

end Alphabet

/-! ## What is written -/

namespace Alphabet

variable {code : Alphabet} {before : Nat} {carried carried' : List Bool} {bytes text : List UInt8}

private theorem Writes.append {byte : UInt8} (digits : List Nat)
    (later : code.Writes (before + digits.length) carried' bytes text)
    (small : ∀ digit ∈ digits, digit < 2 ^ code.width)
    (same : stream code.width digits ++ carried' = carried ++ bits 8 byte.toNat) :
    code.Writes before carried (byte :: bytes) (digits.map code.char ++ text) := by
  obtain ⟨others, zeros, others_small, few, padded, rfl⟩ := later
  refine ⟨digits ++ others, zeros, ?_, few, ?_, ?_⟩
  · intro digit mem
    exact (List.mem_append.mp mem).elim (small digit) (others_small digit)
  · rw [stream_append, padded, ← List.append_assoc, ← List.append_assoc, same, List.map_cons,
      stream_cons, List.append_assoc carried]
  · rw [List.map_append, List.length_append, List.append_assoc, Nat.add_assoc]

private theorem Writes.wrap (later : code.Writes 0 carried bytes text) :
    code.Writes code.block carried bytes text := by
  obtain ⟨digits, zeros, small, few, padded, rfl⟩ := later
  refine ⟨digits, zeros, small, few, padded, ?_⟩
  rw [pads, pads, Nat.add_mod_left, Nat.zero_add]

/-- Some carried bits and the zeros behind them make the last digit. -/
private theorem Writes.last {digit zeros : Nat} (small : digit < 2 ^ code.width)
    (few : zeros < code.width)
    (padded : bits code.width digit = carried ++ List.replicate zeros false) :
    code.Writes before carried []
      (code.char digit :: List.replicate (code.pads (before + 1)) padChar) :=
  ⟨[digit], zeros, by simpa using small, few, by simpa using padded, rfl⟩

private theorem Writes.nothing (width_pos : 0 < code.width) : code.Writes 0 [] [] [] :=
  ⟨[], 0, by simp, width_pos, by simp, by simp [pads]⟩

end Alphabet

open Alphabet

private theorem mask_lt (width : Nat) (value : Nat) : value &&& (2 ^ width - 1) < 2 ^ width :=
  Nat.and_lt_two_pow value (Nat.sub_lt (Nat.two_pow_pos width) Nat.one_pos)

private theorem encodeBase64Loop_writes (bytes : List UInt8) :
    (∀ left, alphabet64.Writes 0 [] bytes (encodeBase64Loop 0 left bytes)) ∧
    (∀ carried < 2 ^ 2,
      alphabet64.Writes 1 (bits 2 carried) bytes (encodeBase64Loop 1 (carried <<< 4) bytes)) ∧
    ∀ carried < 2 ^ 4,
      alphabet64.Writes 2 (bits 4 carried) bytes (encodeBase64Loop 2 (carried <<< 2) bytes) := by
  induction bytes with
  | nil =>
    refine ⟨fun _ => .nothing (by decide), fun carried small => ?_, fun carried small => ?_⟩
    · exact .last (shift_lt small) (by decide) (bits_shift 2 4 carried)
    · exact .last (shift_lt small) (by decide) (bits_shift 4 2 carried)
  | cons byte bytes induction =>
    obtain ⟨mode_zero, mode_one, mode_two⟩ := induction
    have enc_lt := byte.toNat_lt
    refine ⟨fun left => ?_, fun carried small => ?_, fun carried small => ?_⟩
    · have digit_lt : byte.toNat >>> 2 < 2 ^ 6 := shiftRight_lt enc_lt
      have same : stream 6 [byte.toNat >>> 2] ++ bits 2 (byte.toNat &&& (2 ^ 2 - 1)) =
          [] ++ bits 8 byte.toNat := by
        rw [stream_singleton, bits_and_mask, List.nil_append]
        exact (bits_add 6 2 byte.toNat).symm
      exact .append [_] (mode_one _ (mask_lt 2 _)) (List.forall_mem_singleton.mpr digit_lt) same
    · have digit_lt : carried <<< 4 ||| byte.toNat >>> 4 < 2 ^ 6 :=
        shift_or_lt small (shiftRight_lt enc_lt)
      have same : stream 6 [carried <<< 4 ||| byte.toNat >>> 4] ++
          bits 4 (byte.toNat &&& (2 ^ 4 - 1)) = bits 2 carried ++ bits 8 byte.toNat := by
        rw [stream_singleton, bits_and_mask]
        exact bits_carry 2 4 4 enc_lt
      exact .append [_] (mode_two _ (mask_lt 4 _)) (List.forall_mem_singleton.mpr digit_lt) same
    · have digit_lt : carried <<< 2 ||| byte.toNat >>> 6 < 2 ^ 6 :=
        shift_or_lt small (shiftRight_lt enc_lt)
      have same : stream 6 [carried <<< 2 ||| byte.toNat >>> 6, byte.toNat &&& (2 ^ 6 - 1)] ++ [] =
          bits 4 carried ++ bits 8 byte.toNat := by
        rw [stream_cons, stream_singleton, bits_and_mask, List.append_nil]
        exact bits_carry 4 2 6 enc_lt
      exact .append [_, _] (mode_zero _).wrap
        (List.forall_mem_cons.mpr ⟨digit_lt, List.forall_mem_singleton.mpr (mask_lt 6 _)⟩) same

private theorem encodeBase32Loop_writes (bytes : List UInt8) :
    (∀ left, alphabet32.Writes 0 [] bytes (encodeBase32Loop 0 left bytes)) ∧
    (∀ carried < 2 ^ 3,
      alphabet32.Writes 1 (bits 3 carried) bytes (encodeBase32Loop 1 (carried <<< 2) bytes)) ∧
    (∀ carried < 2 ^ 1,
      alphabet32.Writes 3 (bits 1 carried) bytes (encodeBase32Loop 2 (carried <<< 4) bytes)) ∧
    (∀ carried < 2 ^ 4,
      alphabet32.Writes 4 (bits 4 carried) bytes (encodeBase32Loop 3 (carried <<< 1) bytes)) ∧
    ∀ carried < 2 ^ 2,
      alphabet32.Writes 6 (bits 2 carried) bytes (encodeBase32Loop 4 (carried <<< 3) bytes) := by
  induction bytes with
  | nil =>
    refine ⟨fun _ => .nothing (by decide), fun carried small => ?_, fun carried small => ?_,
      fun carried small => ?_, fun carried small => ?_⟩
    · exact .last (shift_lt small) (by decide) (bits_shift 3 2 carried)
    · exact .last (shift_lt small) (by decide) (bits_shift 1 4 carried)
    · exact .last (shift_lt small) (by decide) (bits_shift 4 1 carried)
    · exact .last (shift_lt small) (by decide) (bits_shift 2 3 carried)
  | cons byte bytes induction =>
    obtain ⟨mode_zero, mode_one, mode_two, mode_three, mode_four⟩ := induction
    have enc_lt := byte.toNat_lt
    refine ⟨fun left => ?_, fun carried small => ?_, fun carried small => ?_,
      fun carried small => ?_, fun carried small => ?_⟩
    · have digit_lt : byte.toNat >>> 3 < 2 ^ 5 := shiftRight_lt enc_lt
      have same : stream 5 [byte.toNat >>> 3] ++ bits 3 (byte.toNat &&& (2 ^ 3 - 1)) =
          [] ++ bits 8 byte.toNat := by
        rw [stream_singleton, bits_and_mask, List.nil_append]
        exact (bits_add 5 3 byte.toNat).symm
      exact .append [_] (mode_one _ (mask_lt 3 _)) (List.forall_mem_singleton.mpr digit_lt) same
    · have digit_lt : carried <<< 2 ||| byte.toNat >>> 6 < 2 ^ 5 :=
        shift_or_lt small (shiftRight_lt enc_lt)
      have same : stream 5 [carried <<< 2 ||| byte.toNat >>> 6,
          byte.toNat >>> 1 &&& (2 ^ 5 - 1)] ++ bits 1 (byte.toNat &&& (2 ^ 1 - 1)) =
          bits 3 carried ++ bits 8 byte.toNat := by
        rw [stream_cons, stream_singleton, bits_and_mask, bits_and_mask, List.append_assoc,
          ← bits_add 5 1]
        exact bits_carry 3 2 6 enc_lt
      exact .append [_, _] (mode_two _ (mask_lt 1 _))
        (List.forall_mem_cons.mpr ⟨digit_lt, List.forall_mem_singleton.mpr (mask_lt 5 _)⟩) same
    · have digit_lt : carried <<< 4 ||| byte.toNat >>> 4 < 2 ^ 5 :=
        shift_or_lt small (shiftRight_lt enc_lt)
      have same : stream 5 [carried <<< 4 ||| byte.toNat >>> 4] ++
          bits 4 (byte.toNat &&& (2 ^ 4 - 1)) = bits 1 carried ++ bits 8 byte.toNat := by
        rw [stream_singleton, bits_and_mask]
        exact bits_carry 1 4 4 enc_lt
      exact .append [_] (mode_three _ (mask_lt 4 _)) (List.forall_mem_singleton.mpr digit_lt) same
    · have digit_lt : carried <<< 1 ||| byte.toNat >>> 7 < 2 ^ 5 :=
        shift_or_lt small (shiftRight_lt enc_lt)
      have same : stream 5 [carried <<< 1 ||| byte.toNat >>> 7,
          byte.toNat >>> 2 &&& (2 ^ 5 - 1)] ++ bits 2 (byte.toNat &&& (2 ^ 2 - 1)) =
          bits 4 carried ++ bits 8 byte.toNat := by
        rw [stream_cons, stream_singleton, bits_and_mask, bits_and_mask, List.append_assoc,
          ← bits_add 5 2]
        exact bits_carry 4 1 7 enc_lt
      exact .append [_, _] (mode_four _ (mask_lt 2 _))
        (List.forall_mem_cons.mpr ⟨digit_lt, List.forall_mem_singleton.mpr (mask_lt 5 _)⟩) same
    · have digit_lt : carried <<< 3 ||| byte.toNat >>> 5 < 2 ^ 5 :=
        shift_or_lt small (shiftRight_lt enc_lt)
      have same : stream 5 [carried <<< 3 ||| byte.toNat >>> 5, byte.toNat &&& (2 ^ 5 - 1)] ++ [] =
          bits 2 carried ++ bits 8 byte.toNat := by
        rw [stream_cons, stream_singleton, bits_and_mask, List.append_nil]
        exact bits_carry 2 3 5 enc_lt
      exact .append [_, _] (mode_zero _).wrap
        (List.forall_mem_cons.mpr ⟨digit_lt, List.forall_mem_singleton.mpr (mask_lt 5 _)⟩) same

/-! ## What is read -/

namespace Alphabet

/-- What the loop of a decoder leaves of a text after some digits with some bits carried over. -/
def ReadsFrom (code : Alphabet) (before : Nat) (carried : List Bool) (p : List UInt8)
    (state : DecodeState) : Prop :=
  ∃ digits : List Nat, (∀ digit ∈ digits, digit < 2 ^ code.width) ∧
    p = digits.map code.char ++ state.p ∧ code.Stops state.p ∧
    state.mode = (before + digits.length) % code.block ∧
    (state.mode ≠ 0 → state.left < 2 ^ code.leftBits state.mode) ∧
    carried ++ stream code.width digits =
      stream 8 (state.vchRet.map UInt8.toNat) ++ bits (code.leftBits state.mode) state.left

variable {code : Alphabet} {before : Nat} {carried carried' : List Bool} {p : List UInt8}
  {c : UInt8} {state : DecodeState}

private theorem ReadsFrom.stop {mode left : Nat} (stops : code.Stops p) (inside : mode < code.block)
    (small : mode ≠ 0 → left < 2 ^ code.leftBits mode) :
    code.ReadsFrom mode (bits (code.leftBits mode) left) p ⟨[], mode, left, p⟩ :=
  ⟨[], by simp, rfl, stops, (Nat.mod_eq_of_lt inside).symm, small, by simp⟩

private theorem ReadsFrom.cons (plain : code.plain c = true) (found : digitOf code.table c ≠ -1)
    (later : code.ReadsFrom (before + 1) carried' p state)
    (same : carried ++ bits code.width (digitOf code.table c).toNat = carried') :
    code.ReadsFrom before carried (c :: p) state := by
  obtain ⟨digit_lt, char⟩ := code.char_digitOf c plain found
  obtain ⟨digits, small, rfl, stops, mode, left_lt, streams⟩ := later
  refine ⟨(digitOf code.table c).toNat :: digits, List.forall_mem_cons.mpr ⟨digit_lt, small⟩, ?_,
    stops, ?_, left_lt, ?_⟩
  · rw [List.map_cons, char, List.cons_append]
  · rw [mode, List.length_cons, Nat.add_assoc, Nat.add_comm 1]
  · rw [stream_cons, ← List.append_assoc, same, streams]

private theorem ReadsFrom.push {byte : Nat} (plain : code.plain c = true)
    (found : digitOf code.table c ≠ -1) (later : code.ReadsFrom (before + 1) carried' p state)
    (same : carried ++ bits code.width (digitOf code.table c).toNat = bits 8 byte ++ carried') :
    code.ReadsFrom before carried (c :: p) (state.push byte) := by
  obtain ⟨digit_lt, char⟩ := code.char_digitOf c plain found
  obtain ⟨digits, small, rfl, stops, mode, left_lt, streams⟩ := later
  have pushed : bits 8 (UInt8.ofNat byte).toNat = bits 8 byte := by
    rw [UInt8.toNat_ofNat', bits_mod 8]
  refine ⟨(digitOf code.table c).toNat :: digits, List.forall_mem_cons.mpr ⟨digit_lt, small⟩, ?_,
    stops, ?_, left_lt, ?_⟩
  · rw [List.map_cons, char, List.cons_append]
    rfl
  · rw [List.length_cons, Nat.add_comm digits.length, ← Nat.add_assoc]
    exact mode
  · rw [stream_cons, ← List.append_assoc, same, List.append_assoc, streams, DecodeState.push,
      List.map_cons, stream_cons, pushed, List.append_assoc]

private theorem ReadsFrom.wrap (later : code.ReadsFrom 0 carried p state) :
    code.ReadsFrom code.block carried p state := by
  obtain ⟨digits, small, parts, stops, mode, left_lt, streams⟩ := later
  refine ⟨digits, small, parts, stops, ?_, left_lt, streams⟩
  rw [mode, Nat.add_mod_left, Nat.zero_add]

end Alphabet

private theorem decodeBase64Loop_reads (p : List UInt8) :
    (∀ left, alphabet64.ReadsFrom 0 [] p (decodeBase64Loop 0 left p)) ∧
    (∀ left < 2 ^ 6, alphabet64.ReadsFrom 1 (bits 6 left) p (decodeBase64Loop 1 left p)) ∧
    (∀ left < 2 ^ 4, alphabet64.ReadsFrom 2 (bits 4 left) p (decodeBase64Loop 2 left p)) ∧
    ∀ left < 2 ^ 2, alphabet64.ReadsFrom 3 (bits 2 left) p (decodeBase64Loop 3 left p) := by
  induction p with
  | nil =>
    have stops : alphabet64.Stops [] := by simp [Stops]
    exact ⟨fun left => .stop stops (by decide) (by simp),
      fun left small => .stop stops (by decide) fun _ => small,
      fun left small => .stop stops (by decide) fun _ => small,
      fun left small => .stop stops (by decide) fun _ => small⟩
  | cons c p induction =>
    by_cases found : digitOf decode64_table c = -1
    · have stops : alphabet64.Stops (c :: p) := by
        intro first mem
        rw [List.head?_cons, Option.mem_some_iff] at mem
        exact mem ▸ found
      simp only [decodeBase64Loop, found, if_true]
      exact ⟨fun left => .stop stops (by decide) (by simp),
        fun left small => .stop stops (by decide) fun _ => small,
        fun left small => .stop stops (by decide) fun _ => small,
        fun left small => .stop stops (by decide) fun _ => small⟩
    · obtain ⟨mode_zero, mode_one, mode_two, mode_three⟩ := induction
      have dec_lt : (digitOf decode64_table c).toNat < 2 ^ 6 :=
        (alphabet64.char_digitOf c rfl found).1
      simp only [decodeBase64Loop, found, if_false]
      refine ⟨fun left => ?_, fun left small => ?_, fun left small => ?_, fun left small => ?_⟩
      · exact .cons rfl found (mode_one _ dec_lt) (List.nil_append _)
      · exact .push rfl found (mode_two _ (mask_lt 4 _)) (bits_carry_mask 6 2 4 dec_lt)
      · exact .push rfl found (mode_three _ (mask_lt 2 _)) (bits_carry_mask 4 4 2 dec_lt)
      · refine .push rfl found (mode_zero left).wrap ?_
        rw [List.append_nil]
        exact (bits_shift_or 2 6 dec_lt).symm

private theorem decodeBase32Loop_reads {p : List UInt8} (lower : ∀ c ∈ p, notUpper c = true) :
    (∀ left, alphabet32.ReadsFrom 0 [] p (decodeBase32Loop 0 left p)) ∧
    (∀ left < 2 ^ 5, alphabet32.ReadsFrom 1 (bits 5 left) p (decodeBase32Loop 1 left p)) ∧
    (∀ left < 2 ^ 2, alphabet32.ReadsFrom 2 (bits 2 left) p (decodeBase32Loop 2 left p)) ∧
    (∀ left < 2 ^ 7, alphabet32.ReadsFrom 3 (bits 7 left) p (decodeBase32Loop 3 left p)) ∧
    (∀ left < 2 ^ 4, alphabet32.ReadsFrom 4 (bits 4 left) p (decodeBase32Loop 4 left p)) ∧
    (∀ left < 2 ^ 1, alphabet32.ReadsFrom 5 (bits 1 left) p (decodeBase32Loop 5 left p)) ∧
    (∀ left < 2 ^ 6, alphabet32.ReadsFrom 6 (bits 6 left) p (decodeBase32Loop 6 left p)) ∧
    ∀ left < 2 ^ 3, alphabet32.ReadsFrom 7 (bits 3 left) p (decodeBase32Loop 7 left p) := by
  induction p with
  | nil =>
    have stops : alphabet32.Stops [] := by simp [Stops]
    exact ⟨fun left => .stop stops (by decide) (by simp),
      fun left small => .stop stops (by decide) fun _ => small,
      fun left small => .stop stops (by decide) fun _ => small,
      fun left small => .stop stops (by decide) fun _ => small,
      fun left small => .stop stops (by decide) fun _ => small,
      fun left small => .stop stops (by decide) fun _ => small,
      fun left small => .stop stops (by decide) fun _ => small,
      fun left small => .stop stops (by decide) fun _ => small⟩
  | cons c p induction =>
    by_cases found : digitOf decode32_table c = -1
    · have stops : alphabet32.Stops (c :: p) := by
        intro first mem
        rw [List.head?_cons, Option.mem_some_iff] at mem
        exact mem ▸ found
      simp only [decodeBase32Loop, found, if_true]
      exact ⟨fun left => .stop stops (by decide) (by simp),
        fun left small => .stop stops (by decide) fun _ => small,
        fun left small => .stop stops (by decide) fun _ => small,
        fun left small => .stop stops (by decide) fun _ => small,
        fun left small => .stop stops (by decide) fun _ => small,
        fun left small => .stop stops (by decide) fun _ => small,
        fun left small => .stop stops (by decide) fun _ => small,
        fun left small => .stop stops (by decide) fun _ => small⟩
    · have plain := lower c List.mem_cons_self
      obtain ⟨mode_zero, mode_one, mode_two, mode_three, mode_four, mode_five, mode_six,
        mode_seven⟩ := induction fun c mem => lower c (List.mem_cons_of_mem _ mem)
      have dec_lt : (digitOf decode32_table c).toNat < 2 ^ 5 :=
        (alphabet32.char_digitOf c plain found).1
      simp only [decodeBase32Loop, found, if_false]
      refine ⟨fun left => ?_, fun left small => ?_, fun left small => ?_, fun left small => ?_,
        fun left small => ?_, fun left small => ?_, fun left small => ?_, fun left small => ?_⟩
      · exact .cons plain found (mode_one _ dec_lt) (List.nil_append _)
      · exact .push plain found (mode_two _ (mask_lt 2 _)) (bits_carry_mask 5 3 2 dec_lt)
      · exact .cons plain found (mode_three _ (shift_or_lt small dec_lt))
          (bits_shift_or 2 5 dec_lt).symm
      · exact .push plain found (mode_four _ (mask_lt 4 _)) (bits_carry_mask 7 1 4 dec_lt)
      · exact .push plain found (mode_five _ (mask_lt 1 _)) (bits_carry_mask 4 4 1 dec_lt)
      · exact .cons plain found (mode_six _ (shift_or_lt small dec_lt))
          (bits_shift_or 1 5 dec_lt).symm
      · exact .push plain found (mode_seven _ (mask_lt 3 _)) (bits_carry_mask 6 2 3 dec_lt)
      · refine .push plain found (mode_zero left).wrap ?_
        rw [List.append_nil]
        exact (bits_shift_or 3 5 dec_lt).symm

/-! ## What is accepted -/

namespace Alphabet

variable {code : Alphabet} {p : List UInt8} {state : DecodeState}

private theorem badPadding_eq_false (count : Nat) : badPadding code.table count p = false ↔
    ∃ behind, p = List.replicate count padChar ++ behind ∧ code.Stops behind := by
  induction count generalizing p with
  | zero =>
    cases p with
    | nil => simp [badPadding, pointed, Stops, code.digitOf_zero]
    | cons c p => simp [badPadding, pointed, Stops]
  | succ count induction =>
    cases p with
    | nil =>
      have other : (0 : UInt8) ≠ padChar := by decide
      simp [badPadding, pointed, other, List.replicate_succ]
    | cons c p =>
      rw [badPadding, pointed, List.headD_cons, Bool.or_eq_false_iff, List.tail_cons, induction]
      simp [List.replicate_succ, and_assoc]

/-- A decoder that looks at the bits left over, the padding and the character behind it reads what
its loop has found. -/
private theorem ReadsFrom.judged {pfInvalid : Bool} (found : code.ReadsFrom 0 [] p state)
    (judged : pfInvalid = if state.mode = 0 then false
      else decide (code.width ≤ code.leftBits state.mode) ||
        (decide (state.left ≠ 0) || badPadding code.table (code.pads state.mode) state.p))
    (width_pos : 0 < code.width) : code.Reads p (state.vchRet, pfInvalid) := by
  obtain ⟨digits, small, parts, stops, mode, left_lt, streams⟩ := found
  rw [Nat.zero_add] at mode
  rw [List.nil_append] at streams
  have same_bits : code.leftBits state.mode = code.leftBits digits.length := by
    rw [leftBits, leftBits, mode, Nat.mod_mod]
  have same_pads : code.pads state.mode = code.pads digits.length := by
    rw [pads, pads, mode, Nat.mod_mod]
  rw [same_bits] at left_lt streams judged
  rw [same_pads] at judged
  by_cases complete : state.mode = 0
  · have no_bits : code.leftBits digits.length = 0 := by
      rw [← same_bits, complete, leftBits, Nat.zero_mod, Nat.zero_mul, Nat.zero_mod]
    have no_pads : code.pads digits.length = 0 := by
      rw [← same_pads, complete, pads, Nat.zero_mod, Nat.sub_zero, Nat.mod_self]
    rw [no_bits] at streams
    refine ⟨digits, 0, state.p, small, parts, stops, Nat.two_pow_pos _, ?_, ?_⟩
    · rw [streams, no_bits]
      rfl
    · rw [no_bits, no_pads]
      simpa [judged, complete, width_pos] using stops
  · rw [if_neg complete] at judged
    refine ⟨digits, state.left, state.p, small, parts, stops, left_lt complete, streams, ?_⟩
    rw [← badPadding_eq_false]
    simp [judged]

end Alphabet

private theorem decodeBase64_reads (p : List UInt8) : alphabet64.Reads p (decodeBase64 p) := by
  have found := (decodeBase64Loop_reads p).1 0
  have mode_lt : (decodeBase64Loop 0 0 p).mode < 4 := by
    obtain ⟨digits, -, -, -, mode, -⟩ := found
    rw [mode]
    exact Nat.mod_lt _ (by decide)
  refine found.judged ?_ (by decide)
  generalize decodeBase64Loop 0 0 p = state at mode_lt
  obtain ⟨vchRet, mode, left, p⟩ := state
  dsimp only at mode_lt ⊢
  interval_cases mode <;> simp [leftBits, pads, alphabet64]

private theorem decodeBase32_reads {p : List UInt8} (lower : ∀ c ∈ p, notUpper c = true) :
    alphabet32.Reads p (decodeBase32 p) := by
  have found := (decodeBase32Loop_reads lower).1 0
  have mode_lt : (decodeBase32Loop 0 0 p).mode < 8 := by
    obtain ⟨digits, -, -, -, mode, -⟩ := found
    rw [mode]
    exact Nat.mod_lt _ (by decide)
  refine found.judged ?_ (by decide)
  generalize decodeBase32Loop 0 0 p = state at mode_lt
  obtain ⟨vchRet, mode, left, p⟩ := state
  dsimp only at mode_lt ⊢
  interval_cases mode <;> simp [leftBits, pads, alphabet32]

/-- What holds of the digits and of the padding holds of all that `EncodeBase32` writes. -/
theorem encodeBase32_all {test : UInt8 → Prop} (chars : ∀ digit < 32, test (char32 digit))
    (padding : test padChar) (pch : List UInt8) : ∀ c ∈ encodeBase32 pch, test c := by
  obtain ⟨digits, zeros, small, -, -, text⟩ := (encodeBase32Loop_writes pch).1 0
  intro c mem
  rw [encodeBase32, text] at mem
  rcases List.mem_append.mp mem with written | padded
  · obtain ⟨digit, digit_mem, rfl⟩ := List.mem_map.mp written
    exact chars digit (small digit digit_mem)
  · rwa [List.eq_of_mem_replicate padded]

private theorem encodeBase32_lower (pch : List UInt8) :
    ∀ c ∈ encodeBase32 pch, notUpper c = true :=
  encodeBase32_all (by decide +kernel) (by decide) pch

private theorem base64_iff (s x : List UInt8) : decodeBase64 s = (x, false) ↔
    ∃ behind, s = encodeBase64 x ++ behind ∧ alphabet64.Stops behind :=
  alphabet64.accepted_iff ((encodeBase64Loop_writes x).1 0) (decodeBase64_reads s)

private theorem base32_iff {s : List UInt8} (x : List UInt8) (lower : ∀ c ∈ s, notUpper c = true) :
    decodeBase32 s = (x, false) ↔
      ∃ behind, s = encodeBase32 x ++ behind ∧ alphabet32.Stops behind :=
  alphabet32.accepted_iff ((encodeBase32Loop_writes x).1 0) (decodeBase32_reads lower)

theorem decodeBase32_encodeBase32 (x : List UInt8) :
    decodeBase32 (encodeBase32 x) = (x, false) :=
  (base32_iff x (encodeBase32_lower x)).mpr ⟨[], (List.append_nil _).symm, by simp [Stops]⟩

/-- The codecs go forth and back, and a text that is accepted is what is written for its bytes with
something behind that does not begin with a digit. -/
theorem base64_base32_exact :
    (∀ x, decodeBase64 (encodeBase64 x) = (x, false)) ∧
    (∀ x, decodeBase32 (encodeBase32 x) = (x, false)) ∧
    (∀ s x, decodeBase64 s = (x, false) ↔
      ∃ behind, s = encodeBase64 x ++ behind ∧ alphabet64.Stops behind) ∧
    ∀ s x, (∀ c ∈ s, notUpper c = true) →
      (decodeBase32 s = (x, false) ↔
        ∃ behind, s = encodeBase32 x ++ behind ∧ alphabet32.Stops behind) := by
  refine ⟨fun x => (base64_iff _ x).mpr ?_, decodeBase32_encodeBase32, base64_iff,
    fun s x lower => base32_iff x lower⟩
  exact ⟨[], (List.append_nil _).symm, by simp [Stops]⟩

/-- One byte with an exclamation mark behind its text. -/
theorem base64_base32_exact_sample :
    decodeBase32 [109, 121, 61, 61, 61, 61, 61, 61, 33] = ([102], false) :=
  have stops : alphabet32.Stops [33] := fun c first => by
    rw [List.head?_cons, Option.mem_some_iff] at first
    exact first ▸ by decide
  (base64_base32_exact.2.2.2 _ _ (by decide +kernel)).mpr ⟨[33], by decide +kernel, stops⟩

/-- An accepted text is not always written back. -/
theorem not_base64_base32_exact :
    ¬ ((∀ s, 0 ∉ s → (decodeBase64 s).2 = false → encodeBase64 (decodeBase64 s).1 = s) ∧
      ∀ s, 0 ∉ s → (∀ c ∈ s, notUpper c = true) → (decodeBase32 s).2 = false →
        encodeBase32 (decodeBase32 s).1 = s) := by
  rintro ⟨back, -⟩
  have written := back [90, 103, 61, 61, 33] (by decide +kernel) (by decide +kernel)
  exact absurd written (by decide +kernel)

end FooCoin

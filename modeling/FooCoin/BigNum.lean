import FooCoin.Base58
import FooCoin.Difficulty
import FooCoin.Library.BitGroups

/-!
# Conversions of big numbers

`CBigNum` converts integers through the MPI format of OpenSSL: four bytes of length and the
big-endian bytes of the magnitude, whose top bit is the sign.  The encoders drop leading zeros and
put a byte in front where the top bit is taken; the compact form has the length in its top byte and
the first three bytes behind it.
-/

namespace FooCoin

open LittleEndian

/-! ## The MPI format -/

/-- The four bytes of a size. -/
def sizeBytes (nSize : UInt32) : List UInt8 :=
  [(nSize >>> 24).toUInt8, (nSize >>> 16).toUInt8, (nSize >>> 8).toUInt8, nSize.toUInt8]

/-- The bytes of a magnitude with a sign, in a byte of its own where the top bit is taken. -/
def signBytes (fNegative : Bool) : List UInt8 → List UInt8
  | [] => []
  | top :: rest =>
      let sign : UInt8 := if fNegative then 0x80 else 0
      if 0x80 ≤ top then sign :: top :: rest else (top ||| sign) :: rest

/-- The bytes of a number in the MPI format, behind their size. -/
def mpiBytes (bn : Int) : List UInt8 :=
  signBytes (bn < 0) (magnitudeBytes bn.natAbs bn.natAbs).reverse

/-- The number that bytes behind their size stand for. -/
def mpiNumber : List UInt8 → Int
  | [] => 0
  | top :: rest =>
      let magnitude : Int := ofLE (((top &&& 0x7f) :: rest).reverse)
      if 0x80 ≤ top then -magnitude else magnitude

/-- The conversions of OpenSSL, as it documents them. -/
structure BnLib where
  /-- `BN_mpi2bn`, `none` for a null pointer. -/
  BN_mpi2bn : List UInt8 → Int → Option Int
  /-- The bytes that `BN_bn2mpi` writes, as many as it returns. -/
  BN_bn2mpi : Int → List UInt8
  mpi2bn_eq : ∀ bytes : List UInt8, bytes.length + 4 < 2 ^ 31 →
    BN_mpi2bn (sizeBytes (UInt32.ofNat bytes.length) ++ bytes) (bytes.length + 4) =
      some (mpiNumber bytes)
  bn2mpi_eq : ∀ bn, (mpiBytes bn).length + 4 < 2 ^ 31 →
    BN_bn2mpi bn = sizeBytes (UInt32.ofNat (mpiBytes bn).length) ++ mpiBytes bn

namespace CBigNum

variable (lib : BnLib)

/-- What `BN_mpi2bn` of some bytes leaves of a number; their count becomes an `int`. -/
def load (bn : Int) (pch : List UInt8) : Int :=
  (lib.BN_mpi2bn pch (Int.bmod pch.length (2 ^ 32))).getD bn

/-- The bytes behind the size that the loops of the encoders write, the first ones in front. -/
def encodeLoop (fNegative : Bool) : Bool → List UInt8 → List UInt8
  | _, [] => []
  | true, c :: psrc =>
      if c = 0 then encodeLoop fNegative true psrc
      else if c &&& 0x80 ≠ 0 then
        (if fNegative then 0x80 else 0) :: c :: encodeLoop fNegative false psrc
      else (if fNegative then c ||| 0x80 else c) :: encodeLoop fNegative false psrc
  | false, c :: psrc => c :: encodeLoop fNegative false psrc

/-- The bytes that are shifted out of a word, the first ones in front. -/
def shiftedBytes : Nat → UInt64 → List UInt8
  | 0, _ => []
  | count + 1, n => (n >>> 56).toUInt8 :: shiftedBytes count (n <<< 8)

/-- The number that an encoder leaves for the bytes of its loop. -/
def encode (bn : Int) (fNegative : Bool) (psrc : List UInt8) : Int :=
  let body := encodeLoop fNegative true psrc
  load lib bn (sizeBytes (UInt32.ofNat body.length) ++ body)

/-- `CBigNum::setint64` on a number. -/
def setint64 (bn sn : Int) : Int :=
  if sn < 0 then encode lib bn true (shiftedBytes 8 (UInt64.ofNat (-(sn + 1)).toNat + 1))
  else encode lib bn false (shiftedBytes 8 (UInt64.ofNat sn.toNat))

/-- `CBigNum::setuint64` on a number. -/
def setuint64 (bn : Int) (n : UInt64) : Int := encode lib bn false (shiftedBytes 8 n)

/-- `CBigNum::setuint256` on a number. -/
def setuint256 (bn : Int) (n : UInt256) : Int := encode lib bn false (uint256Bytes n).reverse

/-- `CBigNum::getuint256`. -/
def getuint256 (bn : Int) : UInt256 :=
  let vch := lib.BN_bn2mpi bn
  if vch.length < 4 then 0
  else
    let vch := vch.modify 4 (· &&& 0x7f)
    BitVec.ofNat 256 (ofLE ((vch.drop 4).reverse.take 32))

/-- `CBigNum::setvch` on a number. -/
def setvch (bn : Int) (vch : List UInt8) : Int :=
  load lib bn (sizeBytes (UInt32.ofNat vch.length) ++ vch.reverse)

/-- `CBigNum::getvch`. -/
def getvch (bn : Int) : List UInt8 :=
  let vch := lib.BN_bn2mpi bn
  if vch.length ≤ 4 then [] else (vch.drop 4).reverse

/-- `CBigNum::SetCompact` on a number. -/
def setCompact (bn : Int) (nCompact : UInt32) : Int :=
  let nSize := (nCompact >>> 24).toNat
  let vch := List.replicate (4 + nSize) (0 : UInt8)
  let vch := vch.set 3 (UInt8.ofNat nSize)
  let vch := if 1 ≤ nSize then vch.set 4 (nCompact >>> 16).toUInt8 else vch
  let vch := if 2 ≤ nSize then vch.set 5 (nCompact >>> 8).toUInt8 else vch
  let vch := if 3 ≤ nSize then vch.set 6 nCompact.toUInt8 else vch
  load lib bn vch

/-- `CBigNum::GetCompact`. -/
def getCompact (bn : Int) : UInt32 :=
  let vch := lib.BN_bn2mpi bn
  let nSize := UInt32.ofNat vch.length - 4
  let nCompact := nSize <<< 24
  let nCompact := if 1 ≤ nSize then nCompact ||| (vch.getD 4 0).toUInt32 <<< 16 else nCompact
  let nCompact := if 2 ≤ nSize then nCompact ||| (vch.getD 5 0).toUInt32 <<< 8 else nCompact
  if 3 ≤ nSize then nCompact ||| (vch.getD 6 0).toUInt32 else nCompact

end CBigNum

/-! ## Bytes and numbers -/

section Format

variable {bytes rest : List UInt8} {top : UInt8} {fNegative : Bool}

private theorem top_bits (top : UInt8) :
    (0x80 ≤ top → (top &&& 0x7f).toNat + 128 = top.toNat) ∧
      (¬0x80 ≤ top → top &&& 0x7f = top ∧ (top ||| 0x80) &&& 0x7f = top ∧ 0x80 ≤ top ||| 0x80) :=
  @BitGroups.forall_byte (fun top => (0x80 ≤ top → (top &&& 0x7f).toNat + 128 = top.toNat) ∧
    (¬0x80 ≤ top → top &&& 0x7f = top ∧ (top ||| 0x80) &&& 0x7f = top ∧ 0x80 ≤ top ||| 0x80))
    (by decide +kernel) top

private theorem ofLE_reverse_cons (top : UInt8) (rest : List UInt8) :
    ofLE (top :: rest).reverse = ofLE rest.reverse + 256 ^ rest.length * top.toNat := by
  rw [List.reverse_cons, ofLE_concat, List.length_reverse]

/-- A magnitude with a sign stands for the signed number. -/
private theorem mpiNumber_signBytes (fNegative : Bool) (bytes : List UInt8) :
    mpiNumber (signBytes fNegative bytes) =
      if fNegative then -(ofLE bytes.reverse : Int) else ofLE bytes.reverse := by
  cases bytes with
  | nil => simp [signBytes, mpiNumber, ofLE]
  | cons top rest =>
      rw [signBytes]
      by_cases high : 0x80 ≤ top
      · rw [if_pos high]
        cases fNegative with
        | false =>
            have small : ¬(0x80 : UInt8) ≤ 0 := by decide
            have zero : (0 : UInt8) &&& 0x7f = 0 := by decide
            simp only [Bool.false_eq_true, if_false, mpiNumber, small, zero]
            rw [ofLE_reverse_cons]
            simp
        | true =>
            have large : (0x80 : UInt8) ≤ 0x80 := by decide
            have zero : (0x80 : UInt8) &&& 0x7f = 0 := by decide
            simp only [if_true, mpiNumber, large, zero]
            rw [ofLE_reverse_cons]
            simp
      · obtain ⟨cleared, sign_cleared, signed⟩ := (top_bits top).2 high
        rw [if_neg high]
        cases fNegative with
        | false => simp [mpiNumber, high, cleared]
        | true => simp [mpiNumber, sign_cleared, signed]

/-- A byte vector stands for the number of its reversed bytes. -/
private theorem setvch_eq_mpiNumber (vch : List UInt8) : setvch vch = mpiNumber vch.reverse := by
  rcases List.eq_nil_or_concat vch with rfl | ⟨init, top, rfl⟩
  · rfl
  · have low := ofLE_lt init
    have bound := top.toNat_lt
    rw [List.concat_eq_append, List.reverse_append, List.reverse_singleton, List.singleton_append,
      mpiNumber, setvch, ofLE_concat, ofLE_reverse_cons, List.reverse_reverse]
    simp only [List.length_append, List.length_singleton, Nat.add_sub_cancel, List.length_reverse]
    by_cases high : 0x80 ≤ top
    · have bits := (top_bits top).1 high
      have above : 128 * 256 ^ init.length ≤ ofLE init + 256 ^ init.length * top.toNat := by
        rw [← bits]
        nlinarith
      have cut : ofLE init + 256 ^ init.length * top.toNat - 128 * 256 ^ init.length =
          ofLE init + 256 ^ init.length * (top &&& 0x7f).toNat := by
        refine Nat.sub_eq_of_eq_add ?_
        rw [← bits]
        ring
      rw [if_pos ⟨by simp, above⟩, if_pos high, cut]
    · have below : ¬128 * 256 ^ init.length ≤ ofLE init + 256 ^ init.length * top.toNat := by
        have small : top.toNat < 128 := by simpa [UInt8.le_iff_toNat_le] using high
        have step : 256 ^ init.length * top.toNat + 256 ^ init.length ≤
            128 * 256 ^ init.length := by nlinarith
        omega
      rw [if_neg fun both => below both.2, if_neg high, ((top_bits top).2 high).1]

private theorem getvch_eq_mpiBytes (bn : Int) : getvch bn = (mpiBytes bn).reverse := by
  rw [getvch, mpiBytes]
  dsimp only
  generalize magnitudeBytes bn.natAbs bn.natAbs = bytes
  rcases List.eq_nil_or_concat bytes with rfl | ⟨init, top, rfl⟩
  · rfl
  · rw [List.concat_eq_append, List.getLast?_concat, List.reverse_append, List.reverse_singleton,
      List.singleton_append, signBytes]
    by_cases negative : bn < 0 <;> by_cases high : 0x80 ≤ top <;> simp [negative, high]

private theorem magnitudeBytes_last {fuel number : Nat} (enough : number ≤ fuel) :
    ∀ top ∈ (magnitudeBytes fuel number).getLast?, top ≠ 0 := by
  induction fuel generalizing number with
  | zero => simp [magnitudeBytes]
  | succ fuel induction =>
      rw [magnitudeBytes]
      by_cases zero : number = 0
      · rw [if_pos zero]
        simp
      · have less : number / 256 ≤ fuel := by omega
        have later := ofLE_magnitudeBytes less
        have last := induction less
        rw [if_neg zero]
        by_cases only : magnitudeBytes fuel (number / 256) = []
        · rw [only] at later ⊢
          have byte : (UInt8.ofNat (number % 256)).toNat = number % 256 := by
            simp [UInt8.toNat_ofNat']
          simp only [List.getLast?_singleton, Option.mem_some_iff, forall_eq']
          intro none
          rw [none] at byte
          simp only [ofLE] at later
          have low : number % 256 = 0 := byte.symm
          omega
        · rwa [List.getLast?_cons_of_ne_nil only]

private theorem mpiNumber_mpiBytes (bn : Int) : mpiNumber (mpiBytes bn) = bn := by
  rw [← List.reverse_reverse (mpiBytes bn), ← getvch_eq_mpiBytes, ← setvch_eq_mpiNumber,
    setvch_getvch]

private theorem natAbs_mpiNumber (top : UInt8) (rest : List UInt8) :
    (mpiNumber (top :: rest)).natAbs = ofLE ((top &&& 0x7f) :: rest).reverse := by
  rw [mpiNumber]
  split <;> simp

private theorem natAbs_mpiNumber_lt (top : UInt8) (rest : List UInt8) :
    (mpiNumber (top :: rest)).natAbs < 128 * 256 ^ rest.length := by
  have low := ofLE_lt rest.reverse
  have small : (top &&& 0x7f).toNat < 128 :=
    @BitGroups.forall_byte (fun top => (top &&& 0x7f).toNat < 128) (by decide +kernel) top
  have step : 256 ^ rest.length * (top &&& 0x7f).toNat + 256 ^ rest.length ≤
      128 * 256 ^ rest.length := by
    rw [← Nat.mul_succ, Nat.mul_comm 128]
    exact Nat.mul_le_mul_left _ small
  rw [List.length_reverse] at low
  rw [natAbs_mpiNumber, ofLE_reverse_cons]
  omega

/-- A number of at least two bytes does not fit into one byte less. -/
private theorem le_natAbs_of_mpiBytes {bn : Int} (two : 2 ≤ (mpiBytes bn).length) :
    128 * 256 ^ ((mpiBytes bn).length - 2) ≤ bn.natAbs := by
  have number := ofLE_magnitudeBytes (le_refl bn.natAbs)
  have last := magnitudeBytes_last (le_refl bn.natAbs)
  rw [mpiBytes] at two ⊢
  generalize magnitudeBytes bn.natAbs bn.natAbs = bytes at *
  rw [← number]
  rcases List.eq_nil_or_concat bytes with rfl | ⟨init, top, rfl⟩
  · simp [signBytes] at two
  · rw [List.concat_eq_append, List.reverse_append, List.reverse_singleton,
      List.singleton_append, signBytes] at two ⊢
    rw [ofLE_concat]
    by_cases high : 0x80 ≤ top
    · have bits := (top_bits top).1 high
      rw [if_pos high]
      have size : init.length + 1 + 1 - 2 = init.length := by omega
      simp only [List.length_cons, List.length_reverse, size]
      rw [Nat.mul_comm 128]
      exact Nat.le_add_left_of_le (Nat.mul_le_mul_left _ (by omega))
    · rw [if_neg high] at two ⊢
      simp only [List.length_cons, List.length_reverse] at two ⊢
      have positive : 0 < top.toNat := by
        rw [Nat.pos_iff_ne_zero]
        exact fun zero => last top (by simp) (UInt8.toNat_inj.mp zero)
      have size : init.length = init.length + 1 - 2 + 1 := by omega
      generalize init.length + 1 - 2 = less at size
      rw [size, pow_succ, Nat.mul_assoc, Nat.mul_comm 128]
      exact Nat.le_add_left_of_le (Nat.mul_le_mul_left _ (by omega))

/-- No bytes that stand for a number are fewer than its own. -/
private theorem length_mpiBytes_le {bn : Int} (bytes : List UInt8) (number : mpiNumber bytes = bn) :
    (mpiBytes bn).length ≤ bytes.length := by
  by_contra shorter
  cases bytes with
  | nil =>
      rw [mpiNumber] at number
      rw [← number] at shorter
      exact shorter (by decide)
  | cons top rest =>
      rw [List.length_cons] at shorter
      have upper := natAbs_mpiNumber_lt top rest
      have lower := @le_natAbs_of_mpiBytes bn (by omega)
      have wider : 256 ^ rest.length ≤ 256 ^ ((mpiBytes bn).length - 2) :=
        Nat.pow_le_pow_right (by norm_num) (by omega)
      rw [number] at upper
      omega

end Format

/-! ## What is stored -/

namespace CBigNum

section Store

variable {lib : BnLib} {bn : Int} {bytes : List UInt8} {fNegative : Bool}

private theorem load_eq (bn : Int) (short : bytes.length + 4 < 2 ^ 31) :
    load lib bn (sizeBytes (UInt32.ofNat bytes.length) ++ bytes) = mpiNumber bytes := by
  have size : (sizeBytes (UInt32.ofNat bytes.length) ++ bytes).length = bytes.length + 4 := by
    rw [List.length_append, Nat.add_comm]
    rfl
  have count : Int.bmod (bytes.length + 4 : Nat) (2 ^ 32) = bytes.length + 4 := by
    rw [Int.bmod_eq_of_le (by omega) (by omega)]
    push_cast
    rfl
  rw [load, size, count, lib.mpi2bn_eq bytes short, Option.getD_some]

private theorem encodeLoop_false (fNegative : Bool) (bytes : List UInt8) :
    encodeLoop fNegative false bytes = bytes := by
  induction bytes with
  | nil => rfl
  | cons c bytes induction => rw [encodeLoop, induction]

/-- The encoders sign the bytes behind the leading zeros. -/
private theorem encodeLoop_true (fNegative : Bool) (bytes : List UInt8) :
    encodeLoop fNegative true bytes = signBytes fNegative (bytes.dropWhile (· = 0)) := by
  induction bytes with
  | nil => rfl
  | cons c bytes induction =>
      rw [encodeLoop]
      by_cases zero : c = 0
      · rw [if_pos zero, induction, List.dropWhile_cons_of_pos (by simpa using zero)]
      · have high : c &&& 0x80 ≠ 0 ↔ 0x80 ≤ c :=
          @BitGroups.forall_byte (fun c => c &&& 0x80 ≠ 0 ↔ 0x80 ≤ c) (by decide +kernel) c
        rw [if_neg zero, List.dropWhile_cons_of_neg (by simpa using zero), encodeLoop_false,
          signBytes]
        simp only [high]
        cases fNegative <;> simp

private theorem ofLE_dropWhile (bytes : List UInt8) :
    ofLE (bytes.dropWhile (· = 0)).reverse = ofLE bytes.reverse := by
  induction bytes with
  | nil => rfl
  | cons c bytes induction =>
      by_cases zero : c = 0
      · rw [List.dropWhile_cons_of_pos (by simpa using zero), induction, ofLE_reverse_cons, zero]
        simp
      · rw [List.dropWhile_cons_of_neg (by simpa using zero)]

private theorem length_encodeLoop (fNegative : Bool) (bytes : List UInt8) :
    (encodeLoop fNegative true bytes).length ≤ bytes.length + 1 := by
  have dropped := (List.dropWhile_sublist (fun c : UInt8 => decide (c = 0)) (l := bytes)).length_le
  rw [encodeLoop_true]
  cases kept : bytes.dropWhile (· = 0) with
  | nil => simp [signBytes]
  | cons top rest =>
      rw [kept] at dropped
      rw [signBytes]
      split <;> simp only [List.length_cons] at dropped ⊢ <;> omega

/-- An encoder stores the number of its bytes with its sign. -/
private theorem encode_eq (bn : Int) (fNegative : Bool) (short : bytes.length ≤ 32) :
    encode lib bn fNegative bytes =
      if fNegative then -(ofLE bytes.reverse : Int) else ofLE bytes.reverse := by
  have size := length_encodeLoop fNegative bytes
  rw [encode, load_eq bn (by omega), encodeLoop_true, mpiNumber_signBytes, ofLE_dropWhile]

/-- The bytes that are shifted out of a word stand for its top. -/
private theorem ofLE_shiftedBytes {count : Nat} (n : UInt64) (few : count ≤ 8) :
    ofLE (shiftedBytes count n).reverse = n.toNat / 256 ^ (8 - count) := by
  induction count generalizing n with
  | zero =>
      have bound := n.toNat_lt
      rw [shiftedBytes, List.reverse_nil, ofLE, Nat.div_eq_of_lt (by simpa using bound)]
  | succ count induction =>
      have length (count : Nat) (n : UInt64) : (shiftedBytes count n).length = count := by
        induction count generalizing n with
        | zero => rfl
        | succ count induction => rw [shiftedBytes, List.length_cons, induction]
      have bound := n.toNat_lt
      have first : (n >>> 56).toUInt8.toNat = n.toNat / 2 ^ 56 := by
        have shift : (56 : UInt64).toNat % 64 = 56 := rfl
        rw [UInt64.toNat_toUInt8, UInt64.toNat_shiftRight, shift, Nat.shiftRight_eq_div_pow]
        exact Nat.mod_eq_of_lt (by omega)
      have later : (n <<< 8).toNat = n.toNat % 2 ^ 56 * 256 := by
        rw [UInt64.toNat_shiftLeft, Nat.shiftLeft_eq]
        exact (by omega : n.toNat * 2 ^ 8 % 2 ^ 64 = n.toNat % 2 ^ 56 * 256)
      obtain ⟨rest, rest_eq⟩ : ∃ rest, rest + count = 7 := ⟨7 - count, by omega⟩
      have places : 8 - count = rest + 1 := by omega
      have fewer : 8 - (count + 1) = rest := by omega
      have scale : (2 : Nat) ^ 56 = 256 ^ rest * 256 ^ count := by
        rw [← pow_add, rest_eq]
        norm_num
      rw [shiftedBytes, ofLE_reverse_cons, length, induction _ (by omega), first, later, places,
        fewer, pow_succ 256 rest, Nat.mul_div_mul_right _ _ (by norm_num)]
      conv_rhs => rw [← Nat.div_add_mod n.toNat (2 ^ 56), scale, Nat.mul_assoc,
        Nat.mul_add_div (by positivity)]
      rw [← scale, Nat.add_comm]

private theorem shiftedBytes_spec (n : UInt64) :
    (shiftedBytes 8 n).length ≤ 32 ∧ ofLE (shiftedBytes 8 n).reverse = n.toNat := by
  refine ⟨by simp [shiftedBytes], ?_⟩
  rw [ofLE_shiftedBytes n le_rfl, Nat.sub_self, pow_zero, Nat.div_one]

private theorem setint64_eq (bn : Int) {sn : Int} (lower : int64Min ≤ sn) (upper : sn ≤ int64Max) :
    setint64 lib bn sn = sn := by
  simp only [int64Min, int64Max] at lower upper
  rw [setint64]
  split
  next negative =>
    obtain ⟨short, number⟩ := shiftedBytes_spec (UInt64.ofNat (-(sn + 1)).toNat + 1)
    have magnitude : (UInt64.ofNat (-(sn + 1)).toNat + 1).toNat = sn.natAbs := by
      rw [UInt64.toNat_add, UInt64.toNat_ofNat']
      simp only [UInt64.toNat_one]
      omega
    rw [encode_eq bn true short, if_pos rfl, number, magnitude]
    omega
  next nonneg =>
    obtain ⟨short, number⟩ := shiftedBytes_spec (UInt64.ofNat sn.toNat)
    have magnitude : (UInt64.ofNat sn.toNat).toNat = sn.toNat := by
      rw [UInt64.toNat_ofNat']
      omega
    rw [encode_eq bn false short, if_neg (by simp), number, magnitude]
    omega

private theorem setuint64_eq (bn : Int) (n : UInt64) : setuint64 lib bn n = n.toNat := by
  obtain ⟨short, number⟩ := shiftedBytes_spec n
  rw [setuint64, encode_eq bn false short, if_neg (by simp), number]

private theorem setuint256_eq (bn : Int) (n : UInt256) : setuint256 lib bn n = n.toNat := by
  have bound : n.toNat < 256 ^ 32 := by
    have below := n.isLt
    norm_num at below ⊢
    exact below
  rw [setuint256, encode_eq bn false (by simp), if_neg (by simp), List.reverse_reverse,
    uint256Bytes, ofLE_leBytes_of_lt bound]

private theorem two_pow_le_of_mpiBytes {bn : Int} (two : 2 ≤ (mpiBytes bn).length) :
    2 ^ (8 * (mpiBytes bn).length - 9) ≤ bn.natAbs := by
  have lower := le_natAbs_of_mpiBytes two
  have scale : 128 * 256 ^ ((mpiBytes bn).length - 2) = 2 ^ (8 * (mpiBytes bn).length - 9) := by
    rw [show (256 : Nat) = 2 ^ 8 from rfl, show 128 = 2 ^ 7 from rfl, ← pow_mul, ← pow_add]
    congr 1
    omega
  rwa [scale] at lower

private theorem length_mpiBytes_of_lt {places : Nat} {bn : Int} (small : bn.natAbs < 2 ^ places) :
    (mpiBytes bn).length ≤ places / 8 + 1 := by
  by_contra longer
  have lower := @two_pow_le_of_mpiBytes bn (by omega)
  have wider : 2 ^ places ≤ 2 ^ (8 * (mpiBytes bn).length - 9) :=
    Nat.pow_le_pow_right (by norm_num) (by omega)
  omega

/-- The bytes behind the size, without the sign, stand for the magnitude. -/
private theorem getuint256_eq {bn : Int} (small : bn.natAbs < 2 ^ 256) :
    (getuint256 lib bn).toNat = bn.natAbs := by
  have size := length_mpiBytes_of_lt small
  have written := lib.bn2mpi_eq bn (by omega)
  have number := mpiNumber_mpiBytes bn
  rw [getuint256, written]
  generalize mpiBytes bn = body at *
  have some_size : ¬(sizeBytes (UInt32.ofNat body.length) ++ body).length < 4 := by
    simp [sizeBytes]
  have magnitude : ofLE ((((sizeBytes (UInt32.ofNat body.length) ++ body).modify 4
      (· &&& 0x7f)).drop 4).reverse) = bn.natAbs := by
    cases body with
    | nil =>
        rw [← number]
        rfl
    | cons top rest =>
        rw [← number, natAbs_mpiNumber]
        rfl
  have bound : bn.natAbs < 256 ^ 32 := by
    norm_num at small ⊢
    exact small
  rw [if_neg some_size, BitVec.toNat_ofNat, ofLE_take, magnitude, Nat.mod_eq_of_lt bound,
    Nat.mod_eq_of_lt small]

/-! ## Byte vectors -/

private theorem setvch_eq (bn : Int) {vch : List UInt8} (short : vch.length + 4 < 2 ^ 31) :
    setvch lib bn vch = FooCoin.setvch vch := by
  rw [setvch, ← List.length_reverse, load_eq bn (by simpa using short), setvch_eq_mpiNumber]

private theorem getvch_eq {bn : Int} (short : (mpiBytes bn).length + 4 < 2 ^ 31) :
    getvch lib bn = FooCoin.getvch bn := by
  have written := lib.bn2mpi_eq bn short
  rw [getvch, written, getvch_eq_mpiBytes]
  generalize mpiBytes bn = body
  cases body with
  | nil => rfl
  | cons top rest =>
      rw [if_neg (by simp [sizeBytes])]
      rfl

private theorem length_getvch_le {bn : Int} {vch : List UInt8} (number : FooCoin.setvch vch = bn) :
    (FooCoin.getvch bn).length ≤ vch.length := by
  rw [setvch_eq_mpiNumber] at number
  have shortest := length_mpiBytes_le vch.reverse number
  rw [List.length_reverse] at shortest
  rwa [getvch_eq_mpiBytes, List.length_reverse]

/-! ## The compact form -/

/-- The bytes of a positive number stand for it, and they are as many as the compact form says. -/
private theorem mpiBytes_spec {value : Nat} (positive : 0 < value) :
    (mpiBytes value).length = compactSize value ∧ ofLE (mpiBytes value).reverse = value := by
  obtain ⟨below, -⟩ := compactSize_spec positive
  have size_pos : 1 ≤ compactSize value := by simp [compactSize]
  have upper : (mpiBytes value).length ≤ (8 * compactSize value - 1) / 8 + 1 :=
    length_mpiBytes_of_lt (by simpa using below)
  have number := mpiNumber_mpiBytes value
  generalize mpiBytes value = body at *
  cases body with
  | nil =>
      rw [mpiNumber] at number
      omega
  | cons top rest =>
      have low : ¬0x80 ≤ top := by
        intro high
        rw [mpiNumber, if_pos high] at number
        omega
      have magnitude := natAbs_mpiNumber_lt top rest
      rw [number, Int.natAbs_natCast] at magnitude
      have scale : 128 * 256 ^ rest.length = 2 ^ (8 * rest.length + 7) := by
        rw [show (256 : Nat) = 2 ^ 8 from rfl, show 128 = 2 ^ 7 from rfl, ← pow_mul, ← pow_add,
          Nat.add_comm]
      rw [scale] at magnitude
      have lower := compactSize_le positive magnitude
      refine ⟨?_, ?_⟩
      · rw [List.length_cons] at upper ⊢
        omega
      · rw [mpiNumber, if_neg low, ((top_bits top).2 low).1] at number
        exact_mod_cast number

private theorem pack_bytes (nSize : UInt32) (first second third : UInt8) :
    nSize <<< 24 ||| first.toUInt32 <<< 16 ||| second.toUInt32 <<< 8 ||| third.toUInt32 =
      UInt32.ofNat (nSize.toNat * 2 ^ 24 +
        (first.toNat * 2 ^ 16 + (second.toNat * 2 ^ 8 + third.toNat))) := by
  have first_lt := first.toNat_lt
  have second_lt := second.toNat_lt
  have third_lt := third.toNat_lt
  have shift_size : (nSize <<< 24).toNat = (nSize.toNat % 256) <<< 24 := by
    rw [UInt32.toNat_shiftLeft, Nat.shiftLeft_eq, Nat.shiftLeft_eq]
    exact (by omega : nSize.toNat * 2 ^ 24 % 2 ^ 32 = nSize.toNat % 256 * 2 ^ 24)
  have shift_first : (first.toUInt32 <<< 16).toNat = first.toNat <<< 16 := by
    rw [UInt32.toNat_shiftLeft, UInt8.toNat_toUInt32, Nat.shiftLeft_eq, Nat.shiftLeft_eq]
    exact Nat.mod_eq_of_lt (by omega : first.toNat * 2 ^ 16 < 2 ^ 32)
  have shift_second : (second.toUInt32 <<< 8).toNat = second.toNat <<< 8 := by
    rw [UInt32.toNat_shiftLeft, UInt8.toNat_toUInt32, Nat.shiftLeft_eq, Nat.shiftLeft_eq]
    exact Nat.mod_eq_of_lt (by omega : second.toNat * 2 ^ 8 < 2 ^ 32)
  apply UInt32.toNat_inj.mp
  rw [UInt32.toNat_or, UInt32.toNat_or, UInt32.toNat_or, shift_size, shift_first, shift_second,
    UInt8.toNat_toUInt32, Nat.or_assoc, Nat.or_assoc,
    ← Nat.shiftLeft_add_eq_or_of_lt (show third.toNat < 2 ^ 8 by omega),
    Nat.shiftLeft_eq second.toNat,
    ← Nat.shiftLeft_add_eq_or_of_lt (show second.toNat * 2 ^ 8 + third.toNat < 2 ^ 16 by omega),
    Nat.shiftLeft_eq first.toNat,
    ← Nat.shiftLeft_add_eq_or_of_lt (show first.toNat * 2 ^ 16 +
      (second.toNat * 2 ^ 8 + third.toNat) < 2 ^ 24 by omega),
    Nat.shiftLeft_eq, UInt32.toNat_ofNat']
  omega

/-- The three first bytes of a number are its three top places. -/
private theorem top_places {body : List UInt8} (nonempty : body ≠ []) :
    (if body.length ≤ 3 then ofLE body.reverse * 256 ^ (3 - body.length)
      else ofLE body.reverse / 256 ^ (body.length - 3)) =
      (body.getD 0 0).toNat * 2 ^ 16 + ((body.getD 1 0).toNat * 2 ^ 8 + (body.getD 2 0).toNat) := by
  match body with
  | [] => exact absurd rfl nonempty
  | [first] =>
      simp [ofLE]
  | [first, second] =>
      simp [ofLE]
      ring
  | first :: second :: third :: rest =>
      have low := ofLE_lt rest.reverse
      rw [List.length_reverse] at low
      have number : ofLE (first :: second :: third :: rest).reverse = ofLE rest.reverse +
          256 ^ rest.length * (first.toNat * 2 ^ 16 + (second.toNat * 2 ^ 8 + third.toNat)) := by
        simp only [ofLE_reverse_cons, List.length_cons, pow_succ]
        ring
      have size : (first :: second :: third :: rest).length = rest.length + 3 := rfl
      rw [number, size]
      split
      next short =>
        have none : rest = [] := List.eq_nil_of_length_eq_zero (by omega)
        rw [none]
        simp [ofLE]
      next =>
        rw [Nat.add_sub_cancel, Nat.add_mul_div_left _ _ (by positivity), Nat.div_eq_of_lt low]
        simp

private theorem getCompact_eq_compact {value : Nat} (positive : 0 < value)
    (fits : compactSize value + 4 < 2 ^ 31) :
    getCompact lib value = FooCoin.getCompact value := by
  obtain ⟨size, number⟩ := mpiBytes_spec positive
  have written := lib.bn2mpi_eq value (by rw [size]; exact fits)
  have places := @top_places (mpiBytes value) (by
    intro none
    rw [none] at size
    simp [compactSize] at size)
  rw [number, size] at places
  rw [getCompact, written, FooCoin.getCompact_eq positive, places, ← size]
  rw [← size] at fits
  generalize mpiBytes value = body at *
  have count : UInt32.ofNat (sizeBytes (UInt32.ofNat body.length) ++ body).length - 4 =
      UInt32.ofNat body.length := by
    have all : (sizeBytes (UInt32.ofNat body.length) ++ body).length = body.length + 4 := by
      rw [List.length_append, Nat.add_comm]
      rfl
    rw [all, UInt32.ofNat_add]
    simp
  have small : (UInt32.ofNat body.length).toNat = body.length := by
    rw [UInt32.toNat_ofNat', Nat.mod_eq_of_lt (by omega)]
  have fourth : (sizeBytes (UInt32.ofNat body.length) ++ body).getD 4 0 = body.getD 0 0 := rfl
  have fifth : (sizeBytes (UInt32.ofNat body.length) ++ body).getD 5 0 = body.getD 1 0 := rfl
  have sixth : (sizeBytes (UInt32.ofNat body.length) ++ body).getD 6 0 = body.getD 2 0 := rfl
  have or_place (position : Nat) (nCompact nSize shift : UInt32)
      (counted : nSize.toNat = position + 1) :
      (if nSize ≤ UInt32.ofNat body.length then
        nCompact ||| (body.getD position 0).toUInt32 <<< shift else nCompact) =
      nCompact ||| (body.getD position 0).toUInt32 <<< shift := by
    split
    next => rfl
    next missing =>
      have none : body.getD position 0 = 0 := by
        refine List.getD_eq_default _ _ ?_
        rw [UInt32.le_iff_toNat_le, small] at missing
        omega
      rw [none]
      simp
  have third_place (nCompact : UInt32) : nCompact ||| (body.getD 2 0).toUInt32 =
      nCompact ||| (body.getD 2 0).toUInt32 <<< 0 := by
    simp
  rw [count, fourth, fifth, sixth, third_place, or_place 0 _ _ _ rfl,
    or_place 1 _ _ _ rfl, or_place 2 _ _ _ rfl, ← third_place, pack_bytes, small]

/-- Bytes behind a size of one byte give the number of their places, signed by the top bit. -/
private theorem load_compact (bn : Int) {top : UInt8} {rest : List UInt8} {low : Nat}
    (short : rest.length < 255) (places : top.toNat = low / 2 ^ 16 % 256) :
    load lib bn ([0, 0, 0, UInt8.ofNat (rest.length + 1)] ++ top :: rest) =
      if low / 2 ^ 23 % 2 = 1 then
        -((ofLE rest.reverse + 256 ^ rest.length * (low / 2 ^ 16 % 128) : Nat) : Int)
      else ((ofLE rest.reverse + 256 ^ rest.length * (low / 2 ^ 16 % 128) : Nat) : Int) := by
  have front : sizeBytes (UInt32.ofNat (top :: rest).length) =
      [0, 0, 0, UInt8.ofNat (rest.length + 1)] := by
    have bytes (size : Fin 256) : sizeBytes (UInt32.ofNat size.val) =
        [0, 0, 0, UInt8.ofNat size.val] := by
      revert size
      decide +kernel
    exact bytes ⟨rest.length + 1, by omega⟩
  have cleared : (top &&& 0x7f).toNat = low / 2 ^ 16 % 128 := by
    have remainder : (top &&& 0x7f).toNat = top.toNat % 128 :=
      @BitGroups.forall_byte (fun top => (top &&& 0x7f).toNat = top.toNat % 128)
        (by decide +kernel) top
    rw [remainder, places]
    omega
  have sign : 0x80 ≤ top ↔ low / 2 ^ 23 % 2 = 1 := by
    rw [UInt8.le_iff_toNat_le, places]
    simp only [UInt8.reduceToNat]
    omega
  rw [← front, load_eq bn (by rw [List.length_cons]; omega), mpiNumber, ofLE_reverse_cons, cleared]
  simp only [sign]

private theorem setCompact_eq_compact (bn : Int) (nCompact : UInt32) :
    setCompact lib bn nCompact = FooCoin.setCompact nCompact := by
  have bound := nCompact.toNat_lt
  have size : (nCompact >>> 24).toNat = nCompact.toNat / 2 ^ 24 := by
    have shift : (24 : UInt32).toNat % 32 = 24 := rfl
    rw [UInt32.toNat_shiftRight, shift, Nat.shiftRight_eq_div_pow]
  have first : (nCompact >>> 16).toUInt8.toNat = nCompact.toNat / 2 ^ 16 % 256 := by
    have shift : (16 : UInt32).toNat % 32 = 16 := rfl
    rw [UInt32.toNat_toUInt8, UInt32.toNat_shiftRight, shift, Nat.shiftRight_eq_div_pow]
  have second : (nCompact >>> 8).toUInt8.toNat = nCompact.toNat / 2 ^ 8 % 256 := by
    have shift : (8 : UInt32).toNat % 32 = 8 := rfl
    rw [UInt32.toNat_toUInt8, UInt32.toNat_shiftRight, shift, Nat.shiftRight_eq_div_pow]
  have third : nCompact.toUInt8.toNat = nCompact.toNat % 256 := UInt32.toNat_toUInt8 nCompact
  have small : nCompact.toNat / 2 ^ 24 < 256 := by omega
  rw [setCompact, FooCoin.setCompact, size]
  generalize (nCompact >>> 16).toUInt8 = top at *
  generalize (nCompact >>> 8).toUInt8 = middle at *
  generalize nCompact.toUInt8 = bottom at *
  generalize nCompact.toNat / 2 ^ 24 = nSize at *
  have sizes : nSize = 0 ∨ nSize = 1 ∨ nSize = 2 ∨ ∃ more, nSize = more + 3 := by
    by_cases large : 3 ≤ nSize
    · exact .inr (.inr (.inr ⟨nSize - 3, by omega⟩))
    · omega
  obtain rfl | rfl | rfl | ⟨more, rfl⟩ := sizes
  · have nothing : load lib bn [0, 0, 0, 0] = 0 := @load_eq lib [] bn (by decide)
    have tiny : nCompact.toNat % 2 ^ 23 / 256 ^ 3 = 0 := by omega
    simp only [Nat.zero_le, if_true, Nat.sub_zero, tiny, Nat.cast_zero, neg_zero, ite_self]
    exact nothing
  · have stored := @load_compact lib bn top [] nCompact.toNat (by simp) first
    have places : nCompact.toNat % 2 ^ 23 / 256 ^ 2 = nCompact.toNat / 2 ^ 16 % 128 := by omega
    simp only [List.length_nil, List.reverse_nil, ofLE, pow_zero, one_mul, zero_add] at stored
    simp only [Nat.reduceSub, places, le_refl, Nat.one_le_ofNat, true_and]
    exact stored
  · have stored := @load_compact lib bn top [middle] nCompact.toNat (by simp) first
    have places : nCompact.toNat % 2 ^ 23 / 256 ^ 1 =
        middle.toNat + 256 * (nCompact.toNat / 2 ^ 16 % 128) := by omega
    simp only [List.length_singleton, List.reverse_singleton, ofLE, pow_one, mul_zero,
      add_zero] at stored
    simp only [Nat.reduceSub, places, le_refl, Nat.one_le_ofNat, true_and]
    exact stored
  · have stored := @load_compact lib bn top (middle :: bottom :: List.replicate more 0)
      nCompact.toNat (by simp; omega) first
    have magnitude : ofLE (middle :: bottom :: List.replicate more 0).reverse +
        256 ^ (more + 2) * (nCompact.toNat / 2 ^ 16 % 128) =
        if more + 3 ≤ 3 then nCompact.toNat % 2 ^ 23 / 256 ^ (3 - (more + 3))
        else nCompact.toNat % 2 ^ 23 * 256 ^ (more + 3 - 3) := by
      have whole : nCompact.toNat % 2 ^ 23 = bottom.toNat + 256 * middle.toNat +
          256 ^ 2 * (nCompact.toNat / 2 ^ 16 % 128) := by omega
      have scaled : (if more + 3 ≤ 3 then nCompact.toNat % 2 ^ 23 / 256 ^ (3 - (more + 3))
          else nCompact.toNat % 2 ^ 23 * 256 ^ (more + 3 - 3)) =
          nCompact.toNat % 2 ^ 23 * 256 ^ more := by
        split
        next none => simp [show more = 0 by omega]
        next => rw [Nat.add_sub_cancel]
      rw [scaled, whole, ofLE_reverse_cons, ofLE_reverse_cons, List.reverse_replicate,
        ofLE_replicate_zero, List.length_cons, List.length_replicate]
      ring
    have length : (middle :: bottom :: List.replicate more (0 : UInt8)).length = more + 2 := by
      simp
    have room : 4 + (more + 3) = more + 7 := by omega
    rw [length, magnitude] at stored
    simp only [room, show 1 ≤ more + 3 by omega, show 2 ≤ more + 3 by omega,
      show 3 ≤ more + 3 by omega, if_true, true_and]
    exact stored

end Store

/-- Numbers of 64 and 256 bits are stored exactly and `getuint256` gives their magnitudes back; a
byte vector comes back as the shortest one of the same number; and the compact form of a positive
number that its size byte can hold rounds it down by less than one part in `2 ^ 15`. -/
theorem conversions_exact (lib : BnLib) (bn : Int) :
    (∀ n, int64Min ≤ n → n ≤ int64Max → setint64 lib bn n = n ∧
      (getuint256 lib (setint64 lib bn n)).toNat = n.natAbs) ∧
    (∀ n : UInt64, setuint64 lib bn n = n.toNat ∧
      (getuint256 lib (setuint64 lib bn n)).toNat = n.toNat) ∧
    (∀ n : UInt256, setuint256 lib bn n = n.toNat ∧
      getuint256 lib (setuint256 lib bn n) = n) ∧
    (∀ vch : List UInt8, vch.length + 4 < 2 ^ 31 → setvch lib bn vch = FooCoin.setvch vch ∧
      FooCoin.setvch (getvch lib (setvch lib bn vch)) = FooCoin.setvch vch ∧
      ∀ other, FooCoin.setvch other = FooCoin.setvch vch →
        (getvch lib (setvch lib bn vch)).length ≤ other.length) ∧
    ∀ x : Nat, 0 < x → x < 2 ^ 2039 →
      ∃ y : Nat, setCompact lib bn (getCompact lib x) = y ∧ y ≤ x ∧ (x - y) * 2 ^ 15 < x ∧
        getCompact lib y = getCompact lib x := by
  refine ⟨fun n lower upper => ?_, fun n => ?_, fun n => ?_, fun vch short => ?_,
    fun x positive fits => ?_⟩
  · have stored := @setint64_eq lib bn n lower upper
    simp only [int64Min, int64Max] at lower upper
    rw [stored]
    exact ⟨rfl, getuint256_eq (by omega)⟩
  · have stored := @setuint64_eq lib bn n
    have bound := n.toNat_lt
    rw [stored, getuint256_eq (by omega), Int.natAbs_natCast]
    exact ⟨rfl, rfl⟩
  · have stored := @setuint256_eq lib bn n
    rw [stored]
    refine ⟨rfl, BitVec.eq_of_toNat_eq ?_⟩
    rw [getuint256_eq (by rw [Int.natAbs_natCast]; exact n.isLt), Int.natAbs_natCast]
  · have stored := @setvch_eq lib bn vch short
    have bytes : (mpiBytes (FooCoin.setvch vch)).length ≤ vch.length := by
      have shortest := @length_getvch_le (FooCoin.setvch vch) vch rfl
      rwa [getvch_eq_mpiBytes, List.length_reverse] at shortest
    rw [stored, getvch_eq (by omega)]
    exact ⟨rfl, FooCoin.setvch_getvch _, fun other same => length_getvch_le same⟩
  · have size_le : compactSize x ≤ 255 :=
      (compactSize_le positive fits).trans (show 2039 / 8 + 1 ≤ 255 by norm_num)
    obtain ⟨y, rounded, below, near, same⟩ := getCompact_rounded positive size_le
    have y_pos : 0 < y := by omega
    have y_size : compactSize y ≤ 255 :=
      (compactSize_le y_pos (below.trans_lt fits)).trans (show 2039 / 8 + 1 ≤ 255 by norm_num)
    refine ⟨y, ?_, below, near, ?_⟩
    · rw [setCompact_eq_compact, getCompact_eq_compact positive (by omega), rounded]
    · rw [getCompact_eq_compact y_pos (by omega), getCompact_eq_compact positive (by omega), same]

/-- Conversions that read and write the format as documented. -/
def documentedBnLib : BnLib where
  BN_mpi2bn d n :=
    if 4 ≤ n ∧ n = d.length ∧ d.take 4 = sizeBytes (UInt32.ofNat (d.length - 4)) then
      some (mpiNumber (d.drop 4))
    else none
  BN_bn2mpi bn := sizeBytes (UInt32.ofNat (mpiBytes bn).length) ++ mpiBytes bn
  mpi2bn_eq bytes _ := by
    have front : (sizeBytes (UInt32.ofNat bytes.length)).length = 4 := rfl
    rw [List.take_left' front, List.drop_left' front, List.length_append, front,
      Nat.add_sub_cancel_left, if_pos ⟨by omega, by push_cast; ring, rfl⟩]
  bn2mpi_eq _ _ := rfl

theorem conversions_exact_documented :
    setint64 documentedBnLib 0 int64Min = int64Min ∧
      FooCoin.setvch (getvch documentedBnLib (setvch documentedBnLib 0 [0xff, 0, 0x80])) =
        FooCoin.setvch [0xff, 0, 0x80] ∧
      ∃ y : Nat, setCompact documentedBnLib 0 (getCompact documentedBnLib (0x80000001 : Nat)) = y ∧
        y ≤ 0x80000001 ∧ (0x80000001 - y) * 2 ^ 15 < 0x80000001 ∧
        getCompact documentedBnLib y = getCompact documentedBnLib (0x80000001 : Nat) := by
  obtain ⟨signed, -, -, vectors, compact⟩ := conversions_exact documentedBnLib 0
  have fits : 0x80000001 < 2 ^ 2039 := by
    calc
      0x80000001 < 2 ^ 32 := by norm_num
      _ ≤ 2 ^ 2039 := by gcongr <;> norm_num
  exact ⟨(signed int64Min le_rfl (by decide)).1, (vectors [0xff, 0, 0x80] (by decide)).2.1,
    compact 0x80000001 (by decide) fits⟩

/-- A negative number comes back as its magnitude, the count of a vector of `2 ^ 31 - 4` bytes is
negative, and from `2 ^ 2039` on the size takes more than its byte: such a number becomes zero. -/
theorem not_conversions_exact :
    getuint256 documentedBnLib (setint64 documentedBnLib 0 (-1)) = 1 ∧
      (setvch documentedBnLib 0 (List.replicate (2 ^ 31 - 4) 1) = 0 ∧
        FooCoin.setvch (List.replicate (2 ^ 31 - 4) 1) ≠ 0) ∧
      ¬∀ x : Nat, 0 < x → ∃ y : Nat,
        setCompact documentedBnLib 0 (getCompact documentedBnLib x) = y ∧ y ≤ x ∧
        (x - y) * 2 ^ 15 < x ∧ getCompact documentedBnLib y = getCompact documentedBnLib x := by
  refine ⟨by decide +kernel, ⟨?_, ?_⟩, fun exact => ?_⟩
  · have count : Int.bmod (2 ^ 31 : Nat) (2 ^ 32) = -2 ^ 31 := by decide
    have size : (sizeBytes (UInt32.ofNat (2 ^ 31 - 4)) ++
        List.replicate (2 ^ 31 - 4) (1 : UInt8)).length = 2 ^ 31 := by
      rw [List.length_append, List.length_replicate]
      rfl
    rw [setvch, List.length_replicate, List.reverse_replicate, load, size, count]
    rfl
  · obtain ⟨rest, many⟩ : ∃ rest, 2 ^ 31 - 4 = rest + 1 := ⟨2 ^ 31 - 5, by norm_num⟩
    have low : ¬(0x80 : UInt8) ≤ 1 := by decide
    have cleared : (1 : UInt8) &&& 0x7f = 1 := by decide
    rw [many, setvch_eq_mpiNumber, List.reverse_replicate, List.replicate_succ, mpiNumber,
      if_neg low, cleared, ofLE_reverse_cons]
    have top : 0 < 256 ^ (List.replicate rest (1 : UInt8)).length := by positivity
    simp only [UInt8.toNat_one, mul_one]
    omega
  · have positive : 0 < 2 ^ 2039 := by positivity
    have size : compactSize (2 ^ 2039) = 256 := by
      rw [compactSize, Nat.log2_two_pow]
    have mantissa : 2 ^ 2039 / 256 ^ (256 - 3) = 2 ^ 15 := by
      have places : 256 - 3 = 253 := rfl
      rw [places, show (256 : Nat) = 2 ^ 8 from rfl, ← pow_mul,
        Nat.pow_div (by norm_num) (by norm_num)]
    have encoded : getCompact documentedBnLib ((2 ^ 2039 : Nat) : Int) = 0x8000 := by
      rw [getCompact_eq_compact positive (by rw [size]; norm_num), FooCoin.getCompact_eq positive,
        size, if_neg (by norm_num), mantissa]
      rfl
    obtain ⟨y, decoded, -, near, -⟩ := exact (2 ^ 2039) positive
    have zero : FooCoin.setCompact 0x8000 = 0 := by decide
    rw [encoded, setCompact_eq_compact, zero] at decoded
    have none : y = 0 := by omega
    rw [none, Nat.sub_zero] at near
    exact absurd near (Nat.not_lt.mpr (Nat.le_mul_of_pos_right _ (by norm_num)))

end CBigNum

end FooCoin

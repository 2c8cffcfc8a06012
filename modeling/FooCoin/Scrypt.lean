import FooCoin.Crypto
import FooCoin.Library.PasswordHash

/-!
# The proof-of-work function

`scrypt.c` computes scrypt with fixed parameters in place: on an array of 32 words, with a
scratchpad for the chain of 1024 mixings.  It derives the keys of HMAC once for every block of
PBKDF2.  None of this shows in the result.
-/

namespace FooCoin

open LittleEndian PasswordHash

/-! ## Words -/

/-- `be32enc`. -/
def be32enc (x : UInt32) : List UInt8 :=
  [(x >>> 24 &&& 0xff).toUInt8, (x >>> 16 &&& 0xff).toUInt8, (x >>> 8 &&& 0xff).toUInt8,
    (x &&& 0xff).toUInt8]

/-- `le32dec` at a position. -/
def le32dec (p : List UInt8) (i : Nat) : UInt32 :=
  (p.getD i 0).toUInt32 + (p.getD (i + 1) 0).toUInt32 <<< 8 +
    (p.getD (i + 2) 0).toUInt32 <<< 16 + (p.getD (i + 3) 0).toUInt32 <<< 24

/-- `le32enc`. -/
def le32enc (x : UInt32) : List UInt8 :=
  [(x &&& 0xff).toUInt8, (x >>> 8 &&& 0xff).toUInt8, (x >>> 16 &&& 0xff).toUInt8,
    (x >>> 24 &&& 0xff).toUInt8]

/-! ## HMAC and PBKDF2 -/

/-- The bytes that a `SHA256_CTX` has been fed. -/
abbrev SHA256_CTX := List UInt8

/-- `HMAC_SHA256_CTX`. -/
structure HMAC_SHA256_CTX where
  ictx : SHA256_CTX
  octx : SHA256_CTX

variable (crypto : Crypto)

/-- `SHA256_Final`. -/
def sha256Final (ctx : SHA256_CTX) : List UInt8 := uint256Bytes (crypto.SHA256 ctx)

/-- `pad[i] ^= K[i]` on a block of one byte. -/
def xorPad (byte : UInt8) (K : List UInt8) : List UInt8 :=
  (List.range K.length).foldl (fun pad i => pad.modify i (· ^^^ K.getD i 0))
    (List.replicate 64 byte)

/-- `HMAC_SHA256_Init`. -/
def hmacInit (K : List UInt8) : HMAC_SHA256_CTX :=
  let K := if 64 < K.length then sha256Final crypto K else K
  { ictx := xorPad 0x36 K, octx := xorPad 0x5c K }

/-- `HMAC_SHA256_Update`. -/
def HMAC_SHA256_CTX.update (ctx : HMAC_SHA256_CTX) (bytes : List UInt8) : HMAC_SHA256_CTX :=
  { ctx with ictx := ctx.ictx ++ bytes }

/-- `HMAC_SHA256_Final`. -/
def HMAC_SHA256_CTX.final (ctx : HMAC_SHA256_CTX) : List UInt8 :=
  sha256Final crypto (ctx.octx ++ sha256Final crypto ctx.ictx)

/-- The loop over `j` of `PBKDF2_SHA256`, for the iterations that are left. -/
def pbkdf2Sum (passwd : List UInt8) : Nat → List UInt8 → List UInt8 → List UInt8
  | 0, _, T => T
  | left + 1, U, T =>
      let U := ((hmacInit crypto passwd).update U).final crypto
      pbkdf2Sum passwd left U (List.zipWith (· ^^^ ·) T U)

/-- The loop over `i` of `PBKDF2_SHA256`. -/
def pbkdf2Loop (passwd : List UInt8) (PShctx : HMAC_SHA256_CTX) (c dkLen i : Nat)
    (buf : List UInt8) : List UInt8 :=
  if i * 32 < dkLen then
    let ivec := be32enc (UInt32.ofNat (i + 1))
    let U := (PShctx.update ivec).final crypto
    let T := pbkdf2Sum crypto passwd (c - 1) U U
    let clen := if 32 < dkLen - i * 32 then 32 else dkLen - i * 32
    pbkdf2Loop passwd PShctx c dkLen (i + 1) (buf ++ T.take clen)
  else buf
termination_by dkLen - i * 32

/-- `PBKDF2_SHA256`. -/
def pbkdf2Sha256 (passwd salt : List UInt8) (c dkLen : Nat) : List UInt8 :=
  pbkdf2Loop crypto passwd ((hmacInit crypto passwd).update salt) c dkLen 0 []

/-! ## Salsa20/8 -/

/-- `ROTL`. -/
def ROTL (a b : UInt32) : UInt32 := a <<< b ||| a >>> (32 - b)

/-- The local variables of `xor_salsa8`. -/
structure SalsaWords where
  (x00 x01 x02 x03 x04 x05 x06 x07 x08 x09 x10 x11 x12 x13 x14 x15 : UInt32)

/-- "Operate on columns". -/
def SalsaWords.columns (x : SalsaWords) : SalsaWords :=
  let x := { x with
    x04 := x.x04 ^^^ ROTL (x.x00 + x.x12) 7, x09 := x.x09 ^^^ ROTL (x.x05 + x.x01) 7
    x14 := x.x14 ^^^ ROTL (x.x10 + x.x06) 7, x03 := x.x03 ^^^ ROTL (x.x15 + x.x11) 7 }
  let x := { x with
    x08 := x.x08 ^^^ ROTL (x.x04 + x.x00) 9, x13 := x.x13 ^^^ ROTL (x.x09 + x.x05) 9
    x02 := x.x02 ^^^ ROTL (x.x14 + x.x10) 9, x07 := x.x07 ^^^ ROTL (x.x03 + x.x15) 9 }
  let x := { x with
    x12 := x.x12 ^^^ ROTL (x.x08 + x.x04) 13, x01 := x.x01 ^^^ ROTL (x.x13 + x.x09) 13
    x06 := x.x06 ^^^ ROTL (x.x02 + x.x14) 13, x11 := x.x11 ^^^ ROTL (x.x07 + x.x03) 13 }
  { x with
    x00 := x.x00 ^^^ ROTL (x.x12 + x.x08) 18, x05 := x.x05 ^^^ ROTL (x.x01 + x.x13) 18
    x10 := x.x10 ^^^ ROTL (x.x06 + x.x02) 18, x15 := x.x15 ^^^ ROTL (x.x11 + x.x07) 18 }

/-- "Operate on rows". -/
def SalsaWords.rows (x : SalsaWords) : SalsaWords :=
  let x := { x with
    x01 := x.x01 ^^^ ROTL (x.x00 + x.x03) 7, x06 := x.x06 ^^^ ROTL (x.x05 + x.x04) 7
    x11 := x.x11 ^^^ ROTL (x.x10 + x.x09) 7, x12 := x.x12 ^^^ ROTL (x.x15 + x.x14) 7 }
  let x := { x with
    x02 := x.x02 ^^^ ROTL (x.x01 + x.x00) 9, x07 := x.x07 ^^^ ROTL (x.x06 + x.x05) 9
    x08 := x.x08 ^^^ ROTL (x.x11 + x.x10) 9, x13 := x.x13 ^^^ ROTL (x.x12 + x.x15) 9 }
  let x := { x with
    x03 := x.x03 ^^^ ROTL (x.x02 + x.x01) 13, x04 := x.x04 ^^^ ROTL (x.x07 + x.x06) 13
    x09 := x.x09 ^^^ ROTL (x.x08 + x.x11) 13, x14 := x.x14 ^^^ ROTL (x.x13 + x.x12) 13 }
  { x with
    x00 := x.x00 ^^^ ROTL (x.x03 + x.x02) 18, x05 := x.x05 ^^^ ROTL (x.x04 + x.x07) 18
    x10 := x.x10 ^^^ ROTL (x.x09 + x.x08) 18, x15 := x.x15 ^^^ ROTL (x.x14 + x.x13) 18 }

/-- The words of an array in the local variables. -/
def SalsaWords.ofVector (B : Vector UInt32 16) : SalsaWords :=
  let word (k : Nat) := B.toList.getD k 0
  { x00 := word 0, x01 := word 1, x02 := word 2, x03 := word 3
    x04 := word 4, x05 := word 5, x06 := word 6, x07 := word 7
    x08 := word 8, x09 := word 9, x10 := word 10, x11 := word 11
    x12 := word 12, x13 := word 13, x14 := word 14, x15 := word 15 }

/-- The local variables as an array. -/
def SalsaWords.toVector (x : SalsaWords) : Vector UInt32 16 :=
  #v[x.x00, x.x01, x.x02, x.x03, x.x04, x.x05, x.x06, x.x07, x.x08, x.x09, x.x10, x.x11, x.x12,
    x.x13, x.x14, x.x15]

/-- `xor_salsa8`. -/
def xorSalsa8 (B Bx : Vector UInt32 16) : Vector UInt32 16 :=
  let B := B.zipWith (· ^^^ ·) Bx
  let x := (fun x : SalsaWords => x.columns.rows)^[4] (.ofVector B)
  B.zipWith (· + ·) x.toVector

/-! ## scrypt -/

/-- Sixteen words of `X`: `&X[0]` and `&X[16]`. -/
def halfOf (X : Vector UInt32 32) (half : Fin 2) : Vector UInt32 16 :=
  .ofFn fun k => X[16 * half.val + k.val]

/-- Write sixteen words of `X`. -/
def setHalf (X : Vector UInt32 32) (half : Fin 2) (B : Vector UInt32 16) : Vector UInt32 32 :=
  .ofFn fun k => if k.val / 16 = half.val then B[k.val % 16] else X[k.val]

/-- `xor_salsa8(&X[0], &X[16]); xor_salsa8(&X[16], &X[0]);`. -/
def mixWords (X : Vector UInt32 32) : Vector UInt32 32 :=
  let X := setHalf X 0 (xorSalsa8 (halfOf X 0) (halfOf X 1))
  setHalf X 1 (xorSalsa8 (halfOf X 1) (halfOf X 0))

/-- `memcpy(&V[i * 32], X, 128)`. -/
def storeWords (V : Nat → UInt32) (i : Nat) (X : Vector UInt32 32) : Nat → UInt32 :=
  fun k => if k / 32 = i then X[k % 32] else V k

/-- The body of the second loop. -/
def revisit (V : Nat → UInt32) (X : Vector UInt32 32) : Vector UInt32 32 :=
  let j := 32 * (X[16] &&& 1023).toNat
  mixWords (.ofFn fun k => X[k.val] ^^^ V (j + k.val))

/-- `scrypt_1024_1_1_256_sp` with the words of the scratchpad. -/
def scrypt_1024_1_1_256_sp (input : Vector UInt8 80) (scratchpad : Nat → UInt32) : List UInt8 :=
  let B := pbkdf2Sha256 crypto input.toList input.toList 1 128
  let X : Vector UInt32 32 := .ofFn fun k => le32dec B (4 * k.val)
  let (X, V) := (List.range 1024).foldl
    (fun (X, V) i => (mixWords X, storeWords V i X)) (X, scratchpad)
  let X := (revisit V)^[1024] X
  let B := X.toList.flatMap le32enc
  pbkdf2Sha256 crypto input.toList B 1 32

/-! ## The core on matrices -/

/-- The local variables as a matrix. -/
def SalsaWords.block (x : SalsaWords) : Block :=
  ![![x.x00, x.x01, x.x02, x.x03], ![x.x04, x.x05, x.x06, x.x07], ![x.x08, x.x09, x.x10, x.x11],
    ![x.x12, x.x13, x.x14, x.x15]]

private theorem block_columns (x : SalsaWords) : x.columns.block = columnRound x.block := by
  funext i j
  fin_cases i <;> fin_cases j <;> rfl

private theorem block_rows (x : SalsaWords) : x.rows.block = rowRound x.block := by
  funext i j
  fin_cases i <;> fin_cases j <;> rfl

private theorem block_rounds (count : Nat) (x : SalsaWords) :
    ((fun x : SalsaWords => x.columns.rows)^[count] x).block = doubleRound^[count] x.block := by
  have one (x : SalsaWords) : x.columns.rows.block = doubleRound x.block := by
    rw [block_rows, block_columns, doubleRound]
  exact (Function.Semiconj.iterate_right one count) x

/-- An array of sixteen words as a matrix. -/
def blockOf (B : Vector UInt32 16) : Block := fun i j => B[4 * i.val + j.val]

private theorem block_ofVector (B : Vector UInt32 16) :
    (SalsaWords.ofVector B).block = blockOf B := by
  have word (k : Nat) (inside : k < 16) : B.toList.getD k 0 = B[k] := by simp [inside]
  funext i j
  fin_cases i <;> fin_cases j <;> exact word _ (by decide)

private theorem blockOf_toVector (x : SalsaWords) : blockOf x.toVector = x.block := by
  funext i j
  fin_cases i <;> fin_cases j <;> rfl

private theorem blockOf_xorSalsa8 (B Bx : Vector UInt32 16) :
    blockOf (xorSalsa8 B Bx) = salsa8 (xorBlock (blockOf B) (blockOf Bx)) := by
  have start : blockOf (B.zipWith (· ^^^ ·) Bx) = xorBlock (blockOf B) (blockOf Bx) := by
    funext i j
    simp [blockOf, xorBlock]
  have added (C : Vector UInt32 16) (x : SalsaWords) :
      blockOf (C.zipWith (· + ·) x.toVector) = fun i j => blockOf C i j + x.block i j := by
    funext i j
    rw [← blockOf_toVector]
    simp [blockOf]
  rw [xorSalsa8, added, block_rounds, block_ofVector, start]
  rfl

/-! ## The chain of mixings -/

/-- The words of `X` as two blocks. -/
def blocksOf (X : Vector UInt32 32) : List Block := [blockOf (halfOf X 0), blockOf (halfOf X 1)]

private theorem halfOf_setHalf (X : Vector UInt32 32) (half : Fin 2) (B : Vector UInt32 16) :
    halfOf (setHalf X half B) half = B := by
  refine Vector.ext fun k inside => ?_
  have place : (16 * half.val + k) / 16 = half.val := by omega
  simp [halfOf, setHalf, place, Nat.mod_eq_of_lt inside]

private theorem halfOf_setHalf_of_ne (X : Vector UInt32 32) {half other : Fin 2}
    (differs : other ≠ half) (B : Vector UInt32 16) :
    halfOf (setHalf X half B) other = halfOf X other := by
  refine Vector.ext fun k inside => ?_
  have place : ¬(16 * other.val + k) / 16 = half.val := by omega
  simp [halfOf, setHalf, place]

private theorem xorBlock_comm (left right : Block) : xorBlock left right = xorBlock right left := by
  funext i j
  exact UInt32.xor_comm _ _

private theorem blocksOf_mixWords (X : Vector UInt32 32) :
    blocksOf (mixWords X) = blockMix (blocksOf X) := by
  have other : (0 : Fin 2) ≠ 1 := by decide
  simp only [blocksOf, mixWords, halfOf_setHalf, halfOf_setHalf_of_ne _ other,
    halfOf_setHalf_of_ne _ other.symm, blockOf_xorSalsa8]
  simp only [blockMix, List.getLast?_cons_cons, List.getLast?_singleton, Option.getD_some, mixChain,
    evens, List.tail_cons, List.singleton_append]
  rw [xorBlock_comm (blockOf (halfOf X 1)) (blockOf (halfOf X 0)),
    xorBlock_comm (blockOf (halfOf X 1))]

/-- `X[16] & 1023` selects the place. -/
private theorem integerify_blocksOf (X : Vector UInt32 32) :
    integerify (blocksOf X) % 1024 = (X[16] &&& 1023).toNat := by
  have low : (X[16] &&& 1023).toNat = X[16].toNat % 1024 := by
    rw [UInt32.toNat_and]
    exact Nat.and_two_pow_sub_one_eq_mod _ 10
  rw [low]
  have first : blockOf (halfOf X 1) 0 0 = X[16] := by simp [blockOf, halfOf]
  simp only [integerify, blocksOf, List.getLast?_cons_cons, List.getLast?_singleton,
    Option.getD_some, blockValue, List.finRange_succ, List.finRange_zero, List.map_nil,
    List.map_cons, List.foldr_cons, List.foldr_nil, first]
  omega

/-- The scratchpad holds the first words of the chain. -/
private def Holds (V : Nat → UInt32) (start : Vector UInt32 32) (count : Nat) : Prop :=
  ∀ i < count, ∀ k : Fin 32, V (32 * i + k.val) = (mixWords^[i] start)[k.val]

private theorem holds_storeWords {V : Nat → UInt32} {start : Vector UInt32 32} {count : Nat}
    (holds : Holds V start count) :
    Holds (storeWords V count (mixWords^[count] start)) start (count + 1) := by
  intro i before k
  have place : (32 * i + k.val) / 32 = i := by omega
  have offset : (32 * i + k.val) % 32 = k.val := by omega
  rw [storeWords, place]
  by_cases last : i = count
  · subst last
    simp [Nat.mod_eq_of_lt k.isLt]
  · rw [if_neg last]
    exact holds i (by omega) k

/-- The first loop goes through the chain and stores it. -/
private theorem fill_eq (start : Vector UInt32 32) (scratchpad : Nat → UInt32) (count : Nat) :
    ∃ V, Holds V start count ∧
      (List.range count).foldl (fun (X, V) i => (mixWords X, storeWords V i X))
        (start, scratchpad) = (mixWords^[count] start, V) := by
  induction count with
  | zero => exact ⟨scratchpad, nofun, rfl⟩
  | succ count induction =>
      obtain ⟨V, holds, filled⟩ := induction
      refine ⟨storeWords V count (mixWords^[count] start), holds_storeWords holds, ?_⟩
      rw [List.range_succ, List.foldl_append, filled, Function.iterate_succ_apply']
      rfl

private theorem blocksOf_iterate (count : Nat) (X : Vector UInt32 32) :
    blocksOf (mixWords^[count] X) = blockMix^[count] (blocksOf X) :=
  (Function.Semiconj.iterate_right blocksOf_mixWords count) X

private theorem blocksOf_xor (X Y : Vector UInt32 32) :
    blocksOf (.ofFn fun k => X[k.val] ^^^ Y[k.val]) =
      List.zipWith xorBlock (blocksOf X) (blocksOf Y) := by
  have half (half : Fin 2) : blockOf (halfOf (.ofFn fun k : Fin 32 => X[k.val] ^^^ Y[k.val]) half) =
      xorBlock (blockOf (halfOf X half)) (blockOf (halfOf Y half)) := by
    funext i j
    simp [blockOf, halfOf, xorBlock]
  simp [blocksOf, half]

/-- The second loop revisits the chain through the scratchpad. -/
private theorem blocksOf_revisit {V : Nat → UInt32} {start : Vector UInt32 32}
    (holds : Holds V start 1024) (X : Vector UInt32 32) :
    blocksOf (revisit V X) = blockMix (List.zipWith xorBlock (blocksOf X)
      (blockMix^[integerify (blocksOf X) % 1024] (blocksOf start))) := by
  have below : (X[16] &&& 1023).toNat < 1024 := by
    rw [← integerify_blocksOf]
    exact Nat.mod_lt _ (by decide)
  have loaded : (Vector.ofFn fun k : Fin 32 =>
        X[k.val] ^^^ V (32 * (X[16] &&& 1023).toNat + k.val)) =
      .ofFn fun k : Fin 32 => X[k.val] ^^^ (mixWords^[(X[16] &&& 1023).toNat] start)[k.val] :=
    congrArg Vector.ofFn (funext fun k => by rw [holds _ below k])
  rw [revisit, loaded, blocksOf_mixWords, blocksOf_xor, blocksOf_iterate, integerify_blocksOf]

/-- Both loops compute the chain of mixings and its second pass. -/
private theorem roMix_eq {V : Nat → UInt32} {start : Vector UInt32 32}
    (holds : Holds V start 1024) :
    blocksOf ((revisit V)^[1024] (mixWords^[1024] start)) =
      roMix blockMix (List.zipWith xorBlock) integerify 1024 (blocksOf start) := by
  have one : Function.Semiconj blocksOf (revisit V) fun blocks =>
      blockMix (List.zipWith xorBlock blocks
        (blockMix^[integerify blocks % 1024] (blocksOf start))) :=
    fun X => blocksOf_revisit holds X
  have revisited := Function.Semiconj.iterate_right one 1024
  rw [roMix, ← blocksOf_iterate]
  exact revisited (mixWords^[1024] start)

/-! ## Bytes -/

private theorem byte_eq (x : UInt32) (shift : UInt32) (small : shift.toNat < 32) :
    (x >>> shift &&& 0xff).toUInt8 = UInt8.ofNat (x.toNat / 2 ^ shift.toNat % 256) := by
  apply UInt8.toNat_inj.mp
  have low (n : Nat) : n &&& 255 = n % 256 := Nat.and_two_pow_sub_one_eq_mod n 8
  simp [UInt32.toNat_shiftRight, Nat.mod_eq_of_lt small, Nat.shiftRight_eq_div_pow, low]

private theorem le32enc_eq (x : UInt32) : le32enc x = leBytes 4 x.toNat := by
  have lowest : x &&& 0xff = x >>> (0 : UInt32) &&& 0xff := by
    rw [UInt32.shiftRight_zero]
  rw [le32enc, lowest, byte_eq x 0 (by decide), byte_eq x 8 (by decide), byte_eq x 16 (by decide),
    byte_eq x 24 (by decide)]
  simp [leBytes, Nat.div_div_eq_div_mul]

private theorem be32enc_eq (x : UInt32) : be32enc x = (leBytes 4 x.toNat).reverse := by
  rw [← le32enc_eq]
  rfl

private theorem ofLE_cons_getD (bytes : List UInt8) (i : Nat) (count : Nat) :
    ofLE ((bytes.drop i).take (count + 1)) =
      (bytes.getD i 0).toNat + 256 * ofLE ((bytes.drop (i + 1)).take count) := by
  rcases Nat.lt_or_ge i bytes.length with inside | past
  · rw [List.drop_eq_getElem_cons inside, List.take_succ_cons, ofLE]
    simp [inside]
  · have past' : bytes.length ≤ i + 1 := by omega
    simp [List.drop_eq_nil_of_le past, List.drop_eq_nil_of_le past', past, ofLE]

private theorem le32dec_eq (p : List UInt8) (i : Nat) :
    le32dec p i = UInt32.ofNat (ofLE ((p.drop i).take 4)) := by
  apply UInt32.toNat_inj.mp
  have second : i + 1 + 1 = i + 2 := rfl
  have third : i + 2 + 1 = i + 3 := rfl
  simp only [ofLE_cons_getD, List.take_zero, ofLE, second, third]
  have b0 := (p.getD i 0).toNat_lt
  have b1 := (p.getD (i + 1) 0).toNat_lt
  have b2 := (p.getD (i + 2) 0).toNat_lt
  have b3 := (p.getD (i + 3) 0).toNat_lt
  simp only [le32dec, UInt32.toNat_add, UInt32.toNat_shiftLeft, UInt8.toNat_toUInt32,
    UInt32.toNat_ofNat', Nat.shiftLeft_eq]
  simp only [UInt32.reduceToNat, Nat.reduceMod, Nat.reducePow]
  omega
/-! ## Keyed hashing -/

private theorem getElem?_foldl_modify (change : Nat → UInt8 → UInt8) (count : Nat)
    (bytes : List UInt8) (k : Nat) :
    ((List.range count).foldl (fun bytes i => bytes.modify i (change i)) bytes)[k]? =
      if k < count then (bytes[k]?).map (change k) else bytes[k]? := by
  induction count with
  | zero => simp
  | succ count induction =>
      rw [List.range_succ, List.foldl_append, List.foldl_cons, List.foldl_nil,
        List.getElem?_modify, induction]
      grind

/-- The key goes into a block of one byte. -/
private theorem xorPad_eq (byte : UInt8) (K : List UInt8) (fits : K.length ≤ 64) :
    xorPad byte K = (K ++ List.replicate (64 - K.length) 0).map (· ^^^ byte) := by
  refine List.ext_getElem? fun k => ?_
  rw [xorPad, getElem?_foldl_modify]
  rcases Nat.lt_or_ge k K.length with inside | past
  · have below : k < 64 := by omega
    simp [-List.reduceReplicate, inside, below, List.getElem?_append_left, UInt8.xor_comm byte]
  · rw [if_neg (by omega), List.getElem?_map, List.getElem?_append_right past]
    by_cases below : k < 64
    · have rest : k - K.length < 64 - K.length := by omega
      simp [-List.reduceReplicate, below, rest]
    · have rest : ¬k - K.length < 64 - K.length := by omega
      simp [below, rest]

private theorem hmac_eq (K message : List UInt8) :
    ((hmacInit crypto K).update message).final crypto = hmac (sha256Final crypto) 64 K message := by
  have pads (byte : UInt8) :
      xorPad byte (if 64 < K.length then sha256Final crypto K else K) =
        (paddedKey (sha256Final crypto) 64 K).map (· ^^^ byte) := by
    refine xorPad_eq byte _ ?_
    split
    · simp [sha256Final]
    · omega
  rw [hmac, ← pads, ← pads]
  rfl

private theorem pbkdf2Sum_eq (passwd : List UInt8) (left : Nat) (U T : List UInt8) :
    pbkdf2Sum crypto passwd left U T =
      (List.range left).foldl (fun total j =>
        xorBytes total ((hmac (sha256Final crypto) 64 passwd)^[j + 1] U)) T := by
  induction left generalizing U T with
  | zero => rfl
  | succ left induction =>
      rw [pbkdf2Sum, hmac_eq, induction, List.range_succ_eq_map, List.foldl_cons, List.foldl_map]
      rfl

private theorem length_hmac (K message : List UInt8) :
    (hmac (sha256Final crypto) 64 K message).length = 32 := by
  simp [hmac, sha256Final]

private theorem length_pbkdf2Block (passwd salt : List UInt8) (c index : Nat) :
    (pbkdf2Block (hmac (sha256Final crypto) 64 passwd) salt c index).length = 32 := by
  have keeps (places : List Nat) (U T : List UInt8) (size : T.length = 32) :
      (places.foldl (fun total j =>
        xorBytes total ((hmac (sha256Final crypto) 64 passwd)^[j + 1] U)) T).length = 32 := by
    induction places generalizing T with
    | nil => exact size
    | cons j places induction =>
        refine induction _ ?_
        simp only [Function.iterate_succ_apply', xorBytes, List.length_zipWith, size, length_hmac]
        rfl
  exact keeps _ _ _ (length_hmac crypto passwd _)

private theorem leBytes_mod (width value : Nat) :
    leBytes width (value % 256 ^ width) = leBytes width value := by
  have back := leBytes_ofLE (leBytes width value)
  rwa [length_leBytes, ofLE_leBytes] at back

private theorem pbkdf2Loop_eq (passwd salt : List UInt8) (c dkLen i : Nat) (buf : List UInt8) :
    pbkdf2Loop crypto passwd ((hmacInit crypto passwd).update salt) c dkLen i buf =
      buf ++ ((List.range' i ((dkLen + 32 - 1) / 32 - i)).flatMap fun i =>
        pbkdf2Block (hmac (sha256Final crypto) 64 passwd) salt c (i + 1)).take
          (dkLen - i * 32) := by
  induction i, buf using
      pbkdf2Loop.induct crypto passwd ((hmacInit crypto passwd).update salt) c dkLen with
  | case1 i buf more ivec U T clen induction =>
      have block : T = pbkdf2Block (hmac (sha256Final crypto) 64 passwd) salt c (i + 1) := by
        have first : U = hmac (sha256Final crypto) 64 passwd
            (salt ++ (leBytes 4 (i + 1)).reverse) := by
          rw [← hmac_eq, ← leBytes_mod]
          have index : (UInt32.ofNat (i + 1)).toNat = (i + 1) % 256 ^ 4 := by simp
          rw [← index, ← be32enc_eq]
          simp [U, ivec, HMAC_SHA256_CTX.update, hmacInit]
        rw [pbkdf2Block, ← first, ← pbkdf2Sum_eq]
      have size : T.length = 32 := by rw [block, length_pbkdf2Block]
      have blocks : (dkLen + 32 - 1) / 32 - i = (dkLen + 32 - 1) / 32 - (i + 1) + 1 := by omega
      have taken : T.take clen = T.take (dkLen - i * 32) := by
        simp only [clen]
        split
        · rw [List.take_of_length_le (by omega), List.take_of_length_le (by omega)]
        · rfl
      have rest : dkLen - i * 32 - T.length = dkLen - (i + 1) * 32 := by omega
      rw [pbkdf2Loop, if_pos more, blocks, List.range'_succ, List.flatMap_cons, ← block,
        List.take_append, rest, ← taken, ← List.append_assoc]
      exact induction
  | case2 i buf done =>
      have blocks : (dkLen + 32 - 1) / 32 - i = 0 := by omega
      rw [pbkdf2Loop, if_neg done, blocks]
      simp

/-- `PBKDF2_SHA256` derives the key once and cuts the last block. -/
private theorem pbkdf2Sha256_eq (passwd salt : List UInt8) (c dkLen : Nat) :
    pbkdf2Sha256 crypto passwd salt c dkLen =
      pbkdf2 (hmac (sha256Final crypto) 64 passwd) 32 salt c dkLen := by
  rw [pbkdf2Sha256, pbkdf2Loop_eq, pbkdf2, List.range_eq_range']
  simp

private theorem length_pbkdf2 (passwd salt : List UInt8) (c dkLen : Nat) :
    (pbkdf2 (hmac (sha256Final crypto) 64 passwd) 32 salt c dkLen).length = dkLen := by
  simp only [pbkdf2, List.length_take, List.length_flatMap, length_pbkdf2Block]
  simp
  omega

/-! ## The function computes scrypt -/

private theorem decodeBlocks_eq (B : List UInt8) :
    decodeBlocks 2 B = blocksOf (.ofFn fun k : Fin 32 => le32dec B (4 * k.val)) := by
  have half (half : Fin 2) : decodeBlock ((B.drop (64 * half.val)).take 64) =
      blockOf (halfOf (.ofFn fun k : Fin 32 => le32dec B (4 * k.val)) half) := by
    funext i j
    have inside : min 4 (64 - 4 * (4 * i.val + j.val)) = 4 := by omega
    have place : 64 * half.val + 4 * (4 * i.val + j.val) =
        4 * (16 * half.val + (4 * i.val + j.val)) := by omega
    rw [decodeBlock, List.drop_take, List.take_take, inside, List.drop_drop, place, ← le32dec_eq]
    simp [blockOf, halfOf]
  rw [blocksOf, ← half, ← half]
  rfl

private theorem flatMap_le32enc (X : Vector UInt32 32) :
    X.toList.flatMap le32enc = (blocksOf X).flatMap encodeBlock := by
  have words : X.toList = List.ofFn fun k : Fin 32 => X[k.val] := by
    refine List.ext_getElem (by simp) fun k _ _ => ?_
    rw [Vector.getElem_toList, List.getElem_ofFn]
  rw [words]
  simp only [blocksOf, encodeBlock, blockOf, halfOf, List.flatMap_cons, List.flatMap_nil,
    List.finRange_succ, List.finRange_zero, List.map_cons, List.map_nil, List.append_nil,
    List.ofFn_succ, List.ofFn_zero, ← le32enc_eq, List.append_assoc]
  simp

/-- The function computes scrypt with `N = 1024`, `r = 1` and `p = 1` of the header under itself,
whatever the scratchpad held. -/
theorem scrypt_1024_1_1_256_sp_eq (input : Vector UInt8 80) (scratchpad : Nat → UInt32) :
    scrypt_1024_1_1_256_sp crypto input scratchpad =
      scrypt (hmac (sha256Final crypto) 64) 32 input.toList input.toList 1024 1 1 32 := by
  let bytes := pbkdf2 (hmac (sha256Final crypto) 64 input.toList) 32 input.toList 1 (1 * 128 * 1)
  let start : Vector UInt32 32 := .ofFn fun k => le32dec bytes (4 * k.val)
  obtain ⟨V, holds, filled⟩ := fill_eq start scratchpad 1024
  have derived : pbkdf2Sha256 crypto input.toList input.toList 1 128 = bytes :=
    pbkdf2Sha256_eq crypto _ _ _ _
  have whole : (bytes.drop (128 * 1 * 0)).take (128 * 1) = bytes :=
    List.take_of_length_le (length_pbkdf2 crypto _ _ _ _).le
  have mixed : ((revisit V)^[1024] (mixWords^[1024] start)).toList.flatMap le32enc =
      romixBytes 1024 1 bytes := by
    rw [flatMap_le32enc, roMix_eq holds, romixBytes, decodeBlocks_eq]
  calc scrypt_1024_1_1_256_sp crypto input scratchpad
      = pbkdf2Sha256 crypto input.toList
          (((revisit V)^[1024] (mixWords^[1024] start)).toList.flatMap le32enc) 1 32 := by
        rw [scrypt_1024_1_1_256_sp, derived, filled]
    _ = pbkdf2 (hmac (sha256Final crypto) 64 input.toList) 32 (romixBytes 1024 1 bytes) 1 32 := by
        rw [mixed, pbkdf2Sha256_eq]
    _ = scrypt (hmac (sha256Final crypto) 64) 32 input.toList input.toList 1024 1 1 32 := by
        rw [scrypt, List.range_one, List.flatMap_singleton, whole]

end FooCoin

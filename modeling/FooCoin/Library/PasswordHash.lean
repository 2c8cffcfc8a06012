import Mathlib.Data.Fin.VecNotation
import Mathlib.Logic.Function.Iterate
import FooCoin.Library.LittleEndian

/-!
# Password-based key derivation

HMAC and PBKDF2 over a hash function, and scrypt: blocks of sixteen words are mixed by the Salsa20/8
core, and a long chain of mixings is revisited at places that depend on the data.
-/

namespace PasswordHash

open LittleEndian

/-! ## Derivation from a hash function -/

section Bytes

variable (hash : List UInt8 → List UInt8)

/-- The bitwise sum of two byte strings. -/
def xorBytes (left right : List UInt8) : List UInt8 := List.zipWith (· ^^^ ·) left right

/-- The key of `hmac` as one block. -/
def paddedKey (blockSize : Nat) (key : List UInt8) : List UInt8 :=
  let key := if blockSize < key.length then hash key else key
  key ++ List.replicate (blockSize - key.length) 0

/-- HMAC. -/
def hmac (blockSize : Nat) (key message : List UInt8) : List UInt8 :=
  let key := paddedKey hash blockSize key
  hash (key.map (· ^^^ 0x5c) ++ hash (key.map (· ^^^ 0x36) ++ message))

/-- A block of PBKDF2: the sum of `count` iterates of a keyed function. -/
def pbkdf2Block (prf : List UInt8 → List UInt8) (salt : List UInt8) (count index : Nat) :
    List UInt8 :=
  let first := prf (salt ++ (leBytes 4 index).reverse)
  (List.range (count - 1)).foldl (fun total j => xorBytes total (prf^[j + 1] first)) first

/-- PBKDF2 with blocks of `width` bytes. -/
def pbkdf2 (prf : List UInt8 → List UInt8) (width : Nat) (salt : List UInt8)
    (count length : Nat) : List UInt8 :=
  ((List.range ((length + width - 1) / width)).flatMap fun i =>
    pbkdf2Block prf salt count (i + 1)).take length

end Bytes

/-! ## Salsa20/8 -/

/-- Sixteen words in four rows. -/
abbrev Block := Fin 4 → Fin 4 → UInt32

/-- A word rotated to the left. -/
def rotl (word : UInt32) (count : UInt32) : UInt32 := word <<< count ||| word >>> (32 - count)

/-- The quarter-round function. -/
def quarterRound (y : Fin 4 → UInt32) : Fin 4 → UInt32 :=
  let z1 := y 1 ^^^ rotl (y 0 + y 3) 7
  let z2 := y 2 ^^^ rotl (z1 + y 0) 9
  let z3 := y 3 ^^^ rotl (z2 + z1) 13
  let z0 := y 0 ^^^ rotl (z3 + z2) 18
  ![z0, z1, z2, z3]

/-- Every column, from the diagonal down. -/
def columnRound (x : Block) : Block := fun i j => quarterRound (fun k => x (j + k) j) (i - j)

/-- Every row, from the diagonal on. -/
def rowRound (x : Block) : Block := fun i j => columnRound (fun k l => x l k) j i

def doubleRound (x : Block) : Block := rowRound (columnRound x)

/-- The Salsa20/8 core. -/
def salsa8 (x : Block) : Block := fun i j => x i j + doubleRound^[4] x i j

/-! ## scrypt -/

/-- The bitwise sum of two blocks. -/
def xorBlock (left right : Block) : Block := fun i j => left i j ^^^ right i j

/-- Mix each block with the one before it. -/
def mixChain : Block → List Block → List Block
  | _, [] => []
  | previous, block :: blocks =>
      let mixed := salsa8 (xorBlock previous block)
      mixed :: mixChain mixed blocks

/-- The elements at even places. -/
def evens {α : Type} : List α → List α
  | [] => []
  | [first] => [first]
  | first :: _ :: rest => first :: evens rest

/-- `scryptBlockMix`. -/
def blockMix (blocks : List Block) : List Block :=
  let mixed := mixChain (blocks.getLast?.getD fun _ _ => 0) blocks
  evens mixed ++ evens mixed.tail

/-- The number that the words of a block write, least significant first. -/
def blockValue (block : Block) : Nat :=
  (List.finRange 4).foldr (fun i value =>
    (List.finRange 4).foldr (fun j value => (block i j).toNat + 2 ^ 32 * value) value) 0

/-- `Integerify`. -/
def integerify (blocks : List Block) : Nat := blockValue (blocks.getLast?.getD fun _ _ => 0)

/-- Go through a chain of `n` states, and then revisit it at places that the state selects. -/
def roMix {α : Type} (mix : α → α) (add : α → α → α) (select : α → Nat) (n : Nat) (start : α) :
    α :=
  (fun state => mix (add state (mix^[select state % n] start)))^[n] (mix^[n] start)

/-- A block of 64 bytes. -/
def decodeBlock (bytes : List UInt8) : Block := fun i j =>
  UInt32.ofNat (ofLE ((bytes.drop (4 * (4 * i.val + j.val))).take 4))

/-- The bytes of a block. -/
def encodeBlock (block : Block) : List UInt8 :=
  (List.finRange 4).flatMap fun i => (List.finRange 4).flatMap fun j =>
    leBytes 4 (block i j).toNat

/-- The blocks of a byte string. -/
def decodeBlocks (count : Nat) (bytes : List UInt8) : List Block :=
  (List.range count).map fun i => decodeBlock ((bytes.drop (64 * i)).take 64)

/-- `scryptROMix` of a byte string of `2 * r` blocks. -/
def romixBytes (n r : Nat) (bytes : List UInt8) : List UInt8 :=
  (roMix blockMix (List.zipWith xorBlock) integerify n (decodeBlocks (2 * r) bytes)).flatMap
    encodeBlock

/-- scrypt with cost `n`, block size `r` and parallelization `p`. -/
def scrypt (prf : List UInt8 → List UInt8 → List UInt8) (width : Nat) (password salt : List UInt8)
    (n r p length : Nat) : List UInt8 :=
  let bytes := pbkdf2 (prf password) width salt 1 (p * 128 * r)
  let mixed := (List.range p).flatMap fun i =>
    romixBytes n r ((bytes.drop (128 * r * i)).take (128 * r))
  pbkdf2 (prf password) width mixed 1 length

end PasswordHash

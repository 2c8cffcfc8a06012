import FooCoin.Library.LittleEndian
import Mathlib.Tactic

/-!
# Hashes and keys

The 160-bit and 256-bit words of `uint256.h` and the cryptographic functions that the source takes
from OpenSSL and from its scrypt code.  The functions are parameters of the model.
-/

namespace FooCoin

open LittleEndian

/-- A 160-bit word. -/
abbrev UInt160 := BitVec 160

/-- A 256-bit word. -/
abbrev UInt256 := BitVec 256

/-- The bytes of a 160-bit word in memory. -/
def uint160Bytes (word : UInt160) : List UInt8 := leBytes 20 word.toNat

/-- The bytes of a 256-bit word in memory. -/
def uint256Bytes (word : UInt256) : List UInt8 := leBytes 32 word.toNat

@[simp]
theorem length_uint160Bytes (word : UInt160) : (uint160Bytes word).length = 20 := by
  simp [uint160Bytes]

@[simp]
theorem length_uint256Bytes (word : UInt256) : (uint256Bytes word).length = 32 := by
  simp [uint256Bytes]

/-- The cryptographic functions. -/
structure Crypto where
  /-- `Hash`: double SHA-256. -/
  Hash : List UInt8 → UInt256
  /-- `Hash160`: RIPEMD-160 of SHA-256. -/
  Hash160 : List UInt8 → UInt160
  /-- `RIPEMD160`. -/
  RIPEMD160 : List UInt8 → UInt160
  /-- `SHA1`. -/
  SHA1 : List UInt8 → UInt160
  /-- `SHA256`. -/
  SHA256 : List UInt8 → UInt256
  /-- `scrypt_1024_1_1_256` on an 80-byte header. -/
  scrypt : List UInt8 → UInt256
  /-- `CKey::SetPubKey` accepts the bytes. -/
  SetPubKey : List UInt8 → Bool
  /-- `CKey::Verify` of public key, hash and signature. -/
  Verify : List UInt8 → UInt256 → List UInt8 → Bool

end FooCoin

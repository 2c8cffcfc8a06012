import FooCoin.ConnectBlock

/-!
# Sample chains

A computable stand-in for the cryptographic functions, and block files that hold one block each.
Concrete runs of the model are built from these: the hash of a byte string is its last 32 bytes, no
key verifies, and every header has proof of work.
-/

namespace FooCoin

open Op

/-- The last 32 bytes of a byte string, most significant first. -/
def sampleHash (bytes : List UInt8) : UInt256 :=
  BitVec.ofNat 256 (bytes.foldl (fun value byte => (value * 256 + byte.toNat) % 2 ^ 256) 0)

/-- Cryptographic functions that can be evaluated. -/
def sampleCrypto : Crypto where
  Hash := sampleHash
  Hash160 bytes := BitVec.ofNat 160 (sampleHash bytes).toNat
  RIPEMD160 bytes := BitVec.ofNat 160 (sampleHash bytes).toNat
  SHA1 bytes := BitVec.ofNat 160 (sampleHash bytes).toNat
  SHA256 := sampleHash
  scrypt _ := 0
  SetPubKey _ := false
  Verify _ _ _ := false

/-- A node whose block file `i + 1` holds the `i`-th block. -/
def sampleEnv (blocks : Nat → CBlock) (hashGenesisBlock : UInt256) : Env where
  crypto := sampleCrypto
  files nFile := List.replicate 8 0 ++ (blocks (nFile - 1)).write
  fTestNet := true
  hashGenesisBlock := hashGenesisBlock

/-- The block files hold the blocks. -/
theorem sampleEnv_stored (blocks : Nat → CBlock) (hashGenesisBlock : UInt256) {i : Nat}
    (usable : i + 1 ≠ 0xffffffff) :
    (sampleEnv blocks hashGenesisBlock).Stored (i + 1) 8 (blocks i) := by
  refine ⟨le_rfl, [], Env.openBlockFile_eq_some.mpr ⟨⟨by omega, usable⟩, ?_⟩⟩
  simp only [sampleEnv, Nat.add_sub_cancel, List.append_nil]
  exact List.drop_left' List.length_replicate

/-- A coinbase with the given output values, spendable by anyone. -/
def sampleCoinBase (nLockTime : UInt32) (values : List Int64) : CTransaction where
  nVersion := 1
  vin :=
    [{ prevout := { hash := 0, n := 0xffffffff }, scriptSig := [0, 0], nSequence := 0xffffffff }]
  vout := values.map fun nValue => { nValue, scriptPubKey := [UInt8.ofNat OP_1] }
  nLockTime

/-- A transaction that spends outputs of earlier ones. -/
def sampleSpend (nLockTime : UInt32) (prevouts : List COutPoint) (values : List Int64) :
    CTransaction where
  nVersion := 1
  vin := prevouts.map fun prevout => { prevout, scriptSig := [], nSequence := 0xffffffff }
  vout := values.map fun nValue => { nValue, scriptPubKey := [UInt8.ofNat OP_1] }
  nLockTime

/-- Output `n` of a transaction. -/
def CTransaction.outpoint (tx : CTransaction) (n : UInt32) : COutPoint where
  hash := tx.getHash sampleCrypto
  n

/-- A block on top of another one. -/
def sampleBlock (hashPrevBlock : UInt256) (nTime : UInt32) (vtx : List CTransaction) : CBlock where
  nVersion := 1
  hashPrevBlock
  hashMerkleRoot := buildMerkleTree sampleCrypto vtx
  nTime
  nBits := 0x1e0fffff
  nNonce := 0
  vtx

/-- The block index entry of the `i`-th block on top of a chain. -/
def sampleEntry (i : Nat) (block : CBlock) (pprev : BlockChain) : CBlockIndex :=
  .ofBlock sampleCrypto (i + 1) 8 block pprev

/-- A call at a late time, past the checkpoints and with an empty pool. -/
def sampleContext : CallContext where
  nAdjustedTime := 2000000000
  nBestHeight := 0
  mempool _ := none

end FooCoin

import FooCoin.Overflow

/-!
# The money cap

Nothing bounds the height at which a block may claim its subsidy of one coin, so the cap of
`MAX_MONEY` holds exactly as long as chains have at most 10000 blocks.  `mintTransactions` gives
a chain of blocks that each claim the whole subsidy.
-/

namespace FooCoin

open Function Journal KeyedTotal LittleEndian

/-! ## A block that claims the subsidy -/

/-- A coinbase that claims the subsidy; `i` makes its id unique. -/
def mintCoinBase (i : Nat) : CTransaction := sampleCoinBase (UInt32.ofNat i) [100000000]

/-- The transactions of the `i`-th block. -/
def mintTransactions (i : Nat) : List CTransaction := [mintCoinBase i]

private theorem sampleHash_append (bytes : List UInt8) (a b c d : UInt8) :
    (sampleHash (bytes ++ [a, b, c, d])).toNat % 2 ^ 32 =
      ((a.toNat * 256 + b.toNat) * 256 + c.toNat) * 256 + d.toNat := by
  have a_lt := a.toNat_lt
  have b_lt := b.toNat_lt
  have c_lt := c.toNat_lt
  have d_lt := d.toNat_lt
  simp only [sampleHash, List.foldl_append, List.foldl_cons, List.foldl_nil, BitVec.toNat_ofNat]
  generalize bytes.foldl (fun value byte => (value * 256 + byte.toNat) % 2 ^ 256) 0 = start
  omega

/-- The lock time of a transaction determines the last four bytes of its id. -/
private theorem getHash_mod (tx : CTransaction) :
    (tx.getHash sampleCrypto).toNat % 2 ^ 32 =
      ((tx.nLockTime.toNat % 256 * 256 + tx.nLockTime.toNat / 256 % 256) * 256 +
        tx.nLockTime.toNat / 256 / 256 % 256) * 256 +
          tx.nLockTime.toNat / 256 / 256 / 256 % 256 := by
  have write : ∃ bytes, tx.write = bytes ++ leBytes 4 tx.nLockTime.toNat := by
    simp only [CTransaction.write, ← List.append_assoc]
    exact ⟨_, rfl⟩
  obtain ⟨bytes, write⟩ := write
  simp only [CTransaction.getHash, sampleCrypto, write, leBytes]
  rw [sampleHash_append]
  simp only [UInt8.toNat_ofNat', Nat.reducePow, Nat.mod_mod]

private theorem digits_inj {a b c d a' b' c' d' : Nat} (b_lt : b < 256) (c_lt : c < 256)
    (d_lt : d < 256) (b_lt' : b' < 256) (c_lt' : c' < 256) (d_lt' : d' < 256)
    (same : ((a * 256 + b) * 256 + c) * 256 + d = ((a' * 256 + b') * 256 + c') * 256 + d') :
    a = a' ∧ b = b' ∧ c = c' ∧ d = d' := by
  omega

private theorem eq_of_bytes {i j : Nat} (i_small : i < 2 ^ 32) (j_small : j < 2 ^ 32)
    (first : i % 256 = j % 256) (second : i / 256 % 256 = j / 256 % 256)
    (third : i / 256 / 256 % 256 = j / 256 / 256 % 256)
    (fourth : i / 256 / 256 / 256 % 256 = j / 256 / 256 / 256 % 256) : i = j := by
  omega

/-- The coinbases have different ids. -/
theorem mintCoinBase_getHash_inj {i j : Nat} (i_small : i < 2 ^ 32) (j_small : j < 2 ^ 32)
    (same : (mintCoinBase i).getHash sampleCrypto = (mintCoinBase j).getHash sampleCrypto) :
    i = j := by
  have i_word := getHash_mod (mintCoinBase i)
  have j_word := getHash_mod (mintCoinBase j)
  rw [same, j_word] at i_word
  have i_nLockTime : (mintCoinBase i).nLockTime.toNat = i := Nat.mod_eq_of_lt i_small
  have j_nLockTime : (mintCoinBase j).nLockTime.toNat = j := Nat.mod_eq_of_lt j_small
  rw [i_nLockTime, j_nLockTime] at i_word
  obtain ⟨first, second, third, fourth⟩ := digits_inj (Nat.mod_lt _ (by decide))
    (Nat.mod_lt _ (by decide)) (Nat.mod_lt _ (by decide)) (Nat.mod_lt _ (by decide))
    (Nat.mod_lt _ (by decide)) (Nat.mod_lt _ (by decide)) i_word
  exact (eq_of_bytes j_small i_small first second third fourth).symm

theorem mint_checkBlock {i : Nat} (early : i ≤ 10000) :
    (sampleBlocks mintTransactions i).checkBlock sampleCrypto 2000000000 = .ok () := by
  have coinBase_checked : (mintCoinBase i).checkTransaction = .ok () := rfl
  have size : (sampleBlocks mintTransactions i).size = 144 := by cases i <;> rfl
  have nBits : (sampleBlocks mintTransactions i).nBits = 0x1e0fffff := by cases i <;> rfl
  have nTime : (sampleBlocks mintTransactions i).nTime.toNat = 1400000000 + 120 * i := by
    cases i with
    | zero => rfl
    | succ i => exact Nat.mod_eq_of_lt (by omega)
  have merkle : (sampleBlocks mintTransactions i).hashMerkleRoot =
      buildMerkleTree sampleCrypto (mintTransactions i) := by
    cases i <;> rfl
  have vtx : (sampleBlocks mintTransactions i).vtx = [mintCoinBase i] := sampleBlocks_vtx i
  simp only [CBlock.checkBlock, except_bind_eq_ok, require_eq_ok, forM_eq_ok, exists_const, vtx,
    size, nBits, nTime]
  refine ⟨⟨by simp, by simp [maxBlockSize], by simp [maxBlockSize]⟩, ?_, by omega, ?_, by simp,
    by simpa using coinBase_checked, by simp, ?_, merkle⟩
  · show checkProofOfWork 0 0x1e0fffff = true
    decide +kernel
  · rintro tx head
    cases head
    rfl
  · show (0 : Nat) ≤ maxBlockSigops
    omega

/-- The place of the `i`-th coinbase. -/
def mintPos (i : Nat) : CDiskTxPos := .mk (i + 1) 8 89

/-- The entry of a coinbase is put into an index that does not have it. -/
theorem mint_connectBlock {i : Nat} (early : i ≤ 10000) {txdb : CTxDB}
    (fresh : txdb.txindex ((mintCoinBase i).getHash sampleCrypto) = none) (pindex : CBlockIndex)
    (nFile : pindex.nFile = i + 1) (nBlockPos : pindex.nBlockPos = 8) (pprev : BlockChain) :
    ∃ after, (sampleBlocks mintTransactions i).connectBlock (sampleFiles mintTransactions)
        sampleContext pindex pprev txdb = .ok after ∧
      after.txindex = update txdb.txindex ((mintCoinBase i).getHash sampleCrypto)
        (some (.ofOutputs (mintPos i) 1)) := by
  have allowed : ¬overwrites (sampleFiles mintTransactions) txdb.txindex pindex
      (mintCoinBase i) := by
    have absent : txdb.txindex ((mintCoinBase i).getHash (sampleFiles mintTransactions).crypto) =
        none := fresh
    simp [overwrites, absent]
  have loop (state : ConnectState) (none_yet : state.nSigOps = 0) :
      ∃ after, connectTransactions (sampleFiles mintTransactions) sampleContext txdb.txindex pindex
        pprev [mintCoinBase i] state = .ok after ∧ after.nFees = state.nFees := by
    have sigOps : state.nSigOps + (mintCoinBase i).getLegacySigOpCount ≤ maxBlockSigops := by
      rw [none_yet]
      exact Nat.zero_le maxBlockSigops
    simp only [connectTransactions, connectTransaction, require, allowed, sigOps]
    exact ⟨_, rfl, rfl⟩
  obtain ⟨state, done, fees⟩ := loop
    { mapQueuedChanges := fun _ => none
      nFees := 0
      nSigOps := 0
      nTxPos := pindex.nBlockPos + 81 - 1 + (writeCompactSize 1).length } rfl
  have claimed : (mintCoinBase i).getValueOut = .ok 100000000 := rfl
  have allowance : getBlockValue pindex.nHeight state.nFees = .ok 100000000 := by
    rw [fees]
    rfl
  have vtx : (sampleBlocks mintTransactions i).vtx = [mintCoinBase i] := sampleBlocks_vtx i
  have succeeds : ∃ after, (sampleBlocks mintTransactions i).connectBlock
      (sampleFiles mintTransactions) sampleContext pindex pprev txdb = .ok after := by
    simp only [CBlock.connectBlock, except_bind_eq_ok, vtx]
    exact ⟨_, (), mint_checkBlock early, state, done, _, claimed, _, allowance, (), rfl, rfl⟩
  obtain ⟨after, connected⟩ := succeeds
  refine ⟨after, connected, ?_⟩
  obtain ⟨nFees, effect⟩ := connectBlock_ok connected
  have index := effect.index
  rw [vtx] at index
  cases index with
  | cons first rest =>
      cases rest
      have none_spent : (mintCoinBase i).spends = [] := rfl
      have entered := first.effect
      have vtxOffset : (sampleBlocks mintTransactions i).vtxOffset = 81 := by
        rw [CBlock.vtxOffset, vtx]
        rfl
      rwa [none_spent, markSpent_nil, nFile, nBlockPos, vtxOffset] at entered

/-! ## The chain -/

private theorem mint_readTxAt {i : Nat} (usable : i + 1 ≠ 0xffffffff) :
    (sampleFiles mintTransactions).readTxAt (mintPos i) = some (mintCoinBase i) := by
  have stored : (sampleFiles mintTransactions).Stored (i + 1) 8 (sampleBlocks mintTransactions i) :=
    sampleEnv_stored (sampleBlocks mintTransactions) 0 usable
  have vtx : (sampleBlocks mintTransactions i).vtx = [mintCoinBase i] := sampleBlocks_vtx i
  have size : (mintCoinBase i).size = 63 := rfl
  have split : (sampleBlocks mintTransactions i).vtx = [] ++ mintCoinBase i :: [] := vtx
  have read := stored.readTx_eq split (by rw [size]; decide)
  rw [CBlock.vtxOffset, vtx] at read
  exact read

private theorem unspentValue_mint {i : Nat} (usable : i + 1 ≠ 0xffffffff) :
    unspentValue (sampleFiles mintTransactions) (.ofOutputs (mintPos i) 1) = coin := by
  simp only [unspentValue, CTxIndex.ofOutputs, mint_readTxAt usable]
  rfl

/-- Connecting the chain brings one coin for each block. -/
theorem mint_run {n : Nat} (length : n ≤ 10001) :
    ∃ txdb, Run (chainMachine (sampleFiles mintTransactions) []) sampleStart
        (sampleJournal mintTransactions n) txdb ∧
      totalUnspent (sampleFiles mintTransactions) txdb.txindex = n * coin ∧
      ∀ i, n ≤ i → i < 2 ^ 32 → txdb.txindex ((mintCoinBase i).getHash sampleCrypto) = none := by
  induction n with
  | zero => exact ⟨_, .start, by simp [sampleStart, emptyIndex, totalUnspent], fun _ _ _ => rfl⟩
  | succ n induction =>
      obtain ⟨txdb, run, minted, absent⟩ := induction (by omega)
      have fresh := absent n le_rfl (by omega)
      obtain ⟨after, connected, entered⟩ := mint_connectBlock (by omega) fresh
        (sampleTip mintTransactions n).pindex rfl rfl
        (chainOf [] (sampleJournal mintTransactions n))
      refine ⟨after, .push run ⟨sampleTip_extends (by omega), sampleContext, connected⟩, ?_, ?_⟩
      · rw [entered, totalUnspent, total_update, fresh, weightOf_none, weightOf_some,
          unspentValue_mint (by omega), ← totalUnspent, minted]
        push_cast
        ring
      · intro i later small
        have other : (mintCoinBase i).getHash sampleCrypto ≠ (mintCoinBase n).getHash sampleCrypto :=
          fun same => by
            have := mintCoinBase_getHash_inj small (by omega) same
            omega
        rw [entered, update_of_ne other]
        exact absent i (by omega) small

/-- The cap holds along all runs with chains of at most `n` blocks exactly when `n` is at most
10000. -/
theorem totalUnspent_le_maxMoney_iff (n : Nat) :
    (∀ (env : Env) (base : BlockChain) (blockindex : UInt256 → Option CDiskBlockIndex)
        (hashBestChain : Option UInt256) (journal : List ChainBlock) (txdb : CTxDB),
      Run (chainMachine env base) (emptyIndex blockindex hashBestChain) journal txdb →
        journal.length ≤ n → totalUnspent env txdb.txindex ≤ maxMoney) ↔ n ≤ 10000 := by
  constructor
  · intro capped
    by_contra long
    obtain ⟨txdb, run, minted, _⟩ := mint_run (n := 10001) le_rfl
    have length : (sampleJournal mintTransactions 10001).length = 10001 := length_sampleJournal 10001
    have bound := capped _ [] _ _ _ txdb run (by omega)
    rw [minted] at bound
    revert bound
    decide
  · intro short env base blockindex hashBestChain journal txdb run length
    have bounded := totalUnspent_le_of_run run
    have coins : (journal.length : Int) * coin ≤ 10000 * coin :=
      mul_le_mul_of_nonneg_right (by omega) (by decide)
    exact bounded.trans coins

/-- After 10001 blocks that claim the subsidy the unspent outputs are worth more than
`MAX_MONEY`. -/
theorem maxMoney_lt_totalUnspent_mint :
    ∃ txdb, Run (chainMachine (sampleFiles mintTransactions) []) sampleStart
        (sampleJournal mintTransactions 10001) txdb ∧
      maxMoney < totalUnspent (sampleFiles mintTransactions) txdb.txindex := by
  obtain ⟨txdb, run, minted, _⟩ := mint_run (n := 10001) le_rfl
  refine ⟨txdb, run, ?_⟩
  rw [minted]
  decide

end FooCoin

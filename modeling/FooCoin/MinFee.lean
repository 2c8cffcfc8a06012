import FooCoin.Policy
import FooCoin.Serialize

/-!
# The minimum fee

`GetMinFee` as the machine computes it, with 32-bit sizes and 64-bit amounts.  No operation
overflows, the fee is an amount of money that does not fall as the block fills, and what the wallet
pays for a transaction is enough for the memory pool.
-/

namespace FooCoin

/-! ## The machine arithmetic -/

/-- A division of `unsigned int`s, which has no result where the divisor is zero. -/
def divideWords (dividend divisor : UInt32) : Option UInt32 :=
  if divisor = 0 then none else some (dividend / divisor)

/-- The loop of `GetMinFee` over the outputs. -/
def addDust (nBaseFee : Int) : List CTxOut → Int → Outcome Int
  | [], nMinFee => pure nMinFee
  | txout :: vout, nMinFee =>
      if txout.nValue.toInt < cent then do
        let nMinFee ← int64 (nMinFee + nBaseFee)
        addDust nBaseFee vout nMinFee
      else addDust nBaseFee vout nMinFee

/-- The end of `GetMinFee`. -/
def limitFee (nMinFee : Int) : Int := if MoneyRange nMinFee then nMinFee else maxMoney

/-- The part of `GetMinFee` that raises the price as the block approaches full. -/
def raiseFee (nBlockSize nNewBlockSize : UInt32) (nMinFee : Int) : Outcome Int :=
  if nBlockSize ≠ 1 ∧ UInt32.ofNat maxBlockSizeGen / 2 ≤ nNewBlockSize then
    if UInt32.ofNat maxBlockSizeGen ≤ nNewBlockSize then pure maxMoney
    else
      match divideWords (UInt32.ofNat maxBlockSizeGen)
          (UInt32.ofNat maxBlockSizeGen - nNewBlockSize) with
      | none => throw .assertion
      | some factor => do
          let nMinFee ← int64 (nMinFee * factor.toNat)
          pure (limitFee nMinFee)
  else pure (limitFee nMinFee)

/-- `CTransaction::GetMinFee` in machine arithmetic. -/
def CTransaction.getMinFeeWords (nBlockSize : UInt32) (fAllowFree : Bool) (mode : GetMinFeeMode)
    (tx : CTransaction) : Outcome Int := do
  let nBaseFee := if mode = .GMF_RELAY then minRelayTxFee else minTxFee
  let nBytes := tx.getSerializeSize
  let nNewBlockSize := nBlockSize + nBytes
  let nMinFee ← int64 ((1 + (nBytes.toNat / 1000 : Nat)) * nBaseFee)
  let nMinFee :=
    if fAllowFree ∧ (if nBlockSize = 1 then nBytes < 10000 else nNewBlockSize < 27000) then 0
    else nMinFee
  let nMinFee ← addDust nBaseFee tx.vout nMinFee
  raiseFee nBlockSize nNewBlockSize nMinFee

/-! ## The fee before it is raised -/

/-- `nBaseFee`. -/
def baseFee (mode : GetMinFeeMode) : Int := if mode = .GMF_RELAY then minRelayTxFee else minTxFee

/-- The fee for the size, without the free allowances. -/
def sizeFee (mode : GetMinFeeMode) (tx : CTransaction) : Int :=
  (1 + (tx.size / 1000 : Nat)) * baseFee mode

/-- The fee for the dust. -/
def dustFee (mode : GetMinFeeMode) (tx : CTransaction) : Int :=
  (tx.vout.filter fun txout => txout.nValue.toInt < cent).length * baseFee mode

/-- The free allowance applies. -/
def IsFree (nBlockSize : Nat) (fAllowFree : Bool) (tx : CTransaction) : Prop :=
  fAllowFree = true ∧
    (if nBlockSize = 1 then tx.size < 10000 else nBlockSize + tx.size < 27000)

instance (nBlockSize : Nat) (fAllowFree : Bool) (tx : CTransaction) :
    Decidable (IsFree nBlockSize fAllowFree tx) :=
  inferInstanceAs (Decidable (fAllowFree = true ∧
    (if nBlockSize = 1 then tx.size < 10000 else nBlockSize + tx.size < 27000)))

/-- The fee before it is raised and limited. -/
def plainFee (nBlockSize : Nat) (fAllowFree : Bool) (mode : GetMinFeeMode) (tx : CTransaction) :
    Int :=
  (if IsFree nBlockSize fAllowFree tx then 0 else sizeFee mode tx) + dustFee mode tx

/-- How often the fee is taken in a block of a size. -/
def feeFactor (nNewBlockSize : Nat) : Nat :=
  if maxBlockSizeGen / 2 ≤ nNewBlockSize then maxBlockSizeGen / (maxBlockSizeGen - nNewBlockSize)
  else 1

section Fee

variable {nBlockSize : Nat} {fAllowFree : Bool} {mode : GetMinFeeMode} {tx : CTransaction}

/-- `GetMinFee` is the plain fee, raised and limited. -/
theorem CTransaction.getMinFee_eq :
    tx.getMinFee nBlockSize fAllowFree mode =
      if nBlockSize ≠ 1 ∧ maxBlockSizeGen ≤ nBlockSize + tx.size then maxMoney
      else limitFee (plainFee nBlockSize fAllowFree mode tx *
        (if nBlockSize = 1 then 1 else feeFactor (nBlockSize + tx.size) : Nat)) := by
  have plain : (if fAllowFree = true ∧ (if nBlockSize = 1 then tx.size < 10000
      else nBlockSize + tx.size < 27000) then 0 else sizeFee mode tx) + dustFee mode tx =
        plainFee nBlockSize fAllowFree mode tx := rfl
  by_cases single : nBlockSize = 1
  · simp only [getMinFee, single, ne_eq, not_true_eq_false, false_and, if_false, if_true,
      Nat.cast_one, mul_one]
    rfl
  · by_cases crowded : maxBlockSizeGen / 2 ≤ nBlockSize + tx.size
    · simp only [getMinFee, ← plain, feeFactor, single, crowded, ne_eq, not_false_eq_true, true_and,
        if_true, if_false]
      rfl
    · simp only [getMinFee, ← plain, feeFactor, single, crowded, ne_eq, not_false_eq_true, true_and,
        if_false, Nat.cast_one, mul_one]
      rfl

theorem baseFee_eq (mode : GetMinFeeMode) : baseFee mode = 10000000 := by
  cases mode <;> rfl

theorem sizeFee_nonneg : 0 ≤ sizeFee mode tx := by
  rw [sizeFee, baseFee_eq]
  positivity

theorem dustFee_nonneg : 0 ≤ dustFee mode tx := by
  rw [dustFee, baseFee_eq]
  positivity

theorem plainFee_nonneg : 0 ≤ plainFee nBlockSize fAllowFree mode tx := by
  have size := @sizeFee_nonneg mode tx
  have dust := @dustFee_nonneg mode tx
  unfold plainFee
  split_ifs <;> omega

/-- There are fewer outputs than bytes. -/
theorem plainFee_le :
    plainFee nBlockSize fAllowFree mode tx ≤ (1 + tx.size / 1000 + tx.size : Nat) * 10000000 := by
  have outputs := tx.mul_vout_le_size
  have dust := List.length_filter_le (fun txout => decide (txout.nValue.toInt < cent)) tx.vout
  have size := @sizeFee_nonneg mode tx
  unfold plainFee
  rw [dustFee, baseFee_eq]
  split_ifs
  · omega
  · rw [sizeFee, baseFee_eq]
    omega

theorem limitFee_mono {low high : Int} (nonneg : 0 ≤ low) (le : low ≤ high) :
    limitFee low ≤ limitFee high := by
  unfold limitFee MoneyRange
  split_ifs <;> omega

theorem moneyRange_limitFee (nMinFee : Int) : MoneyRange (limitFee nMinFee) := by
  unfold limitFee
  split_ifs with inRange
  · exact inRange
  · decide

/-! ## The machine arithmetic is exact -/

private theorem addDust_eq {nBaseFee : Int} (nonneg : 0 ≤ nBaseFee) {vout : List CTxOut}
    {nMinFee : Int} (start : 0 ≤ nMinFee) (fits : nMinFee + vout.length * nBaseFee ≤ int64Max) :
    addDust nBaseFee vout nMinFee =
      .ok (nMinFee +
        (vout.filter fun txout => txout.nValue.toInt < cent).length * nBaseFee) := by
  induction vout generalizing nMinFee with
  | nil => simp [addDust, pure, Except.pure]
  | cons txout vout induction =>
      have rest : 0 ≤ (vout.length : Int) * nBaseFee := by positivity
      rw [List.length_cons, Nat.cast_succ, add_mul, one_mul] at fits
      by_cases dust : txout.nValue.toInt < cent
      · have sum : int64 (nMinFee + nBaseFee) = .ok (nMinFee + nBaseFee) := by
          rw [int64_eq_ok]
          refine ⟨⟨?_, ?_⟩, rfl⟩
          · exact le_trans (by decide) (add_nonneg start nonneg)
          · omega
        rw [addDust, if_pos dust, sum, except_ok_bind, induction (by omega) (by omega),
          List.filter_cons_of_pos (by simpa using dust), List.length_cons]
        congr 1
        push_cast
        ring
      · rw [addDust, if_neg dust, induction start (by omega),
          List.filter_cons_of_neg (by simpa using dust)]

theorem feeFactor_pos {nNewBlockSize : Nat} (room : nNewBlockSize < maxBlockSizeGen) :
    1 ≤ feeFactor nNewBlockSize := by
  unfold feeFactor
  split_ifs
  · exact (Nat.one_le_div_iff (by omega)).mpr (Nat.sub_le _ _)
  · exact le_rfl

theorem feeFactor_le (nNewBlockSize : Nat) : feeFactor nNewBlockSize ≤ maxBlockSizeGen := by
  unfold feeFactor
  split_ifs
  · exact Nat.div_le_self _ _
  · norm_num [maxBlockSizeGen, maxBlockSize]

private theorem divideWords_eq {nNewBlockSize : UInt32}
    (room : nNewBlockSize.toNat < maxBlockSizeGen) :
    divideWords (UInt32.ofNat maxBlockSizeGen) (UInt32.ofNat maxBlockSizeGen - nNewBlockSize) =
      some (UInt32.ofNat (maxBlockSizeGen / (maxBlockSizeGen - nNewBlockSize.toNat))) := by
  have limit : (UInt32.ofNat maxBlockSizeGen).toNat = maxBlockSizeGen := rfl
  have le : nNewBlockSize ≤ UInt32.ofNat maxBlockSizeGen :=
    UInt32.le_iff_toNat_le.mpr (limit ▸ room.le)
  have distance := UInt32.toNat_sub_of_le _ _ le
  rw [limit] at distance
  have nonzero : UInt32.ofNat maxBlockSizeGen - nNewBlockSize ≠ 0 := by
    intro zero
    rw [zero] at distance
    change 0 = _ at distance
    omega
  have small : maxBlockSizeGen / (maxBlockSizeGen - nNewBlockSize.toNat) < 2 ^ 32 :=
    (Nat.div_le_self _ _).trans_lt (by norm_num [maxBlockSizeGen, maxBlockSize])
  rw [divideWords, if_neg nonzero]
  refine congrArg some (UInt32.toNat_inj.mp ?_)
  rw [UInt32.toNat_div, limit, distance, UInt32.toNat_ofNat', Nat.mod_eq_of_lt small]

private theorem raiseFee_eq {nBlockSize nNewBlockSize : UInt32} {nMinFee : Int}
    (nonneg : 0 ≤ nMinFee)
    (fits : nNewBlockSize.toNat < maxBlockSizeGen →
      nMinFee * feeFactor nNewBlockSize.toNat ≤ int64Max) :
    raiseFee nBlockSize nNewBlockSize nMinFee =
      .ok (if nBlockSize.toNat ≠ 1 ∧ maxBlockSizeGen ≤ nNewBlockSize.toNat then maxMoney
        else limitFee (nMinFee *
          (if nBlockSize.toNat = 1 then 1 else feeFactor nNewBlockSize.toNat : Nat))) := by
  have half : UInt32.ofNat maxBlockSizeGen / 2 ≤ nNewBlockSize ↔
      maxBlockSizeGen / 2 ≤ nNewBlockSize.toNat := UInt32.le_iff_toNat_le
  have full : UInt32.ofNat maxBlockSizeGen ≤ nNewBlockSize ↔
      maxBlockSizeGen ≤ nNewBlockSize.toNat := UInt32.le_iff_toNat_le
  have one : nBlockSize = 1 ↔ nBlockSize.toNat = 1 := UInt32.toNat_inj.symm
  simp only [raiseFee, half, full, ne_eq, one]
  by_cases single : nBlockSize.toNat = 1
  · simp [single, pure, Except.pure]
  · by_cases crowded : maxBlockSizeGen / 2 ≤ nNewBlockSize.toNat
    · by_cases filled : maxBlockSizeGen ≤ nNewBlockSize.toNat
      · simp [single, crowded, filled, pure, Except.pure]
      · have room := Nat.not_le.mp filled
        have factor : (UInt32.ofNat
            (maxBlockSizeGen / (maxBlockSizeGen - nNewBlockSize.toNat))).toNat =
              feeFactor nNewBlockSize.toNat := by
          rw [feeFactor, if_pos crowded, UInt32.toNat_ofNat_of_lt']
          exact (Nat.div_le_self _ _).trans_lt (by decide)
        have product : int64 (nMinFee * feeFactor nNewBlockSize.toNat) =
            .ok (nMinFee * feeFactor nNewBlockSize.toNat) := by
          rw [int64_eq_ok]
          have lower : 0 ≤ nMinFee * (feeFactor nNewBlockSize.toNat : Int) := by positivity
          exact ⟨⟨le_trans (by decide) lower, fits room⟩, rfl⟩
        simp only [single, crowded, filled, not_false_eq_true, and_self, and_false, if_true,
          if_false, divideWords_eq room, factor, product]
        rfl
    · have below : ¬maxBlockSizeGen ≤ nNewBlockSize.toNat := by
        intro filled
        exact crowded ((Nat.div_le_self _ _).trans filled)
      simp [single, crowded, below, feeFactor, pure, Except.pure]

/-- No step leaves its range. -/
theorem CTransaction.getMinFeeWords_eq {nBlockSize : UInt32}
    (fits : nBlockSize.toNat + tx.size < 2 ^ 32) :
    tx.getMinFeeWords nBlockSize fAllowFree mode =
      .ok (tx.getMinFee nBlockSize.toNat fAllowFree mode) := by
  have nBytes : tx.getSerializeSize.toNat = tx.size := by
    rw [tx.getSerializeSize_eq, UInt32.toNat_ofNat', size, Nat.mod_eq_of_lt]
    exact (Nat.le_add_left _ _).trans_lt fits
  have nNewBlockSize : (nBlockSize + tx.getSerializeSize).toNat = nBlockSize.toNat + tx.size := by
    rw [UInt32.toNat_add, nBytes, Nat.mod_eq_of_lt fits]
  have outputs := tx.mul_vout_le_size
  have start : int64 (sizeFee mode tx) = .ok (sizeFee mode tx) := by
    have nonneg := @sizeFee_nonneg mode tx
    rw [int64_eq_ok]
    refine ⟨⟨le_trans (by decide) nonneg, ?_⟩, rfl⟩
    rw [sizeFee, baseFee_eq, int64Max]
    omega
  have free : (fAllowFree = true ∧ (if nBlockSize = 1 then tx.getSerializeSize < 10000
      else nBlockSize + tx.getSerializeSize < 27000)) ↔
        IsFree nBlockSize.toNat fAllowFree tx := by
    have ten : tx.getSerializeSize < 10000 ↔ tx.size < 10000 := by
      rw [UInt32.lt_iff_toNat_lt, nBytes]
      rfl
    have area : nBlockSize + tx.getSerializeSize < 27000 ↔
        nBlockSize.toNat + tx.size < 27000 := by
      rw [UInt32.lt_iff_toNat_lt, nNewBlockSize]
      rfl
    have one : nBlockSize = 1 ↔ nBlockSize.toNat = 1 := UInt32.toNat_inj.symm
    simp only [IsFree, ten, area, one]
  have allowance : (if fAllowFree = true ∧ (if nBlockSize = 1 then tx.getSerializeSize < 10000
      else nBlockSize + tx.getSerializeSize < 27000) then (0 : Int) else sizeFee mode tx) =
        if IsFree nBlockSize.toNat fAllowFree tx then 0 else sizeFee mode tx :=
    if_congr free rfl rfl
  have nonneg : 0 ≤ (if IsFree nBlockSize.toNat fAllowFree tx then 0 else sizeFee mode tx) := by
    split_ifs
    · exact le_rfl
    · exact sizeFee_nonneg
  have dust : addDust (baseFee mode) tx.vout
      (if IsFree nBlockSize.toNat fAllowFree tx then 0 else sizeFee mode tx) =
        .ok (plainFee nBlockSize.toNat fAllowFree mode tx) := by
    refine addDust_eq (by rw [baseFee_eq]; norm_num) nonneg ?_
    rw [sizeFee, baseFee_eq, int64Max]
    split_ifs <;> omega
  have raised : raiseFee nBlockSize (nBlockSize + tx.getSerializeSize)
      (plainFee nBlockSize.toNat fAllowFree mode tx) =
        .ok (tx.getMinFee nBlockSize.toNat fAllowFree mode) := by
    rw [CTransaction.getMinFee_eq, ← nNewBlockSize]
    refine raiseFee_eq plainFee_nonneg fun room => ?_
    have factor := feeFactor_le (nBlockSize + tx.getSerializeSize).toNat
    have plain := @plainFee_le nBlockSize.toNat fAllowFree mode tx
    rw [nNewBlockSize] at room
    calc
      plainFee nBlockSize.toNat fAllowFree mode tx *
            feeFactor (nBlockSize + tx.getSerializeSize).toNat
        ≤ (1 + maxBlockSizeGen / 1000 + maxBlockSizeGen : Nat) * 10000000 * maxBlockSizeGen := by
          refine mul_le_mul (plain.trans ?_) (by exact_mod_cast factor) (by positivity)
            (by positivity)
          omega
      _ ≤ int64Max := by norm_num [maxBlockSizeGen, maxBlockSize, int64Max]
  simp only [getMinFeeWords, nBytes]
  change int64 (sizeFee mode tx) >>= _ = _
  rw [start, except_ok_bind, allowance]
  change addDust (baseFee mode) tx.vout _ >>= _ = _
  rw [dust, except_ok_bind, raised]

/-! ## Growing blocks, and the memory pool -/

theorem plainFee_mono {small large : Nat} (above : 2 ≤ small) (le : small ≤ large) :
    plainFee small fAllowFree mode tx ≤ plainFee large fAllowFree mode tx := by
  have free : IsFree large fAllowFree tx → IsFree small fAllowFree tx := by
    rintro ⟨allowed, room⟩
    refine ⟨allowed, ?_⟩
    rw [if_neg (by omega)] at room ⊢
    omega
  have size := @sizeFee_nonneg mode tx
  unfold plainFee
  by_cases large_free : IsFree large fAllowFree tx
  · rw [if_pos large_free, if_pos (free large_free)]
  · rw [if_neg large_free]
    split_ifs <;> omega

theorem feeFactor_mono {small large : Nat} (le : small ≤ large) (room : large < maxBlockSizeGen) :
    feeFactor small ≤ feeFactor large := by
  by_cases crowded : maxBlockSizeGen / 2 ≤ small
  · rw [feeFactor, feeFactor, if_pos crowded, if_pos (crowded.trans le)]
    exact Nat.div_le_div_left (Nat.sub_le_sub_left le _) (Nat.sub_pos_of_lt room)
  · rw [feeFactor, if_neg crowded]
    exact feeFactor_pos room

theorem moneyRange_getMinFee : MoneyRange (tx.getMinFee nBlockSize fAllowFree mode) := by
  rw [CTransaction.getMinFee_eq]
  by_cases filled : nBlockSize ≠ 1 ∧ maxBlockSizeGen ≤ nBlockSize + tx.size
  · rw [if_pos filled]
    decide
  · rw [if_neg filled]
    exact moneyRange_limitFee _

/-- A fuller block never makes a transaction cheaper. -/
theorem getMinFee_mono {small large : Nat} (above : 2 ≤ small) (le : small ≤ large) :
    tx.getMinFee small fAllowFree mode ≤ tx.getMinFee large fAllowFree mode := by
  by_cases filled : maxBlockSizeGen ≤ large + tx.size
  · rw [@CTransaction.getMinFee_eq large, if_pos ⟨by omega, filled⟩]
    exact moneyRange_getMinFee.2
  · have plain := @plainFee_mono fAllowFree mode tx small large above le
    have factor := feeFactor_mono (Nat.add_le_add_right le tx.size) (Nat.not_le.mp filled)
    rw [CTransaction.getMinFee_eq, CTransaction.getMinFee_eq, if_neg (by omega), if_neg (by omega),
      if_neg (by omega), if_neg (by omega)]
    refine limitFee_mono (mul_nonneg plainFee_nonneg (Nat.cast_nonneg _)) ?_
    exact mul_le_mul plain (by exact_mod_cast factor) (by positivity) plainFee_nonneg

/-- What the wallet pays for a transaction is enough for the memory pool. -/
theorem getMinFee_relay_le_send (small : tx.size < 100000) :
    tx.getMinFee 1000 true .GMF_RELAY ≤ tx.getMinFee 1 fAllowFree .GMF_SEND := by
  have limit : maxBlockSizeGen = 500000 := rfl
  have factor : feeFactor (1000 + tx.size) = 1 := by
    rw [feeFactor, if_neg (by omega)]
  have plain : plainFee 1000 true .GMF_RELAY tx ≤ plainFee 1 fAllowFree .GMF_SEND tx := by
    have size := @sizeFee_nonneg .GMF_SEND tx
    have same : sizeFee .GMF_RELAY tx = sizeFee .GMF_SEND tx := rfl
    have dust : dustFee .GMF_RELAY tx = dustFee .GMF_SEND tx := rfl
    unfold plainFee
    rw [same, dust]
    by_cases relayed : IsFree 1000 true tx
    · rw [if_pos relayed]
      split_ifs <;> omega
    · have paid : ¬IsFree 1 fAllowFree tx := by
        rintro ⟨_, room⟩
        rw [if_pos rfl] at room
        refine relayed ⟨rfl, ?_⟩
        rw [if_neg (by omega)]
        omega
      rw [if_neg relayed, if_neg paid]
  rw [CTransaction.getMinFee_eq, CTransaction.getMinFee_eq, if_neg (by omega), if_neg (by omega),
    if_neg (by omega), if_pos rfl, factor]
  refine limitFee_mono (mul_nonneg plainFee_nonneg (Nat.cast_nonneg _)) ?_
  rw [Nat.cast_one, mul_one, mul_one]
  exact plain

end Fee

/-- `GetMinFee` never overflows or divides by zero, its fee is an amount of money that does not fall
as the block fills, and the wallet's fee is enough for the memory pool. -/
theorem getMinFee_sound (tx : CTransaction) (fAllowFree : Bool) (mode : GetMinFeeMode) :
    (∀ nBlockSize : UInt32, nBlockSize.toNat + tx.size < 2 ^ 32 →
        ∃ nMinFee, tx.getMinFeeWords nBlockSize fAllowFree mode = .ok nMinFee ∧
          MoneyRange nMinFee) ∧
      (∀ small large : UInt32, 2 ≤ small.toNat → small ≤ large →
        large.toNat + tx.size < 2 ^ 32 →
        ∃ low high, tx.getMinFeeWords small fAllowFree mode = .ok low ∧
          tx.getMinFeeWords large fAllowFree mode = .ok high ∧ low ≤ high) ∧
      (tx.size < 100000 →
        ∃ relayed paid, tx.getMinFeeWords 1000 true .GMF_RELAY = .ok relayed ∧
          tx.getMinFeeWords 1 fAllowFree .GMF_SEND = .ok paid ∧ relayed ≤ paid) := by
  refine ⟨fun nBlockSize fits => ?_, fun small large above le fits => ?_, fun few => ?_⟩
  · exact ⟨_, CTransaction.getMinFeeWords_eq fits, moneyRange_getMinFee⟩
  · rw [UInt32.le_iff_toNat_le] at le
    exact ⟨_, _, CTransaction.getMinFeeWords_eq (by omega), CTransaction.getMinFeeWords_eq fits,
      getMinFee_mono above le⟩
  · have thousand : (1000 : UInt32).toNat = 1000 := rfl
    have one : (1 : UInt32).toNat = 1 := rfl
    exact ⟨_, _, CTransaction.getMinFeeWords_eq (by omega),
      CTransaction.getMinFeeWords_eq (by omega), getMinFee_relay_le_send few⟩

end FooCoin

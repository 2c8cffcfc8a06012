import FooCoin.Block
import FooCoin.Library.Rounding

/-!
# The difficulty

`getNextWorkRequired` is the `nBits` that `AcceptBlock` asks of a block on top of a chain.  On every
main-net chain that follows it the walk back never runs out of blocks, the target changes at retarget
heights only, and there by at most a factor of four either way, up to the precision of the compact
encoding.
-/

namespace FooCoin

open Rounding

/-- `CBigNum::GetCompact`; `BN_bn2mpi` takes a byte more where the top bit is set. -/
def getCompact (bn : Int) : UInt32 :=
  let magnitude := bn.natAbs
  let nSize := if magnitude = 0 then 0 else (magnitude.log2 + 1) / 8 + 1
  let mantissa :=
    if nSize ≤ 3 then magnitude * 256 ^ (3 - nSize) else magnitude / 256 ^ (nSize - 3)
  let sign := if bn < 0 then 2 ^ 23 else 0
  UInt32.ofNat (nSize * 2 ^ 24 + (sign + mantissa))

/-- `nTargetTimespan`: one day. -/
def nTargetTimespan : Int := 1 * 24 * 60 * 60

/-- `nTargetSpacing`: two minutes. -/
def nTargetSpacing : Int := 120

/-- `nInterval`. -/
def nInterval : Nat := (nTargetTimespan / nTargetSpacing).toNat

/-- `nReTargetHistoryFact`. -/
def nReTargetHistoryFact : Nat := 4

/-- `COINFIX1_BLOCK`. -/
def coinFix1Block : Nat := 15000

/-- The loop of the testnet rule: the last entry without the special minimum difficulty. -/
def lastOrdinaryBits (nProofOfWorkLimit : UInt32) : BlockChain → UInt32
  | [] => nProofOfWorkLimit
  | pindex :: pprev =>
      if pprev ≠ [] ∧ pindex.nHeight % nInterval ≠ 0 ∧ pindex.nBits = nProofOfWorkLimit then
        lastOrdinaryBits nProofOfWorkLimit pprev
      else pindex.nBits

/-- `blockstogoback`. -/
def blocksToGoBack (nHeight : Nat) : Nat :=
  if coinFix1Block < nHeight then nReTargetHistoryFact * nInterval
  else if nHeight + 1 ≠ nInterval then nInterval
  else nInterval - 1

/-- The timespan of a retarget, limited to a quarter and to four times the target. -/
def limitTimespan (nActualTimespan : Int) : Int :=
  let nActualTimespan :=
    if nActualTimespan < nTargetTimespan / 4 then nTargetTimespan / 4 else nActualTimespan
  if nTargetTimespan * 4 < nActualTimespan then nTargetTimespan * 4 else nActualTimespan

/-- `nActualTimespan` between the last entry and the one the walk back ends at. -/
def actualTimespan (pindexLast pindexFirst : CBlockIndex) : Int :=
  let elapsed := (pindexLast.nTime.toNat : Int) - pindexFirst.nTime.toNat
  limitTimespan
    (if coinFix1Block < pindexLast.nHeight then elapsed.tdiv nReTargetHistoryFact else elapsed)

/-- The retargeted `bnNew`. -/
def retarget (bnOld nActualTimespan : Int) : Int :=
  let bnNew := (bnOld * nActualTimespan).tdiv nTargetTimespan
  if bnProofOfWorkLimit < bnNew then bnProofOfWorkLimit else bnNew

/-- `GetNextWorkRequired` for a block at a time on top of `pindexLast`. -/
def getNextWorkRequired (fTestNet : Bool) (pindexLast : BlockChain) (nTime : UInt32) :
    Outcome UInt32 :=
  let nProofOfWorkLimit := getCompact bnProofOfWorkLimit
  match pindexLast with
  | [] => pure nProofOfWorkLimit
  | last :: _ =>
      if (last.nHeight + 1) % nInterval ≠ 0 then
        if fTestNet then
          if (last.nTime.toNat : Int) + nTargetSpacing * 2 < nTime.toNat then pure nProofOfWorkLimit
          else pure (lastOrdinaryBits nProofOfWorkLimit pindexLast)
        else pure last.nBits
      else
        match pindexLast.drop (blocksToGoBack last.nHeight) with
        | [] => .error .assertion
        | first :: _ => pure (getCompact (retarget (setCompact last.nBits) (actualTimespan last first)))

/-- A main-net chain whose genesis target is within the limit and whose later blocks have passed the
`nBits` check of `AcceptBlock`. -/
inductive WorkChecked : BlockChain → Prop
  /-- The genesis block. -/
  | genesis {pindex : CBlockIndex} (height : pindex.nHeight = 0)
      (positive : 0 < setCompact pindex.nBits)
      (limited : setCompact pindex.nBits ≤ bnProofOfWorkLimit) : WorkChecked [pindex]
  /-- One more block. -/
  | block {pindex prev : CBlockIndex} {pprev : BlockChain} (below : WorkChecked (prev :: pprev))
      (height : pindex.nHeight = prev.nHeight + 1)
      (work : getNextWorkRequired false (prev :: pprev) pindex.nTime = .ok pindex.nBits) :
      WorkChecked (pindex :: prev :: pprev)

/-! ## The compact encoding -/

private theorem setCompact_encode {nSize mantissa : Nat} (size_le : nSize ≤ 255)
    (mantissa_lt : mantissa < 2 ^ 23) :
    setCompact (UInt32.ofNat (nSize * 2 ^ 24 + mantissa)) =
      ((if nSize ≤ 3 then mantissa / 256 ^ (3 - nSize) else mantissa * 256 ^ (nSize - 3) : Nat) :
        Int) := by
  have word : (UInt32.ofNat (nSize * 2 ^ 24 + mantissa)).toNat = nSize * 2 ^ 24 + mantissa := by
    rw [UInt32.toNat_ofNat', Nat.mod_eq_of_lt (by omega)]
  have size : (nSize * 2 ^ 24 + mantissa) / 2 ^ 24 = nSize := by omega
  have low : (nSize * 2 ^ 24 + mantissa) % 2 ^ 23 = mantissa := by omega
  have unsigned : (nSize * 2 ^ 24 + mantissa) / 2 ^ 23 % 2 ≠ 1 := by omega
  simp only [setCompact, word, size, low, unsigned, and_false, if_false]

/-- The size that `BN_bn2mpi` gives a positive number. -/
def compactSize (value : Nat) : Nat := (value.log2 + 1) / 8 + 1

theorem compactSize_spec {value : Nat} (positive : 0 < value) :
    value < 2 ^ (8 * compactSize value - 1) ∧
      (2 ≤ compactSize value → 2 ^ (8 * compactSize value - 9) ≤ value) := by
  have nonzero := positive.ne'
  simp only [compactSize]
  constructor
  · exact (Nat.log2_lt nonzero).mp (by omega)
  · intro _
    exact (Nat.le_log2 nonzero).mp (by omega)

theorem compactSize_le {value places : Nat} (positive : 0 < value) (fits : value < 2 ^ places) :
    compactSize value ≤ places / 8 + 1 := by
  have log_lt : value.log2 < places := (Nat.log2_lt positive.ne').mpr fits
  simp only [compactSize]
  omega

/-- The size of a number is told by the powers that it lies between. -/
private theorem compactSize_eq {value nSize : Nat} (two : 2 ≤ nSize)
    (lower : 2 ^ (8 * nSize - 9) ≤ value) (upper : value < 2 ^ (8 * nSize - 1)) :
    compactSize value = nSize := by
  have nonzero : value ≠ 0 := ((Nat.two_pow_pos _).trans_le lower).ne'
  have log_ge := (Nat.le_log2 nonzero).mpr lower
  have log_lt := (Nat.log2_lt nonzero).mpr upper
  simp only [compactSize]
  omega

/-- The encoding of a positive number. -/
theorem getCompact_eq {value : Nat} (positive : 0 < value) :
    getCompact value = UInt32.ofNat (compactSize value * 2 ^ 24 +
      if compactSize value ≤ 3 then value * 256 ^ (3 - compactSize value)
      else value / 256 ^ (compactSize value - 3)) := by
  have nonneg : ¬(value : Int) < 0 := by omega
  simp only [getCompact, Int.natAbs_natCast, positive.ne', nonneg, if_false, Nat.zero_add,
    compactSize]
  rfl

/-- A number is encoded exactly in up to three bytes, and else keeps its three top bytes. -/
private theorem setCompact_getCompact_eq {value : Nat} (positive : 0 < value)
    (size_le : compactSize value ≤ 255) :
    setCompact (getCompact value) =
      ((if compactSize value ≤ 3 then value
        else value / 256 ^ (compactSize value - 3) * 256 ^ (compactSize value - 3) : Nat) : Int) := by
  obtain ⟨below, _⟩ := compactSize_spec positive
  have size_pos : 1 ≤ compactSize value := by simp [compactSize]
  rw [getCompact_eq positive]
  generalize compactSize value = nSize at below size_le size_pos
  by_cases short : nSize ≤ 3
  · have mantissa_lt : value * 256 ^ (3 - nSize) < 2 ^ 23 := by
      calc
        value * 256 ^ (3 - nSize) < 2 ^ (8 * nSize - 1) * 256 ^ (3 - nSize) :=
          Nat.mul_lt_mul_of_pos_right below (by positivity)
        _ = 2 ^ 23 := by
          rw [show (256 : Nat) = 2 ^ 8 from rfl, ← pow_mul, ← pow_add]
          congr 1
          omega
    simp only [short, if_true]
    rw [setCompact_encode (by omega) mantissa_lt, if_pos short,
      Nat.mul_div_cancel _ (by positivity)]
  · have mantissa_lt : value / 256 ^ (nSize - 3) < 2 ^ 23 := by
      apply Nat.div_lt_of_lt_mul
      calc
        value < 2 ^ (8 * nSize - 1) := below
        _ = 256 ^ (nSize - 3) * 2 ^ 23 := by
          rw [show (256 : Nat) = 2 ^ 8 from rfl, ← pow_mul, ← pow_add]
          congr 1
          omega
    simp only [short, if_false]
    rw [setCompact_encode (by omega) mantissa_lt, if_neg short]

private theorem setCompact_getCompact_zero : setCompact (getCompact 0) = 0 := by
  decide

/-- What a compact encoding can stand for. -/
private theorem setCompact_cases (nCompact : UInt32) :
    setCompact nCompact ≤ 0 ∨ ∃ mantissa nSize, mantissa < 2 ^ 23 ∧
      setCompact nCompact =
        ((if nSize ≤ 3 then mantissa / 256 ^ (3 - nSize) else mantissa * 256 ^ (nSize - 3) : Nat) :
          Int) := by
  by_cases negative :
      1 ≤ nCompact.toNat / 2 ^ 24 ∧ nCompact.toNat / 2 ^ 23 % 2 = 1
  · left
    simp only [setCompact, negative, and_self, if_true]
    omega
  · right
    refine ⟨nCompact.toNat % 2 ^ 23, nCompact.toNat / 2 ^ 24, Nat.mod_lt _ (by norm_num), ?_⟩
    simp only [setCompact, negative, if_false]

/-- No encoded number lies between a number and its three top bytes. -/
private theorem le_truncated {value mantissa size nSize : Nat} (mantissa_lt : mantissa < 2 ^ 23)
    (long : 3 < nSize) (size_spec : 2 ^ (8 * nSize - 9) ≤ value)
    (below : (if size ≤ 3 then mantissa / 256 ^ (3 - size) else mantissa * 256 ^ (size - 3)) ≤
      value) :
    (if size ≤ 3 then mantissa / 256 ^ (3 - size) else mantissa * 256 ^ (size - 3)) ≤
      value / 256 ^ (nSize - 3) * 256 ^ (nSize - 3) := by
  by_cases aligned : nSize ≤ size
  · rw [if_neg (by omega)] at below ⊢
    have scaled : mantissa * 256 ^ (size - 3) =
        mantissa * 256 ^ (size - nSize) * 256 ^ (nSize - 3) := by
      rw [mul_assoc, ← pow_add]
      congr 2
      omega
    rw [scaled] at below ⊢
    exact Nat.mul_le_mul_right _ ((Nat.le_div_iff_mul_le (by positivity)).mpr below)
  · -- A shorter encoding is below the least number of the length, which is itself encoded exactly.
    have least : 2 ^ (8 * nSize - 9) = 2 ^ 15 * 256 ^ (nSize - 3) := by
      rw [show (256 : Nat) = 2 ^ 8 from rfl, ← pow_mul, ← pow_add]
      congr 1
      omega
    have truncated : 2 ^ 15 * 256 ^ (nSize - 3) ≤ value / 256 ^ (nSize - 3) * 256 ^ (nSize - 3) :=
      Nat.mul_le_mul_right _
        ((Nat.le_div_iff_mul_le (by positivity)).mpr (least ▸ size_spec))
    have shorter : mantissa * 256 ^ (size - 3) ≤ 2 ^ 15 * 256 ^ (nSize - 3) := by
      calc
        mantissa * 256 ^ (size - 3) ≤ 2 ^ 23 * 256 ^ (nSize - 4) :=
          Nat.mul_le_mul mantissa_lt.le (Nat.pow_le_pow_right (by norm_num) (by omega))
        _ = 2 ^ 15 * 256 ^ (nSize - 3) := by
          rw [show (256 : Nat) = 2 ^ 8 from rfl, ← pow_mul, ← pow_mul, ← pow_add, ← pow_add]
          congr 1
          omega
    refine le_trans ?_ (shorter.trans truncated)
    split
    · rename_i tiny
      rw [Nat.sub_eq_zero_of_le tiny, pow_zero, mul_one]
      exact Nat.div_le_self _ _
    · exact le_rfl

/-- The numbers that compact encodings stand for. -/
def compactTargets : Set Int := Set.range setCompact

/-- The targets within the limit. -/
def limitedTargets : Set Int := Set.Icc 0 bnProofOfWorkLimit

/-- Encoding a target rounds it down to the nearest number that an encoding stands for. -/
theorem getCompact_roundsDown :
    RoundsDown compactTargets limitedTargets fun bn => setCompact (getCompact bn) := by
  rintro bn ⟨nonneg, limited⟩
  obtain ⟨value, rfl⟩ := Int.eq_ofNat_of_zero_le nonneg
  have fits : value < 2 ^ 236 := by
    simp only [bnProofOfWorkLimit] at limited
    omega
  rcases Nat.eq_zero_or_pos value with rfl | positive
  · simp only [Nat.cast_zero, setCompact_getCompact_zero]
    exact ⟨⟨⟨getCompact 0, setCompact_getCompact_zero⟩, le_rfl⟩, fun lower below => below.2⟩
  · have size_le := (compactSize_le positive fits).trans (show 236 / 8 + 1 ≤ 255 by norm_num)
    refine ⟨⟨⟨getCompact value, rfl⟩, ?_⟩, ?_⟩
    · beta_reduce
      rw [setCompact_getCompact_eq positive size_le]
      split
      · exact le_rfl
      · exact_mod_cast Nat.div_mul_le_self _ _
    · rintro _ ⟨⟨nCompact, rfl⟩, below⟩
      beta_reduce
      rw [setCompact_getCompact_eq positive size_le]
      split
      · exact below
      · rename_i long
        rcases setCompact_cases nCompact with nonpos | ⟨mantissa, size, mantissa_lt, encoded⟩
        · exact nonpos.trans (Int.natCast_nonneg _)
        · rw [encoded] at below ⊢
          have spec := (compactSize_spec positive).2 (by omega)
          exact_mod_cast le_truncated mantissa_lt (by omega) spec (by exact_mod_cast below)

/-- Encoding a number rounds it down by less than one part in `2 ^ 15` to a number with the same
encoding. -/
theorem getCompact_rounded {value : Nat} (positive : 0 < value)
    (size_le : compactSize value ≤ 255) :
    ∃ rounded : Nat, setCompact (getCompact value) = rounded ∧ rounded ≤ value ∧
      (value - rounded) * 2 ^ 15 < value ∧ getCompact rounded = getCompact value := by
  refine ⟨_, setCompact_getCompact_eq positive size_le, ?_⟩
  split
  next => exact ⟨le_rfl, by omega, rfl⟩
  next long =>
    obtain ⟨below, above⟩ := compactSize_spec positive
    have spec := above (by omega)
    have size_eq := @compactSize_eq
    generalize size : compactSize value = nSize at *
    have scale : 2 ^ (8 * nSize - 9) = 2 ^ 15 * 256 ^ (nSize - 3) := by
      rw [show (256 : Nat) = 2 ^ 8 from rfl, ← pow_mul, ← pow_add]
      congr 1
      omega
    have unit_pos : 0 < 256 ^ (nSize - 3) := by positivity
    have lost := @Nat.lt_div_mul_add value (256 ^ (nSize - 3)) unit_pos
    have down := Nat.div_mul_le_self value (256 ^ (nSize - 3))
    have mantissa : 2 ^ 15 ≤ value / 256 ^ (nSize - 3) :=
      (Nat.le_div_iff_mul_le unit_pos).mpr (scale ▸ spec)
    have kept_size : compactSize (value / 256 ^ (nSize - 3) * 256 ^ (nSize - 3)) = nSize := by
      refine size_eq (by omega) ?_ (down.trans_lt below)
      rw [scale]
      exact Nat.mul_le_mul_right _ mantissa
    refine ⟨down, ?_, ?_⟩
    · rw [scale] at spec
      omega
    · have kept_pos : 0 < value / 256 ^ (nSize - 3) * 256 ^ (nSize - 3) :=
        Nat.mul_pos (by omega) unit_pos
      rw [getCompact_eq kept_pos, getCompact_eq positive, kept_size, size, if_neg long, if_neg long,
        Nat.mul_div_cancel _ unit_pos]

/-- Encoding a target loses less than one part in `2 ^ 15` of it. -/
theorem getCompact_precise {bn : Int} (mem : bn ∈ limitedTargets) :
    bn * (2 ^ 15 - 1) ≤ setCompact (getCompact bn) * 2 ^ 15 := by
  obtain ⟨nonneg, limited⟩ := mem
  obtain ⟨value, rfl⟩ := Int.eq_ofNat_of_zero_le nonneg
  have fits : value < 2 ^ 236 := by
    simp only [bnProofOfWorkLimit] at limited
    omega
  rcases Nat.eq_zero_or_pos value with rfl | positive
  · simp [setCompact_getCompact_zero]
  · have size_le := (compactSize_le positive fits).trans (show 236 / 8 + 1 ≤ 255 by norm_num)
    obtain ⟨rounded, encoded, -, near, -⟩ := getCompact_rounded positive size_le
    rw [encoded]
    have kept : value * (2 ^ 15 - 1) ≤ rounded * 2 ^ 15 := by omega
    have cast : ((value * (2 ^ 15 - 1) : Nat) : Int) = value * (2 ^ 15 - 1) := by
      push_cast
      norm_num
    rw [← cast]
    exact_mod_cast kept

/-! ## Retargets -/

@[simp]
theorem nInterval_eq : nInterval = 720 := rfl

private theorem limitTimespan_range (nActualTimespan : Int) :
    21600 ≤ limitTimespan nActualTimespan ∧ limitTimespan nActualTimespan ≤ 345600 := by
  have quarter : nTargetTimespan / 4 = 21600 := rfl
  have fourfold : nTargetTimespan * 4 = 345600 := rfl
  simp only [limitTimespan, quarter, fourfold]
  constructor
  · split_ifs <;> omega
  · split_ifs <;> omega

/-- A retarget moves a target within the limit by at most a factor of four. -/
theorem retarget_range {bnOld nActualTimespan : Int} (mem : bnOld ∈ limitedTargets) :
    retarget bnOld (limitTimespan nActualTimespan) ∈ limitedTargets ∧
      bnOld / 4 ≤ retarget bnOld (limitTimespan nActualTimespan) ∧
      retarget bnOld (limitTimespan nActualTimespan) ≤ bnOld * 4 := by
  obtain ⟨nonneg, limited⟩ := mem
  obtain ⟨short, long⟩ := limitTimespan_range nActualTimespan
  generalize limitTimespan nActualTimespan = timespan at short long
  have product_nonneg : 0 ≤ bnOld * timespan := mul_nonneg nonneg (by omega)
  have divided : (bnOld * timespan).tdiv nTargetTimespan = bnOld * timespan / 86400 :=
    Int.tdiv_eq_ediv_of_nonneg product_nonneg
  have least : bnOld / 4 ≤ bnOld * timespan / 86400 := by
    have scaled : bnOld * 21600 ≤ bnOld * timespan := mul_le_mul_of_nonneg_left short nonneg
    omega
  have most : bnOld * timespan / 86400 ≤ bnOld * 4 := by
    have scaled : bnOld * timespan ≤ bnOld * 345600 := mul_le_mul_of_nonneg_left long nonneg
    omega
  have limit_nonneg : 0 ≤ bnProofOfWorkLimit := by decide
  simp only [retarget, divided, limitedTargets, Set.mem_Icc]
  split
  · exact ⟨⟨limit_nonneg, le_rfl⟩, by omega, by omega⟩
  · exact ⟨⟨by omega, by omega⟩, least, most⟩

private theorem length_of_workChecked {chain : BlockChain} (checked : WorkChecked chain) :
    ∀ last ∈ chain.head?, chain.length = last.nHeight + 1 := by
  induction checked with
  | genesis height _ _ => simp [height]
  | block below height _ induction =>
      have below_length := induction _ rfl
      simp only [List.head?_cons, Option.mem_def, Option.some.injEq, forall_eq']
      rw [List.length_cons, below_length, height]

section Next

variable {last : CBlockIndex} {pprev : BlockChain}

/-- At a retarget height the walk back ends at an entry of the chain. -/
private theorem exists_first (checked : WorkChecked (last :: pprev))
    (retargets : (last.nHeight + 1) % nInterval = 0) :
    ∃ first rest, (last :: pprev).drop (blocksToGoBack last.nHeight) = first :: rest := by
  have length := length_of_workChecked checked last rfl
  have enough : blocksToGoBack last.nHeight < (last :: pprev).length := by
    have fix : coinFix1Block = 15000 := rfl
    have interval := nInterval_eq
    have history : nReTargetHistoryFact * nInterval = 2880 := rfl
    rw [length, blocksToGoBack, history]
    rw [interval] at retargets
    split
    · omega
    · split
      · omega
      · omega
  exact ⟨_, _, List.drop_eq_getElem_cons enough⟩

/-- Off the retarget heights the next block keeps `nBits`. -/
theorem getNextWorkRequired_keep (nTime : UInt32)
    (keeps : (last.nHeight + 1) % nInterval ≠ 0) :
    getNextWorkRequired false (last :: pprev) nTime = .ok last.nBits := by
  simp only [getNextWorkRequired]
  rw [if_pos keeps]
  rfl

/-- At a retarget height the target is scaled by the limited timespan and encoded. -/
theorem getNextWorkRequired_retarget (nTime : UInt32) (checked : WorkChecked (last :: pprev))
    (retargets : (last.nHeight + 1) % nInterval = 0) :
    ∃ first rest, (last :: pprev).drop (blocksToGoBack last.nHeight) = first :: rest ∧
      getNextWorkRequired false (last :: pprev) nTime =
        .ok (getCompact (retarget (setCompact last.nBits) (actualTimespan last first))) := by
  obtain ⟨first, rest, walked⟩ := exists_first checked retargets
  refine ⟨first, rest, walked, ?_⟩
  simp only [getNextWorkRequired, walked]
  rw [if_neg (not_not.mpr retargets)]
  rfl

end Next

/-- Encoding a target within the limit gives none below zero. -/
theorem setCompact_getCompact_nonneg {bn : Int} (mem : bn ∈ limitedTargets) :
    0 ≤ setCompact (getCompact bn) :=
  (getCompact_roundsDown.le_round_iff mem ⟨getCompact 0, setCompact_getCompact_zero⟩).mpr mem.1

/-- Every target of the chain is within the limit. -/
theorem WorkChecked.limited {chain : BlockChain} (checked : WorkChecked chain) :
    ∀ last ∈ chain.head?, setCompact last.nBits ∈ limitedTargets := by
  induction checked with
  | genesis _ positive limited =>
      simp only [List.head?_cons, Option.mem_def, Option.some.injEq, forall_eq']
      exact ⟨positive.le, limited⟩
  | @block pindex prev pprev below _ work induction =>
      have prev_limited := induction prev rfl
      simp only [List.head?_cons, Option.mem_def, Option.some.injEq, forall_eq']
      by_cases retargets : (prev.nHeight + 1) % nInterval = 0
      · obtain ⟨first, rest, _, next⟩ := getNextWorkRequired_retarget pindex.nTime below retargets
        obtain ⟨inside, _, _⟩ := retarget_range prev_limited
        rw [next] at work
        rw [← Except.ok.inj work]
        have rounded := getCompact_roundsDown.round_le inside
        exact ⟨setCompact_getCompact_nonneg inside, rounded.trans inside.2⟩
      · rw [getNextWorkRequired_keep pindex.nTime retargets] at work
        rwa [← Except.ok.inj work]

/-- On every chain that has passed the `nBits` checks the next `nBits` is defined; it is unchanged off
the retarget heights and at them at most a factor of four away, up to the precision of the encoding. -/
theorem nextWork_bounded {last : CBlockIndex} {pprev : BlockChain}
    (checked : WorkChecked (last :: pprev)) (nTime : UInt32) :
    ∃ nBits, getNextWorkRequired false (last :: pprev) nTime = .ok nBits ∧
      ((last.nHeight + 1) % nInterval ≠ 0 → nBits = last.nBits) ∧
      ((last.nHeight + 1) % nInterval = 0 →
        ((setCompact last.nBits / 4 : Int) : ℚ) * (1 - 1 / 2 ^ 15) ≤ setCompact nBits ∧
        setCompact nBits ≤ min (4 * setCompact last.nBits) bnProofOfWorkLimit) := by
  by_cases retargets : (last.nHeight + 1) % nInterval = 0
  · obtain ⟨first, rest, _, next⟩ := getNextWorkRequired_retarget nTime checked retargets
    refine ⟨_, next, fun keeps => absurd retargets keeps, fun _ => ?_⟩
    obtain ⟨inside, least, most⟩ := retarget_range (checked.limited last rfl)
    have rounded := getCompact_roundsDown.round_le inside
    have precise := getCompact_precise inside
    constructor
    · have kept : setCompact last.nBits / 4 * (2 ^ 15 - 1) ≤ setCompact (getCompact
          (retarget (setCompact last.nBits) (actualTimespan last first))) * 2 ^ 15 :=
        (mul_le_mul_of_nonneg_right least (by norm_num)).trans precise
      have kept_rat : ((setCompact last.nBits / 4 : Int) : ℚ) * (2 ^ 15 - 1) ≤ setCompact (getCompact
          (retarget (setCompact last.nBits) (actualTimespan last first))) * 2 ^ 15 := by
        exact_mod_cast kept
      linarith
    · have below : setCompact (getCompact (retarget (setCompact last.nBits)
          (actualTimespan last first))) ≤ setCompact last.nBits * 4 := rounded.trans most
      exact le_min (by rwa [mul_comm]) (rounded.trans inside.2)
  · exact ⟨last.nBits, getNextWorkRequired_keep nTime retargets, fun _ => rfl,
      fun off => absurd off retargets⟩

/-- An index entry of which only the height, the time and `nBits` matter. -/
def workEntry (nHeight : Nat) (nTime nBits : UInt32) : CBlockIndex where
  hashBlock := 0
  nFile := 0
  nBlockPos := 0
  nHeight := nHeight
  bnChainWork := 0
  nVersion := 1
  hashMerkleRoot := 0
  nTime := nTime
  nBits := nBits
  nNonce := 0

theorem nextWork_bounded_workEntry :
    ∃ nBits, getNextWorkRequired false [workEntry 0 0 0x1e0fffff] 120 = .ok nBits ∧
      ((0 + 1) % nInterval ≠ 0 → nBits = 0x1e0fffff) ∧
      ((0 + 1) % nInterval = 0 →
        ((setCompact 0x1e0fffff / 4 : Int) : ℚ) * (1 - 1 / 2 ^ 15) ≤ setCompact nBits ∧
        setCompact nBits ≤ min (4 * setCompact 0x1e0fffff) bnProofOfWorkLimit) :=
  nextWork_bounded
    (@WorkChecked.genesis (workEntry 0 0 0x1e0fffff) rfl (by decide) (by decide)) 120

end FooCoin

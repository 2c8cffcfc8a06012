import FooCoin.Ledger
import FooCoin.SampleRun

/-!
# No sum overflows

On an index whose entries are on disk, none of the 64-bit sums that `ConnectBlock` forms leaves its
range, whatever the block: input values are bounded by the size of the transaction, and the fees by
the number of transactions.
-/

namespace FooCoin

open Journal

/-- The call does not end in an overflow. -/
def NoOverflow {α : Type} (outcome : Outcome α) : Prop := outcome ≠ .error .overflow

section Outcome

variable {α β : Type}

theorem noOverflow_bind {first : Outcome α} {next : α → Outcome β} (own : NoOverflow first)
    (later : ∀ value, first = .ok value → NoOverflow (next value)) :
    NoOverflow (first >>= next) := by
  cases first with
  | error failure => simpa [NoOverflow, bind, Except.bind] using own
  | ok value => exact later value rfl

theorem noOverflow_ok (value : α) : NoOverflow (.ok value : Outcome α) := by simp [NoOverflow]

theorem noOverflow_require (condition : Prop) [Decidable condition] :
    NoOverflow (require condition) := by
  unfold NoOverflow require
  split <;> simp

theorem noOverflow_int64 {value : Int} (lower : int64Min ≤ value) (upper : value ≤ int64Max) :
    NoOverflow (int64 value) := by
  rw [int64_of_mem lower upper]
  exact noOverflow_ok value

theorem noOverflow_error {failure : Failure} (other : failure ≠ .overflow) :
    NoOverflow (.error failure : Outcome α) := by
  simpa [NoOverflow] using other

theorem noOverflow_forM {values : List α} {check : α → Outcome Unit}
    (each : ∀ value ∈ values, NoOverflow (check value)) : NoOverflow (forM values check) := by
  induction values with
  | nil => exact noOverflow_ok ()
  | cons head values induction =>
      rw [List.forM_cons]
      refine noOverflow_bind (each head List.mem_cons_self) fun _ _ => ?_
      exact induction fun value member => each value (List.mem_cons_of_mem head member)

end Outcome

/-! ## `CheckBlock` -/

private theorem noOverflow_checkValuesLoop {vout : List CTxOut} {nValueOut : Int}
    (range : MoneyRange nValueOut) : NoOverflow (checkValuesLoop nValueOut vout) := by
  induction vout generalizing nValueOut with
  | nil => exact noOverflow_ok ()
  | cons txout vout induction =>
      refine noOverflow_bind (noOverflow_require _) fun _ nonneg => ?_
      refine noOverflow_bind (noOverflow_require _) fun _ le_max => ?_
      rw [require_eq_ok] at nonneg le_max
      have upper := range.2
      have lower := range.1
      refine noOverflow_bind (noOverflow_int64 ?_ ?_) fun _ _ => ?_
      · simp only [int64Min]
        omega
      · simp only [int64Max, maxMoney_eq] at *
        omega
      · refine noOverflow_bind (noOverflow_require _) fun _ next_range => ?_
        exact induction (require_eq_ok.mp next_range)

theorem noOverflow_checkTransaction (tx : CTransaction) : NoOverflow tx.checkTransaction := by
  refine noOverflow_bind (noOverflow_require _) fun _ _ => ?_
  refine noOverflow_bind (noOverflow_require _) fun _ _ => ?_
  refine noOverflow_bind (noOverflow_require _) fun _ _ => ?_
  refine noOverflow_bind (noOverflow_checkValuesLoop (by decide)) fun _ _ => ?_
  refine noOverflow_bind (noOverflow_require _) fun _ _ => ?_
  split
  · exact noOverflow_require _
  · exact noOverflow_require _

theorem noOverflow_checkBlock (crypto : Crypto) (nAdjustedTime : Int) (block : CBlock) :
    NoOverflow (block.checkBlock crypto nAdjustedTime) := by
  refine noOverflow_bind (noOverflow_require _) fun _ _ => ?_
  refine noOverflow_bind (noOverflow_require _) fun _ _ => ?_
  refine noOverflow_bind (noOverflow_require _) fun _ _ => ?_
  refine noOverflow_bind (noOverflow_require _) fun _ _ => ?_
  refine noOverflow_bind (noOverflow_require _) fun _ _ => ?_
  refine noOverflow_bind (noOverflow_forM fun tx _ => noOverflow_checkTransaction tx) fun _ _ => ?_
  refine noOverflow_bind (noOverflow_require _) fun _ _ => ?_
  refine noOverflow_bind (noOverflow_require _) fun _ _ => ?_
  exact noOverflow_require _

/-! ## Inputs -/

/-- All fetched transactions are checked ones. -/
def AllChecked (inputs : MapPrevTx) : Prop :=
  ∀ hash prev, inputs hash = some prev → prev.2.Checked

private theorem getOutputFor_range {inputs : MapPrevTx} (checked : AllChecked inputs)
    {txin : CTxIn} {txout : CTxOut} (read : getOutputFor txin inputs = .ok txout) :
    MoneyRange txout.nValue.toInt := by
  unfold getOutputFor at read
  cases found : inputs txin.prevout.hash with
  | none => simp [found] at read
  | some prev =>
      cases output : prev.2.vout[txin.prevout.n.toNat]? with
      | none => simp [found, output] at read
      | some other =>
          simp only [found, output, Except.ok.injEq] at read
          subst read
          exact (checked _ _ found).moneyRange other (List.mem_of_getElem? output)

private theorem noOverflow_getOutputFor (txin : CTxIn) (inputs : MapPrevTx) :
    NoOverflow (getOutputFor txin inputs) := by
  unfold getOutputFor
  split
  · exact noOverflow_error (by decide)
  · split
    · exact noOverflow_error (by decide)
    · exact noOverflow_ok _

/-- Input values are summed without overflow while there are few enough of them. -/
private theorem noOverflow_valueInLoop {inputs : MapPrevTx} (checked : AllChecked inputs)
    {vin : List CTxIn} {start : Int} (nonneg : 0 ≤ start)
    (room : start + vin.length * maxMoney ≤ int64Max) :
    NoOverflow (valueInLoop inputs start vin) ∧
      ∀ total, valueInLoop inputs start vin = .ok total →
        0 ≤ total ∧ total ≤ start + vin.length * maxMoney := by
  induction vin generalizing start with
  | nil =>
      refine ⟨noOverflow_ok start, fun total summed => ?_⟩
      cases summed
      simpa using nonneg
  | cons txin vin induction =>
      simp only [List.length_cons, Nat.cast_add, Nat.cast_one, add_mul, one_mul] at room ⊢
      have length_nonneg : 0 ≤ (vin.length : Int) * maxMoney :=
        mul_nonneg (Int.natCast_nonneg _) (by decide)
      constructor
      · refine noOverflow_bind (noOverflow_getOutputFor txin inputs) fun txout read => ?_
        have range := getOutputFor_range checked read
        have lower := range.1
        have upper := range.2
        refine noOverflow_bind (noOverflow_int64 ?_ (by omega)) fun next summed => ?_
        · simp only [int64Min]
          omega
        · rw [int64_eq_ok] at summed
          exact (induction (by omega) (by omega)).1
      · intro total summed
        simp only [valueInLoop, except_bind_eq_ok, int64_eq_ok] at summed
        obtain ⟨txout, read, next, ⟨_, sum⟩, later⟩ := summed
        have range := getOutputFor_range checked read
        have lower := range.1
        have upper := range.2
        have bounds := (induction (by omega) (by omega)).2 total later
        omega

private theorem noOverflow_checkInputsLoop {inputs : MapPrevTx} (checked : AllChecked inputs)
    {pindexBlock : BlockChain} {vin : List CTxIn} {start : Int} (range : MoneyRange start) :
    NoOverflow (checkInputsLoop inputs pindexBlock start vin) := by
  induction vin generalizing start with
  | nil => exact noOverflow_ok start
  | cons txin vin induction =>
      simp only [checkInputsLoop]
      split
      · exact noOverflow_error (by decide)
      · rename_i prev found
        split
        · exact noOverflow_error (by decide)
        · rename_i txout output
          have value := (checked _ _ found).moneyRange txout (List.mem_of_getElem? output)
          have lower := value.1
          have upper := value.2
          have start_lower := range.1
          have start_upper := range.2
          refine noOverflow_bind (noOverflow_require _) fun _ _ => ?_
          refine noOverflow_bind (noOverflow_require _) fun _ _ => ?_
          refine noOverflow_bind (noOverflow_int64 ?_ ?_) fun _ _ => ?_
          · simp only [int64Min]
            omega
          · simp only [int64Max, maxMoney_eq] at *
            omega
          · refine noOverflow_bind (noOverflow_require _) fun _ in_range => ?_
            exact induction (require_eq_ok.mp in_range).2

private theorem noOverflow_verifySignature (crypto : Crypto) (txFrom txTo : CTransaction)
    (nIn : Nat) (fStrict : Bool) (nHashType : Int32) :
    NoOverflow (verifySignature crypto txFrom txTo nIn fStrict nHashType) := by
  unfold verifySignature
  split
  · exact noOverflow_error (by decide)
  · split
    · exact noOverflow_error (by decide)
    · exact noOverflow_bind (noOverflow_require _) fun _ _ => noOverflow_require _

private theorem noOverflow_spendLoop {env : Env} {nBestHeight : Int} {mode : ConnectMode}
    {posThisTx : CDiskTxPos} {tx : CTransaction} {i : Nat} {vin : List CTxIn}
    {inputs : MapPrevTx} {mapTestPool : TxIndexMap} :
    NoOverflow (spendLoop env nBestHeight mode posThisTx tx i vin inputs mapTestPool) := by
  induction vin generalizing i inputs mapTestPool with
  | nil => exact noOverflow_ok mapTestPool
  | cons txin vin induction =>
      simp only [spendLoop]
      split
      · exact noOverflow_error (by decide)
      · refine noOverflow_bind (noOverflow_require _) fun _ _ => ?_
        refine noOverflow_bind ?_ fun _ _ => induction
        unfold checkSignature
        split
        · exact noOverflow_ok ()
        · exact noOverflow_verifySignature _ _ _ _ _ _

private theorem noOverflow_connectInputs {env : Env} {nBestHeight : Int} {inputs : MapPrevTx}
    (checked : AllChecked inputs) {mapTestPool : TxIndexMap} {posThisTx : CDiskTxPos}
    {pindexBlock : BlockChain} {mode : ConnectMode} {tx : CTransaction} (tx_checked : tx.Checked) :
    NoOverflow (tx.connectInputs env nBestHeight inputs mapTestPool posThisTx pindexBlock mode) := by
  unfold CTransaction.connectInputs
  split
  · exact noOverflow_ok mapTestPool
  · refine noOverflow_bind (noOverflow_checkInputsLoop checked (by decide)) fun nValueIn summed => ?_
    refine noOverflow_bind noOverflow_spendLoop fun _ _ => ?_
    rw [tx_checked.getValueOut_eq]
    refine noOverflow_bind (noOverflow_ok _) fun nValueOut valueOut => ?_
    cases valueOut
    refine noOverflow_bind (noOverflow_require _) fun _ _ => ?_
    have out_range := tx_checked.valueSum_range
    have in_range := (checkInputsLoop_ok (by decide) summed).1
    refine noOverflow_bind (noOverflow_int64 ?_ ?_) fun _ _ => ?_
    · have := out_range.2
      have := in_range.1
      simp only [int64Min, maxMoney_eq] at *
      omega
    · have := out_range.1
      have := in_range.2
      simp only [int64Max, maxMoney_eq] at *
      omega
    · exact noOverflow_bind (noOverflow_require _) fun _ _ => noOverflow_ok _

/-! ## `ConnectBlock` -/

variable {env : Env} (context : CallContext) {txdb : TxIndexMap} {pindex : CBlockIndex}
  (pprev : BlockChain)

private theorem fetchBlockInputs_checked {context : CallContext} {mapQueuedChanges : TxIndexMap} {tx : CTransaction}
    {inputs : MapPrevTx} (onDisk : OnDisk env (overlay mapQueuedChanges txdb))
    (fetched : fetchBlockInputs env context txdb mapQueuedChanges tx = .ok inputs) :
    AllChecked inputs :=
  fun hash prev found => ((fetchBlockInputs_ok fetched hash prev found).onDisk onDisk).checked

private theorem noOverflow_fetchBlockInputs {mapQueuedChanges : TxIndexMap} {tx : CTransaction} :
    NoOverflow (fetchBlockInputs env context txdb mapQueuedChanges tx) := by
  unfold fetchBlockInputs
  split
  · exact noOverflow_error (by decide)
  · exact noOverflow_ok _

private theorem noOverflow_p2shSigOpLoop {inputs : MapPrevTx} {vin : List CTxIn} :
    NoOverflow (p2shSigOpLoop inputs vin) := by
  induction vin with
  | nil => exact noOverflow_ok 0
  | cons txin vin induction =>
      refine noOverflow_bind (noOverflow_getOutputFor txin inputs) fun _ _ => ?_
      exact noOverflow_bind induction fun _ _ => noOverflow_ok _

private theorem noOverflow_addP2SHSigOps {inputs : MapPrevTx} {nSigOps : Nat} {tx : CTransaction} :
    NoOverflow (addP2SHSigOps pindex inputs nSigOps tx) := by
  unfold addP2SHSigOps
  split
  · refine noOverflow_bind ?_ fun _ _ => ?_
    · unfold CTransaction.getP2SHSigOpCount
      split
      · exact noOverflow_ok 0
      · exact noOverflow_p2shSigOpLoop
    · exact noOverflow_bind (noOverflow_require _) fun _ _ => noOverflow_ok _
  · exact noOverflow_ok nSigOps

/-- The input values of a checked transaction are summed without overflow. -/
private theorem noOverflow_getValueIn {inputs : MapPrevTx} (checked : AllChecked inputs)
    {tx : CTransaction} (tx_checked : tx.Checked) :
    NoOverflow (tx.getValueIn inputs) ∧ ∀ nValueIn, tx.getValueIn inputs = .ok nValueIn →
      0 ≤ nValueIn ∧ nValueIn ≤ maxBlockSize * maxMoney := by
  have inputs_le : tx.vin.length * maxMoney ≤ maxBlockSize * maxMoney := by
    have length := tx.mul_vin_le_size
    have size := tx_checked.size_le
    exact mul_le_mul_of_nonneg_right (by omega) (by decide)
  have room : (maxBlockSize : Int) * maxMoney ≤ int64Max := by decide
  have loop_room : 0 + (tx.vin.length : Int) * maxMoney ≤ int64Max := by omega
  obtain ⟨safe, bounds⟩ := noOverflow_valueInLoop checked le_rfl loop_room
  unfold CTransaction.getValueIn
  split
  · refine ⟨noOverflow_ok 0, fun nValueIn summed => ?_⟩
    cases summed
    decide
  · refine ⟨safe, fun nValueIn summed => ?_⟩
    have := bounds nValueIn summed
    omega

private theorem noOverflow_connectOrdinary {posThisTx : CDiskTxPos} {state : ConnectState}
    {tx : CTransaction} (onDisk : OnDisk env (overlay state.mapQueuedChanges txdb))
    (tx_checked : tx.Checked) (nonneg : 0 ≤ state.nFees)
    (room : state.nFees ≤ maxBlockSize * maxMoney) :
    NoOverflow (connectOrdinary env context txdb pindex pprev posThisTx state tx) := by
  have limit : (maxBlockSize : Int) * maxMoney = 1000000000000000000 := by decide
  refine noOverflow_bind (noOverflow_fetchBlockInputs context) fun inputs fetched => ?_
  have checked := fetchBlockInputs_checked onDisk fetched
  refine noOverflow_bind noOverflow_addP2SHSigOps fun _ _ => ?_
  obtain ⟨safe, bounds⟩ := noOverflow_getValueIn checked tx_checked
  refine noOverflow_bind safe fun nValueIn valueIn => ?_
  rw [tx_checked.getValueOut_eq]
  refine noOverflow_bind (noOverflow_ok _) fun nValueOut valueOut => ?_
  cases valueOut
  have in_bounds := bounds nValueIn valueIn
  have out_lower := tx_checked.valueSum_range.1
  have out_upper := tx_checked.valueSum_range.2
  rw [maxMoney_eq] at out_upper
  refine noOverflow_bind (noOverflow_int64 ?_ ?_) fun nTxFee fee => ?_
  · simp only [int64Min]
    omega
  · simp only [int64Max]
    omega
  · rw [int64_eq_ok] at fee
    refine noOverflow_bind (noOverflow_int64 ?_ ?_) fun _ _ => ?_
    · simp only [int64Min]
      omega
    · simp only [int64Max]
      omega
    · refine noOverflow_bind (noOverflow_connectInputs checked tx_checked) fun _ _ => ?_
      exact noOverflow_ok _

private theorem noOverflow_connectTransaction {state : ConnectState} {tx : CTransaction}
    (onDisk : OnDisk env (overlay state.mapQueuedChanges txdb)) (tx_checked : tx.Checked)
    (nonneg : 0 ≤ state.nFees) (room : state.nFees ≤ maxBlockSize * maxMoney) :
    NoOverflow (connectTransaction env context txdb pindex pprev state tx) := by
  refine noOverflow_bind (noOverflow_require _) fun _ _ => ?_
  refine noOverflow_bind (noOverflow_require _) fun _ _ => ?_
  refine noOverflow_bind ?_ fun _ _ => noOverflow_ok _
  split
  · exact noOverflow_ok _
  · exact noOverflow_connectOrdinary context pprev onDisk tx_checked nonneg room

/-- The fee of a checked transaction is in range. -/
theorem TransactionConnected.fee_range {mempool : MapTx} {pos : CDiskTxPos} {tx : CTransaction}
    {before after : TxIndexMap} {nTxFee : Int}
    (connected : TransactionConnected env mempool pos tx before after nTxFee)
    (tx_checked : tx.Checked) : MoneyRange nTxFee := by
  by_cases coinBase : tx.isCoinBase
  · rw [connected.coinBase coinBase]
    decide
  · obtain ⟨inputs, nValueIn, nValueOut, _, _, valueOut, range, enough, rfl⟩ :=
      connected.ordinary coinBase
    rw [tx_checked.getValueOut_eq, Except.ok.injEq] at valueOut
    have out_lower := tx_checked.valueSum_range.1
    have in_upper := range.2
    exact ⟨by omega, by omega⟩

/-- The loop of `ConnectBlock` keeps the fees within one `MAX_MONEY` a transaction. -/
private theorem noOverflow_connectTransactions {vtx : List CTransaction} {state : ConnectState}
    (placed : AllPlaced env pindex state.nTxPos vtx)
    (onDisk : OnDisk env (overlay state.mapQueuedChanges txdb)) (nonneg : 0 ≤ state.nFees)
    (room : state.nFees + vtx.length * maxMoney ≤ maxBlockSize * maxMoney) :
    NoOverflow (connectTransactions env context txdb pindex pprev vtx state) ∧
      ∀ after, connectTransactions env context txdb pindex pprev vtx state = .ok after →
        0 ≤ after.nFees ∧ after.nFees ≤ maxBlockSize * maxMoney := by
  induction vtx generalizing state with
  | nil =>
      refine ⟨noOverflow_ok state, fun after done => ?_⟩
      cases done
      exact ⟨nonneg, by simpa using room⟩
  | cons tx vtx induction =>
      simp only [List.length_cons, Nat.cast_add, Nat.cast_one, add_mul, one_mul] at room
      have length_nonneg : 0 ≤ (vtx.length : Int) * maxMoney :=
        mul_nonneg (Int.natCast_nonneg _) (by decide)
      have max_nonneg : 0 ≤ maxMoney := by decide
      have tx_checked := placed.1.checked
      have later : ∀ middle, connectTransaction env context txdb pindex pprev state tx = .ok middle →
          NoOverflow (connectTransactions env context txdb pindex pprev vtx middle) ∧
            ∀ after, connectTransactions env context txdb pindex pprev vtx middle = .ok after →
              0 ≤ after.nFees ∧ after.nFees ≤ maxBlockSize * maxMoney := by
        intro middle body
        obtain ⟨nTxFee, connected, fees, nTxPos⟩ := connectTransaction_ok body
        have fee_lower := (connected.fee_range tx_checked).1
        have fee_upper := (connected.fee_range tx_checked).2
        exact induction (nTxPos ▸ placed.2) (connected.onDisk placed.1 onDisk) (by omega)
          (by omega)
      constructor
      · refine noOverflow_bind ?_ fun middle body => (later middle body).1
        exact noOverflow_connectTransaction context pprev onDisk tx_checked nonneg (by omega)
      · intro after done
        simp only [connectTransactions, except_bind_eq_ok] at done
        obtain ⟨middle, body, rest⟩ := done
        exact (later middle body).2 after rest

/-- No sum of `ConnectBlock` overflows on an index whose entries are on disk. -/
theorem noOverflow_connectBlock {block : CBlock} {txdb : CTxDB}
    (stored : env.Stored pindex.nFile pindex.nBlockPos block) (onDisk : OnDisk env txdb.txindex) :
    NoOverflow (block.connectBlock env context pindex pprev txdb) := by
  refine noOverflow_bind (noOverflow_checkBlock _ _ _) fun _ accepted => ?_
  have checked := CBlock.checked_of_checkBlock accepted
  have limit : (maxBlockSize : Int) * maxMoney = 1000000000000000000 := by decide
  have start : pindex.nBlockPos + block.vtxOffset =
      pindex.nBlockPos + 81 - 1 + (writeCompactSize block.vtx.length).length := by
    simp only [CBlock.vtxOffset]
    omega
  have room : 0 + (block.vtx.length : Int) * maxMoney ≤ maxBlockSize * maxMoney := by
    rw [zero_add]
    exact mul_le_mul_of_nonneg_right (by exact_mod_cast checked.length_le) (by decide)
  have placed := allPlaced_of_stored stored checked
  rw [start] at placed
  have loop := @noOverflow_connectTransactions env context txdb.txindex pindex pprev block.vtx
    { mapQueuedChanges := fun _ => none
      nFees := 0
      nSigOps := 0
      nTxPos := pindex.nBlockPos + 81 - 1 + (writeCompactSize block.vtx.length).length }
    placed onDisk le_rfl room
  refine noOverflow_bind loop.1 fun state done => ?_
  have fees := loop.2 state done
  refine noOverflow_bind ?_ fun _ _ => ?_
  · cases vtx : block.vtx with
    | nil => exact noOverflow_error (by decide)
    | cons coinBase rest =>
        have coinBase_checked := checked.transaction coinBase (by simp [vtx])
        simp only [coinBase_checked.getValueOut_eq]
        exact noOverflow_ok _
  · refine noOverflow_bind (noOverflow_int64 ?_ ?_) fun _ _ => ?_
    · simp only [int64Min, coin]
      omega
    · simp only [int64Max, coin]
      omega
    · exact noOverflow_bind (noOverflow_require _) fun _ _ => noOverflow_ok _

/-! ## Runs -/

/-- In every run the unspent outputs are worth at most one coin for each connected block, and
connecting the next block overflows nowhere, whether it succeeds or fails. -/
theorem ledger_conserved {base : BlockChain} {blockindex : UInt256 → Option CDiskBlockIndex}
    {hashBestChain : Option UInt256} {journal : List ChainBlock} {txdb : CTxDB}
    (run : Run (chainMachine env base) (emptyIndex blockindex hashBestChain) journal txdb) :
    totalUnspent env txdb.txindex ≤ journal.length * coin ∧
      ∀ context next, Extends env base journal next →
        NoOverflow (next.block.connectBlock env context next.pindex (chainOf base journal) txdb) :=
  ⟨totalUnspent_le_of_run run, fun context _ extends_tip =>
    noOverflow_connectBlock context _ extends_tip.stored (onDisk_of_run run)⟩

/-- A coinbase that claims the subsidy. -/
def conservedTransactions (_ : Nat) : List CTransaction := [sampleCoinBase 1 [100000000]]

theorem ledger_conserved_sampleJournal :
    ∃ txdb, Run (chainMachine (sampleFiles conservedTransactions) []) sampleStart
        (sampleJournal conservedTransactions 1) txdb ∧
      totalUnspent (sampleFiles conservedTransactions) txdb.txindex ≤
        (sampleJournal conservedTransactions 1).length * coin ∧
      ∀ context next, Extends (sampleFiles conservedTransactions) []
          (sampleJournal conservedTransactions 1) next →
        NoOverflow (next.block.connectBlock (sampleFiles conservedTransactions) context next.pindex
          (chainOf [] (sampleJournal conservedTransactions 1)) txdb) := by
  obtain ⟨txdb, connected⟩ :=
    exists_of_isOk (show (sampleConnect conservedTransactions 1).isOk = true by decide +kernel)
  have run := sampleConnect_run (by decide) connected fun _ _ _ _ applied => applied
  exact ⟨txdb, run, ledger_conserved run⟩

end FooCoin

import FooCoin.ChainRun
import FooCoin.Library.KeyedTotal

/-!
# Conservation of value

The total of the unspent outputs in the transaction index.  Connecting a transaction other than the
coinbase takes its fee out of the total, the coinbase adds at most the subsidy and the fees, and
disconnecting does not add anything.
-/

namespace FooCoin

open Function Journal KeyedTotal

variable {env : Env} {mempool : MapTx}

noncomputable instance : Fintype UInt256 :=
  .ofEquiv (Fin (2 ^ 256)) ⟨BitVec.ofFin, BitVec.toFin, fun _ => rfl, fun _ => rfl⟩

/-- The value of the outputs whose slot is null. -/
def unspentIn (vout : List CTxOut) (vSpent : List CDiskTxPos) : Int :=
  ((vout.zip vSpent).map fun output =>
    if output.2 = .null then output.1.nValue.toInt else 0).sum

/-- The value of the unspent outputs of an entry, as the transaction on disk has them. -/
def unspentValue (env : Env) (txindex : CTxIndex) : Int :=
  match env.readTxAt txindex.pos with
  | none => 0
  | some tx => unspentIn tx.vout txindex.vSpent

/-- The value of all unspent outputs in the index. -/
noncomputable def totalUnspent (env : Env) (view : TxIndexMap) : Int :=
  total (unspentValue env) view

/-! ## Unspent value of one transaction -/

private theorem unspentIn_set {vout : List CTxOut} {vSpent : List CDiskTxPos} {n : Nat}
    {txout : CTxOut} {pos : CDiskTxPos} (output : vout[n]? = some txout)
    (free : vSpent[n]? = some .null) (real : pos ≠ .null) :
    unspentIn vout (vSpent.set n pos) = unspentIn vout vSpent - txout.nValue.toInt := by
  induction vout generalizing vSpent n with
  | nil => simp at output
  | cons first vout induction =>
      cases vSpent with
      | nil => simp at free
      | cons head vSpent =>
          cases n with
          | zero =>
              simp only [List.getElem?_cons_zero, Option.some.injEq] at output free
              subst output free
              simp [unspentIn, real]
          | succ n =>
              simp only [List.getElem?_cons_succ] at output free
              have later := induction output free
              simp only [unspentIn] at later
              simp only [unspentIn, List.set_cons_succ, List.zip_cons_cons, List.map_cons,
                List.sum_cons, later]
              ring

private theorem unspentIn_replicate (vout : List CTxOut) :
    unspentIn vout (List.replicate vout.length .null) =
      (vout.map fun txout => txout.nValue.toInt).sum := by
  induction vout with
  | nil => rfl
  | cons txout vout induction =>
      simp only [unspentIn] at induction
      simp [unspentIn, List.replicate_succ, induction]

private theorem unspentIn_le {vout : List CTxOut} {low high : List CDiskTxPos}
    (moneyRange : ∀ txout ∈ vout, MoneyRange txout.nValue.toInt)
    (same_length : low.length = high.length)
    (slots : ∀ n : Nat, low[n]? = some .null → high[n]? = some .null) :
    unspentIn vout low ≤ unspentIn vout high := by
  induction vout generalizing low high with
  | nil => rfl
  | cons txout vout induction =>
      cases low with
      | nil =>
          cases high with
          | nil => rfl
          | cons _ _ => simp at same_length
      | cons lowHead low =>
          cases high with
          | nil => simp at same_length
          | cons highHead high =>
              have value := (moneyRange txout List.mem_cons_self).1
              have later := induction
                (fun next member => moneyRange next (List.mem_cons_of_mem txout member))
                (Nat.succ.inj same_length) fun n unspent => slots (n + 1) unspent
              have first := slots 0
              simp only [List.getElem?_cons_zero, Option.some.injEq] at first
              simp only [unspentIn] at later
              simp only [unspentIn, List.zip_cons_cons, List.map_cons, List.sum_cons]
              split <;> split <;> simp_all
              omega

private theorem unspentIn_nonneg {vout : List CTxOut} (vSpent : List CDiskTxPos)
    (moneyRange : ∀ txout ∈ vout, MoneyRange txout.nValue.toInt) : 0 ≤ unspentIn vout vSpent := by
  apply List.sum_nonneg
  simp only [List.mem_map]
  rintro _ ⟨output, member, rfl⟩
  have value := (moneyRange output.1 (List.of_mem_zip member).1).1
  split
  · exact value
  · exact le_rfl

/-! ## Entries on disk -/

/-- The entry points to a checked transaction with as many outputs as it has slots. -/
structure EntryOnDisk (env : Env) (txindex : CTxIndex) (tx : CTransaction) : Prop where
  position : ∃ nFile nBlockPos nTxPos, txindex.pos = .mk nFile nBlockPos nTxPos ∧ 8 ≤ nBlockPos
  read : env.readTxAt txindex.pos = some tx
  checked : tx.Checked
  length : tx.vout.length = txindex.vSpent.length

/-- Every entry of the index is on disk. -/
def OnDisk (env : Env) (view : TxIndexMap) : Prop :=
  ∀ hash txindex, view hash = some txindex → ∃ tx, EntryOnDisk env txindex tx

theorem EntryOnDisk.unspentValue_eq {txindex : CTxIndex} {tx : CTransaction}
    (onDisk : EntryOnDisk env txindex tx) :
    unspentValue env txindex = unspentIn tx.vout txindex.vSpent := by
  simp [unspentValue, onDisk.read]

theorem EntryOnDisk.pos_ne_pool {txindex : CTxIndex} {tx : CTransaction}
    (onDisk : EntryOnDisk env txindex tx) : txindex.pos ≠ .pool := by
  obtain ⟨nFile, nBlockPos, nTxPos, position, header⟩ := onDisk.position
  rw [position]
  intro pool
  cases pool
  omega

/-- Marking keeps an entry on disk. -/
theorem EntryOnDisk.mark {txindex : CTxIndex} {tx : CTransaction}
    (onDisk : EntryOnDisk env txindex tx) (marked : Nat → Prop) [DecidablePred marked]
    (pos : CDiskTxPos) : EntryOnDisk env (txindex.mark marked pos) tx :=
  ⟨onDisk.position, onDisk.read, onDisk.checked, by simpa using onDisk.length⟩

theorem OnDisk.markSpent {view : TxIndexMap} (onDisk : OnDisk env view)
    (prevouts : List COutPoint) (pos : CDiskTxPos) :
    OnDisk env (markSpent view prevouts pos) := by
  intro hash txindex present
  obtain ⟨entry, original, rfl⟩ := Option.map_eq_some_iff.mp present
  obtain ⟨tx, entryOnDisk⟩ := onDisk hash entry original
  exact ⟨tx, entryOnDisk.mark _ _⟩

theorem OnDisk.of_below {low high : TxIndexMap} (below : Below low high)
    (onDisk : OnDisk env high) : OnDisk env low := by
  intro hash entry present
  obtain ⟨above, present', pos, length, _⟩ := below hash entry present
  obtain ⟨tx, entryOnDisk⟩ := onDisk hash above present'
  exact ⟨tx, pos ▸ entryOnDisk.position, pos ▸ entryOnDisk.read, entryOnDisk.checked,
    entryOnDisk.length.trans length.symm⟩

/-- A transaction fetched from an index on disk is the one that its entry points to. -/
theorem Fetched.onDisk {view : TxIndexMap} {hash : UInt256} {prev : CTxIndex × CTransaction}
    (fetched : Fetched env mempool view hash prev) (onDisk : OnDisk env view) :
    EntryOnDisk env prev.1 prev.2 := by
  obtain ⟨tx, entryOnDisk⟩ := onDisk hash prev.1 fetched.entry
  have same := fetched.transaction
  rw [if_neg entryOnDisk.pos_ne_pool, entryOnDisk.read] at same
  cases same
  exact entryOnDisk

private theorem weightOf_nonneg {view : TxIndexMap} (onDisk : OnDisk env view) (hash : UInt256) :
    0 ≤ weightOf (unspentValue env) (view hash) := by
  cases present : view hash with
  | none => rfl
  | some txindex =>
      obtain ⟨tx, entryOnDisk⟩ := onDisk hash txindex present
      rw [weightOf_some, entryOnDisk.unspentValue_eq]
      exact unspentIn_nonneg _ entryOnDisk.checked.moneyRange

/-- An index below another one has no more unspent value. -/
theorem totalUnspent_le_of_below {low high : TxIndexMap} (onDisk : OnDisk env high)
    (below : Below low high) : totalUnspent env low ≤ totalUnspent env high := by
  apply total_le_total
  intro hash
  cases present : low hash with
  | none => exact weightOf_nonneg onDisk hash
  | some entry =>
      obtain ⟨above, present', pos, length, slots⟩ := below hash entry present
      obtain ⟨tx, entryOnDisk⟩ := onDisk hash above present'
      have lowOnDisk : EntryOnDisk env entry tx :=
        ⟨pos ▸ entryOnDisk.position, pos ▸ entryOnDisk.read, entryOnDisk.checked,
          entryOnDisk.length.trans length.symm⟩
      rw [present', weightOf_some, weightOf_some, lowOnDisk.unspentValue_eq,
        entryOnDisk.unspentValue_eq]
      exact unspentIn_le entryOnDisk.checked.moneyRange length slots

/-! ## One transaction -/

/-- The outpoint names an unspent output of this value. -/
def Spendable (env : Env) (view : TxIndexMap) (value : COutPoint → Int) (prevout : COutPoint) :
    Prop :=
  ∃ txindex tx txout, view prevout.hash = some txindex ∧ EntryOnDisk env txindex tx ∧
    tx.vout[prevout.n.toNat]? = some txout ∧ txindex.vSpent[prevout.n.toNat]? = some .null ∧
    value prevout = txout.nValue.toInt

private theorem Spendable.markSpent {view : TxIndexMap} {value : COutPoint → Int}
    {prevout : COutPoint} (spendable : Spendable env view value prevout)
    {prevouts : List COutPoint} (other : prevout ∉ prevouts) (pos : CDiskTxPos) :
    Spendable env (markSpent view prevouts pos) value prevout := by
  obtain ⟨txindex, tx, txout, present, onDisk, output, free, same⟩ := spendable
  refine ⟨txindex.mark (Names prevouts prevout.hash) pos, tx, txout, ?_, onDisk.mark _ _, output,
    ?_, same⟩
  · simp [FooCoin.markSpent, present]
  · simp [free, names_self_iff, other]

private theorem totalUnspent_markSpent_singleton {view : TxIndexMap} {value : COutPoint → Int}
    {prevout : COutPoint} {pos : CDiskTxPos} (real : pos ≠ .null)
    (spendable : Spendable env view value prevout) :
    totalUnspent env (markSpent view [prevout] pos) = totalUnspent env view - value prevout := by
  obtain ⟨txindex, tx, txout, present, onDisk, output, free, same⟩ := spendable
  have spent : unspentValue env (txindex.setSpent prevout.n.toNat pos) =
      unspentValue env txindex - txout.nValue.toInt := by
    have read : env.readTxAt (txindex.setSpent prevout.n.toNat pos).pos = some tx := onDisk.read
    simp only [unspentValue, read, onDisk.read]
    exact unspentIn_set output free real
  rw [← update_eq_markSpent present, totalUnspent, total_update, present, weightOf_some,
    weightOf_some, spent, same, totalUnspent]
  ring

/-- Spending takes the values of the spent outputs out of the total. -/
theorem totalUnspent_markSpent {view : TxIndexMap} {value : COutPoint → Int}
    {prevouts : List COutPoint} {pos : CDiskTxPos} (real : pos ≠ .null) (nodup : prevouts.Nodup)
    (spendable : ∀ prevout ∈ prevouts, Spendable env view value prevout) :
    totalUnspent env (markSpent view prevouts pos) =
      totalUnspent env view - (prevouts.map value).sum := by
  induction prevouts generalizing view with
  | nil => simp
  | cons prevout prevouts induction =>
      rw [List.nodup_cons] at nodup
      rw [List.forall_mem_cons] at spendable
      have others : ∀ other ∈ prevouts,
          Spendable env (markSpent view [prevout] pos) value other := by
        intro other member
        have different : other ∉ [prevout] := by
          rw [List.mem_singleton]
          rintro rfl
          exact nodup.1 member
        exact (spendable.2 other member).markSpent different pos
      have append := markSpent_append view [prevout] prevouts pos
      rw [List.singleton_append] at append
      rw [← append, induction nodup.2 others,
        totalUnspent_markSpent_singleton real spendable.1, List.map_cons, List.sum_cons]
      ring

/-- Entering a transaction adds at most its outputs. -/
private theorem totalUnspent_enter_le {view : TxIndexMap} (onDisk : OnDisk env view)
    (hash : UInt256) {pos : CDiskTxPos} {tx : CTransaction} (read : env.readTxAt pos = some tx) :
    totalUnspent env (update view hash (some (.ofOutputs pos tx.vout.length))) ≤
      totalUnspent env view + tx.valueSum := by
  have entered : unspentValue env (.ofOutputs pos tx.vout.length) = tx.valueSum := by
    simp only [unspentValue, CTxIndex.ofOutputs, read, unspentIn_replicate]
    rfl
  have old := weightOf_nonneg onDisk hash
  rw [totalUnspent, total_update, weightOf_some, entered, totalUnspent]
  omega

/-- The transaction at a position is the one that is connected there. -/
structure Placed (env : Env) (pos : CDiskTxPos) (tx : CTransaction) : Prop where
  position : ∃ nFile nBlockPos nTxPos, pos = .mk nFile nBlockPos nTxPos ∧ 8 ≤ nBlockPos
  read : env.readTxAt pos = some tx
  checked : tx.Checked

/-- A connected transaction keeps the index on disk. -/
theorem TransactionConnected.onDisk {pos : CDiskTxPos} {tx : CTransaction}
    {before after : TxIndexMap} {nTxFee : Int}
    (connected : TransactionConnected env mempool pos tx before after nTxFee)
    (placed : Placed env pos tx) (onDisk : OnDisk env before) : OnDisk env after := by
  rw [connected.effect]
  intro hash txindex present
  by_cases same : hash = tx.getHash env.crypto
  · subst same
    rw [update_self, Option.some.injEq] at present
    subst present
    exact ⟨tx, placed.position, placed.read, placed.checked, by simp [CTxIndex.ofOutputs]⟩
  · rw [update_of_ne same] at present
    exact onDisk.markSpent tx.spends pos hash txindex present

/-- What a connected transaction adds to the total: the coinbase its outputs, any other one
nothing but a loss of its fee. -/
theorem TransactionConnected.totalUnspent_le {pos : CDiskTxPos} {tx : CTransaction}
    {before after : TxIndexMap} {nTxFee : Int}
    (connected : TransactionConnected env mempool pos tx before after nTxFee)
    (placed : Placed env pos tx) (onDisk : OnDisk env before) :
    totalUnspent env after ≤
      totalUnspent env before + (if tx.isCoinBase then tx.valueSum else 0) - nTxFee := by
  have entered := totalUnspent_enter_le (onDisk.markSpent tx.spends pos) (tx.getHash env.crypto)
    placed.read
  rw [← connected.effect] at entered
  by_cases coinBase : tx.isCoinBase
  · have no_fee := connected.coinBase coinBase
    have none_spent : tx.spends = [] := by simp [CTransaction.spends, coinBase]
    rw [none_spent, markSpent_nil] at entered
    simp only [coinBase, if_true]
    omega
  · obtain ⟨inputs, nValueIn, nValueOut, fetched, valueIn, valueOut, _, _, fee⟩ :=
      connected.ordinary coinBase
    have spends : tx.spends = tx.vin.map CTxIn.prevout := by simp [CTransaction.spends, coinBase]
    simp only [CTransaction.getValueIn, coinBase, Bool.false_eq_true, if_false] at valueIn
    obtain ⟨outputs, sum⟩ := valueInLoop_ok valueIn
    rw [← spends] at outputs sum
    have spendable : ∀ prevout ∈ tx.spends,
        Spendable env before (inputValue inputs) prevout := by
      intro prevout member
      obtain ⟨prev, txout, found, output, value⟩ := outputs prevout member
      have prevFetched := fetched _ _ found
      have free := connected.free prevout member
      simp only [slot, prevFetched.entry, Option.bind_some] at free
      exact ⟨prev.1, prev.2, txout, prevFetched.entry, prevFetched.onDisk onDisk, output, free,
        value⟩
    rw [totalUnspent_markSpent connected.real connected.nodup spendable] at entered
    have out_sum := placed.checked.getValueOut_eq
    rw [valueOut, Except.ok.injEq] at out_sum
    simp only [coinBase, Bool.false_eq_true, if_false]
    omega

/-! ## One block -/

/-- The transactions of a block, the first at `nTxPos`, are at their places. -/
def AllPlaced (env : Env) (pindex : CBlockIndex) : Nat → List CTransaction → Prop
  | _, [] => True
  | nTxPos, tx :: vtx => Placed env (.mk pindex.nFile pindex.nBlockPos nTxPos) tx ∧
      AllPlaced env pindex (nTxPos + tx.size) vtx

private theorem allPlaced_of_append {pindex : CBlockIndex} {block : CBlock}
    (stored : env.Stored pindex.nFile pindex.nBlockPos block)
    (checked : ∀ tx ∈ block.vtx, tx.Checked) (front back : List CTransaction)
    (split : block.vtx = front ++ back) :
    AllPlaced env pindex
      (pindex.nBlockPos + block.vtxOffset + (front.map CTransaction.size).sum) back := by
  induction back generalizing front with
  | nil => trivial
  | cons tx back induction =>
      have tx_checked := checked tx (by simp [split])
      have small : tx.size ≤ maxSize := tx_checked.size_le.trans (by decide)
      have later := induction (front ++ [tx]) (by simpa using split)
      refine ⟨⟨⟨_, _, _, rfl, stored.1⟩, stored.readTx_eq split small, tx_checked⟩, ?_⟩
      simpa [Nat.add_assoc] using later

/-- The transactions of a checked block on disk are where `ConnectBlock` enters them. -/
theorem allPlaced_of_stored {pindex : CBlockIndex} {block : CBlock}
    (stored : env.Stored pindex.nFile pindex.nBlockPos block)
    (checked : block.Checked env.crypto) :
    AllPlaced env pindex (pindex.nBlockPos + block.vtxOffset) block.vtx := by
  simpa using allPlaced_of_append stored checked.transaction [] block.vtx rfl

theorem BlockConnected.onDisk {pindex : CBlockIndex} {nTxPos : Nat} {vtx : List CTransaction}
    {before after : TxIndexMap} {nFees : Int}
    (connected : BlockConnected env mempool pindex nTxPos vtx before after nFees)
    (placed : AllPlaced env pindex nTxPos vtx) (onDisk : OnDisk env before) :
    OnDisk env after := by
  induction connected with
  | nil => exact onDisk
  | cons first _ induction => exact induction placed.2 (first.onDisk placed.1 onDisk)

theorem BlockConnected.totalUnspent_le {pindex : CBlockIndex} {nTxPos : Nat}
    {vtx : List CTransaction} {before after : TxIndexMap} {nFees : Int}
    (connected : BlockConnected env mempool pindex nTxPos vtx before after nFees)
    (placed : AllPlaced env pindex nTxPos vtx) (onDisk : OnDisk env before) :
    totalUnspent env after ≤ totalUnspent env before +
      (vtx.map fun tx => if tx.isCoinBase then tx.valueSum else 0).sum - nFees := by
  induction connected with
  | nil => simp
  | cons first _ induction =>
      have head := first.totalUnspent_le placed.1 onDisk
      have tail := induction placed.2 (first.onDisk placed.1 onDisk)
      simp only [List.map_cons, List.sum_cons]
      omega

/-- Connecting a block adds at most the subsidy to the total. -/
theorem ConnectedBlock.totalUnspent_le {context : CallContext} {pindex : CBlockIndex}
    {pprev : BlockChain} {block : CBlock} {txdb after : CTxDB} {nFees : Int}
    (connected : ConnectedBlock env context pindex pprev block txdb after nFees)
    (stored : env.Stored pindex.nFile pindex.nBlockPos block)
    (onDisk : OnDisk env txdb.txindex) :
    totalUnspent env after.txindex ≤ totalUnspent env txdb.txindex + coin := by
  have checked := connected.checked
  have grown := connected.index.totalUnspent_le (allPlaced_of_stored stored checked) onDisk
  cases vtx : block.vtx with
  | nil => exact absurd vtx checked.vtx_ne_nil
  | cons coinBase rest =>
      have is_coinBase := checked.coinBase coinBase (by simp [vtx])
      have coinBase_checked := checked.transaction coinBase (by simp [vtx])
      obtain ⟨nValueOut, valueOut, bounded⟩ := connected.subsidy coinBase (by simp [vtx])
      rw [coinBase_checked.getValueOut_eq, Except.ok.injEq] at valueOut
      have ordinary : (rest.map fun tx => if tx.isCoinBase then tx.valueSum else 0).sum = 0 := by
        apply List.sum_eq_zero
        simp only [List.mem_map]
        rintro _ ⟨tx, member, rfl⟩
        have not_coinBase := checked.ordinary tx (by simpa [vtx] using member)
        simp [not_coinBase]
      simp only [vtx, List.map_cons, List.sum_cons, is_coinBase, if_true, ordinary] at grown
      omega

/-! ## Runs -/

/-- Along runs of the block chain the index stays on disk, and disconnecting lands below the index
that the block was connected to. -/
theorem chainMachine_retractable (env : Env) (base : BlockChain) :
    Retractable (chainMachine env base) (fun txdb => OnDisk env txdb.txindex)
      (fun low high => Below low.txindex high.txindex) where
  refl txdb := Below.refl txdb.txindex
  trans lower upper := lower.trans upper
  good_below below onDisk := onDisk.of_below below
  good_apply := by
    rintro journal next before after ⟨extends_tip, context, applied⟩ onDisk
    obtain ⟨nFees, connected⟩ := connectBlock_ok applied
    exact connected.index.onDisk (allPlaced_of_stored extends_tip.stored connected.checked) onDisk
  retract := by
    rintro journal next before after low undone ⟨_, context, applied⟩ low_below undo
    obtain ⟨nFees, connected⟩ := connectBlock_ok applied
    exact connected.index.undo_below low_below (disconnectBlock_ok undo).1

variable {base : BlockChain} {blockindex : UInt256 → Option CDiskBlockIndex}
  {hashBestChain : Option UInt256} {journal : List ChainBlock} {txdb : CTxDB}

theorem emptyIndex_onDisk : OnDisk env (emptyIndex blockindex hashBestChain).txindex := by
  intro hash txindex present
  simp [emptyIndex] at present

/-- Every entry that a run leaves in the index points to its transaction on disk. -/
theorem onDisk_of_run
    (run : Run (chainMachine env base) (emptyIndex blockindex hashBestChain) journal txdb) :
    OnDisk env txdb.txindex :=
  run.good (chainMachine_retractable env base) emptyIndex_onDisk

/-- In every run the unspent outputs are worth at most one coin for each connected block. -/
theorem totalUnspent_le_of_run
    (run : Run (chainMachine env base) (emptyIndex blockindex hashBestChain) journal txdb) :
    totalUnspent env txdb.txindex ≤ journal.length * coin := by
  have bounded := run.potential_le (fun txdb => totalUnspent env txdb.txindex) coin
    (chainMachine_retractable env base) emptyIndex_onDisk
    (fun onDisk below => totalUnspent_le_of_below onDisk below) ?_
  · simpa [emptyIndex, totalUnspent] using bounded
  · rintro journal next before after onDisk ⟨extends_tip, context, applied⟩
    obtain ⟨nFees, connected⟩ := connectBlock_ok applied
    exact connected.totalUnspent_le extends_tip.stored onDisk

end FooCoin

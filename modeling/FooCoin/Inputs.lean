import FooCoin.TxIndex

/-!
# What connecting and disconnecting inputs does

Fetching reads a view of the index: the queued changes over the database.  Connecting a transaction
sets the slots of its outpoints, all of which were null, and disconnecting sets them back.
-/

namespace FooCoin

open Function

variable {env : Env} {mempool : MapTx} {txdb : TxIndexMap}

/-! ## Fetching -/

/-- A fetched entry is the one of the view, with the transaction at its position. -/
structure Fetched (env : Env) (mempool : MapTx) (view : TxIndexMap) (hash : UInt256)
    (prev : CTxIndex × CTransaction) : Prop where
  entry : view hash = some prev.1
  transaction :
    (if prev.1.pos = .pool then mempool hash else env.readTxAt prev.1.pos) = some prev.2

private theorem fetched_of_fetchPrev {mapTestPool : TxIndexMap} {hash : UInt256}
    {prev : CTxIndex × CTransaction}
    (fetch : fetchPrev env mempool txdb mapTestPool true hash = some prev) :
    Fetched env mempool (overlay mapTestPool txdb) hash prev := by
  simp only [fetchPrev, if_true] at fetch
  cases entry : overlay mapTestPool txdb hash with
  | none => simp [entry] at fetch
  | some txindex =>
      simp only [entry, Option.map_eq_some_iff] at fetch
      obtain ⟨txPrev, transaction, rfl⟩ := fetch
      exact ⟨entry, transaction⟩

/-- What the first loop of `FetchInputs` collects was fetched. -/
theorem fetchLoop_ok {fetch : UInt256 → Option (CTxIndex × CTransaction)}
    {vin : List CTxIn} {before after : MapPrevTx}
    (earlier : ∀ hash prev, before hash = some prev → fetch hash = some prev)
    (fetched : fetchLoop fetch vin before = .ok after) :
    ∀ hash prev, after hash = some prev → fetch hash = some prev := by
  induction vin generalizing before with
  | nil =>
      cases fetched
      exact earlier
  | cons txin vin induction =>
      simp only [fetchLoop] at fetched
      split at fetched
      · exact induction earlier fetched
      · cases found : fetch txin.prevout.hash with
        | none => simp [found] at fetched
        | some prev =>
            simp only [found] at fetched
            refine induction ?_ fetched
            intro hash other present
            by_cases same : hash = txin.prevout.hash
            · subst same
              rw [update_self] at present
              exact found.trans present
            · rw [update_of_ne same] at present
              exact earlier hash other present

/-- What `FetchInputs` hands out was fetched. -/
theorem fetchPrev_of_fetchInputs {mapTestPool : TxIndexMap} {fBlock fMiner : Bool}
    {tx : CTransaction} {inputs : MapPrevTx}
    (fetched : tx.fetchInputs env mempool txdb mapTestPool fBlock fMiner = .ok inputs) :
    ∀ hash prev, inputs hash = some prev →
      fetchPrev env mempool txdb mapTestPool (fBlock || fMiner) hash = some prev := by
  unfold CTransaction.fetchInputs at fetched
  split at fetched
  · cases fetched
    simp
  · simp only [except_bind_eq_ok] at fetched
    obtain ⟨found, loop, last⟩ := fetched
    split at last
    · cases last
      exact fetchLoop_ok (by simp) loop
    · simp at last

/-- What `FetchInputs` hands to `ConnectInputs` when it proposes a block. -/
theorem fetchInputs_ok {mapTestPool : TxIndexMap} {fBlock fMiner : Bool} {tx : CTransaction}
    {inputs : MapPrevTx} (proposed : (fBlock || fMiner) = true)
    (fetched : tx.fetchInputs env mempool txdb mapTestPool fBlock fMiner = .ok inputs) :
    ∀ hash prev, inputs hash = some prev →
      Fetched env mempool (overlay mapTestPool txdb) hash prev := by
  intro hash prev present
  have fetch := fetchPrev_of_fetchInputs fetched hash prev present
  rw [proposed] at fetch
  exact fetched_of_fetchPrev fetch

/-! ## Marking -/

theorem slot_isSome_markSpent {view : TxIndexMap} {prevouts : List COutPoint} {pos : CDiskTxPos}
    {prevout : COutPoint} :
    (slot (markSpent view prevouts pos) prevout).isSome = (slot view prevout).isSome := by
  simp [slot_markSpent]

private theorem slot_isSome_iff {view : TxIndexMap} {prevout : COutPoint} {txindex : CTxIndex}
    (present : view prevout.hash = some txindex) :
    (slot view prevout).isSome ↔ prevout.n.toNat < txindex.vSpent.length := by
  simp [slot, present]

/-- Relinquishing succeeds exactly when every slot is there, and clears them all. -/
theorem relinquishLoop_eq_ok {vin : List CTxIn} {after : TxIndexMap} :
    relinquishLoop vin txdb = .ok after ↔
      (∀ prevout ∈ vin.map CTxIn.prevout, (slot txdb prevout).isSome) ∧
        after = markSpent txdb (vin.map CTxIn.prevout) .null := by
  induction vin generalizing txdb with
  | nil =>
      constructor
      · intro done
        cases done
        simp
      · rintro ⟨_, rfl⟩
        simp [relinquishLoop, pure, Except.pure]
  | cons txin vin induction =>
      cases present : txdb txin.prevout.hash with
      | none =>
          have missing : slot txdb txin.prevout = none := by simp [slot, present]
          simp [relinquishLoop, present, missing]
      | some txindex =>
          have inside := slot_isSome_iff present
          rw [relinquishLoop]
          simp only [present, except_bind_eq_ok, require_eq_ok, exists_const]
          rw [update_eq_markSpent present, induction]
          simp only [slot_isSome_markSpent, markSpent_append]
          rw [List.map_cons, List.forall_mem_cons, List.singleton_append, inside, and_assoc]

/-- Disconnecting succeeds exactly when every slot is there; it clears the slots and erases the
transaction. -/
theorem disconnectInputs_eq_ok {crypto : Crypto} {tx : CTransaction} {after : TxIndexMap} :
    tx.disconnectInputs crypto txdb = .ok after ↔
      (∀ prevout ∈ tx.spends, (slot txdb prevout).isSome) ∧
        after = update (markSpent txdb tx.spends .null) (tx.getHash crypto) none := by
  have spends : (if tx.isCoinBase then [] else tx.vin).map CTxIn.prevout = tx.spends := by
    unfold CTransaction.spends
    split <;> rfl
  simp only [CTransaction.disconnectInputs, except_bind_eq_ok, relinquishLoop_eq_ok, spends]
  constructor
  · rintro ⟨_, ⟨present, rfl⟩, last⟩
    cases last
    exact ⟨present, rfl⟩
  · rintro ⟨present, rfl⟩
    exact ⟨_, ⟨present, rfl⟩, rfl⟩

/-- The second loop of `ConnectInputs` sets slots that were all null. -/
private theorem spendLoop_ok {nBestHeight : Int} {mode : ConnectMode} {posThisTx : CDiskTxPos}
    {tx : CTransaction} {i : Nat} {vin : List CTxIn} {inputs : MapPrevTx}
    {mapTestPool after : TxIndexMap} (proposed : (mode.fBlock || mode.fMiner) = true)
    (real : posThisTx ≠ .null)
    (agree : ∀ hash prev, inputs hash = some prev → overlay mapTestPool txdb hash = some prev.1)
    (spent : spendLoop env nBestHeight mode posThisTx tx i vin inputs mapTestPool = .ok after) :
    (∀ prevout ∈ vin.map CTxIn.prevout, slot (overlay mapTestPool txdb) prevout = some .null) ∧
      (vin.map CTxIn.prevout).Nodup ∧
      overlay after txdb =
        markSpent (overlay mapTestPool txdb) (vin.map CTxIn.prevout) posThisTx := by
  induction vin generalizing i inputs mapTestPool with
  | nil =>
      cases spent
      simp
  | cons txin vin induction =>
      cases found : inputs txin.prevout.hash with
      | none => simp [spendLoop, found] at spent
      | some prev =>
          obtain ⟨txindex, txPrev⟩ := prev
          have present := agree _ _ found
          simp only [spendLoop, found, except_bind_eq_ok, require_eq_ok, exists_const, proposed,
            if_true] at spent
          obtain ⟨free, _, _, later⟩ := spent
          have view_after : overlay (update mapTestPool txin.prevout.hash
              (some (txindex.setSpent txin.prevout.n.toNat posThisTx))) txdb =
                markSpent (overlay mapTestPool txdb) [txin.prevout] posThisTx := by
            rw [overlay_update, update_eq_markSpent present]
          have agree_after : ∀ hash prev, update inputs txin.prevout.hash
              (some (txindex.setSpent txin.prevout.n.toNat posThisTx, txPrev)) hash = some prev →
                overlay (update mapTestPool txin.prevout.hash
                  (some (txindex.setSpent txin.prevout.n.toNat posThisTx))) txdb hash =
                    some prev.1 := by
            intro hash prev here
            rw [overlay_update]
            by_cases same : hash = txin.prevout.hash
            · subst same
              rw [update_self] at here ⊢
              cases here
              rfl
            · rw [update_of_ne same] at here ⊢
              exact agree hash prev here
          obtain ⟨null_later, nodup_later, effect⟩ := induction agree_after later
          rw [view_after] at null_later effect
          have null_here : slot (overlay mapTestPool txdb) txin.prevout = some .null := by
            simpa [slot, present] using free
          have fresh : txin.prevout ∉ vin.map CTxIn.prevout := by
            intro again
            have marked := null_later _ again
            simp [slot_markSpent, null_here, real] at marked
          have unmarked : ∀ prevout ∈ vin.map CTxIn.prevout,
              slot (overlay mapTestPool txdb) prevout = some .null := by
            intro prevout member
            have other : prevout ≠ txin.prevout := fun same => fresh (same ▸ member)
            simpa [slot_markSpent, other] using null_later _ member
          refine ⟨?_, ?_, ?_⟩
          · simpa using ⟨null_here, by simpa using unmarked⟩
          · exact List.nodup_cons.mpr ⟨fresh, nodup_later⟩
          · rw [effect, markSpent_append]
            rfl

/-- The second loop of `ConnectInputs` finds every output unspent. -/
theorem spendLoop_free {nBestHeight : Int} {mode : ConnectMode} {posThisTx : CDiskTxPos}
    {tx : CTransaction} {i : Nat} {vin : List CTxIn} {inputs : MapPrevTx}
    {mapTestPool after : TxIndexMap} (real : posThisTx ≠ .null)
    (spent : spendLoop env nBestHeight mode posThisTx tx i vin inputs mapTestPool = .ok after) :
    ∀ txin ∈ vin, ∃ prev, inputs txin.prevout.hash = some prev ∧
      prev.1.vSpent[txin.prevout.n.toNat]? = some .null := by
  induction vin generalizing i inputs mapTestPool with
  | nil => simp
  | cons txin vin induction =>
      cases found : inputs txin.prevout.hash with
      | none => simp [spendLoop, found] at spent
      | some prev =>
          simp only [spendLoop, found, except_bind_eq_ok, require_eq_ok, exists_const] at spent
          obtain ⟨free, _, _, later⟩ := spent
          refine List.forall_mem_cons.mpr ⟨⟨prev, found, free⟩, fun other member => ?_⟩
          obtain ⟨marked, here, unspent⟩ := induction later other member
          by_cases same : other.prevout.hash = txin.prevout.hash
          · rw [same, update_self, Option.some.injEq] at here
            subst here
            refine ⟨prev, same ▸ found, ?_⟩
            simp only [CTxIndex.setSpent, List.getElem?_set] at unspent
            split at unspent
            · split at unspent
              · exact absurd (Option.some.inj unspent) real
              · simp at unspent
            · exact unspent
          · rw [update_of_ne same] at here
            exact ⟨marked, here, unspent⟩

/-! ## Values -/

/-- The value of the output that an outpoint names among the fetched transactions. -/
def inputValue (inputs : MapPrevTx) (prevout : COutPoint) : Int :=
  (((inputs prevout.hash).bind fun prev => prev.2.vout[prevout.n.toNat]?).map
    fun txout => txout.nValue.toInt).getD 0

/-- `GetValueIn` finds every output and sums the values. -/
theorem valueInLoop_ok {inputs : MapPrevTx} {vin : List CTxIn} {start total : Int}
    (summed : valueInLoop inputs start vin = .ok total) :
    (∀ prevout ∈ vin.map CTxIn.prevout, ∃ prev txout, inputs prevout.hash = some prev ∧
        prev.2.vout[prevout.n.toNat]? = some txout ∧
        inputValue inputs prevout = txout.nValue.toInt) ∧
      total = start + ((vin.map CTxIn.prevout).map (inputValue inputs)).sum := by
  induction vin generalizing start with
  | nil =>
      cases summed
      simp
  | cons txin vin induction =>
      simp only [valueInLoop, except_bind_eq_ok, int64_eq_ok] at summed
      obtain ⟨txout, read, _, ⟨_, rfl⟩, later⟩ := summed
      obtain ⟨others, sum⟩ := induction later
      unfold getOutputFor at read
      cases found : inputs txin.prevout.hash with
      | none => simp [found] at read
      | some prev =>
          cases output : prev.2.vout[txin.prevout.n.toNat]? with
          | none => simp [found, output] at read
          | some other =>
              simp only [found, output, Except.ok.injEq] at read
              subst read
              have value : inputValue inputs txin.prevout = other.nValue.toInt := by
                simp [inputValue, found, output]
              refine ⟨?_, ?_⟩
              · simp only [List.map_cons, List.forall_mem_cons]
                exact ⟨⟨prev, other, found, output, value⟩, others⟩
              · rw [sum]
                simp only [List.map_cons, List.sum_cons, value]
                ring

/-- The first loop of `ConnectInputs` sums what `GetValueIn` sums, and keeps it in range. -/
theorem checkInputsLoop_ok {inputs : MapPrevTx} {pindexBlock : BlockChain}
    {vin : List CTxIn} {start total : Int} (start_range : MoneyRange start)
    (checked : checkInputsLoop inputs pindexBlock start vin = .ok total) :
    MoneyRange total ∧ valueInLoop inputs start vin = .ok total := by
  induction vin generalizing start with
  | nil =>
      cases checked
      exact ⟨start_range, rfl⟩
  | cons txin vin induction =>
      simp only [checkInputsLoop] at checked
      cases found : inputs txin.prevout.hash with
      | none => simp [found] at checked
      | some prev =>
          cases output : prev.2.vout[txin.prevout.n.toNat]? with
          | none => simp [found, output] at checked
          | some txout =>
              simp only [found, output, except_bind_eq_ok, require_eq_ok, exists_const] at checked
              obtain ⟨_, _, nValueIn, summed, range, later⟩ := checked
              obtain ⟨total_range, summed_later⟩ := induction range.2 later
              refine ⟨total_range, ?_⟩
              have read : getOutputFor txin inputs = .ok txout := by
                simp [getOutputFor, found, output]
              simp only [valueInLoop, except_bind_eq_ok]
              exact ⟨txout, read, nValueIn, summed, summed_later⟩

/-- What a successful `ConnectInputs` on a proposed block does. -/
structure InputsConnected (inputs : MapPrevTx) (view viewAfter : TxIndexMap)
    (posThisTx : CDiskTxPos) (tx : CTransaction) : Prop where
  /-- Every output it spends was unspent. -/
  free : ∀ prevout ∈ tx.spends, slot view prevout = some .null
  /-- It spends no output twice. -/
  nodup : tx.spends.Nodup
  /-- The slots now hold its position. -/
  effect : viewAfter = markSpent view tx.spends posThisTx
  /-- It does not create value. -/
  value : ¬tx.isCoinBase → ∃ nValueIn nValueOut, tx.getValueIn inputs = .ok nValueIn ∧
    tx.getValueOut = .ok nValueOut ∧ MoneyRange nValueIn ∧ nValueOut ≤ nValueIn

theorem connectInputs_ok {nBestHeight : Int} {inputs : MapPrevTx} {mapTestPool after : TxIndexMap}
    {posThisTx : CDiskTxPos} {pindexBlock : BlockChain} {mode : ConnectMode} {tx : CTransaction}
    (proposed : (mode.fBlock || mode.fMiner) = true) (real : posThisTx ≠ .null)
    (fetched : ∀ hash prev, inputs hash = some prev →
      Fetched env mempool (overlay mapTestPool txdb) hash prev)
    (connected : tx.connectInputs env nBestHeight inputs mapTestPool posThisTx pindexBlock mode =
      .ok after) :
    InputsConnected inputs (overlay mapTestPool txdb) (overlay after txdb) posThisTx tx := by
  unfold CTransaction.connectInputs at connected
  split at connected
  · rename_i coinBase
    cases connected
    have none_spent : tx.spends = [] := by simp [CTransaction.spends, coinBase]
    exact
      { free := by simp [none_spent]
        nodup := by simp [none_spent]
        effect := by simp [none_spent]
        value := fun ordinary => absurd coinBase ordinary }
  · rename_i ordinary
    simp only [except_bind_eq_ok, require_eq_ok, exists_const] at connected
    obtain ⟨nValueIn, checked, _, spent, nValueOut, valueOut, enough, _, _, _, last⟩ := connected
    cases last
    have spends : tx.spends = tx.vin.map CTxIn.prevout := by simp [CTransaction.spends, ordinary]
    obtain ⟨range, valueIn⟩ := checkInputsLoop_ok (by decide) checked
    obtain ⟨free, nodup, effect⟩ := spendLoop_ok proposed real
      (fun hash prev present => (fetched hash prev present).entry) spent
    refine
      { free := spends ▸ free
        nodup := spends ▸ nodup
        effect := spends ▸ effect
        value := fun _ => ⟨nValueIn, nValueOut, ?_, valueOut, range, enough⟩ }
    simpa [CTransaction.getValueIn, ordinary] using valueIn

end FooCoin

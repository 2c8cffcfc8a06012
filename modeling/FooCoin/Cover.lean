import FooCoin.BlockEffect

/-!
# Covering maps

A block's assembler and its validator run the same checks on different maps: the miner marks what it
has taken with the position of the pool, the validator with the place in the block.  The validator's
maps cover the miner's, and every check that passes on a map passes on one that covers it.
-/

namespace FooCoin

open Function

/-- The transaction that an index entry with this position stands for. -/
def txAt (env : Env) (mempool : MapTx) (hash : UInt256) (pos : CDiskTxPos) : Option CTransaction :=
  if pos = .pool then mempool hash else env.readTxAt pos

section Cover

variable (env : Env) (poolM poolV : MapTx) (pindex : CBlockIndex)

/-- The validator's entry of a transaction covers the miner's. -/
structure EntryCovers (hash : UInt256) (left right : CTxIndex) : Prop where
  /-- The same outputs are unspent. -/
  slots : right.vSpent.map CDiskTxPos.isNull = left.vSpent.map CDiskTxPos.isNull
  /-- The entries stand for the same transaction; a coinbase has the same place, in another block. -/
  transaction : ∀ txPrev, txAt env poolM hash left.pos = some txPrev →
    txAt env poolV hash right.pos = some txPrev ∧
      (txPrev.isCoinBase → right.pos = left.pos ∧ ¬right.pos.inBlock pindex)

/-- The validator's view of the index covers the miner's. -/
def ViewCovers (viewM viewV : TxIndexMap) : Prop :=
  ∀ hash left, viewM hash = some left →
    ∃ right, viewV hash = some right ∧ EntryCovers env poolM poolV pindex hash left right

/-- What the validator fetched covers what the miner fetched. -/
def InputsCover (inputsM inputsV : MapPrevTx) : Prop :=
  ∀ hash left txPrev, inputsM hash = some (left, txPrev) →
    txAt env poolM hash left.pos = some txPrev ∧
      ∃ right, inputsV hash = some (right, txPrev) ∧
        EntryCovers env poolM poolV pindex hash left right

end Cover

section Checks

variable {env : Env} {poolM poolV : MapTx} {pindex : CBlockIndex} {hash : UInt256}
  {left right : CTxIndex}

theorem EntryCovers.length_eq (covers : EntryCovers env poolM poolV pindex hash left right) :
    right.vSpent.length = left.vSpent.length := by
  simpa using congrArg List.length covers.slots

/-- An output that the miner finds unspent is unspent for the validator. -/
theorem EntryCovers.unspent (covers : EntryCovers env poolM poolV pindex hash left right) {n : Nat}
    (free : left.vSpent[n]? = some .null) : right.vSpent[n]? = some .null := by
  have slot := congrArg (fun slots => slots[n]?) covers.slots
  simp only [List.getElem?_map, free, Option.map_some] at slot
  cases found : right.vSpent[n]? with
  | none => simp [found] at slot
  | some pos => simpa [found, CDiskTxPos.isNull] using slot

/-- Both sides mark a spent output with positions of their own. -/
theorem EntryCovers.setSpent (covers : EntryCovers env poolM poolV pindex hash left right) {n : Nat}
    {posM posV : CDiskTxPos} (realM : posM ≠ .null) (realV : posV ≠ .null) :
    EntryCovers env poolM poolV pindex hash (left.setSpent n posM) (right.setSpent n posV) where
  slots := by
    simp [CTxIndex.setSpent, List.map_set, covers.slots, CDiskTxPos.isNull, realM, realV]
  transaction := covers.transaction

theorem ViewCovers.update {viewM viewV : TxIndexMap}
    (covers : ViewCovers env poolM poolV pindex viewM viewV)
    (entry : EntryCovers env poolM poolV pindex hash left right) :
    ViewCovers env poolM poolV pindex (update viewM hash (some left))
      (update viewV hash (some right)) := by
  intro other found present
  by_cases same : other = hash
  · subst same
    rw [update_self] at present ⊢
    cases present
    exact ⟨right, rfl, entry⟩
  · rw [update_of_ne same] at present ⊢
    exact covers other found present

private theorem InputsCover.update {inputsM inputsV : MapPrevTx} {txPrev : CTransaction}
    (covers : InputsCover env poolM poolV pindex inputsM inputsV)
    (entry : EntryCovers env poolM poolV pindex hash left right)
    (located : txAt env poolM hash left.pos = some txPrev) :
    InputsCover env poolM poolV pindex (update inputsM hash (some (left, txPrev)))
      (update inputsV hash (some (right, txPrev))) := by
  intro other found tx present
  by_cases same : other = hash
  · subst same
    rw [update_self] at present ⊢
    cases present
    exact ⟨located, right, rfl, entry⟩
  · rw [update_of_ne same] at present ⊢
    exact covers other found tx present

/-! ## Fetching -/

variable {txdb mapM mapV : TxIndexMap}

private theorem fetchPrev_eq_some {mempool : MapTx} {mapTestPool : TxIndexMap}
    {prev : CTxIndex × CTransaction} :
    fetchPrev env mempool txdb mapTestPool true hash = some prev ↔
      overlay mapTestPool txdb hash = some prev.1 ∧
        txAt env mempool hash prev.1.pos = some prev.2 := by
  obtain ⟨entry, txPrev⟩ := prev
  simp only [fetchPrev, if_true]
  cases found : overlay mapTestPool txdb hash with
  | none => simp
  | some txindex =>
      simp only [Option.map_eq_some_iff, Prod.mk.injEq, Option.some.injEq, txAt]
      constructor
      · rintro ⟨tx, located, rfl, rfl⟩
        exact ⟨rfl, located⟩
      · rintro ⟨rfl, located⟩
        exact ⟨txPrev, located, rfl, rfl⟩

private theorem fetchPrev_covered
    (covers : ViewCovers env poolM poolV pindex (overlay mapM txdb) (overlay mapV txdb))
    {txPrev : CTransaction}
    (fetched : fetchPrev env poolM txdb mapM true hash = some (left, txPrev)) :
    txAt env poolM hash left.pos = some txPrev ∧
      ∃ right, fetchPrev env poolV txdb mapV true hash = some (right, txPrev) ∧
        EntryCovers env poolM poolV pindex hash left right := by
  obtain ⟨present, located⟩ := fetchPrev_eq_some.mp fetched
  obtain ⟨right, covering, entry⟩ := covers hash left present
  exact ⟨located, right,
    fetchPrev_eq_some.mpr ⟨covering, (entry.transaction txPrev located).1⟩, entry⟩

private theorem fetchLoop_covered
    (covers : ViewCovers env poolM poolV pindex (overlay mapM txdb) (overlay mapV txdb))
    {vin : List CTxIn} {beforeM beforeV inputsM : MapPrevTx}
    (earlier : InputsCover env poolM poolV pindex beforeM beforeV)
    (missing : ∀ hash, beforeM hash = none → beforeV hash = none)
    (fetched : fetchLoop (fetchPrev env poolM txdb mapM true) vin beforeM = .ok inputsM) :
    ∃ inputsV, fetchLoop (fetchPrev env poolV txdb mapV true) vin beforeV = .ok inputsV ∧
      InputsCover env poolM poolV pindex inputsM inputsV := by
  induction vin generalizing beforeM beforeV with
  | nil =>
      cases fetched
      exact ⟨beforeV, rfl, earlier⟩
  | cons txin vin induction =>
      simp only [fetchLoop] at fetched ⊢
      cases present : beforeM txin.prevout.hash with
      | some prev =>
          obtain ⟨_, right, covering, _⟩ := earlier _ prev.1 prev.2 present
          simp only [present, covering, Option.isSome_some, if_true] at fetched ⊢
          exact induction earlier missing fetched
      | none =>
          cases found : fetchPrev env poolM txdb mapM true txin.prevout.hash with
          | none => simp [present, found] at fetched
          | some prev =>
              obtain ⟨located, right, covering, entry⟩ := fetchPrev_covered covers found
              simp only [present, found, missing _ present, covering, Option.isSome_none,
                Bool.false_eq_true, if_false] at fetched ⊢
              refine induction (earlier.update entry located) (fun hash absent => ?_) fetched
              by_cases same : hash = txin.prevout.hash
              · subst same
                simp at absent
              · rw [update_of_ne same] at absent ⊢
                exact missing hash absent

theorem fetchInputs_covered
    (covers : ViewCovers env poolM poolV pindex (overlay mapM txdb) (overlay mapV txdb))
    {tx : CTransaction} {inputsM : MapPrevTx}
    (fetched : tx.fetchInputs env poolM txdb mapM false true = .ok inputsM) :
    ∃ inputsV, tx.fetchInputs env poolV txdb mapV true false = .ok inputsV ∧
      InputsCover env poolM poolV pindex inputsM inputsV := by
  simp only [CTransaction.fetchInputs, Bool.false_or, Bool.or_false] at fetched ⊢
  have nothing : InputsCover env poolM poolV pindex (fun _ => none) fun _ => none := by
    intro hash left txPrev present
    cases present
  split_ifs at fetched ⊢
  · cases fetched
    exact ⟨_, rfl, nothing⟩
  · simp only [except_bind_eq_ok] at fetched ⊢
    obtain ⟨found, loop, last⟩ := fetched
    obtain ⟨inputsV, loopV, covering⟩ := fetchLoop_covered covers nothing (fun _ => id) loop
    split_ifs at last with ranges
    cases last
    refine ⟨inputsV, ⟨inputsV, loopV, ?_⟩, covering⟩
    rw [if_pos]
    · rfl
    rw [List.all_eq_true] at ranges ⊢
    intro txin member
    have range := ranges txin member
    cases present : inputsM txin.prevout.hash with
    | none => simp [present] at range
    | some prev =>
        obtain ⟨_, right, present', entry⟩ := covering _ prev.1 prev.2 present
        simpa [present, present', prevoutInRange, entry.length_eq] using range

/-! ## Values and counts -/

variable {inputsM inputsV : MapPrevTx}

private theorem getOutputFor_covered
    (covers : InputsCover env poolM poolV pindex inputsM inputsV) {txin : CTxIn} {txout : CTxOut}
    (read : getOutputFor txin inputsM = .ok txout) : getOutputFor txin inputsV = .ok txout := by
  simp only [getOutputFor] at read ⊢
  cases present : inputsM txin.prevout.hash with
  | none => simp [present] at read
  | some prev =>
      obtain ⟨_, right, present', _⟩ := covers _ prev.1 prev.2 present
      simpa [present, present'] using read

private theorem valueInLoop_covered
    (covers : InputsCover env poolM poolV pindex inputsM inputsV) {vin : List CTxIn}
    {start total : Int} (summed : valueInLoop inputsM start vin = .ok total) :
    valueInLoop inputsV start vin = .ok total := by
  induction vin generalizing start with
  | nil => exact summed
  | cons txin vin induction =>
      simp only [valueInLoop, except_bind_eq_ok] at summed ⊢
      obtain ⟨txout, read, nResult, added, later⟩ := summed
      exact ⟨txout, getOutputFor_covered covers read, nResult, added, induction later⟩

theorem getValueIn_covered
    (covers : InputsCover env poolM poolV pindex inputsM inputsV) {tx : CTransaction} {total : Int}
    (summed : tx.getValueIn inputsM = .ok total) : tx.getValueIn inputsV = .ok total := by
  simp only [CTransaction.getValueIn] at summed ⊢
  split_ifs at summed ⊢
  · exact summed
  · exact valueInLoop_covered covers summed

private theorem p2shSigOpLoop_covered
    (covers : InputsCover env poolM poolV pindex inputsM inputsV) {vin : List CTxIn} {count : Nat}
    (counted : p2shSigOpLoop inputsM vin = .ok count) : p2shSigOpLoop inputsV vin = .ok count := by
  induction vin generalizing count with
  | nil => exact counted
  | cons txin vin induction =>
      simp only [p2shSigOpLoop, except_bind_eq_ok] at counted ⊢
      obtain ⟨prevout, read, later, rest, sum⟩ := counted
      exact ⟨prevout, getOutputFor_covered covers read, later, induction rest, sum⟩

theorem getP2SHSigOpCount_covered
    (covers : InputsCover env poolM poolV pindex inputsM inputsV) {tx : CTransaction} {count : Nat}
    (counted : tx.getP2SHSigOpCount inputsM = .ok count) :
    tx.getP2SHSigOpCount inputsV = .ok count := by
  simp only [CTransaction.getP2SHSigOpCount] at counted ⊢
  split_ifs at counted ⊢
  · exact counted
  · exact p2shSigOpLoop_covered covers counted

/-! ## Connecting -/

private theorem takeWhile_subset_of_imp {α : Type} {p q : α → Bool} (imp : ∀ value, p value → q value)
    {values : List α} {value : α} (member : value ∈ values.takeWhile p) :
    value ∈ values.takeWhile q := by
  induction values with
  | nil => simp at member
  | cons first rest induction =>
      by_cases holds : p first
      · rw [List.takeWhile_cons_of_pos holds] at member
        rw [List.takeWhile_cons_of_pos (imp first holds)]
        exact List.mem_cons.mpr ((List.mem_cons.mp member).imp_right induction)
      · simp [holds] at member

/-- A coinbase that is immature one block later is in that block or was immature before. -/
private theorem immature_cons {pindexPrev : BlockChain} {pos : CDiskTxPos}
    (height : ∀ tip ∈ pindexPrev.head?, tip.nHeight ≤ pindex.nHeight)
    (young : immature (pindex :: pindexPrev) pos) :
    pos.inBlock pindex ∨ immature pindexPrev pos := by
  simp only [immature, List.any_eq_true] at young
  obtain ⟨entry, member, inside⟩ := young
  rw [List.takeWhile_cons_of_pos (by simp [coinbaseMaturity])] at member
  rcases List.mem_cons.mp member with rfl | older
  · exact .inl inside
  · right
    cases pindexPrev with
    | nil => simp at older
    | cons tip below =>
        have tip_le : tip.nHeight ≤ pindex.nHeight := height tip rfl
        simp only [immature, List.any_eq_true]
        refine ⟨entry, takeWhile_subset_of_imp (fun entry recent => ?_) older, inside⟩
        simp only [decide_eq_true_eq] at recent ⊢
        omega

private theorem checkInputsLoop_covered {pindexPrev : BlockChain}
    (height : ∀ tip ∈ pindexPrev.head?, tip.nHeight ≤ pindex.nHeight)
    (covers : InputsCover env poolM poolV pindex inputsM inputsV) {vin : List CTxIn}
    {start total : Int} (checked : checkInputsLoop inputsM pindexPrev start vin = .ok total) :
    checkInputsLoop inputsV (pindex :: pindexPrev) start vin = .ok total := by
  induction vin generalizing start with
  | nil => exact checked
  | cons txin vin induction =>
      simp only [checkInputsLoop] at checked ⊢
      cases present : inputsM txin.prevout.hash with
      | none => simp [present] at checked
      | some prev =>
          obtain ⟨left, txPrev⟩ := prev
          obtain ⟨located, right, present', entry⟩ := covers _ left txPrev present
          cases output : txPrev.vout[txin.prevout.n.toNat]? with
          | none => simp [present, output] at checked
          | some txout =>
              simp only [present, present', output, except_bind_eq_ok, require_eq_ok,
                exists_const] at checked ⊢
              obtain ⟨inside, mature, nValueIn, added, range, later⟩ := checked
              refine ⟨entry.length_eq ▸ inside, ?_, nValueIn, added, range, induction later⟩
              rintro ⟨coinBase, young⟩
              obtain ⟨same, elsewhere⟩ := (entry.transaction txPrev located).2 coinBase
              rcases immature_cons height young with here | young
              · exact elsewhere here
              · exact mature ⟨coinBase, same ▸ young⟩

private theorem checkSignature_lenient {nBestHeight nBestHeight' : Int} {strict : Bool}
    {txPrev tx : CTransaction} {i : Nat}
    (verified : checkSignature env nBestHeight
      { fBlock := false, fMiner := true, fStrictPayToScriptHash := true } txPrev tx i = .ok ()) :
    checkSignature env nBestHeight'
      { fBlock := true, fMiner := false, fStrictPayToScriptHash := strict } txPrev tx i = .ok () := by
  simp only [checkSignature, Bool.false_eq_true, false_and, if_false] at verified
  simp only [checkSignature]
  split_ifs
  · rfl
  · cases strict with
    | true => exact verified
    | false => exact verifySignature_lenient verified

private theorem spendLoop_covered {nBestHeight nBestHeight' : Int} {strict : Bool}
    {posM posV : CDiskTxPos} (realM : posM ≠ .null) (realV : posV ≠ .null) {tx : CTransaction}
    {i : Nat} {vin : List CTxIn} {afterM : TxIndexMap}
    (inputs : InputsCover env poolM poolV pindex inputsM inputsV)
    (views : ViewCovers env poolM poolV pindex (overlay mapM txdb) (overlay mapV txdb))
    (spent : spendLoop env nBestHeight
      { fBlock := false, fMiner := true, fStrictPayToScriptHash := true } posM tx i vin inputsM mapM =
        .ok afterM) :
    ∃ afterV, spendLoop env nBestHeight'
        { fBlock := true, fMiner := false, fStrictPayToScriptHash := strict } posV tx i vin inputsV
          mapV = .ok afterV ∧
      ViewCovers env poolM poolV pindex (overlay afterM txdb) (overlay afterV txdb) := by
  induction vin generalizing i inputsM inputsV mapM mapV with
  | nil =>
      cases spent
      exact ⟨mapV, rfl, views⟩
  | cons txin vin induction =>
      simp only [spendLoop] at spent ⊢
      cases present : inputsM txin.prevout.hash with
      | none => simp [present] at spent
      | some prev =>
          obtain ⟨left, txPrev⟩ := prev
          obtain ⟨located, right, present', entry⟩ := inputs _ left txPrev present
          simp only [present, present', except_bind_eq_ok, require_eq_ok, exists_const,
            Bool.or_true, Bool.or_false, if_true] at spent ⊢
          obtain ⟨free, _, verified, later⟩ := spent
          have marked := entry.setSpent (n := txin.prevout.n.toNat) realM realV
          have views_after := views.update marked
          rw [← overlay_update, ← overlay_update] at views_after
          obtain ⟨afterV, laterV, covers⟩ :=
            induction (inputs.update marked located) views_after later
          exact ⟨afterV, ⟨entry.unspent free, (), checkSignature_lenient verified, laterV⟩, covers⟩

theorem connectInputs_covered {nBestHeight nBestHeight' : Int} {strict : Bool}
    {posM posV : CDiskTxPos} (realM : posM ≠ .null) (realV : posV ≠ .null) {tx : CTransaction}
    {pindexPrev : BlockChain} (height : ∀ tip ∈ pindexPrev.head?, tip.nHeight ≤ pindex.nHeight)
    {afterM : TxIndexMap}
    (inputs : InputsCover env poolM poolV pindex inputsM inputsV)
    (views : ViewCovers env poolM poolV pindex (overlay mapM txdb) (overlay mapV txdb))
    (connected : tx.connectInputs env nBestHeight inputsM mapM posM pindexPrev
      { fBlock := false, fMiner := true, fStrictPayToScriptHash := true } = .ok afterM) :
    ∃ afterV, tx.connectInputs env nBestHeight' inputsV mapV posV (pindex :: pindexPrev)
        { fBlock := true, fMiner := false, fStrictPayToScriptHash := strict } = .ok afterV ∧
      ViewCovers env poolM poolV pindex (overlay afterM txdb) (overlay afterV txdb) := by
  simp only [CTransaction.connectInputs] at connected ⊢
  split_ifs at connected ⊢
  · cases connected
    exact ⟨mapV, rfl, views⟩
  · simp only [except_bind_eq_ok, require_eq_ok, exists_const] at connected ⊢
    obtain ⟨nValueIn, checked, middle, spent, nValueOut, valueOut, enough, nTxFee, fee, range,
      last⟩ := connected
    cases last
    obtain ⟨afterV, spentV, covers⟩ := spendLoop_covered realM realV inputs views spent
    exact ⟨afterV, ⟨nValueIn, checkInputsLoop_covered height inputs checked, afterV, spentV,
      nValueOut, valueOut, enough, nTxFee, fee, range, rfl⟩, covers⟩

end Checks

end FooCoin

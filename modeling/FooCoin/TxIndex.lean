import FooCoin.Block

/-!
# The transaction index

The index entries of `CTxDB`, and how a transaction's inputs are fetched, connected and
disconnected.  The index and `mapQueuedChanges` are functions on transaction hashes.  A null slot of
`vSpent` is an unspent output.
-/

namespace FooCoin

/-- The position of a transaction on disk. -/
inductive CDiskTxPos
  /-- `SetNull`. -/
  | null
  /-- A position in a block file. -/
  | mk (nFile nBlockPos nTxPos : Nat)
  deriving DecidableEq

/-- `CDiskTxPos::IsNull`. -/
def CDiskTxPos.isNull (pos : CDiskTxPos) : Bool := pos = .null

/-- The position `(1,1,1)` that marks transactions of the memory pool. -/
def CDiskTxPos.pool : CDiskTxPos := .mk 1 1 1

/-- The position lies in the block of the index entry. -/
def CDiskTxPos.inBlock (pindex : CBlockIndex) : CDiskTxPos → Bool
  | .null => false
  | .mk nFile nBlockPos _ => nBlockPos = pindex.nBlockPos ∧ nFile = pindex.nFile

/-- The index entry of a transaction. -/
structure CTxIndex where
  pos : CDiskTxPos
  vSpent : List CDiskTxPos
  deriving DecidableEq

/-- `CTxIndex(posIn, nOutputs)`. -/
def CTxIndex.ofOutputs (posIn : CDiskTxPos) (nOutputs : Nat) : CTxIndex :=
  { pos := posIn, vSpent := List.replicate nOutputs .null }

/-- Set a slot of `vSpent`. -/
def CTxIndex.setSpent (txindex : CTxIndex) (n : Nat) (pos : CDiskTxPos) : CTxIndex :=
  { txindex with vSpent := txindex.vSpent.set n pos }

/-- A transaction index, or changes queued for it. -/
abbrev TxIndexMap := UInt256 → Option CTxIndex

/-- `MapPrevTx`: the fetched previous transactions. -/
abbrev MapPrevTx := UInt256 → Option (CTxIndex × CTransaction)

/-- The transactions of the memory pool. -/
abbrev MapTx := UInt256 → Option CTransaction

/-- `CTransaction::ReadFromDisk(CDiskTxPos)`. -/
def Env.readTxAt (env : Env) : CDiskTxPos → Option CTransaction
  | .null => none
  | .mk nFile _ nTxPos => env.readTx nFile nTxPos

/-- Changes over the index they are queued for. -/
def overlay (mapTestPool txdb : TxIndexMap) : TxIndexMap := fun hash =>
  match mapTestPool hash with
  | none => txdb hash
  | some txindex => some txindex

/-! ## Fetching inputs -/

/-- Why `FetchInputs` returned `false`. -/
inductive FetchFailure
  /-- A previous transaction is not there: `fInvalid` is false. -/
  | missing
  /-- An output index is out of range: `fInvalid` is true. -/
  | invalid
  deriving DecidableEq

/-- One round of the first loop of `FetchInputs`; `fProposed` is `fBlock || fMiner`. -/
def fetchPrev (env : Env) (mempool : MapTx) (txdb mapTestPool : TxIndexMap) (fProposed : Bool)
    (hash : UInt256) : Option (CTxIndex × CTransaction) :=
  match (if fProposed then overlay mapTestPool txdb hash else txdb hash) with
  | none =>
      if fProposed then none
      else (mempool hash).map fun txPrev => (.ofOutputs .null txPrev.vout.length, txPrev)
  | some txindex =>
      (if txindex.pos = .pool then mempool hash else env.readTxAt txindex.pos).map
        fun txPrev => (txindex, txPrev)

/-- The first loop of `FetchInputs`. -/
def fetchLoop (fetch : UInt256 → Option (CTxIndex × CTransaction)) :
    List CTxIn → MapPrevTx → Except FetchFailure MapPrevTx
  | [], inputs => pure inputs
  | txin :: vin, inputs =>
      if (inputs txin.prevout.hash).isSome then fetchLoop fetch vin inputs
      else
        match fetch txin.prevout.hash with
        | none => throw .missing
        | some prev => fetchLoop fetch vin (Function.update inputs txin.prevout.hash (some prev))

/-- The output index is one of the fetched transaction and of its index entry. -/
def prevoutInRange (prevout : COutPoint) (prev : CTxIndex × CTransaction) : Bool :=
  prevout.n.toNat < prev.2.vout.length ∧ prevout.n.toNat < prev.1.vSpent.length

/-- `CTransaction::FetchInputs` into an empty map. -/
def CTransaction.fetchInputs (env : Env) (mempool : MapTx) (txdb mapTestPool : TxIndexMap)
    (fBlock fMiner : Bool) (tx : CTransaction) : Except FetchFailure MapPrevTx :=
  if tx.isCoinBase then pure fun _ => none
  else do
    let inputs ←
      fetchLoop (fetchPrev env mempool txdb mapTestPool (fBlock || fMiner)) tx.vin fun _ => none
    if tx.vin.all fun txin => (inputs txin.prevout.hash).any (prevoutInRange txin.prevout) then
      pure inputs
    else throw .invalid

/-- `CTransaction::GetOutputFor`. -/
def getOutputFor (txin : CTxIn) (inputs : MapPrevTx) : Outcome CTxOut :=
  match inputs txin.prevout.hash with
  | none => .error .thrown
  | some (_, txPrev) =>
      match txPrev.vout[txin.prevout.n.toNat]? with
      | none => .error .thrown
      | some txout => .ok txout

/-- The loop of `GetValueIn`. -/
def valueInLoop (inputs : MapPrevTx) : Int → List CTxIn → Outcome Int
  | nResult, [] => pure nResult
  | nResult, txin :: vin => do
      let txout ← getOutputFor txin inputs
      let nResult ← int64 (nResult + txout.nValue.toInt)
      valueInLoop inputs nResult vin

/-- `CTransaction::GetValueIn`. -/
def CTransaction.getValueIn (inputs : MapPrevTx) (tx : CTransaction) : Outcome Int :=
  if tx.isCoinBase then pure 0 else valueInLoop inputs 0 tx.vin

/-- The loop of `GetP2SHSigOpCount`. -/
def p2shSigOpLoop (inputs : MapPrevTx) : List CTxIn → Outcome Nat
  | [] => pure 0
  | txin :: vin => do
      let prevout ← getOutputFor txin inputs
      let nSigOps :=
        if isPayToScriptHash prevout.scriptPubKey then
          getSigOpCountP2SH prevout.scriptPubKey txin.scriptSig
        else 0
      pure (nSigOps + (← p2shSigOpLoop inputs vin))

/-- `CTransaction::GetP2SHSigOpCount`. -/
def CTransaction.getP2SHSigOpCount (inputs : MapPrevTx) (tx : CTransaction) : Outcome Nat :=
  if tx.isCoinBase then pure 0 else p2shSigOpLoop inputs tx.vin

/-! ## Connecting inputs -/

/-- The transaction lies in one of the last `COINBASE_MATURITY` blocks of the chain. -/
def immature (pindexBlock : BlockChain) (pos : CDiskTxPos) : Bool :=
  match pindexBlock with
  | [] => false
  | tip :: _ =>
      (pindexBlock.takeWhile fun pindex => tip.nHeight < pindex.nHeight + coinbaseMaturity).any
        fun pindex => pos.inBlock pindex

/-- The first loop of `ConnectInputs`: the checks that need no signature. -/
def checkInputsLoop (inputs : MapPrevTx) (pindexBlock : BlockChain) :
    Int → List CTxIn → Outcome Int
  | nValueIn, [] => pure nValueIn
  | nValueIn, txin :: vin =>
      match inputs txin.prevout.hash with
      | none => throw .assertion
      | some (txindex, txPrev) =>
          match txPrev.vout[txin.prevout.n.toNat]? with
          | none => throw .rejected
          | some txout => do
              require (txin.prevout.n.toNat < txindex.vSpent.length)
              require ¬(txPrev.isCoinBase ∧ immature pindexBlock txindex.pos)
              let nValueIn ← int64 (nValueIn + txout.nValue.toInt)
              require (MoneyRange txout.nValue.toInt ∧ MoneyRange nValueIn)
              checkInputsLoop inputs pindexBlock nValueIn vin

/-- The arguments of `ConnectInputs` that its second loop passes on. -/
structure ConnectMode where
  /-- Connect a block to the chain. -/
  fBlock : Bool
  /-- Assemble a block. -/
  fMiner : Bool
  /-- Evaluate pay-to-script-hash subscripts. -/
  fStrictPayToScriptHash : Bool

/-- `Checkpoints::GetTotalBlocksEstimate`. -/
def getTotalBlocksEstimate : Int := 0

/-- The signature check of input `i`, skipped when a block below the last checkpoint is
connected. -/
def checkSignature (env : Env) (nBestHeight : Int) (mode : ConnectMode) (txPrev tx : CTransaction)
    (i : Nat) : Outcome Unit :=
  if mode.fBlock ∧ nBestHeight < getTotalBlocksEstimate then pure ()
  else verifySignature env.crypto txPrev tx i mode.fStrictPayToScriptHash 0

/-- The second loop of `ConnectInputs` from input `i` on: conflicts, signatures and spent
pointers. -/
def spendLoop (env : Env) (nBestHeight : Int) (mode : ConnectMode) (posThisTx : CDiskTxPos)
    (tx : CTransaction) : Nat → List CTxIn → MapPrevTx → TxIndexMap → Outcome TxIndexMap
  | _, [], _, mapTestPool => pure mapTestPool
  | i, txin :: vin, inputs, mapTestPool =>
      match inputs txin.prevout.hash with
      | none => throw .assertion
      | some (txindex, txPrev) => do
          require (txindex.vSpent[txin.prevout.n.toNat]? = some .null)
          checkSignature env nBestHeight mode txPrev tx i
          let txindex := txindex.setSpent txin.prevout.n.toNat posThisTx
          let inputs := Function.update inputs txin.prevout.hash (some (txindex, txPrev))
          let mapTestPool :=
            if mode.fBlock || mode.fMiner then
              Function.update mapTestPool txin.prevout.hash (some txindex)
            else mapTestPool
          spendLoop env nBestHeight mode posThisTx tx (i + 1) vin inputs mapTestPool

/-- `CTransaction::ConnectInputs`: the changes after it. -/
def CTransaction.connectInputs (env : Env) (nBestHeight : Int) (inputs : MapPrevTx)
    (mapTestPool : TxIndexMap) (posThisTx : CDiskTxPos) (pindexBlock : BlockChain)
    (mode : ConnectMode) (tx : CTransaction) : Outcome TxIndexMap :=
  if tx.isCoinBase then pure mapTestPool
  else do
    let nValueIn ← checkInputsLoop inputs pindexBlock 0 tx.vin
    let mapTestPool ←
      spendLoop env nBestHeight mode posThisTx tx 0 tx.vin inputs mapTestPool
    let nValueOut ← tx.getValueOut
    require (nValueOut ≤ nValueIn)
    let nTxFee ← int64 (nValueIn - nValueOut)
    require (MoneyRange nTxFee)
    pure mapTestPool

/-! ## Disconnecting inputs -/

/-- The loop of `DisconnectInputs`. -/
def relinquishLoop : List CTxIn → TxIndexMap → Outcome TxIndexMap
  | [], txdb => pure txdb
  | txin :: vin, txdb =>
      match txdb txin.prevout.hash with
      | none => throw .rejected
      | some txindex => do
          require (txin.prevout.n.toNat < txindex.vSpent.length)
          let txindex := txindex.setSpent txin.prevout.n.toNat .null
          relinquishLoop vin (Function.update txdb txin.prevout.hash (some txindex))

/-- `CTransaction::DisconnectInputs`. -/
def CTransaction.disconnectInputs (crypto : Crypto) (tx : CTransaction) (txdb : TxIndexMap) :
    Outcome TxIndexMap := do
  let txdb ← relinquishLoop (if tx.isCoinBase then [] else tx.vin) txdb
  pure (Function.update txdb (tx.getHash crypto) none)

/-! ## Effect on the index -/

/-- Set the slots that are marked. -/
def CTxIndex.mark (txindex : CTxIndex) (marked : Nat → Prop) [DecidablePred marked]
    (pos : CDiskTxPos) : CTxIndex :=
  { txindex with vSpent := txindex.vSpent.mapIdx fun n slot => if marked n then pos else slot }

/-- The outpoint names output `n` of the transaction. -/
def Names (prevouts : List COutPoint) (hash : UInt256) (n : Nat) : Prop :=
  ∃ prevout ∈ prevouts, prevout.hash = hash ∧ prevout.n.toNat = n

instance (prevouts : List COutPoint) (hash : UInt256) : DecidablePred (Names prevouts hash) :=
  fun n => inferInstanceAs (Decidable (∃ prevout ∈ prevouts, prevout.hash = hash ∧ prevout.n.toNat = n))

/-- Set the slots of the outpoints. -/
def markSpent (view : TxIndexMap) (prevouts : List COutPoint) (pos : CDiskTxPos) : TxIndexMap :=
  fun hash => (view hash).map fun txindex => txindex.mark (Names prevouts hash) pos

/-- The slot of an outpoint. -/
def slot (view : TxIndexMap) (prevout : COutPoint) : Option CDiskTxPos :=
  (view prevout.hash).bind fun txindex => txindex.vSpent[prevout.n.toNat]?

/-- The outpoints a transaction spends. -/
def CTransaction.spends (tx : CTransaction) : List COutPoint :=
  if tx.isCoinBase then [] else tx.vin.map CTxIn.prevout

@[simp]
theorem CTxIndex.mark_pos (txindex : CTxIndex) (marked : Nat → Prop) [DecidablePred marked]
    (pos : CDiskTxPos) : (txindex.mark marked pos).pos = txindex.pos := rfl

@[simp]
theorem CTxIndex.length_mark (txindex : CTxIndex) (marked : Nat → Prop) [DecidablePred marked]
    (pos : CDiskTxPos) : (txindex.mark marked pos).vSpent.length = txindex.vSpent.length := by
  simp [mark]

@[simp]
theorem CTxIndex.getElem?_mark (txindex : CTxIndex) (marked : Nat → Prop) [DecidablePred marked]
    (pos : CDiskTxPos) (n : Nat) :
    (txindex.mark marked pos).vSpent[n]? =
      txindex.vSpent[n]?.map fun slot => if marked n then pos else slot := by
  simp [mark]

theorem CTxIndex.ext_slots {left right : CTxIndex} (pos : left.pos = right.pos)
    (slots : ∀ n : Nat, left.vSpent[n]? = right.vSpent[n]?) : left = right := by
  obtain ⟨_, _⟩ := left
  obtain ⟨_, _⟩ := right
  cases pos
  congr 1
  exact List.ext_getElem? slots

@[simp]
theorem names_nil (hash : UInt256) (n : Nat) : ¬Names [] hash n := by simp [Names]

theorem names_cons (prevout : COutPoint) (prevouts : List COutPoint) (hash : UInt256) (n : Nat) :
    Names (prevout :: prevouts) hash n ↔
      (prevout.hash = hash ∧ prevout.n.toNat = n) ∨ Names prevouts hash n := by
  simp [Names]

/-- Outpoints are told apart by hash and number. -/
theorem names_self_iff {prevout : COutPoint} {prevouts : List COutPoint} :
    Names prevouts prevout.hash prevout.n.toNat ↔ prevout ∈ prevouts := by
  constructor
  · rintro ⟨other, member, same_hash, same_n⟩
    have same : other = prevout := by
      cases other
      cases prevout
      simp_all [UInt32.toNat_inj]
    exact same ▸ member
  · exact fun member => ⟨prevout, member, rfl, rfl⟩

@[simp]
theorem markSpent_nil (view : TxIndexMap) (pos : CDiskTxPos) : markSpent view [] pos = view := by
  funext hash
  cases present : view hash with
  | none => simp [markSpent, present]
  | some txindex =>
      simp only [markSpent, present, Option.map_some, Option.some.injEq]
      apply CTxIndex.ext_slots
      · rfl
      · simp

/-- Marking outpoints after others marks them all. -/
theorem markSpent_append (view : TxIndexMap) (left right : List COutPoint) (pos : CDiskTxPos) :
    markSpent (markSpent view left pos) right pos = markSpent view (left ++ right) pos := by
  funext hash
  cases present : view hash with
  | none => simp [markSpent, present]
  | some txindex =>
      simp only [markSpent, present, Option.map_some, Option.some.injEq]
      apply CTxIndex.ext_slots
      · rfl
      · intro n
        have either : Names (left ++ right) hash n ↔ Names left hash n ∨ Names right hash n := by
          simp only [Names, List.mem_append, or_and_right, exists_or]
        cases slot : txindex.vSpent[n]? with
        | none => simp [slot]
        | some old => by_cases named : Names right hash n <;> simp [slot, either, named]

/-- Setting one slot marks one outpoint. -/
theorem update_eq_markSpent {view : TxIndexMap} {prevout : COutPoint} {txindex : CTxIndex}
    (present : view prevout.hash = some txindex) (pos : CDiskTxPos) :
    Function.update view prevout.hash (some (txindex.setSpent prevout.n.toNat pos)) =
      markSpent view [prevout] pos := by
  funext hash
  by_cases same : hash = prevout.hash
  · subst same
    simp only [markSpent, Function.update_self, present, Option.map_some, Option.some.injEq]
    apply CTxIndex.ext_slots
    · rfl
    · intro n
      simp only [CTxIndex.getElem?_mark, CTxIndex.setSpent, List.getElem?_set, names_cons, true_and,
        names_nil, or_false]
      by_cases here : prevout.n.toNat = n
      · subst here
        by_cases inside : prevout.n.toNat < txindex.vSpent.length <;> simp [inside]
      · simp [here]
  · have unnamed (n : Nat) : ¬Names [prevout] hash n := by
      simp [names_cons, Ne.symm same]
    rw [Function.update_of_ne same]
    cases present : view hash with
    | none => simp [markSpent, present]
    | some other =>
        simp only [markSpent, present, Option.map_some, Option.some.injEq]
        apply CTxIndex.ext_slots
        · rfl
        · simp [unnamed]

theorem overlay_update (mapTestPool txdb : TxIndexMap) (hash : UInt256) (txindex : CTxIndex) :
    overlay (Function.update mapTestPool hash (some txindex)) txdb =
      Function.update (overlay mapTestPool txdb) hash (some txindex) := by
  funext other
  by_cases same : other = hash
  · simp [overlay, same]
  · simp [overlay, Function.update_of_ne same]

/-- The slot of an outpoint after others, or itself, were marked. -/
theorem slot_markSpent (view : TxIndexMap) (prevouts : List COutPoint) (pos : CDiskTxPos)
    (prevout : COutPoint) :
    slot (markSpent view prevouts pos) prevout =
      (slot view prevout).map fun old => if prevout ∈ prevouts then pos else old := by
  simp only [slot, markSpent]
  cases view prevout.hash with
  | none => rfl
  | some txindex => simp [names_self_iff]

end FooCoin

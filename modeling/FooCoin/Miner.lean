import FooCoin.ConnectBlock
import FooCoin.Difficulty
import FooCoin.Mempool

/-!
# Assembling a block

`CreateNewBlock` collects transactions of the memory pool by priority.  The priorities are
floating-point numbers, of which the model keeps what they decide: the candidate that is next, and
whether a candidate may be free.  Both are arbitrary functions.
-/

namespace FooCoin

open Function

/-- `COrphan`: a candidate that waits for others. -/
structure COrphan where
  ptx : CTransaction
  setDependsOn : Finset UInt256
  deriving DecidableEq

/-- The candidates.  A `COrphan*` is the number of the orphan in `vOrphan`. -/
structure Candidates where
  vOrphan : List COrphan
  mapDependers : UInt256 → List Nat
  /-- The queue, in any order. -/
  mapPriority : List CTransaction

/-- What a node's globals, clock and wallet contribute to a call of `CreateNewBlock`. -/
structure MinerContext where
  mempool : CTxMemPool
  txdb : TxIndexMap
  pindexBest : BlockChain
  nBestHeight : Int
  nAdjustedTime : Int
  /-- Where in the queue the candidate of the highest priority is. -/
  choose : List CTransaction → Nat
  /-- `AllowFree` of the candidate's priority. -/
  allowFree : CTransaction → Bool
  /-- The script of the reserved key. -/
  scriptPubKey : List UInt8

/-- `CTransaction::ReadFromDisk` of the transaction of an outpoint. -/
def Env.readPrevout (env : Env) (txdb : TxIndexMap) (prevout : COutPoint) :
    Option (CTxIndex × CTransaction) := do
  let txindex ← txdb prevout.hash
  let tx ← env.readTxAt txindex.pos
  if prevout.n.toNat < tx.vout.length then pure (txindex, tx) else none

namespace Candidates

/-- No candidates. -/
def empty : Candidates where
  vOrphan := []
  mapDependers _ := []
  mapPriority := []

/-- Enter a transaction of the pool; `waiting` are the hashes of the inputs that cannot be read. -/
def add (tx : CTransaction) (waiting : List UInt256) (candidates : Candidates) : Candidates :=
  if waiting = [] then { candidates with mapPriority := tx :: candidates.mapPriority }
  else
    let porphan := candidates.vOrphan.length
    { candidates with
      vOrphan := candidates.vOrphan ++ [{ ptx := tx, setDependsOn := waiting.toFinset }]
      mapDependers :=
        waiting.foldl
          (fun mapDependers hash => update mapDependers hash (mapDependers hash ++ [porphan]))
          candidates.mapDependers }

/-- The body of the loop over the pool. -/
def consider (env : Env) (context : MinerContext) (candidates : Candidates) (tx : CTransaction) :
    Candidates :=
  if tx.isCoinBase ∨ ¬tx.isFinal context.nBestHeight context.nAdjustedTime then candidates
  else
    candidates.add tx
      ((tx.vin.filter fun txin => (env.readPrevout context.txdb txin.prevout).isNone).map
        fun txin => txin.prevout.hash)

/-- The loop over the pool. -/
def gather (env : Env) (context : MinerContext) : Candidates :=
  (context.mempool.mapTx.entries.map fun entry => entry.2.tx).foldl (consider env context) empty

/-- The body of the loop over the orphans that depend on a transaction. -/
def resolve (hash : UInt256) (candidates : Candidates) (porphan : Nat) : Candidates :=
  match candidates.vOrphan[porphan]? with
  | none => candidates
  | some orphan =>
      if orphan.setDependsOn = ∅ then candidates
      else
        let orphan := { orphan with setDependsOn := orphan.setDependsOn.erase hash }
        { candidates with
          vOrphan := candidates.vOrphan.set porphan orphan
          mapPriority :=
            if orphan.setDependsOn = ∅ then orphan.ptx :: candidates.mapPriority
            else candidates.mapPriority }

/-- Queue the orphans that waited for the transaction alone. -/
def release (hash : UInt256) (candidates : Candidates) : Candidates :=
  (candidates.mapDependers hash).foldl (resolve hash) candidates

/-- Take the candidate of the highest priority off the queue. -/
def take (choose : List CTransaction → Nat) (candidates : Candidates) :
    Option (CTransaction × Candidates) :=
  let i := choose candidates.mapPriority % candidates.mapPriority.length
  match candidates.mapPriority[i]? with
  | none => none
  | some tx => some (tx, { candidates with mapPriority := candidates.mapPriority.eraseIdx i })

/-- The orphans that still wait. -/
def waiting (candidates : Candidates) : List COrphan :=
  candidates.vOrphan.filter fun orphan => orphan.setDependsOn ≠ ∅

/-- The candidates that have not been tried. -/
def untried (candidates : Candidates) : List CTransaction :=
  candidates.mapPriority ++ candidates.waiting.map COrphan.ptx

theorem perm_of_take {choose : List CTransaction → Nat} {candidates after : Candidates}
    {tx : CTransaction} (taken : candidates.take choose = some (tx, after)) :
    List.Perm candidates.untried (tx :: after.untried) := by
  simp only [take] at taken
  split at taken
  · simp at taken
  rename_i chosen found
  obtain ⟨inside, rfl⟩ := List.getElem?_eq_some_iff.mp found
  cases taken
  rw [untried, untried, ← List.cons_append]
  exact (List.getElem_cons_eraseIdx_perm inside).symm.append_right _

/-- Changing a waiting orphan changes one place among those that wait. -/
private theorem perm_waiting {candidates : Candidates} {porphan : Nat} {orphan : COrphan}
    (found : candidates.vOrphan[porphan]? = some orphan) (waits : orphan.setDependsOn ≠ ∅) :
    ∃ others, List.Perm candidates.waiting (orphan :: others) ∧
      ∀ changed mapPriority, List.Perm
        (waiting { candidates with vOrphan := candidates.vOrphan.set porphan changed, mapPriority })
        (if changed.setDependsOn = ∅ then others else changed :: others) := by
  obtain ⟨inside, rfl⟩ := List.getElem?_eq_some_iff.mp found
  refine ⟨(candidates.vOrphan.eraseIdx porphan).filter fun orphan => orphan.setDependsOn ≠ ∅,
    ?_, fun changed mapPriority => ?_⟩
  · have split := (List.getElem_cons_eraseIdx_perm inside).symm.filter
      fun orphan : COrphan => orphan.setDependsOn ≠ ∅
    simpa [waiting, waits] using split
  · have split := (List.set_perm_cons_eraseIdx inside changed).filter
      fun orphan : COrphan => orphan.setDependsOn ≠ ∅
    split_ifs with last
    · simpa [waiting, last] using split
    · simpa [waiting, last] using split

private theorem perm_resolve (hash : UInt256) (candidates : Candidates) (porphan : Nat) :
    List.Perm (candidates.resolve hash porphan).untried candidates.untried := by
  simp only [resolve]
  split
  · exact .refl _
  rename_i orphan found
  split_ifs with resolved last
  · exact .refl _
  · obtain ⟨others, before, after⟩ := perm_waiting found resolved
    have left := after { orphan with setDependsOn := orphan.setDependsOn.erase hash }
      (orphan.ptx :: candidates.mapPriority)
    rw [if_pos last] at left
    calc
      _ = orphan.ptx :: candidates.mapPriority ++ _ := rfl
      List.Perm _ (orphan.ptx :: candidates.mapPriority ++ others.map COrphan.ptx) :=
        (left.map _).append_left _
      List.Perm _ (candidates.mapPriority ++ orphan.ptx :: others.map COrphan.ptx) :=
        List.perm_middle.symm
      List.Perm _ candidates.untried := (before.map _).symm.append_left _
  · obtain ⟨others, before, after⟩ := perm_waiting found resolved
    have left := after { orphan with setDependsOn := orphan.setDependsOn.erase hash }
      candidates.mapPriority
    rw [if_neg last] at left
    have ptxs : List.Perm (candidates.waiting.map COrphan.ptx)
        (orphan.ptx :: others.map COrphan.ptx) := before.map _
    exact ((left.map COrphan.ptx).trans ptxs.symm).append_left _

theorem perm_release (hash : UInt256) (candidates : Candidates) :
    List.Perm (candidates.release hash).untried candidates.untried := by
  rw [release]
  generalize candidates.mapDependers hash = dependers
  induction dependers generalizing candidates with
  | nil => exact .refl _
  | cons porphan dependers induction =>
      exact (induction (candidates.resolve hash porphan)).trans (perm_resolve hash candidates porphan)

end Candidates

/-- The variables of the collection loop. -/
structure Assembly where
  mapTestPool : TxIndexMap
  /-- The block's transactions after the coinbase. -/
  vtx : List CTransaction
  nBlockSize : Nat
  nBlockSigOps : Nat
  nFees : Int

/-- The variables before the collection loop. -/
def Assembly.initial : Assembly where
  mapTestPool _ := none
  vtx := []
  nBlockSize := 1000
  nBlockSigOps := 100
  nFees := 0

section Collect

variable (env : Env) (context : MinerContext)

/-- The body of the collection loop up to `// Added`, `none` where it continues with the next
candidate. -/
def tryTransaction (assembly : Assembly) (tx : CTransaction) : Outcome (Option Assembly) :=
  let nTxSize := tx.size
  if maxBlockSizeGen ≤ assembly.nBlockSize + nTxSize then pure none
  else
    let nTxSigOps := tx.getLegacySigOpCount
    if maxBlockSigops ≤ assembly.nBlockSigOps + nTxSigOps then pure none
    else
      let fAllowFree := decide (assembly.nBlockSize + nTxSize < 1500) || context.allowFree tx
      let nMinFee := tx.getMinFee assembly.nBlockSize fAllowFree .GMF_BLOCK
      match tx.fetchInputs env context.mempool.lookup context.txdb assembly.mapTestPool false true with
      | .error _ => pure none
      | .ok inputs => do
          let nTxFees ← int64 ((← tx.getValueIn inputs) - (← tx.getValueOut))
          if nTxFees < nMinFee then pure none
          else do
            let nTxSigOps := nTxSigOps + (← tx.getP2SHSigOpCount inputs)
            if maxBlockSigops ≤ assembly.nBlockSigOps + nTxSigOps then pure none
            else
              match tx.connectInputs env context.nBestHeight inputs assembly.mapTestPool .pool
                context.pindexBest
                { fBlock := false, fMiner := true, fStrictPayToScriptHash := true } with
              | .error .rejected => pure none
              | .error failure => throw failure
              | .ok mapTestPool => do
                  let nFees ← int64 (assembly.nFees + nTxFees)
                  pure (some
                    { mapTestPool :=
                        update mapTestPool (tx.getHash env.crypto)
                          (some (.ofOutputs .pool tx.vout.length))
                      vtx := assembly.vtx ++ [tx]
                      nBlockSize := assembly.nBlockSize + nTxSize
                      nBlockSigOps := assembly.nBlockSigOps + nTxSigOps
                      nFees })

/-- The collection loop. -/
def collectTransactions (candidates : Candidates) (assembly : Assembly) : Outcome Assembly :=
  match _taken : candidates.take context.choose with
  | none => pure assembly
  | some (tx, candidates) =>
      match tryTransaction env context assembly tx with
      | .error failure => throw failure
      | .ok none => collectTransactions candidates assembly
      | .ok (some assembly) =>
          collectTransactions (candidates.release (tx.getHash env.crypto)) assembly
termination_by candidates.untried.length
decreasing_by
  · have fewer := (Candidates.perm_of_take _taken).length_eq
    rw [List.length_cons] at fewer
    omega
  · have fewer := (Candidates.perm_of_take _taken).length_eq
    have same := (candidates.perm_release (tx.getHash env.crypto)).length_eq
    rw [List.length_cons] at fewer
    omega

/-- The coinbase. -/
def coinBaseOf (nValue : Int) : CTransaction where
  nVersion := currentVersion
  vin :=
    [{ prevout := { hash := 0, n := 0xffffffff }, scriptSig := [], nSequence := 0xffffffff }]
  vout := [{ nValue := Int64.ofInt nValue, scriptPubKey := context.scriptPubKey }]
  nLockTime := 0

/-- `CBlockIndex::GetMedianTimePast`. -/
def getMedianTimePast (pindex : BlockChain) : Nat :=
  let pmedian := ((pindex.take 11).map fun entry => entry.nTime.toNat).insertionSort (· ≤ ·)
  pmedian.getD (pmedian.length / 2) 0

/-- `CreateNewBlock`. -/
def createNewBlock : Outcome CBlock :=
  match context.pindexBest with
  | [] => throw .nullPointer
  | pindexPrev :: _ => do
      let assembly ←
        collectTransactions env context (Candidates.gather env context) Assembly.initial
      let nValue ← getBlockValue (pindexPrev.nHeight + 1) assembly.nFees
      let vtx := coinBaseOf context nValue :: assembly.vtx
      let nTime :=
        UInt32.ofInt (max (getMedianTimePast context.pindexBest + 1) context.nAdjustedTime)
      let nBits ← getNextWorkRequired env.fTestNet context.pindexBest nTime
      pure
        { nVersion := 1
          hashPrevBlock := pindexPrev.hashBlock
          hashMerkleRoot := buildMerkleTree env.crypto vtx
          nTime
          nBits
          nNonce := 0
          vtx }

end Collect

end FooCoin

import FooCoin.Mempool
import FooCoin.SampleRun

/-!
# The reverse map of the memory pool

Along every sequence of calls of `accept` and `remove`, `mapNextTx` is exactly the reverse of the
inputs in `mapTx`.
-/

namespace FooCoin

open Function

/-- A call on the pool. -/
inductive PoolCall
  | accept (context : AcceptContext) (fCheckInputs : Bool) (tx : CTransaction)
  | remove (tx : CTransaction)

/-- The transaction a call is about. -/
def PoolCall.tx : PoolCall → CTransaction
  | .accept _ _ tx => tx
  | .remove tx => tx

/-- The pool after a call. -/
def PoolCall.run (env : Env) (call : PoolCall) (pool : CTxMemPool) : CTxMemPool :=
  match call with
  | .accept context fCheckInputs tx =>
      match pool.accept env context fCheckInputs tx with
      | .error _ => pool
      | .ok after => after
  | .remove tx => pool.remove env.crypto tx

/-- The pool after calls, first to last. -/
def runCalls (env : Env) (calls : List PoolCall) (pool : CTxMemPool) : CTxMemPool :=
  calls.foldl (fun pool call => call.run env pool) pool

/-- The input that a pointer of `mapNextTx` refers to spends the outpoint. -/
def CTxMemPool.Spends (pool : CTxMemPool) (point : CInPoint) (prevout : COutPoint) : Prop :=
  ∃ hash node, pool.mapTx.lookup hash = some node ∧ node.address = point.ptx ∧
    (node.tx.vin[point.n]?).map CTxIn.prevout = some prevout

/-- `mapNextTx` is the reverse of the inputs in `mapTx`. -/
structure CTxMemPool.Indexed (pool : CTxMemPool) : Prop where
  /-- It has exactly one entry for each input of each transaction, and no other. -/
  exact : ∀ prevout point, pool.mapNextTx prevout = some point ↔ pool.Spends point prevout
  /-- No two transactions share an outpoint. -/
  disjoint : ∀ {hash hash' node node'}, pool.mapTx.lookup hash = some node →
    pool.mapTx.lookup hash' = some node' → hash ≠ hash' →
      ∀ txin ∈ node.tx.vin, ∀ txin' ∈ node'.tx.vin, txin.prevout ≠ txin'.prevout

/-- What the calls keep. -/
structure PoolInvariant (crypto : Crypto) (known : List CTransaction) (pool : CTxMemPool) :
    Prop where
  exact : ∀ prevout point, pool.mapNextTx prevout = some point ↔ pool.Spends point prevout
  key : ∀ {hash node}, pool.mapTx.lookup hash = some node → node.tx.getHash crypto = hash
  known : ∀ {hash node}, pool.mapTx.lookup hash = some node → node.tx ∈ known
  checked : ∀ {hash node}, pool.mapTx.lookup hash = some node → node.tx.Checked
  address_lt : ∀ {hash node}, pool.mapTx.lookup hash = some node → node.address < pool.nextAddress
  address_inj : ∀ {hash hash' node node'}, pool.mapTx.lookup hash = some node →
    pool.mapTx.lookup hash' = some node' → node.address = node'.address → hash = hash'

/-! ## The loops -/

/-- Entering the inputs of a transaction changes the entries of their outpoints only. -/
private theorem addInPoints_eq_some {ptx i : Nat} {vin : List CTxIn}
    {mapNextTx : COutPoint → Option CInPoint} {prevout : COutPoint} {point : CInPoint}
    (nodup : (vin.map CTxIn.prevout).Nodup) :
    addInPoints ptx i vin mapNextTx prevout = some point ↔
      (∃ k, (vin[k]?).map CTxIn.prevout = some prevout ∧ point = { ptx, n := i + k }) ∨
        (prevout ∉ vin.map CTxIn.prevout ∧ mapNextTx prevout = some point) := by
  induction vin generalizing i mapNextTx with
  | nil => simp [addInPoints]
  | cons txin vin induction =>
      rw [List.map_cons, List.nodup_cons] at nodup
      rw [addInPoints, induction nodup.2]
      by_cases same : prevout = txin.prevout
      · subst same
        constructor
        · rintro (⟨k, input, _⟩ | ⟨_, entered⟩)
          · obtain ⟨other, at_k, prevout_eq⟩ := Option.map_eq_some_iff.mp input
            have member := List.mem_map_of_mem (f := CTxIn.prevout) (List.mem_of_getElem? at_k)
            exact absurd (prevout_eq ▸ member) nodup.1
          · rw [update_self, Option.some.injEq] at entered
            exact .inl ⟨0, by simp, by simp [← entered]⟩
        · rintro (⟨k, input, rfl⟩ | ⟨absent, _⟩)
          · cases k with
            | zero => exact .inr ⟨nodup.1, by simp⟩
            | succ k => exact .inl ⟨k, by simpa using input, by simp; omega⟩
          · simp at absent
      · rw [update_of_ne same]
        have shift : (∃ k, ((txin :: vin)[k]?).map CTxIn.prevout = some prevout ∧
            point = { ptx, n := i + k }) ↔
              ∃ k, (vin[k]?).map CTxIn.prevout = some prevout ∧
                point = { ptx, n := i + 1 + k } := by
          constructor
          · rintro ⟨k, input, rfl⟩
            cases k with
            | zero => simp [Ne.symm same] at input
            | succ k => exact ⟨k, by simpa using input, by simp; omega⟩
          · rintro ⟨k, input, rfl⟩
            exact ⟨k + 1, by simpa using input, by simp; omega⟩
        rw [shift, List.map_cons, List.mem_cons, not_or]
        simp [same]

private theorem eraseInPoints_eq (vin : List CTxIn) (mapNextTx : COutPoint → Option CInPoint)
    (prevout : COutPoint) :
    eraseInPoints vin mapNextTx prevout =
      if prevout ∈ vin.map CTxIn.prevout then none else mapNextTx prevout := by
  induction vin generalizing mapNextTx with
  | nil => simp [eraseInPoints]
  | cons txin vin induction =>
      have step : eraseInPoints (txin :: vin) mapNextTx =
          eraseInPoints vin (update mapNextTx txin.prevout none) := rfl
      rw [step, induction]
      by_cases same : prevout = txin.prevout
      · simp [same]
      · simp [same]

/-! ## The calls -/

/-- What `accept` requires of a transaction that it adds. -/
structure Acceptable (crypto : Crypto) (tx : CTransaction) (pool : CTxMemPool) : Prop where
  checked : tx.Checked
  ordinary : ¬tx.isCoinBase
  absent : pool.mapTx.lookup (tx.getHash crypto) = none
  free : ∀ txin ∈ tx.vin, pool.mapNextTx txin.prevout = none

theorem accept_ok {env : Env} {context : AcceptContext} {fCheckInputs : Bool} {tx : CTransaction}
    {pool after : CTxMemPool} (accepted : pool.accept env context fCheckInputs tx = .ok after) :
    Acceptable env.crypto tx pool ∧ after = pool.addUnchecked (tx.getHash env.crypto) tx := by
  simp only [CTxMemPool.accept, except_bind_eq_ok, require_eq_ok, exists_const] at accepted
  obtain ⟨_, checked, ordinary, _, _, absent, _, free, _, _, last⟩ := accepted
  cases last
  exact ⟨⟨CTransaction.checked_of_checkTransaction checked, ordinary, absent, free⟩, rfl⟩

section Calls

variable {crypto : Crypto} {known : List CTransaction} {pool : CTxMemPool} {tx : CTransaction}

private theorem mem_vin_iff {tx : CTransaction} {prevout : COutPoint} :
    prevout ∈ tx.vin.map CTxIn.prevout ↔
      ∃ n : Nat, (tx.vin[n]?).map CTxIn.prevout = some prevout := by
  simp [List.mem_iff_getElem?]

/-- What is found after an insertion. -/
theorem lookup_insert_cases {mapTx : AList fun _ : UInt256 => PoolNode}
    {hash hash' : UInt256} {node added : PoolNode}
    (found : (mapTx.insert hash' added).lookup hash = some node) :
    (hash = hash' ∧ node = added) ∨ (hash ≠ hash' ∧ mapTx.lookup hash = some node) := by
  by_cases same : hash = hash'
  · subst same
    rw [AList.lookup_insert, Option.some.injEq] at found
    exact .inl ⟨rfl, found.symm⟩
  · rw [AList.lookup_insert_ne same] at found
    exact .inr ⟨same, found⟩

/-- What is found after an erasure. -/
theorem lookup_erase_eq_some {mapTx : AList fun _ : UInt256 => PoolNode}
    {hash hash' : UInt256} {node : PoolNode} :
    (mapTx.erase hash').lookup hash = some node ↔
      hash ≠ hash' ∧ mapTx.lookup hash = some node := by
  by_cases same : hash = hash'
  · subst same
    simp
  · rw [AList.lookup_erase_ne same]
    exact ⟨fun found => ⟨same, found⟩, fun found => found.2⟩

/-- Adding an acceptable transaction keeps the invariant. -/
theorem PoolInvariant.addUnchecked (invariant : PoolInvariant crypto known pool)
    (acceptable : Acceptable crypto tx pool) (tx_known : tx ∈ known) :
    PoolInvariant crypto known (pool.addUnchecked (tx.getHash crypto) tx) := by
  have absent := acceptable.absent
  have added : pool.addUnchecked (tx.getHash crypto) tx =
      { mapTx := pool.mapTx.insert (tx.getHash crypto) { address := pool.nextAddress, tx }
        mapNextTx := addInPoints pool.nextAddress 0 tx.vin pool.mapNextTx
        nextAddress := pool.nextAddress + 1 } := by
    simp [CTxMemPool.addUnchecked, absent]
  have other_hash {hash : UInt256} {node : PoolNode}
      (found : pool.mapTx.lookup hash = some node) : hash ≠ tx.getHash crypto := by
    rintro rfl
    simp [absent] at found
  rw [added]
  refine
    { exact := fun prevout point => ?_
      key := fun found => ?_
      known := fun found => ?_
      checked := fun found => ?_
      address_lt := fun found => ?_
      address_inj := fun found found' same => ?_ }
  · rw [addInPoints_eq_some acceptable.checked.nodup]
    constructor
    · rintro (⟨n, input, rfl⟩ | ⟨_, entered⟩)
      · exact ⟨_, _, AList.lookup_insert _, rfl, by simpa using input⟩
      · obtain ⟨hash, node, found, address, input⟩ := (invariant.exact prevout point).mp entered
        exact ⟨hash, node, (AList.lookup_insert_ne (other_hash found)).trans found, address, input⟩
    · rintro ⟨hash, node, found, address, input⟩
      rcases lookup_insert_cases found with ⟨rfl, rfl⟩ | ⟨_, found⟩
      · obtain ⟨ptx, n⟩ := point
        cases address
        exact .inl ⟨n, input, by simp⟩
      · have entered := (invariant.exact prevout point).mpr ⟨hash, node, found, address, input⟩
        refine .inr ⟨fun member => ?_, entered⟩
        obtain ⟨txin, txin_mem, rfl⟩ := List.mem_map.mp member
        simp [acceptable.free txin txin_mem] at entered
  · rcases lookup_insert_cases found with ⟨rfl, rfl⟩ | ⟨_, found⟩
    · rfl
    · exact invariant.key found
  · rcases lookup_insert_cases found with ⟨rfl, rfl⟩ | ⟨_, found⟩
    · exact tx_known
    · exact invariant.known found
  · rcases lookup_insert_cases found with ⟨rfl, rfl⟩ | ⟨_, found⟩
    · exact acceptable.checked
    · exact invariant.checked found
  · rcases lookup_insert_cases found with ⟨rfl, rfl⟩ | ⟨_, found⟩
    · exact Nat.lt_succ_self _
    · exact Nat.lt_succ_of_lt (invariant.address_lt found)
  · rcases lookup_insert_cases found with ⟨rfl, rfl⟩ | ⟨_, found⟩ <;>
      rcases lookup_insert_cases found' with ⟨rfl, rfl⟩ | ⟨_, found'⟩
    · rfl
    · exact absurd same (invariant.address_lt found').ne'
    · exact absurd same (invariant.address_lt found).ne
    · exact invariant.address_inj found found' same

/-- Removing a known transaction keeps the invariant, known transactions being told apart by their
ids. -/
theorem PoolInvariant.remove (invariant : PoolInvariant crypto known pool)
    (collisionFree : ∀ left ∈ known, ∀ right ∈ known,
      left.getHash crypto = right.getHash crypto → left = right)
    (tx_known : tx ∈ known) : PoolInvariant crypto known (pool.remove crypto tx) := by
  unfold CTxMemPool.remove
  split
  · rename_i present
    obtain ⟨removed, removed_found⟩ := Option.isSome_iff_exists.mp present
    have removed_tx : removed.tx = tx :=
      collisionFree _ (invariant.known removed_found) _ tx_known (invariant.key removed_found)
    refine
      { exact := fun prevout point => ?_
        key := fun found => invariant.key (lookup_erase_eq_some.mp found).2
        known := fun found => invariant.known (lookup_erase_eq_some.mp found).2
        checked := fun found => invariant.checked (lookup_erase_eq_some.mp found).2
        address_lt := fun found => invariant.address_lt (lookup_erase_eq_some.mp found).2
        address_inj := fun found found' => invariant.address_inj (lookup_erase_eq_some.mp found).2
          (lookup_erase_eq_some.mp found').2 }
    simp only [eraseInPoints_eq, CTxMemPool.Spends, lookup_erase_eq_some]
    constructor
    · intro entered
      split at entered
      · simp at entered
      · rename_i outside
        obtain ⟨hash, node, found, address, input⟩ := (invariant.exact prevout point).mp entered
        refine ⟨hash, node, ⟨?_, found⟩, address, input⟩
        rintro rfl
        have same_node : node = removed := Option.some.inj (found.symm.trans removed_found)
        rw [same_node, removed_tx] at input
        exact outside (mem_vin_iff.mpr ⟨point.n, input⟩)
    · rintro ⟨hash, node, ⟨other, found⟩, address, input⟩
      have entered := (invariant.exact prevout point).mpr ⟨hash, node, found, address, input⟩
      rw [if_neg, entered]
      intro member
      obtain ⟨n, removed_input⟩ := mem_vin_iff.mp member
      have removed_entered := (invariant.exact prevout { ptx := removed.address, n }).mpr
        ⟨_, removed, removed_found, rfl, by rwa [removed_tx]⟩
      have same_point := Option.some.inj (entered.symm.trans removed_entered)
      have same_address : node.address = removed.address := by rw [address, same_point]
      exact other (invariant.address_inj found removed_found same_address)
  · exact invariant

theorem PoolInvariant.empty : PoolInvariant crypto known .empty where
  exact := by simp [CTxMemPool.empty, CTxMemPool.Spends]
  key := by simp [CTxMemPool.empty]
  known := by simp [CTxMemPool.empty]
  checked := by simp [CTxMemPool.empty]
  address_lt := by simp [CTxMemPool.empty]
  address_inj := by simp [CTxMemPool.empty]

/-- The invariant makes `mapNextTx` the reverse of `mapTx`. -/
theorem PoolInvariant.indexed (invariant : PoolInvariant crypto known pool) : pool.Indexed where
  exact := invariant.exact
  disjoint := by
    intro hash hash' node node' found found' other txin member txin' member' same
    obtain ⟨n, input⟩ := List.mem_iff_getElem?.mp member
    obtain ⟨n', input'⟩ := List.mem_iff_getElem?.mp member'
    have entered := (invariant.exact txin.prevout { ptx := node.address, n }).mpr
      ⟨hash, node, found, rfl, by simp [input]⟩
    have entered' := (invariant.exact txin.prevout { ptx := node'.address, n := n' }).mpr
      ⟨hash', node', found', rfl, by simp [input', same]⟩
    have same_point := Option.some.inj (entered.symm.trans entered')
    exact other (invariant.address_inj found found' (congrArg CInPoint.ptx same_point))

end Calls

/-- Every call on known transactions keeps the invariant. -/
theorem PoolInvariant.run {env : Env} {known : List CTransaction} {pool : CTxMemPool}
    (invariant : PoolInvariant env.crypto known pool)
    (collisionFree : ∀ left ∈ known, ∀ right ∈ known,
      left.getHash env.crypto = right.getHash env.crypto → left = right)
    {call : PoolCall} (call_known : call.tx ∈ known) :
    PoolInvariant env.crypto known (call.run env pool) := by
  cases call with
  | accept context fCheckInputs tx =>
      simp only [PoolCall.run]
      split
      · exact invariant
      · rename_i after accepted
        obtain ⟨acceptable, rfl⟩ := accept_ok accepted
        exact invariant.addUnchecked acceptable call_known
  | remove tx => exact invariant.remove collisionFree call_known

/-- After every sequence of calls of `accept` and `remove` on transactions that their ids tell
apart, `mapNextTx` is the reverse of the inputs in `mapTx`. -/
theorem runCalls_indexed (env : Env) (calls : List PoolCall)
    (collisionFree : ∀ left ∈ calls, ∀ right ∈ calls,
      left.tx.getHash env.crypto = right.tx.getHash env.crypto → left.tx = right.tx) :
    (runCalls env calls .empty).Indexed := by
  have known_free : ∀ left ∈ calls.map PoolCall.tx, ∀ right ∈ calls.map PoolCall.tx,
      left.getHash env.crypto = right.getHash env.crypto → left = right := by
    simpa using collisionFree
  have kept : ∀ later pool, PoolInvariant env.crypto (calls.map PoolCall.tx) pool →
      (∀ call ∈ later, call ∈ calls) →
        PoolInvariant env.crypto (calls.map PoolCall.tx) (runCalls env later pool) := by
    intro later
    induction later with
    | nil => exact fun pool invariant _ => invariant
    | cons call later induction =>
        intro pool invariant sub
        rw [List.forall_mem_cons] at sub
        exact induction _ (invariant.run known_free (List.mem_map_of_mem sub.1)) sub.2
  exact (kept calls .empty .empty fun call member => member).indexed

/-- A transaction that spends two outputs. -/
def pooledSpend : CTransaction := sampleSpend 1 [{ hash := 5, n := 0 }, { hash := 5, n := 1 }] [7]

/-- It is accepted, one that conflicts with it is not, and an unrelated one is removed again. -/
def pooledCalls : List PoolCall :=
  let context : AcceptContext :=
    { txdb := fun _ => none, pindexBest := [], nBestHeight := 0, rateLimited := false }
  [.accept context false pooledSpend,
    .accept context false (sampleSpend 2 [{ hash := 5, n := 1 }] [7]),
    .accept context false (sampleSpend 3 [pooledSpend.outpoint 0] [7]),
    .remove (sampleSpend 3 [pooledSpend.outpoint 0] [7])]

theorem runCalls_indexed_pooledCalls :
    (runCalls (sampleFiles fun _ => []) pooledCalls .empty).lookup
        (pooledSpend.getHash sampleCrypto) = some pooledSpend ∧
      (runCalls (sampleFiles fun _ => []) pooledCalls .empty).Indexed :=
  ⟨by decide +kernel, runCalls_indexed _ _ (by decide +kernel)⟩

end FooCoin

import FooCoin.Node
import Mathlib.Data.List.AList

/-!
# Loading the block index

`CTxDB::LoadBlockIndex` with `LoadBlockIndexGuts` and `InsertBlockIndex`: the records that the
database cursor delivers become entries of `mapBlockIndex` that point at each other, the chain work
is added up in the order of the heights, and the last blocks of the best chain are verified.
-/

namespace FooCoin

/-- A `CBlockIndex` of `mapBlockIndex`.  A pointer is the hash under which its target is found. -/
structure IndexObject where
  pprev : Option UInt256
  pnext : Option UInt256
  nFile : Nat
  nBlockPos : Nat
  nHeight : Nat
  bnChainWork : Int
  nVersion : Int32
  hashMerkleRoot : UInt256
  nTime : UInt32
  nBits : UInt32
  nNonce : UInt32
  deriving DecidableEq

/-- `CBlockIndex()`. -/
def IndexObject.null : IndexObject where
  pprev := none
  pnext := none
  nFile := 0
  nBlockPos := 0
  nHeight := 0
  bnChainWork := 0
  nVersion := 0
  hashMerkleRoot := 0
  nTime := 0
  nBits := 0
  nNonce := 0

/-- `mapBlockIndex`. -/
abbrev IndexMap := AList fun _ : UInt256 => IndexObject

/-- `CDiskBlockIndex::GetBlockHash`: the hash of the header that the record holds. -/
def CDiskBlockIndex.getBlockHash (crypto : Crypto) (diskindex : CDiskBlockIndex) : UInt256 :=
  CBlock.getHash crypto
    { nVersion := diskindex.entry.nVersion
      hashPrevBlock := diskindex.hashPrev
      hashMerkleRoot := diskindex.entry.hashMerkleRoot
      nTime := diskindex.entry.nTime
      nBits := diskindex.entry.nBits
      nNonce := diskindex.entry.nNonce
      vtx := [] }

/-- `InsertBlockIndex`: a pointer to the entry of a hash, which is made if it is missing. -/
def insertBlockIndex (hash : UInt256) (mapBlockIndex : IndexMap) : Option UInt256 × IndexMap :=
  if hash = 0 then (none, mapBlockIndex)
  else if hash ∈ mapBlockIndex then (some hash, mapBlockIndex)
  else (some hash, mapBlockIndex.insert hash .null)

/-- Fill an entry with the fields that a record holds. -/
def IndexObject.fill (diskindex : CDiskBlockIndex) (pprev pnext : Option UInt256)
    (pindexNew : IndexObject) : IndexObject :=
  { pindexNew with
    pprev
    pnext
    nFile := diskindex.entry.nFile
    nBlockPos := diskindex.entry.nBlockPos
    nHeight := diskindex.entry.nHeight
    nVersion := diskindex.entry.nVersion
    hashMerkleRoot := diskindex.entry.hashMerkleRoot
    nTime := diskindex.entry.nTime
    nBits := diskindex.entry.nBits
    nNonce := diskindex.entry.nNonce }

/-- The globals that `LoadBlockIndexGuts` sets. -/
structure LoadedGuts where
  mapBlockIndex : IndexMap
  pindexGenesisBlock : Option UInt256

section Load

variable (env : Env)

/-- The body of the loop of `LoadBlockIndexGuts`; `CheckIndex` accepts every entry. -/
def loadRecord (guts : LoadedGuts) (diskindex : CDiskBlockIndex) : Outcome LoadedGuts :=
  let hash := diskindex.getBlockHash env.crypto
  let (pindexNew, mapBlockIndex) := insertBlockIndex hash guts.mapBlockIndex
  let (pprev, mapBlockIndex) := insertBlockIndex diskindex.hashPrev mapBlockIndex
  let (pnext, mapBlockIndex) := insertBlockIndex diskindex.hashNext mapBlockIndex
  match pindexNew.bind mapBlockIndex.lookup with
  | none => throw .nullPointer
  | some object =>
      pure
        { mapBlockIndex := mapBlockIndex.insert hash (object.fill diskindex pprev pnext)
          pindexGenesisBlock :=
            if guts.pindexGenesisBlock = none ∧ hash = env.hashGenesisBlock then pindexNew
            else guts.pindexGenesisBlock }

/-- `LoadBlockIndexGuts` over the records that the cursor delivers. -/
def loadBlockIndexGuts : List CDiskBlockIndex → LoadedGuts → Outcome LoadedGuts
  | [], guts => pure guts
  | diskindex :: records, guts => do loadBlockIndexGuts records (← loadRecord env guts diskindex)

end Load

/-! ## The chain work -/

/-- The height of the entry of a hash. -/
def IndexMap.height (mapBlockIndex : IndexMap) (hash : UInt256) : Nat :=
  ((mapBlockIndex.lookup hash).map IndexObject.nHeight).getD 0

/-- The order of `pair<int, CBlockIndex*>`, with the address of each entry. -/
def IndexMap.heightOrder (mapBlockIndex : IndexMap) (address : UInt256 → Nat)
    (left right : UInt256) : Bool :=
  decide (mapBlockIndex.height left < mapBlockIndex.height right) ||
    decide (mapBlockIndex.height left = mapBlockIndex.height right) &&
      decide (address left ≤ address right)

/-- `vSortedByHeight`. -/
def IndexMap.sortedByHeight (mapBlockIndex : IndexMap) (address : UInt256 → Nat) : List UInt256 :=
  mapBlockIndex.keys.mergeSort (mapBlockIndex.heightOrder address)

/-- The `bnChainWork` of the entry that a pointer leads to, 0 for null. -/
def IndexMap.chainWork (mapBlockIndex : IndexMap) (pindex : Option UInt256) : Int :=
  ((pindex.bind mapBlockIndex.lookup).map IndexObject.bnChainWork).getD 0

/-- The body of the loop over `vSortedByHeight`. -/
def IndexMap.addChainWork (mapBlockIndex : IndexMap) (hash : UInt256) : IndexMap :=
  match mapBlockIndex.lookup hash with
  | none => mapBlockIndex
  | some pindex =>
      mapBlockIndex.insert hash
        { pindex with
          bnChainWork := mapBlockIndex.chainWork pindex.pprev + getBlockWork pindex.nBits }

/-! ## The verification -/

/-- What the verification of the last blocks depends on.  The checks of the levels above 1 are a
parameter. -/
structure Verification where
  /-- `-checklevel`. -/
  nCheckLevel : Int
  /-- `-checkblocks`. -/
  nCheckDepth : Int
  /-- `GetAdjustedTime()`. -/
  nAdjustedTime : Int
  /-- The checks of the higher levels find the block of a hash bad. -/
  findsBad : UInt256 → CBlock → Bool

/-- `nCheckDepth` as the loop uses it. -/
def Verification.depth (verification : Verification) (nBestHeight : Int) : Int :=
  let nCheckDepth :=
    if verification.nCheckDepth = 0 then 1000000000 else verification.nCheckDepth
  if nBestHeight < nCheckDepth then nBestHeight else nCheckDepth

/-- A block of the best chain is found bad. -/
def Verification.bad (verification : Verification) (crypto : Crypto) (hash : UInt256)
    (block : CBlock) : Outcome Bool :=
  if verification.nCheckLevel ≤ 0 then pure false
  else
    match block.checkBlock crypto verification.nAdjustedTime with
    | .error .rejected => pure true
    | .error failure => throw failure
    | .ok () => pure (decide (1 < verification.nCheckLevel) && verification.findsBad hash block)

/-- `CBlock::ReadFromDisk` of the entry of a hash. -/
def Env.readBlockOf (env : Env) (hash : UInt256) (pindex : IndexObject) : Option CBlock := do
  let block ← env.readBlock pindex.nFile pindex.nBlockPos
  if block.getHash env.crypto = hash then pure block else none

/-- The loop that verifies the best chain from an entry down, with `pindexFork`.  The fuel bounds
the number of entries; `none` where the pointers lead to more. -/
def verifyBlocks (env : Env) (verification : Verification) (mapBlockIndex : IndexMap)
    (nBestHeight : Int) : Nat → UInt256 → Option UInt256 → Option (Outcome (Option UInt256))
  | 0, _, _ => none
  | fuel + 1, hash, pindexFork =>
      match mapBlockIndex.lookup hash with
      | none => some (.error .nullPointer)
      | some pindex =>
          match pindex.pprev with
          | none => some (.ok pindexFork)
          | some pprev =>
              if (pindex.nHeight : Int) < nBestHeight - verification.depth nBestHeight then
                some (.ok pindexFork)
              else
                match env.readBlockOf hash pindex with
                | none => some (.error .rejected)
                | some block =>
                    match verification.bad env.crypto hash block with
                    | .error failure => some (.error failure)
                    | .ok bad =>
                        verifyBlocks env verification mapBlockIndex nBestHeight fuel pprev
                          (if bad then some pprev else pindexFork)

/-! ## `LoadBlockIndex` -/

/-- The globals after `LoadBlockIndex`.  `SetBestChain` then moves the best chain back to
`pindexFork`, unless that is null. -/
structure Startup where
  mapBlockIndex : IndexMap
  pindexGenesisBlock : Option UInt256
  hashBestChain : UInt256
  pindexBest : Option UInt256
  nBestHeight : Int
  bnBestChainWork : Int
  pindexFork : Option UInt256

/-- `CTxDB::LoadBlockIndex` on the records that the cursor delivers and the `hashBestChain` record,
up to the move to `pindexFork`; `none` where the verification never ends. -/
def loadBlockIndex (env : Env) (address : UInt256 → Nat) (verification : Verification)
    (records : List CDiskBlockIndex) (hashBestChain : Option UInt256) : Option (Outcome Startup) :=
  match loadBlockIndexGuts env records { mapBlockIndex := ∅, pindexGenesisBlock := none } with
  | .error failure => some (.error failure)
  | .ok guts =>
      let mapBlockIndex :=
        (guts.mapBlockIndex.sortedByHeight address).foldl IndexMap.addChainWork guts.mapBlockIndex
      match hashBestChain with
      | none =>
          if guts.pindexGenesisBlock = none then
            some (.ok
              { mapBlockIndex
                pindexGenesisBlock := none
                hashBestChain := 0
                pindexBest := none
                nBestHeight := -1
                bnBestChainWork := 0
                pindexFork := none })
          else some (.error .rejected)
      | some hashBestChain =>
          match mapBlockIndex.lookup hashBestChain with
          | none => some (.error .rejected)
          | some pindexBest =>
              (verifyBlocks env verification mapBlockIndex pindexBest.nHeight
                mapBlockIndex.keys.length hashBestChain none).map fun outcome =>
                  outcome.map fun pindexFork =>
                    { mapBlockIndex
                      pindexGenesisBlock := guts.pindexGenesisBlock
                      hashBestChain
                      pindexBest := some hashBestChain
                      nBestHeight := pindexBest.nHeight
                      bnBestChainWork := pindexBest.bnChainWork
                      pindexFork }

/-! ## What the records become -/

/-- The pointer that stands for a hash in a record. -/
def pointerTo (hash : UInt256) : Option UInt256 := if hash = 0 then none else some hash

/-- The entry that a record becomes, without its chain work. -/
def CDiskBlockIndex.object (diskindex : CDiskBlockIndex) : IndexObject :=
  IndexObject.null.fill diskindex (pointerTo diskindex.hashPrev) (pointerTo diskindex.hashNext)

/-- Every record is stored under its own hash, and links to records only. -/
structure Linked (crypto : Crypto) (stored : UInt256 → Option CDiskBlockIndex) : Prop where
  key : ∀ hash diskindex, stored hash = some diskindex →
    diskindex.getBlockHash crypto = hash ∧ hash ≠ 0
  prev : ∀ hash diskindex, stored hash = some diskindex → diskindex.hashPrev ≠ 0 →
    (stored diskindex.hashPrev).isSome
  next : ∀ hash diskindex, stored hash = some diskindex → diskindex.hashNext ≠ 0 →
    (stored diskindex.hashNext).isSome

/-- A cursor over the records delivers each of them once. -/
def CursorDelivers (stored : UInt256 → Option CDiskBlockIndex) (records : List CDiskBlockIndex) :
    Prop :=
  ∃ keys : List UInt256, keys.Nodup ∧ (∀ hash, (stored hash).isSome → hash ∈ keys) ∧
    List.Forall₂ (fun hash diskindex => stored hash = some diskindex) keys records

/-- The map while the records of some keys are still to come. -/
private structure Loading (stored : UInt256 → Option CDiskBlockIndex) (keys : List UInt256)
    (mapBlockIndex : IndexMap) : Prop where
  done : ∀ hash diskindex, stored hash = some diskindex → hash ∉ keys →
    mapBlockIndex.lookup hash = some diskindex.object
  pending : ∀ hash ∈ keys, ∀ pindex, mapBlockIndex.lookup hash = some pindex → pindex = .null
  named : ∀ hash ∈ mapBlockIndex, (stored hash).isSome

section Loading

variable {env : Env} {stored : UInt256 → Option CDiskBlockIndex} {keys : List UInt256}
  {mapBlockIndex : IndexMap}

/-- A pointer to a recorded hash leads to an entry, and making it leaves the others alone. -/
private theorem Loading.insertBlockIndex (loading : Loading stored keys mapBlockIndex)
    {hash : UInt256} (known : hash ≠ 0 → (stored hash).isSome) :
    ∃ after, insertBlockIndex hash mapBlockIndex = (pointerTo hash, after) ∧
      Loading stored keys after ∧ (hash ≠ 0 → hash ∈ after) ∧
      ∀ other ∈ mapBlockIndex, other ∈ after := by
  by_cases null : hash = 0
  · exact ⟨mapBlockIndex, by simp [FooCoin.insertBlockIndex, pointerTo, null], loading,
      fun hash_ne => absurd null hash_ne, fun _ member => member⟩
  have pointer : pointerTo hash = some hash := if_neg null
  by_cases present : hash ∈ mapBlockIndex
  · refine ⟨mapBlockIndex, ?_, loading, fun _ => present, fun _ member => member⟩
    rw [FooCoin.insertBlockIndex, if_neg null, if_pos present, pointer]
  refine ⟨mapBlockIndex.insert hash .null, ?_, ⟨?_, ?_, ?_⟩, fun _ => by simp,
    fun other member => by simp [member]⟩
  · rw [FooCoin.insertBlockIndex, if_neg null, if_neg present, pointer]
  · intro other diskindex found other_done
    have loaded := loading.done other diskindex found other_done
    have same : other ≠ hash := by
      rintro rfl
      simp [AList.lookup_eq_none.mpr present] at loaded
    rwa [AList.lookup_insert_ne same]
  · intro other member pindex found
    by_cases own : other = hash
    · subst own
      rw [AList.lookup_insert] at found
      exact (Option.some.inj found).symm
    · rw [AList.lookup_insert_ne own] at found
      exact loading.pending other member pindex found
  · intro other member
    obtain rfl | older := (AList.mem_insert _).mp member
    · exact known null
    · exact loading.named other older

/-- Filling the entry of a record. -/
private theorem Loading.fill {hash : UInt256} {diskindex : CDiskBlockIndex}
    (loading : Loading stored (hash :: keys) mapBlockIndex) (new : hash ∉ keys)
    (found : stored hash = some diskindex) :
    Loading stored keys (mapBlockIndex.insert hash diskindex.object) where
  done := by
    intro other record stored_other other_done
    by_cases same : other = hash
    · subst same
      cases found.symm.trans stored_other
      exact AList.lookup_insert _
    · rw [AList.lookup_insert_ne same]
      exact loading.done other record stored_other (by simp [same, other_done])
  pending := by
    intro other member pindex lookup
    have same : other ≠ hash := by
      rintro rfl
      exact new member
    rw [AList.lookup_insert_ne same] at lookup
    exact loading.pending other (List.mem_cons_of_mem _ member) pindex lookup
  named := by
    intro other member
    obtain rfl | older := (AList.mem_insert _).mp member
    · simp [found]
    · exact loading.named other older

/-- One record fills its own entry. -/
private theorem loadRecord_ok (linked : Linked env.crypto stored) {guts : LoadedGuts}
    {hash : UInt256} {diskindex : CDiskBlockIndex}
    (loading : Loading stored (hash :: keys) guts.mapBlockIndex) (new : hash ∉ keys)
    (found : stored hash = some diskindex) :
    ∃ after, loadRecord env guts diskindex = .ok after ∧
      Loading stored keys after.mapBlockIndex := by
  obtain ⟨key, hash_ne⟩ := linked.key hash diskindex found
  have known : hash ≠ 0 → (stored hash).isSome := fun _ => by simp [found]
  obtain ⟨map₁, own, loading₁, present₁, _⟩ := loading.insertBlockIndex known
  obtain ⟨map₂, pprev, loading₂, _, kept₂⟩ :=
    loading₁.insertBlockIndex (linked.prev hash diskindex found)
  obtain ⟨map₃, pnext, loading₃, _, kept₃⟩ :=
    loading₂.insertBlockIndex (linked.next hash diskindex found)
  have present := kept₃ hash (kept₂ hash (present₁ hash_ne))
  obtain ⟨object, entry⟩ := Option.isSome_iff_exists.mp (AList.lookup_isSome.mpr present)
  have empty := loading₃.pending hash List.mem_cons_self object entry
  subst empty
  have pointer : pointerTo hash = some hash := if_neg hash_ne
  simp only [loadRecord, key, own, pprev, pnext, pointer, Option.bind_some, entry]
  exact ⟨_, rfl, loading₃.fill new found⟩

private theorem loadBlockIndexGuts_loading (linked : Linked env.crypto stored)
    {records : List CDiskBlockIndex} (nodup : keys.Nodup)
    (all : List.Forall₂ (fun hash diskindex => stored hash = some diskindex) keys records)
    {guts : LoadedGuts} (loading : Loading stored keys guts.mapBlockIndex) :
    ∃ after, loadBlockIndexGuts env records guts = .ok after ∧
      Loading stored [] after.mapBlockIndex := by
  induction all generalizing guts with
  | nil => exact ⟨guts, rfl, loading⟩
  | cons found _ induction =>
      obtain ⟨new, others⟩ := List.nodup_cons.mp nodup
      obtain ⟨middle, first, loading_middle⟩ := loadRecord_ok linked loading new found
      obtain ⟨after, rest, loading_after⟩ := induction others loading_middle
      refine ⟨after, ?_, loading_after⟩
      simp only [loadBlockIndexGuts, first]
      exact rest

/-- Linked records, delivered in any order, become entries that point at each other. -/
theorem loadBlockIndexGuts_ok (linked : Linked env.crypto stored) {records : List CDiskBlockIndex}
    (delivered : CursorDelivers stored records) :
    ∃ guts, loadBlockIndexGuts env records { mapBlockIndex := ∅, pindexGenesisBlock := none } =
        .ok guts ∧
      ∀ hash, guts.mapBlockIndex.lookup hash = (stored hash).map CDiskBlockIndex.object := by
  obtain ⟨keys, nodup, complete, all⟩ := delivered
  have start : Loading stored keys ∅ := by
    refine ⟨?_, ?_, ?_⟩
    · intro hash diskindex found missing
      exact absurd (complete hash (by simp [found])) missing
    · intro hash _ pindex found
      simp at found
    · intro hash member
      simp at member
  obtain ⟨guts, loaded, loading⟩ := @loadBlockIndexGuts_loading env stored keys linked records
    nodup all { mapBlockIndex := ∅, pindexGenesisBlock := none } start
  refine ⟨guts, loaded, fun hash => ?_⟩
  cases found : stored hash with
  | some diskindex => exact loading.done hash diskindex found (by simp)
  | none =>
      rw [Option.map_none, AList.lookup_eq_none]
      intro member
      simpa [found] using loading.named hash member

end Loading

/-! ## What the chain work becomes -/

section ChainWork

variable {mapBlockIndex : IndexMap} {address : UInt256 → Nat}

/-- The sorted entries are those of the map, by height. -/
theorem sortedByHeight_spec (mapBlockIndex : IndexMap) (address : UInt256 → Nat) :
    (∀ hash, hash ∈ mapBlockIndex.sortedByHeight address ↔ hash ∈ mapBlockIndex) ∧
      (mapBlockIndex.sortedByHeight address).Nodup ∧
      (mapBlockIndex.sortedByHeight address).Pairwise fun left right =>
        mapBlockIndex.height left ≤ mapBlockIndex.height right := by
  have perm := List.mergeSort_perm mapBlockIndex.keys (mapBlockIndex.heightOrder address)
  refine ⟨fun hash => perm.mem_iff, perm.nodup_iff.mpr mapBlockIndex.keys_nodup, ?_⟩
  refine (List.pairwise_mergeSort ?_ ?_ mapBlockIndex.keys).imp ?_
  · intro left middle right
    simp only [IndexMap.heightOrder, Bool.or_eq_true, Bool.and_eq_true, decide_eq_true_eq]
    omega
  · intro left right
    simp only [IndexMap.heightOrder, Bool.or_eq_true, Bool.and_eq_true, decide_eq_true_eq]
    omega
  · intro left right
    simp only [IndexMap.heightOrder, Bool.or_eq_true, Bool.and_eq_true, decide_eq_true_eq]
    omega

/-- An entry with its chain work. -/
def IndexObject.withWork (bnChainWork : Int) (pindex : IndexObject) : IndexObject :=
  { pindex with bnChainWork }

/-- The amounts are the chain work of the entries: each adds its own to that of its predecessor,
which is lower. -/
structure WorkOf (mapBlockIndex : IndexMap) (work : UInt256 → Int) : Prop where
  sum : ∀ hash pindex, mapBlockIndex.lookup hash = some pindex →
    work hash = (pindex.pprev.map work).getD 0 + getBlockWork pindex.nBits
  lower : ∀ hash pindex pprev, mapBlockIndex.lookup hash = some pindex →
    pindex.pprev = some pprev →
      pprev ∈ mapBlockIndex ∧ mapBlockIndex.height pprev < mapBlockIndex.height hash

/-- The map while the work of some entries is still to be added up. -/
private def Working (mapBlockIndex : IndexMap) (work : UInt256 → Int) (rest : List UInt256)
    (current : IndexMap) : Prop :=
  ∀ hash, (hash ∈ rest → current.lookup hash = mapBlockIndex.lookup hash) ∧
    (hash ∉ rest →
      current.lookup hash = (mapBlockIndex.lookup hash).map (IndexObject.withWork (work hash)))

private theorem Working.step {work : UInt256 → Int} {hash : UInt256} {rest : List UInt256}
    {current : IndexMap} (spec : WorkOf mapBlockIndex work)
    (working : Working mapBlockIndex work (hash :: rest) current) (new : hash ∉ rest)
    (present : hash ∈ mapBlockIndex)
    (higher : ∀ other ∈ rest, mapBlockIndex.height hash ≤ mapBlockIndex.height other) :
    Working mapBlockIndex work rest (current.addChainWork hash) := by
  obtain ⟨pindex, found⟩ := Option.isSome_iff_exists.mp (AList.lookup_isSome.mpr present)
  have own : current.lookup hash = some pindex :=
    ((working hash).1 List.mem_cons_self).trans found
  have below : current.chainWork pindex.pprev = (pindex.pprev.map work).getD 0 := by
    cases pprev : pindex.pprev with
    | none => rfl
    | some previous =>
        obtain ⟨member, less⟩ := spec.lower hash pindex previous found pprev
        obtain ⟨lower, lower_found⟩ :=
          Option.isSome_iff_exists.mp (AList.lookup_isSome.mpr member)
        -- the predecessor is lower than everything that is still to come
        have done : previous ∉ hash :: rest := by
          intro pending
          obtain rfl | later := List.mem_cons.mp pending
          · exact absurd less (lt_irrefl _)
          · exact absurd (higher previous later) (not_le.mpr less)
        simp only [IndexMap.chainWork, Option.bind_some, (working previous).2 done, lower_found,
          Option.map_some, Option.getD_some]
        rfl
  intro other
  simp only [IndexMap.addChainWork, own, below]
  by_cases same : other = hash
  · subst same
    refine ⟨fun member => absurd member new, fun _ => ?_⟩
    rw [AList.lookup_insert, found, Option.map_some, spec.sum other pindex found]
    rfl
  · rw [AList.lookup_insert_ne same]
    refine ⟨fun member => (working other).1 (List.mem_cons_of_mem _ member), fun absent => ?_⟩
    refine (working other).2 fun pending => ?_
    exact (List.mem_cons.mp pending).elim same absent

private theorem Working.foldl {work : UInt256 → Int} {rest : List UInt256} {current : IndexMap}
    (spec : WorkOf mapBlockIndex work) (working : Working mapBlockIndex work rest current)
    (nodup : rest.Nodup) (present : ∀ hash ∈ rest, hash ∈ mapBlockIndex)
    (sorted : rest.Pairwise fun left right =>
      mapBlockIndex.height left ≤ mapBlockIndex.height right) :
    Working mapBlockIndex work [] (rest.foldl IndexMap.addChainWork current) := by
  induction rest generalizing current with
  | nil => exact working
  | cons hash rest induction =>
      obtain ⟨new, others⟩ := List.nodup_cons.mp nodup
      obtain ⟨member, members⟩ := List.forall_mem_cons.mp present
      obtain ⟨higher, later⟩ := List.pairwise_cons.mp sorted
      exact induction (working.step spec new member higher) others members later

/-- The loop over the sorted entries adds up the chain work of all of them. -/
theorem lookup_foldl_addChainWork {work : UInt256 → Int} (spec : WorkOf mapBlockIndex work)
    (hash : UInt256) :
    ((mapBlockIndex.sortedByHeight address).foldl IndexMap.addChainWork mapBlockIndex).lookup hash =
      (mapBlockIndex.lookup hash).map (IndexObject.withWork (work hash)) := by
  obtain ⟨members, nodup, sorted⟩ := sortedByHeight_spec mapBlockIndex address
  have start : Working mapBlockIndex work (mapBlockIndex.sortedByHeight address) mapBlockIndex := by
    refine fun hash => ⟨fun _ => rfl, fun absent => ?_⟩
    have missing : hash ∉ mapBlockIndex := fun present => absent ((members hash).mpr present)
    rw [AList.lookup_eq_none.mpr missing, Option.map_none]
  have final := start.foldl spec nodup (fun hash member => (members hash).mp member) sorted
  exact (final hash).2 List.not_mem_nil

end ChainWork

end FooCoin

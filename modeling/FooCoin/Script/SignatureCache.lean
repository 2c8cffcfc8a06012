import FooCoin.Library.SortedSet
import FooCoin.Script.Signature

/-!
# The cache of valid signatures

`CheckSig` remembers the signatures it has verified and looks a signature up before it verifies one
again.  Along every history of calls the cache holds only what `CKey::Verify` accepts, so the cached
check answers as `checkSig` does, whichever entries the evictions choose.
-/

namespace FooCoin

/-- `sigdata_type`: signature hash, signature and public key. -/
structure SigData where
  hash : UInt256
  vchSig : Valtype
  pubKey : Valtype
  deriving DecidableEq

/-- The order of `sigdata_type`, by its three fields in turn. -/
def SigData.key (data : SigData) : Nat ×ₗ List Nat ×ₗ List Nat :=
  toLex (data.hash.toNat, toLex (data.vchSig.map UInt8.toNat, data.pubKey.map UInt8.toNat))

private theorem bytes_injective : Function.Injective (List.map UInt8.toNat) :=
  List.map_injective_iff.mpr fun _ _ => UInt8.toNat.inj

theorem SigData.key_injective : Function.Injective SigData.key := by
  intro left right same
  obtain ⟨hash, vchSig, pubKey⟩ := left
  obtain ⟨hash', vchSig', pubKey'⟩ := right
  simp only [SigData.key, EmbeddingLike.apply_eq_iff_eq, Prod.mk.injEq] at same
  obtain ⟨same_hash, same_sig, same_key⟩ := same
  obtain rfl := BitVec.eq_of_toNat_eq same_hash
  obtain rfl := bytes_injective same_sig
  obtain rfl := bytes_injective same_key
  rfl

/-- `CSignatureCache`: the set `setValid`. -/
abbrev CSignatureCache := SortedSet SigData.key

namespace CSignatureCache

/-- `Get`. -/
def get (setValid : CSignatureCache) (data : SigData) : Bool := setValid.contains data

/-- The entry that a random hash evicts: its lower bound, or the first one past the end. -/
def victim (setValid : CSignatureCache) (randomHash : UInt256) : Option SigData :=
  match setValid.lowerBound (SigData.key ⟨randomHash, [], []⟩) with
  | some data => some data
  | none => setValid.elements.head?

/-- The eviction loop of `Set`. -/
def evict (nMaxCacheSize : Int) (randomHash : Nat → UInt256) :
    Nat → CSignatureCache → CSignatureCache
  | 0, setValid => setValid
  | fuel + 1, setValid =>
      if nMaxCacheSize < setValid.size then
        match victim setValid (randomHash fuel) with
        | none => setValid
        | some data => evict nMaxCacheSize randomHash fuel (setValid.erase data)
      else setValid

/-- `Set`; every eviction draws its own random hash. -/
def set (nMaxCacheSize : Int) (randomHash : Nat → UInt256) (setValid : CSignatureCache)
    (data : SigData) : CSignatureCache :=
  if nMaxCacheSize ≤ 0 then setValid
  else (evict nMaxCacheSize randomHash setValid.size setValid).insert data

end CSignatureCache

open CSignatureCache

/-- A call of `CheckSig` with the random hashes that it draws. -/
structure CheckSigCall where
  vchSig : Valtype
  vchPubKey : Valtype
  scriptCode : CScript
  txTo : CTransaction
  nIn : Nat
  nHashType : Int32
  randomHash : Nat → UInt256

/-- `CheckSig` with the cache. -/
def cachedCheckSig (crypto : Crypto) (nMaxCacheSize : Int) (call : CheckSigCall)
    (signatureCache : CSignatureCache) : Bool × CSignatureCache :=
  match call.vchSig.getLast? with
  | none => (false, signatureCache)
  | some back =>
      let hashType := Int32.ofNat back.toNat
      if call.nHashType ≠ 0 ∧ call.nHashType ≠ hashType then (false, signatureCache)
      else
        let vchSig := call.vchSig.dropLast
        let sighash := signatureHash crypto call.scriptCode call.txTo call.nIn hashType
        if get signatureCache ⟨sighash, vchSig, call.vchPubKey⟩ then (true, signatureCache)
        else if !crypto.SetPubKey call.vchPubKey then (false, signatureCache)
        else if !crypto.Verify call.vchPubKey sighash vchSig then (false, signatureCache)
        else
          (true, set nMaxCacheSize call.randomHash signatureCache
            ⟨sighash, vchSig, call.vchPubKey⟩)

/-- The answers of a history of calls, and the cache after them. -/
def cachedCheckSigs (crypto : Crypto) (nMaxCacheSize : Int) :
    List CheckSigCall → CSignatureCache → List Bool × CSignatureCache
  | [], signatureCache => ([], signatureCache)
  | call :: calls, signatureCache =>
      let (answer, signatureCache) := cachedCheckSig crypto nMaxCacheSize call signatureCache
      let (answers, signatureCache) := cachedCheckSigs crypto nMaxCacheSize calls signatureCache
      (answer :: answers, signatureCache)

/-- The call without the cache. -/
def CheckSigCall.uncached (crypto : Crypto) (call : CheckSigCall) : Bool :=
  checkSig crypto call.txTo call.nIn call.nHashType call.vchSig call.vchPubKey call.scriptCode

/-- Every entry is a signature that `CKey::Verify` accepts, and the cache is not over its limit by
more than one entry. -/
structure CSignatureCache.Sound (crypto : Crypto) (nMaxCacheSize : Int)
    (setValid : CSignatureCache) : Prop where
  /-- The entries verify. -/
  valid : ∀ data ∈ setValid.elements,
    crypto.SetPubKey data.pubKey ∧ crypto.Verify data.pubKey data.hash data.vchSig
  /-- A positive limit is kept up to one entry. -/
  size_le : 0 < nMaxCacheSize → setValid.size ≤ nMaxCacheSize + 1
  /-- Without one the cache stays empty. -/
  size_eq : nMaxCacheSize ≤ 0 → setValid.size = 0

variable {crypto : Crypto} {nMaxCacheSize : Int} {setValid : CSignatureCache}
  {randomHash : Nat → UInt256}

private theorem mem_of_victim {randomHash : UInt256} {data : SigData}
    (chosen : victim setValid randomHash = some data) : data ∈ setValid.elements := by
  simp only [victim] at chosen
  split at chosen
  · cases chosen
    exact SortedSet.mem_of_lowerBound ‹_›
  · exact List.mem_of_mem_head? chosen

private theorem exists_victim (randomHash : UInt256) (nonempty : 0 < setValid.size) :
    ∃ data, victim setValid randomHash = some data := by
  simp only [victim]
  split
  · exact ⟨_, rfl⟩
  · exact ⟨_, List.head?_eq_some_head (List.ne_nil_of_length_pos nonempty)⟩

private theorem mem_of_evict {fuel : Nat} {data : SigData}
    (mem : data ∈ (evict nMaxCacheSize randomHash fuel setValid).elements) :
    data ∈ setValid.elements := by
  induction fuel generalizing setValid with
  | zero => exact mem
  | succ fuel induction =>
      simp only [evict] at mem
      split at mem
      · split at mem
        · exact mem
        · exact List.mem_of_mem_filter (induction mem)
      · exact mem

/-- Every eviction removes an entry, so the loop ends with the cache at its limit. -/
private theorem size_evict_le {fuel : Nat} (nonneg : 0 ≤ nMaxCacheSize)
    (enough : setValid.size ≤ fuel) :
    ((evict nMaxCacheSize randomHash fuel setValid).size : Int) ≤ nMaxCacheSize := by
  induction fuel generalizing setValid with
  | zero =>
      simp only [evict]
      omega
  | succ fuel induction =>
      simp only [evict]
      split
      · rename_i above
        have nonempty : 0 < setValid.size := by omega
        obtain ⟨data, chosen⟩ := exists_victim (randomHash fuel) nonempty
        have smaller := SortedSet.size_erase_lt (mem_of_victim chosen)
        simp only [chosen]
        exact induction (by omega)
      · omega

private theorem CSignatureCache.Sound.set {data : SigData} (sound : Sound crypto nMaxCacheSize setValid)
    (verifies : crypto.SetPubKey data.pubKey ∧ crypto.Verify data.pubKey data.hash data.vchSig) :
    Sound crypto nMaxCacheSize (set nMaxCacheSize randomHash setValid data) := by
  simp only [CSignatureCache.set]
  split
  · exact sound
  · rename_i positive
    have positive : 0 < nMaxCacheSize := not_le.mp positive
    constructor
    · intro entry mem
      rcases SortedSet.mem_insertInto mem with rfl | old
      · exact verifies
      · exact sound.valid entry (mem_of_evict old)
    · intro _
      have evicted : ((evict nMaxCacheSize randomHash setValid.size setValid).size : Int) ≤
          nMaxCacheSize := size_evict_le positive.le le_rfl
      have grown := SortedSet.size_insert_le
        (evict nMaxCacheSize randomHash setValid.size setValid) data
      omega
    · intro nonpos
      omega

/-- A hit answers what the verification would. -/
private theorem CSignatureCache.Sound.of_get {data : SigData} (sound : Sound crypto nMaxCacheSize setValid)
    (hit : get setValid data) :
    crypto.SetPubKey data.pubKey ∧ crypto.Verify data.pubKey data.hash data.vchSig := by
  simp only [get, SortedSet.contains, List.any_eq_true, decide_eq_true_eq] at hit
  obtain ⟨entry, mem, same⟩ := hit
  obtain rfl := SigData.key_injective same
  exact sound.valid _ mem

/-- One call answers as without the cache and keeps the cache sound. -/
private theorem cachedCheckSig_eq (call : CheckSigCall)
    (sound : Sound crypto nMaxCacheSize setValid) :
    (cachedCheckSig crypto nMaxCacheSize call setValid).1 = call.uncached crypto ∧
      Sound crypto nMaxCacheSize (cachedCheckSig crypto nMaxCacheSize call setValid).2 := by
  cases last : call.vchSig.getLast? with
  | none => simp [cachedCheckSig, CheckSigCall.uncached, checkSig, last, sound]
  | some back =>
      simp only [cachedCheckSig, CheckSigCall.uncached, checkSig, last]
      split
      · exact ⟨rfl, sound⟩
      · split
        · rename_i hit
          have verifies := sound.of_get hit
          simp [verifies, sound]
        · cases accepted : crypto.SetPubKey call.vchPubKey with
          | false => simp [sound]
          | true =>
              cases verified : crypto.Verify call.vchPubKey _ call.vchSig.dropLast with
              | false => simp [sound]
              | true => exact ⟨rfl, sound.set ⟨accepted, verified⟩⟩

private theorem cachedCheckSigs_eq (calls : List CheckSigCall)
    (sound : Sound crypto nMaxCacheSize setValid) :
    (cachedCheckSigs crypto nMaxCacheSize calls setValid).1 =
        calls.map (CheckSigCall.uncached crypto) ∧
      Sound crypto nMaxCacheSize (cachedCheckSigs crypto nMaxCacheSize calls setValid).2 := by
  induction calls generalizing setValid with
  | nil => exact ⟨rfl, sound⟩
  | cons call calls induction =>
      obtain ⟨answer, sound⟩ := cachedCheckSig_eq call sound
      obtain ⟨answers, sound⟩ := induction sound
      rw [List.map_cons, ← answer, ← answers]
      exact ⟨rfl, sound⟩

/-- Along every history of calls the cached check answers as the uncached one, and the cache is never
more than one entry over a positive limit and empty without one. -/
theorem signatureCache_transparent (crypto : Crypto) (nMaxCacheSize : Int)
    (calls : List CheckSigCall) :
    let after := cachedCheckSigs crypto nMaxCacheSize calls .empty
    after.1 = calls.map (CheckSigCall.uncached crypto) ∧
      (0 < nMaxCacheSize → after.2.size ≤ nMaxCacheSize + 1) ∧
      (nMaxCacheSize ≤ 0 → after.2.size = 0) := by
  have fresh : Sound crypto nMaxCacheSize .empty :=
    ⟨by simp [SortedSet.empty], fun positive => by simp [SortedSet.size, SortedSet.empty]; omega,
      fun _ => rfl⟩
  obtain ⟨answers, sound⟩ := cachedCheckSigs_eq calls fresh
  exact ⟨answers, sound.size_le, sound.size_eq⟩

end FooCoin

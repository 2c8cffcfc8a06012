import FooCoin.KeyStore
import Mathlib.Logic.Function.Basic

/-!
# The two records of a key's form

Whether a public key is compressed is kept twice: in `fCompressedPubKey` and in the conversion form
of the OpenSSL key.  Copies take over the OpenSSL key but not the member, and some operations set
one of the two and leave the other as it was.
-/

namespace FooCoin

open Function

/-- Further functions that `CKey` takes from OpenSSL. -/
structure KeyFormats (lib : OpenSSL) where
  /-- `d2i_ECPrivateKey`: whether it read the bytes and what it makes of the key it is given. -/
  d2i : EcKey lib → List UInt8 → Bool × EcKey lib
  /-- `i2d_ECPrivateKey`. -/
  i2d : EcKey lib → Option (List UInt8)
  /-- `ECDSA_SIG_recover_key_GFp` of hash, signature and number of the key. -/
  recover : UInt256 → List UInt8 → Nat → Option lib.Point

/-- The length of an encoded point follows the conversion form. -/
structure OpenSSL.FormDecides (lib : OpenSSL) : Prop where
  compressed : ∀ point, (lib.i2o .compressed point).length = 33
  uncompressed : ∀ point, (lib.i2o .uncompressed point).length = 65
  hybrid : ∀ point, (lib.i2o .hybrid point).length = 65

variable {lib : OpenSSL}

namespace CKey

/-- `CKey::IsCompressed`. -/
def isCompressed (key : CKey lib) : Bool := key.fCompressedPubKey

/-- `CKey::MakeNewKey` with the secret that OpenSSL draws. -/
def makeNewKey (secret : CSecret) (fCompressed : Bool) (key : CKey lib) : CKey lib :=
  let key := { key with
    pkey := { key.pkey with
      privateKey := some secret
      publicKey := some (lib.regenerate secret) } }
  let key := if fCompressed then key.setCompressedPubKey else key
  { key with fSet := true }

/-- `CKey::SetPrivKey`. -/
def setPrivKey (formats : KeyFormats lib) (vchPrivKey : List UInt8) (key : CKey lib) :
    Bool × CKey lib :=
  match formats.d2i key.pkey vchPrivKey with
  | (false, pkey) => (false, { key with pkey })
  | (true, pkey) => (true, { key with pkey, fSet := true })

/-- `CKey::GetPrivKey`. -/
def getPrivKey (formats : KeyFormats lib) (key : CKey lib) : Outcome (List UInt8) :=
  match formats.i2d key.pkey with
  | none => .error .thrown
  | some vchPrivKey => .ok vchPrivKey

/-- `CKey::SetSecret` with the key that is left where it throws. -/
def trySetSecret (vchSecret : CSecret) (fCompressed : Bool) (key : CKey lib) : Bool × CKey lib :=
  match key.setSecret vchSecret fCompressed with
  | .error _ => (false, { key with pkey := .new })
  | .ok key => (true, key)

/-- `CKey::SetCompactSignature`. -/
def setCompactSignature (formats : KeyFormats lib) (hash : UInt256) (vchSig : List UInt8)
    (key : CKey lib) : Bool × CKey lib :=
  let nV := (vchSig.headD 0).toNat
  if vchSig.length ≠ 65 ∨ nV < 27 ∨ 35 ≤ nV then (false, key)
  else
    let key := { key with pkey := .new }
    let key := if 31 ≤ nV then key.setCompressedPubKey else key
    match formats.recover hash vchSig.tail (if 31 ≤ nV then nV - 31 else nV - 27) with
    | none => (false, key)
    | some point =>
        (true, { key with pkey := { key.pkey with publicKey := some point }, fSet := true })

/-- `CKey(b)`: the member that the constructor does not set has any value. -/
def copy (unset : Bool) (b : CKey lib) : CKey lib where
  pkey := b.pkey
  fSet := b.fSet
  fCompressedPubKey := unset

/-- `operator=`. -/
def assign (key b : CKey lib) : CKey lib := { key with pkey := b.pkey, fSet := b.fSet }

/-- The flag says whether the public key has 33 bytes. -/
def InStep (key : CKey lib) : Prop :=
  key.isCompressed = true ↔ ∃ vchPubKey, key.getPubKey = .ok vchPubKey ∧ vchPubKey.length = 33

/-- Two keys give the same answers. -/
structure Agrees (formats : KeyFormats lib) (key b : CKey lib) : Prop where
  isCompressed : key.isCompressed = b.isCompressed
  getSecret : key.getSecret = b.getSecret
  getPubKey : key.getPubKey = b.getPubKey
  getPrivKey : key.getPrivKey formats = b.getPrivKey formats

end CKey

/-- An operation on key objects that have numbers. -/
inductive KeyOperation
  | makeNewKey (i : Nat) (secret : CSecret) (fCompressed : Bool)
  | setSecret (i : Nat) (vchSecret : CSecret) (fCompressed : Bool)
  | setPrivKey (i : Nat) (vchPrivKey : List UInt8)
  | setPubKey (i : Nat) (vchPubKey : List UInt8)
  | setCompactSignature (i : Nat) (hash : UInt256) (vchSig : List UInt8)
  | reset (i : Nat)
  | copy (i j : Nat) (unset : Bool)
  | assign (i j : Nat)

/-- Key objects. -/
abbrev KeyObjects (lib : OpenSSL) := Nat → CKey lib

namespace KeyOperation

/-- The object that an operation changes. -/
def target : KeyOperation → Nat
  | makeNewKey i .. => i
  | setSecret i .. => i
  | setPrivKey i _ => i
  | setPubKey i _ => i
  | setCompactSignature i .. => i
  | reset i => i
  | copy i .. => i
  | assign i _ => i

variable (formats : KeyFormats lib)

/-- Whether the operation succeeds, and what it makes of the object. -/
def result (keys : KeyObjects lib) : KeyOperation → Bool × CKey lib
  | makeNewKey i secret fCompressed => (true, (keys i).makeNewKey secret fCompressed)
  | setSecret i vchSecret fCompressed => (keys i).trySetSecret vchSecret fCompressed
  | setPrivKey i vchPrivKey => (keys i).setPrivKey formats vchPrivKey
  | setPubKey i vchPubKey => (keys i).setPubKey vchPubKey
  | setCompactSignature i hash vchSig => (keys i).setCompactSignature formats hash vchSig
  | reset _ => (true, .reset)
  | copy _ j unset => (true, (keys j).copy unset)
  | assign i j => (true, (keys i).assign (keys j))

/-- The objects after some operations on new ones. -/
def run (operations : List KeyOperation) : KeyObjects lib :=
  operations.foldl (fun keys operation => update keys operation.target
    (operation.result formats keys).2) fun _ => .reset

/-- The object that is copied. -/
def source : KeyOperation → Option Nat
  | copy _ j _ => some j
  | assign _ j => some j
  | _ => none

/-- What is expected of an operation that succeeded. -/
def Good (keys : KeyObjects lib) (operation : KeyOperation) : Prop :=
  (operation.result formats keys).2.InStep ∧
    ∀ j, operation.source = some j → (operation.result formats keys).2.Agrees formats (keys j)

/-- The form in which OpenSSL writes the public key. -/
def WritesCompressed (pkey : EcKey lib) : Prop :=
  pkey.publicKey.isSome = true ∧ pkey.convForm = .compressed

/-- The state of the object and the input do not tell the two records apart. -/
def Safe (keys : KeyObjects lib) : KeyOperation → Prop
  | makeNewKey i _ fCompressed =>
      fCompressed = true ∨
        ((keys i).fCompressedPubKey = true ↔ (keys i).pkey.convForm = .compressed)
  | setSecret .. => True
  | setPrivKey i vchPrivKey =>
      (keys i).fCompressedPubKey = true ↔
        WritesCompressed (formats.d2i (keys i).pkey vchPrivKey).2
  | setPubKey i vchPubKey =>
      vchPubKey.length = 33 ∨ ((keys i).fCompressedPubKey = true ↔
        (lib.o2i vchPubKey).any fun parsed => parsed.2 = .compressed)
  | setCompactSignature i _ vchSig =>
      31 ≤ (vchSig.headD 0).toNat ∨ (keys i).fCompressedPubKey = false
  | reset _ => True
  | copy _ j unset =>
      unset = (keys j).fCompressedPubKey ∧
        ((keys j).fCompressedPubKey = true ↔ WritesCompressed (keys j).pkey)
  | assign i j =>
      (keys i).fCompressedPubKey = (keys j).fCompressedPubKey ∧
        ((keys j).fCompressedPubKey = true ↔ WritesCompressed (keys j).pkey)

/-! ## One operation -/

section Step

variable {formats} (decides : lib.FormDecides)

include decides in
private theorem inStep_iff (key : CKey lib) :
    key.InStep ↔ (key.fCompressedPubKey = true ↔ WritesCompressed key.pkey) := by
  refine iff_congr Iff.rfl ?_
  rw [WritesCompressed, CKey.getPubKey]
  cases key.pkey.publicKey with
  | none => simp
  | some point =>
      cases form : key.pkey.convForm with
      | compressed => simp [decides.compressed]
      | uncompressed => simp [decides.uncompressed]
      | hybrid => simp [decides.hybrid]

private theorem agrees_iff {key b : CKey lib} (same : key.pkey = b.pkey) :
    key.Agrees formats b ↔ key.fCompressedPubKey = b.fCompressedPubKey := by
  constructor
  · exact fun agrees => agrees.isCompressed
  · intro flags
    refine ⟨flags, ?_, ?_, ?_⟩
    · rw [CKey.getSecret, CKey.getSecret, same, flags]
    · rw [CKey.getPubKey, CKey.getPubKey, same]
    · rw [CKey.getPrivKey, CKey.getPrivKey, same]

include decides in
private theorem good_iff_of_copy {keys : KeyObjects lib} {operation : KeyOperation} {j : Nat}
    (copies : operation.source = some j)
    (same : (operation.result formats keys).2.pkey = (keys j).pkey) :
    operation.Good formats keys ↔
      (operation.result formats keys).2.fCompressedPubKey = (keys j).fCompressedPubKey ∧
        ((keys j).fCompressedPubKey = true ↔ WritesCompressed (keys j).pkey) := by
  have agrees : (∀ i, operation.source = some i →
      (operation.result formats keys).2.Agrees formats (keys i)) ↔
        (operation.result formats keys).2.Agrees formats (keys j) := by
    simp [copies]
  rw [Good, agrees, inStep_iff decides, agrees_iff same, same, and_comm]
  exact and_congr_right fun flags => by rw [flags]

include decides in
private theorem good_iff_of_new {keys : KeyObjects lib} {operation : KeyOperation}
    (new : operation.source = none) :
    operation.Good formats keys ↔
      ((operation.result formats keys).2.fCompressedPubKey = true ↔
        WritesCompressed (operation.result formats keys).2.pkey) := by
  rw [Good, inStep_iff decides, and_iff_left]
  intro j copies
  rw [new] at copies
  contradiction

/-- `SetSecret` makes a new OpenSSL key and keeps a flag that is set. -/
private theorem trySetSecret_inStep {vchSecret : CSecret} {fCompressed : Bool} {key : CKey lib}
    (succeeds : (key.trySetSecret vchSecret fCompressed).1 = true) :
    (key.trySetSecret vchSecret fCompressed).2.fCompressedPubKey = true ↔
      WritesCompressed (key.trySetSecret vchSecret fCompressed).2.pkey := by
  by_cases size : vchSecret.length ≠ 32
  · rw [CKey.trySetSecret, CKey.setSecret, if_pos size] at succeeds
    simp at succeeds
  · rw [CKey.trySetSecret, CKey.setSecret, if_neg size]
    by_cases compressed : fCompressed = true ∨ key.fCompressedPubKey = true
    · simp [compressed, CKey.setCompressedPubKey, WritesCompressed]
    · obtain ⟨not_asked, not_flagged⟩ := not_or.mp compressed
      simp [not_asked, not_flagged, WritesCompressed]

/-- A recovered key is written in the form that the header byte names. -/
private theorem setCompactSignature_inStep {hash : UInt256} {vchSig : List UInt8} {key : CKey lib}
    (succeeds : (key.setCompactSignature formats hash vchSig).1 = true) :
    ((key.setCompactSignature formats hash vchSig).2.fCompressedPubKey = true ↔
        WritesCompressed (key.setCompactSignature formats hash vchSig).2.pkey) ↔
      31 ≤ (vchSig.headD 0).toNat ∨ key.fCompressedPubKey = false := by
  by_cases refused : vchSig.length ≠ 65 ∨ (vchSig.headD 0).toNat < 27 ∨ 35 ≤ (vchSig.headD 0).toNat
  · rw [CKey.setCompactSignature, if_pos refused] at succeeds
    simp at succeeds
  · rw [CKey.setCompactSignature, if_neg refused] at succeeds ⊢
    dsimp only at succeeds ⊢
    split at succeeds
    · simp at succeeds
    · generalize (vchSig.headD 0).toNat = nV
      by_cases compressed : 31 ≤ nV
      · simp [compressed, CKey.setCompressedPubKey, WritesCompressed]
      · simp [compressed, WritesCompressed, EcKey.new]

include decides in
/-- An operation that succeeds does what is expected exactly when it is safe. -/
private theorem good_iff_safe (keys : KeyObjects lib) (operation : KeyOperation)
    (succeeds : (operation.result formats keys).1 = true) :
    operation.Good formats keys ↔ operation.Safe formats keys := by
  cases operation with
  | makeNewKey i secret fCompressed =>
      rw [good_iff_of_new decides rfl, Safe, result, CKey.makeNewKey]
      cases fCompressed with
      | true => simp [CKey.setCompressedPubKey, WritesCompressed]
      | false => simp [WritesCompressed]
  | setSecret i vchSecret fCompressed =>
      rw [good_iff_of_new decides rfl, Safe, iff_true]
      exact trySetSecret_inStep succeeds
  | setPrivKey i vchPrivKey =>
      rw [good_iff_of_new decides rfl, Safe]
      rw [result, CKey.setPrivKey] at succeeds ⊢
      split at succeeds
      · simp at succeeds
      · rename_i pkey read
        rw [read]
  | setPubKey i vchPubKey =>
      rw [good_iff_of_new decides rfl, Safe]
      rw [result, CKey.setPubKey] at succeeds ⊢
      split at succeeds
      · simp at succeeds
      · rename_i point form read
        rw [read]
        by_cases size : vchPubKey.length = 33
        · simp [CKey.setCompressedPubKey, WritesCompressed, size]
        · simp [WritesCompressed, size]
  | setCompactSignature i hash vchSig =>
      rw [good_iff_of_new decides rfl, Safe]
      exact setCompactSignature_inStep succeeds
  | reset i =>
      rw [good_iff_of_new decides rfl, Safe, iff_true]
      simp [result, CKey.reset, WritesCompressed, EcKey.new]
  | copy i j unset => exact good_iff_of_copy decides rfl rfl
  | assign i j => exact good_iff_of_copy decides rfl rfl

end Step

end KeyOperation

/-- In a run all operations that succeed do what is expected exactly when all of them are safe. -/
theorem keys_inStep_iff (lib : OpenSSL) (formats : KeyFormats lib) (decides : lib.FormDecides)
    (operations : List KeyOperation) :
    (∀ earlier operation later, operations = earlier ++ operation :: later →
      (operation.result formats (KeyOperation.run formats earlier)).1 = true →
        operation.Good formats (KeyOperation.run formats earlier)) ↔
    ∀ earlier operation later, operations = earlier ++ operation :: later →
      (operation.result formats (KeyOperation.run formats earlier)).1 = true →
        operation.Safe formats (KeyOperation.run formats earlier) := by
  refine forall₄_congr fun earlier operation later _ => forall_congr' fun succeeds => ?_
  exact KeyOperation.good_iff_safe decides _ operation succeeds

/-- A curve whose points are 32 bytes. -/
def coordinateOpenSSL : OpenSSL where
  Point := Vector UInt8 32
  IsPrivate secret := secret.length = 32
  regenerate secret := Vector.ofFn fun i => secret.getD i 0
  i2o
    | .compressed, point => 2 :: point.toList
    | .uncompressed, point => 4 :: (point.toList ++ point.toList)
    | .hybrid, point => 6 :: (point.toList ++ point.toList)
  o2i
    | 2 :: octets => some (Vector.ofFn fun i => octets.getD i 0, .compressed)
    | 4 :: octets => some (Vector.ofFn fun i => octets.getD i 0, .uncompressed)
    | 6 :: octets => some (Vector.ofFn fun i => octets.getD i 0, .hybrid)
    | _ => none
  encrypt key _ plaintext := key ++ plaintext
  decrypt key _ ciphertext :=
    if ciphertext.take 32 = key then some (ciphertext.drop 32) else none

private theorem coordinateOpenSSL_decides : coordinateOpenSSL.FormDecides where
  compressed point := congrArg Nat.succ Vector.length_toList
  uncompressed point := by
    have length : (Vector.toList point).length = 32 := Vector.length_toList
    simp [coordinateOpenSSL, length]
  hybrid point := by
    have length : (Vector.toList point).length = 32 := Vector.length_toList
    simp [coordinateOpenSSL, length]

/-- A private key is its secret, and no public key is recovered. -/
def secretFormats : KeyFormats coordinateOpenSSL where
  d2i pkey vchPrivKey :=
    if vchPrivKey.length = 32 then
      (true, { pkey with
        privateKey := some vchPrivKey
        publicKey := some (coordinateOpenSSL.regenerate vchPrivKey) })
    else (false, pkey)
  i2d pkey := pkey.privateKey
  recover _ _ _ := none

/-- A new key is compressed. -/
theorem keys_inStep_iff_newKey :
    (KeyOperation.makeNewKey 0 (List.replicate 32 1) true).Good secretFormats fun _ => .reset :=
  (keys_inStep_iff coordinateOpenSSL secretFormats coordinateOpenSSL_decides
    [.makeNewKey 0 (List.replicate 32 1) true]).mpr
      (by
        intro earlier operation later split _
        rcases earlier with - | ⟨first, earlier⟩
        · obtain ⟨rfl, -⟩ := List.cons.inj split
          exact .inl rfl
        · simp at split)
      [] _ [] rfl rfl

/-- A compressed key is assigned to another one. -/
theorem not_keys_inStep :
    ¬∀ (lib : OpenSSL) (formats : KeyFormats lib), lib.FormDecides →
      ∀ (operations earlier : List KeyOperation) (operation : KeyOperation)
        (later : List KeyOperation), operations = earlier ++ operation :: later →
        (operation.result formats (KeyOperation.run formats earlier)).1 = true →
          operation.Good formats (KeyOperation.run formats earlier) := by
  intro good
  have assigned := good coordinateOpenSSL secretFormats coordinateOpenSSL_decides _
    [.makeNewKey 0 (List.replicate 32 1) true] (.assign 1 0) [] rfl rfl
  exact absurd (assigned.2 0 rfl).isCompressed (by decide)

end FooCoin

import FooCoin.Amount
import FooCoin.Crypto
import FooCoin.Library.Stateful
import Mathlib.Data.List.AList
import Mathlib.Data.List.MinMax

/-!
# Keys and the encrypting key store

`CKey` wraps an OpenSSL key whose public key is written in one of two forms.  `CCryptoKeyStore` holds
either plain secrets or, once keys have been encrypted, public keys with encrypted secrets; while it
is locked it has no master key.
-/

namespace FooCoin

open Stateful

/-- `point_conversion_form_t`. -/
inductive ConversionForm
  | compressed
  | uncompressed
  | hybrid
  deriving DecidableEq

/-- The 32 bytes of a secret. -/
abbrev CSecret := List UInt8

/-- The functions that keys and key stores take from OpenSSL. -/
structure OpenSSL where
  /-- The points of the curve. -/
  Point : Type
  /-- The secrets from 1 to the order of the curve, exclusive. -/
  IsPrivate : CSecret → Prop
  /-- The public key that `EC_KEY_regenerate_key` sets. -/
  regenerate : CSecret → Point
  /-- `i2o_ECPublicKey`. -/
  i2o : ConversionForm → Point → List UInt8
  /-- `o2i_ECPublicKey`: the point and the form it was written in. -/
  o2i : List UInt8 → Option (Point × ConversionForm)
  /-- AES-256-CBC of key, initialization vector and plaintext. -/
  encrypt : List UInt8 → List UInt8 → List UInt8 → List UInt8
  /-- The inverse of `encrypt`, which fails on bad padding. -/
  decrypt : List UInt8 → List UInt8 → List UInt8 → Option (List UInt8)

/-- What OpenSSL documents of these functions. -/
structure OpenSSL.Documented (lib : OpenSSL) : Prop where
  length_private : ∀ secret, lib.IsPrivate secret → secret.length = 32
  length_compressed : ∀ secret, lib.IsPrivate secret →
    (lib.i2o .compressed (lib.regenerate secret)).length = 33
  length_uncompressed : ∀ secret, lib.IsPrivate secret →
    (lib.i2o .uncompressed (lib.regenerate secret)).length = 65
  o2i_i2o : ∀ secret form, lib.IsPrivate secret →
    lib.o2i (lib.i2o form (lib.regenerate secret)) = some (lib.regenerate secret, form)
  decrypt_encrypt : ∀ key iv plaintext, key.length = 32 →
    lib.decrypt key iv (lib.encrypt key iv plaintext) = some plaintext

/-- `EC_KEY`. -/
structure EcKey (lib : OpenSSL) where
  privateKey : Option CSecret
  publicKey : Option lib.Point
  convForm : ConversionForm

/-- `CKey`. -/
structure CKey (lib : OpenSSL) where
  pkey : EcKey lib
  fSet : Bool
  fCompressedPubKey : Bool

variable {lib : OpenSSL}

/-! ## Keys -/

/-- `EC_KEY_new_by_curve_name`. -/
def EcKey.new : EcKey lib where
  privateKey := none
  publicKey := none
  convForm := .uncompressed

/-- `CKey::Reset`, which is also what the constructor does. -/
def CKey.reset : CKey lib where
  pkey := .new
  fSet := false
  fCompressedPubKey := false

/-- `CKey::SetCompressedPubKey`. -/
def CKey.setCompressedPubKey (key : CKey lib) : CKey lib :=
  { key with pkey := { key.pkey with convForm := .compressed }, fCompressedPubKey := true }

/-- `CKey::SetSecret`. -/
def CKey.setSecret (key : CKey lib) (vchSecret : CSecret) (fCompressed : Bool) :
    Outcome (CKey lib) :=
  if vchSecret.length ≠ 32 then .error .thrown
  else
    let pkey : EcKey lib :=
      { privateKey := some vchSecret
        publicKey := some (lib.regenerate vchSecret)
        convForm := .uncompressed }
    let key := { key with pkey, fSet := true }
    .ok (if fCompressed ∨ key.fCompressedPubKey then key.setCompressedPubKey else key)

/-- `CKey::SetPubKey`: what it returns and the key it leaves. -/
def CKey.setPubKey (key : CKey lib) (vchPubKey : List UInt8) : Bool × CKey lib :=
  match lib.o2i vchPubKey with
  | none => (false, key)
  | some (point, form) =>
      let pkey := { key.pkey with publicKey := some point, convForm := form }
      let key := { key with pkey, fSet := true }
      (true, if vchPubKey.length = 33 then key.setCompressedPubKey else key)

/-- `CKey::GetSecret`: the secret and `fCompressed`. -/
def CKey.getSecret (key : CKey lib) : Outcome (CSecret × Bool) :=
  match key.pkey.privateKey with
  | none => .error .nullPointer
  | some vchRet => .ok (vchRet, key.fCompressedPubKey)

/-- `CKey::GetPubKey`. -/
def CKey.getPubKey (key : CKey lib) : Outcome (List UInt8) :=
  match key.pkey.publicKey with
  | none => .error .thrown
  | some point => .ok (lib.i2o key.pkey.convForm point)

/-- The key of a secret. -/
def CKey.ofSecret (lib : OpenSSL) (secret : CSecret) (fCompressed : Bool) : CKey lib where
  pkey :=
    { privateKey := some secret
      publicKey := some (lib.regenerate secret)
      convForm := if fCompressed then .compressed else .uncompressed }
  fSet := true
  fCompressedPubKey := fCompressed

/-- The public key of a secret. -/
def pubKeyOf (lib : OpenSSL) (secret : CSecret) (fCompressed : Bool) : List UInt8 :=
  lib.i2o (if fCompressed then .compressed else .uncompressed) (lib.regenerate secret)

/-! ## Key stores -/

/-- `EncryptSecret`, where the cipher itself never fails. -/
def encryptSecret (lib : OpenSSL) (vMasterKey : List UInt8) (vchPlaintext : CSecret)
    (nIV : UInt256) : Outcome (List UInt8) :=
  if vMasterKey.length ≠ 32 then .error .rejected
  else .ok (lib.encrypt vMasterKey (uint256Bytes nIV) vchPlaintext)

/-- `DecryptSecret`. -/
def decryptSecret (lib : OpenSSL) (vMasterKey vchCiphertext : List UInt8) (nIV : UInt256) :
    Option CSecret :=
  if vMasterKey.length ≠ 32 then none else lib.decrypt vMasterKey (uint256Bytes nIV) vchCiphertext

/-- `CBasicKeyStore`. -/
structure CBasicKeyStore where
  mapKeys : AList fun _ : UInt160 => CSecret × Bool

/-- `CCryptoKeyStore`. -/
structure CCryptoKeyStore extends CBasicKeyStore where
  mapCryptedKeys : AList fun _ : UInt160 => List UInt8 × List UInt8
  vMasterKey : List UInt8
  fUseCrypto : Bool

/-- The store that the constructor makes. -/
def CCryptoKeyStore.empty : CCryptoKeyStore where
  mapKeys := ∅
  mapCryptedKeys := ∅
  vMasterKey := []
  fUseCrypto := false

variable (crypto : Crypto)

/-- `CBasicKeyStore::AddKey`. -/
def CBasicKeyStore.addKey (store : CBasicKeyStore) (key : CKey lib) : Outcome CBasicKeyStore := do
  let (secret, fCompressed) ← key.getSecret
  let vchPubKey ← key.getPubKey
  pure { mapKeys := store.mapKeys.insert (crypto.Hash160 vchPubKey) (secret, fCompressed) }

/-- `CBasicKeyStore::HaveKey`. -/
def CBasicKeyStore.haveKey (store : CBasicKeyStore) (address : UInt160) : Bool :=
  (store.mapKeys.lookup address).isSome

/-- `CBasicKeyStore::GetKey`: what it returns and the output key it leaves. -/
def CBasicKeyStore.getKey (store : CBasicKeyStore) (address : UInt160) (keyOut : CKey lib) :
    Outcome (Bool × CKey lib) :=
  match store.mapKeys.lookup address with
  | none => .ok (false, keyOut)
  | some (secret, fCompressed) => do pure (true, ← CKey.reset.setSecret secret fCompressed)

namespace CCryptoKeyStore

/-- `CCryptoKeyStore::IsLocked`. -/
def isLocked (store : CCryptoKeyStore) : Bool := store.fUseCrypto ∧ store.vMasterKey = []

/-- `CCryptoKeyStore::SetCrypted`. -/
def setCrypted : Action Failure CCryptoKeyStore := fun store =>
  if store.fUseCrypto then (.ok (), store)
  else if store.mapKeys.entries ≠ [] then (.error .rejected, store)
  else (.ok (), { store with fUseCrypto := true })

/-- `CCryptoKeyStore::Lock`. -/
def lock : Action Failure CCryptoKeyStore := fun store =>
  match setCrypted store with
  | (.error failure, store) => (.error failure, store)
  | (.ok (), store) => (.ok (), { store with vMasterKey := [] })

/-- The body of the loop of `Unlock`. -/
def unlocks (lib : OpenSSL) (vMasterKeyIn vchPubKey vchCryptedSecret : List UInt8) :
    Outcome Unit :=
  match decryptSecret lib vMasterKeyIn vchCryptedSecret (crypto.Hash vchPubKey) with
  | none => .error .rejected
  | some vchSecret => do
      require (vchSecret.length = 32)
      let key ← ((CKey.reset : CKey lib).setPubKey vchPubKey).2.setSecret vchSecret false
      require ((← key.getPubKey) = vchPubKey)

/-- `CCryptoKeyStore::Unlock`.  The loop looks at the first encrypted key only. -/
def unlock (lib : OpenSSL) (vMasterKeyIn : List UInt8) : Action Failure CCryptoKeyStore :=
  fun store =>
    match setCrypted store with
    | (.error failure, store) => (.error failure, store)
    | (.ok (), store) =>
        match store.mapCryptedKeys.entries.argmin fun entry => entry.1.toNat with
        | none => (.ok (), { store with vMasterKey := vMasterKeyIn })
        | some ⟨_, vchPubKey, vchCryptedSecret⟩ =>
            match unlocks crypto lib vMasterKeyIn vchPubKey vchCryptedSecret with
            | .error failure => (.error failure, store)
            | .ok () => (.ok (), { store with vMasterKey := vMasterKeyIn })

/-- `CCryptoKeyStore::AddCryptedKey`. -/
def addCryptedKey (vchPubKey vchCryptedSecret : List UInt8) : Action Failure CCryptoKeyStore :=
  fun store =>
    match setCrypted store with
    | (.error failure, store) => (.error failure, store)
    | (.ok (), store) =>
        (.ok (), { store with
          mapCryptedKeys := store.mapCryptedKeys.insert (crypto.Hash160 vchPubKey)
            (vchPubKey, vchCryptedSecret) })

/-- The public key and the encrypted secret of a key. -/
def encryptKey (vMasterKey : List UInt8) (key : CKey lib) : Outcome (List UInt8 × List UInt8) := do
  let vchPubKey ← key.getPubKey
  let (secret, _) ← key.getSecret
  let vchCryptedSecret ← encryptSecret lib vMasterKey secret (crypto.Hash vchPubKey)
  pure (vchPubKey, vchCryptedSecret)

/-- `CCryptoKeyStore::AddKey`. -/
def addKey (key : CKey lib) : Action Failure CCryptoKeyStore := fun store =>
  if ¬store.fUseCrypto then
    match store.toCBasicKeyStore.addKey crypto key with
    | .error failure => (.error failure, store)
    | .ok basic => (.ok (), { store with toCBasicKeyStore := basic })
  else if store.isLocked then (.error .rejected, store)
  else
    match encryptKey crypto store.vMasterKey key with
    | .error failure => (.error failure, store)
    | .ok (vchPubKey, vchCryptedSecret) => addCryptedKey crypto vchPubKey vchCryptedSecret store

/-- The body of the loop of `EncryptKeys`. -/
def encryptEntry (lib : OpenSSL) (vMasterKeyIn : List UInt8)
    (mKey : (_ : UInt160) × CSecret × Bool) : Action Failure CCryptoKeyStore := fun store =>
  match (do
    let key : CKey lib ← CKey.reset.setSecret mKey.2.1 mKey.2.2
    encryptKey crypto vMasterKeyIn key) with
  | .error failure => (.error failure, store)
  | .ok (vchPubKey, vchCryptedSecret) => addCryptedKey crypto vchPubKey vchCryptedSecret store

/-- `CCryptoKeyStore::EncryptKeys`. -/
def encryptKeys (lib : OpenSSL) (vMasterKeyIn : List UInt8) : Action Failure CCryptoKeyStore :=
  fun store =>
    if store.mapCryptedKeys.entries ≠ [] ∨ store.fUseCrypto then (.error .rejected, store)
    else
      match sequence (encryptEntry crypto lib vMasterKeyIn) store.mapKeys.entries
        { store with fUseCrypto := true } with
      | (.error failure, store) => (.error failure, store)
      | (.ok (), store) => (.ok (), { store with mapKeys := ∅ })

/-- `CCryptoKeyStore::HaveKey`. -/
def haveKey (store : CCryptoKeyStore) (address : UInt160) : Bool :=
  if ¬store.fUseCrypto then store.toCBasicKeyStore.haveKey address
  else (store.mapCryptedKeys.lookup address).isSome

/-- `CCryptoKeyStore::GetKey`: what it returns and the output key it leaves. -/
def getKey (store : CCryptoKeyStore) (address : UInt160) (keyOut : CKey lib) :
    Outcome (Bool × CKey lib) :=
  if ¬store.fUseCrypto then store.toCBasicKeyStore.getKey address keyOut
  else
    match store.mapCryptedKeys.lookup address with
    | none => .ok (false, keyOut)
    | some (vchPubKey, vchCryptedSecret) =>
        match decryptSecret lib store.vMasterKey vchCryptedSecret (crypto.Hash vchPubKey) with
        | none => .ok (false, keyOut)
        | some vchSecret =>
            if vchSecret.length ≠ 32 then .ok (false, keyOut)
            else do pure (true, ← (keyOut.setPubKey vchPubKey).2.setSecret vchSecret false)

/-- `CCryptoKeyStore::GetPubKey`. -/
def getPubKey (lib : OpenSSL) (store : CCryptoKeyStore) (address : UInt160) :
    Outcome (Option (List UInt8)) :=
  if ¬store.fUseCrypto then do
    let (found, key) ← store.getKey crypto address (CKey.reset : CKey lib)
    if found then pure (some (← key.getPubKey)) else pure none
  else .ok ((store.mapCryptedKeys.lookup address).map Prod.fst)

end CCryptoKeyStore

end FooCoin

import FooCoin.KeyForm
import FooCoin.Passphrase

/-!
# Keys in the wallet file

The wallet writes every key it adds to its database, as a "key" record or, once it is encrypted, as
a "ckey" record.  `EncryptWallet` replaces all of them within one database transaction, and the
process may end at any moment.  A wallet that is started again reads its keys back.
-/

namespace FooCoin

open Function Stateful

/-- The keys of the records that hold keys. -/
inductive RecordKey
  | key (vchPubKey : List UInt8)
  | wkey (vchPubKey : List UInt8)
  | mkey (nID : UInt32)
  | ckey (vchPubKey : List UInt8)
  deriving DecidableEq

/-- The values under them.  Of a `CWalletKey` only `vchPrivKey` is read. -/
abbrev RecordKey.Value : RecordKey → Type
  | .key _ | .wkey _ | .ckey _ => List UInt8
  | .mkey _ => CMasterKey

/-- The records of the wallet database, or a transaction's view of them. -/
abbrev KeyRecords := AList RecordKey.Value

namespace KeyRecords

/-- `CDB::Write`. -/
def write (record : RecordKey) (value : record.Value) (fOverwrite : Bool) (records : KeyRecords) :
    Bool × KeyRecords :=
  if ¬fOverwrite ∧ record ∈ records then (false, records) else (true, records.insert record value)

/-- `CWalletDB::WriteKey`. -/
def writeKey (vchPubKey vchPrivKey : List UInt8) : KeyRecords → Bool × KeyRecords :=
  write (.key vchPubKey) vchPrivKey false

/-- `CWalletDB::WriteCryptedKey`. -/
def writeCryptedKey (vchPubKey vchCryptedSecret : List UInt8) (records : KeyRecords) :
    Bool × KeyRecords :=
  match write (.ckey vchPubKey) vchCryptedSecret false records with
  | (false, records) => (false, records)
  | (true, records) => (true, (records.erase (.key vchPubKey)).erase (.wkey vchPubKey))

/-- `CWalletDB::WriteMasterKey`. -/
def writeMasterKey (nID : UInt32) (kMasterKey : CMasterKey) : KeyRecords → Bool × KeyRecords :=
  write (.mkey nID) kMasterKey true

end KeyRecords

variable {lib : OpenSSL} (crypto : Crypto) (formats : KeyFormats lib)

/-- `CKey::IsValid`. -/
def CKey.isValid (key : CKey lib) : Outcome Bool :=
  if ¬key.fSet then .ok false
  else do
    let (secret, fCompr) ← key.getSecret
    let key2 : CKey lib ← CKey.reset.setSecret secret fCompr
    pure ((← key.getPubKey) = (← key2.getPubKey))

/-! ## Reading the file -/

/-- The members of a wallet that hold keys. -/
structure WalletKeys where
  keystore : CCryptoKeyStore
  mapMasterKeys : AList fun _ : UInt32 => CMasterKey
  nMasterKeyMaxID : UInt32

namespace WalletKeys

/-- A new wallet. -/
def empty : WalletKeys where
  keystore := .empty
  mapMasterKeys := ∅
  nMasterKeyMaxID := 0

/-- `LoadKey` of the key of a "key" or "wkey" record. -/
def loadKey (vchPubKey vchPrivKey : List UInt8) (wallet : WalletKeys) : Outcome WalletKeys := do
  let key := (CKey.reset.setPubKey vchPubKey).2
  let key := (key.setPrivKey formats vchPrivKey).2
  require ((← key.getPubKey) = vchPubKey)
  require ((← key.isValid) = true)
  match wallet.keystore.addKey crypto key with
  | (.error failure, _) => .error failure
  | (.ok (), keystore) => pure { wallet with keystore }

/-- `CWalletDB::LoadWallet` at one record. -/
def loadRecord (wallet : WalletKeys) : Sigma RecordKey.Value → Outcome WalletKeys
  | ⟨.key vchPubKey, vchPrivKey⟩ => wallet.loadKey crypto formats vchPubKey vchPrivKey
  | ⟨.wkey vchPubKey, vchPrivKey⟩ => wallet.loadKey crypto formats vchPubKey vchPrivKey
  | ⟨.mkey nID, kMasterKey⟩ => do
      require (wallet.mapMasterKeys.lookup nID = none)
      pure { wallet with
        mapMasterKeys := wallet.mapMasterKeys.insert nID kMasterKey
        nMasterKeyMaxID := if wallet.nMasterKeyMaxID < nID then nID else wallet.nMasterKeyMaxID }
  | ⟨.ckey vchPubKey, vchCryptedSecret⟩ =>
      match wallet.keystore.addCryptedKey crypto vchPubKey vchCryptedSecret with
      | (.error failure, _) => .error failure
      | (.ok (), keystore) => pure { wallet with keystore }

/-- `CWalletDB::LoadWallet` over the records in the order of the cursor. -/
def loadRecords : List (Sigma RecordKey.Value) → WalletKeys → Outcome WalletKeys
  | [], wallet => .ok wallet
  | record :: records, wallet => do
      loadRecords records (← wallet.loadRecord crypto formats record)

end WalletKeys

/-! ## Writing the file -/

/-- `EncryptWallet` within its transaction. -/
structure Encryption where
  vMasterKey : List UInt8
  /-- What `pwalletdbEncryption` has written. -/
  pwalletdbEncryption : KeyRecords
  /-- The keys that the loop of `EncryptKeys` has not come to. -/
  mapKeysLeft : List ((_ : UInt160) × CSecret × Bool)

/-- A running wallet with its file. -/
structure FileWallet extends WalletKeys where
  file : KeyRecords
  encryption : Option Encryption

namespace FileWallet

/-- `CWallet::AddCryptedKey` without a transaction. -/
def addCryptedKey (vchPubKey vchCryptedSecret : List UInt8) (wallet : FileWallet) :
    Bool × FileWallet :=
  match wallet.keystore.addCryptedKey crypto vchPubKey vchCryptedSecret with
  | (.error _, keystore) => (false, { wallet with keystore })
  | (.ok (), keystore) =>
      let (written, file) := wallet.file.writeCryptedKey vchPubKey vchCryptedSecret
      (written, { wallet with keystore, file })

/-- `CWallet::AddKey`, which throws where the key cannot be written. -/
def addKey (key : CKey lib) (wallet : FileWallet) : Bool × FileWallet :=
  if ¬wallet.keystore.fUseCrypto then
    match wallet.keystore.addKey crypto key with
    | (.error _, keystore) => (false, { wallet with keystore })
    | (.ok (), keystore) =>
        match key.getPubKey, key.getPrivKey formats with
        | .ok vchPubKey, .ok vchPrivKey =>
            let (written, file) := wallet.file.writeKey vchPubKey vchPrivKey
            (written, { wallet with keystore, file })
        | _, _ => (false, { wallet with keystore })
  else if wallet.keystore.isLocked then (false, wallet)
  else
    match CCryptoKeyStore.encryptKey crypto wallet.keystore.vMasterKey key with
    | .error _ => (false, wallet)
    | .ok (vchPubKey, vchCryptedSecret) =>
        wallet.addCryptedKey crypto vchPubKey vchCryptedSecret

/-- `EncryptWallet` up to the loop of `EncryptKeys`. -/
def beginEncryption (vMasterKey : List UInt8) (kMasterKey : CMasterKey) (wallet : FileWallet) :
    FileWallet :=
  let nMasterKeyMaxID := wallet.nMasterKeyMaxID + 1
  { wallet with
    nMasterKeyMaxID
    mapMasterKeys := wallet.mapMasterKeys.insert nMasterKeyMaxID kMasterKey
    keystore := { wallet.keystore with fUseCrypto := true }
    encryption := some
      { vMasterKey
        pwalletdbEncryption := (wallet.file.writeMasterKey nMasterKeyMaxID kMasterKey).2
        mapKeysLeft := wallet.keystore.mapKeys.entries } }

/-- The body of the loop of `EncryptKeys`, `none` where it fails: then the transaction is aborted
and the process ends. -/
def encryptEntry (lib : OpenSSL) (encryption : Encryption)
    (mKey : (_ : UInt160) × CSecret × Bool) (mapKeysLeft : List ((_ : UInt160) × CSecret × Bool))
    (wallet : FileWallet) : Option FileWallet := do
  let key : CKey lib ← (CKey.reset.setSecret mKey.2.1 mKey.2.2).toOption
  let (vchPubKey, vchCryptedSecret) ←
    (CCryptoKeyStore.encryptKey crypto encryption.vMasterKey key).toOption
  match wallet.keystore.addCryptedKey crypto vchPubKey vchCryptedSecret with
  | (.error _, _) => none
  | (.ok (), keystore) =>
      match encryption.pwalletdbEncryption.writeCryptedKey vchPubKey vchCryptedSecret with
      | (false, _) => none
      | (true, pwalletdbEncryption) =>
          some { wallet with
            keystore
            encryption := some { encryption with pwalletdbEncryption, mapKeysLeft } }

/-- The end of `EncryptKeys`, the commit and `Lock`. -/
def commitEncryption (encryption : Encryption) (wallet : FileWallet) : FileWallet :=
  let keystore := { wallet.keystore with mapKeys := ∅ }
  { wallet with
    keystore := keystore.lock.2
    file := encryption.pwalletdbEncryption
    encryption := none }

/-- What happens to a wallet.  While `EncryptWallet` has the wallet's lock, only its own steps and
the end of the process happen. -/
inductive Event (lib : OpenSSL)
  | addKey (key : CKey lib)
  | lock
  | unlock (vMasterKey : List UInt8)
  | beginEncryption (vMasterKey : List UInt8) (kMasterKey : CMasterKey)
  | encryptEntry
  | commitEncryption
  /-- The process ends, and a new one finds the records in some order. -/
  | restart (records : List (Sigma RecordKey.Value))

/-- One event, `none` where it cannot happen. -/
def step (wallet : FileWallet) : Event lib → Option FileWallet
  | .addKey key =>
      if wallet.encryption.isSome then none else some (wallet.addKey crypto formats key).2
  | .lock =>
      if wallet.encryption.isSome then none
      else some { wallet with keystore := wallet.keystore.lock.2 }
  | .unlock vMasterKey =>
      if wallet.encryption.isSome then none
      else some { wallet with keystore := (wallet.keystore.unlock crypto lib vMasterKey).2 }
  | .beginEncryption vMasterKey kMasterKey =>
      if wallet.encryption.isSome ∨ wallet.keystore.fUseCrypto then none
      else if wallet.keystore.mapCryptedKeys.entries ≠ [] then none
      else some (wallet.beginEncryption vMasterKey kMasterKey)
  | .encryptEntry =>
      wallet.encryption.bind fun encryption =>
        match encryption.mapKeysLeft with
        | [] => none
        | mKey :: mapKeysLeft => wallet.encryptEntry crypto lib encryption mKey mapKeysLeft
  | .commitEncryption =>
      wallet.encryption.bind fun encryption =>
        if encryption.mapKeysLeft ≠ [] then none else some (wallet.commitEncryption encryption)
  | .restart records =>
      (WalletKeys.loadRecords crypto formats records .empty).toOption.map fun loaded =>
        { loaded with file := wallet.file, encryption := none }

/-- A new wallet with an empty file. -/
def empty : FileWallet where
  toWalletKeys := .empty
  file := ∅
  encryption := none

/-- Keys come from a set, master keys have the size that the cipher takes, and a new process finds
the records of the file. -/
def Event.Admissible (keys : Set (CSecret × Bool)) (wallet : FileWallet) : Event lib → Prop
  | .addKey key => ∃ secret ∈ keys, key = CKey.ofSecret lib secret.1 secret.2
  | .beginEncryption vMasterKey _ => vMasterKey.length = 32
  | .restart records => records.Perm wallet.file.entries
  | .lock | .unlock _ | .encryptEntry | .commitEncryption => True

/-- The states that events lead to. -/
inductive Reachable (keys : Set (CSecret × Bool)) : FileWallet → Prop
  | empty : Reachable keys .empty
  | step {wallet after : FileWallet} {event : Event lib} (reachable : Reachable keys wallet)
      (admissible : event.Admissible keys wallet)
      (stepped : wallet.step crypto formats event = some after) : Reachable keys after

end FileWallet

end FooCoin

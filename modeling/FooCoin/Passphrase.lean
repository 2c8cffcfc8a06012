import FooCoin.KeyEncryption

/-!
# Changing the passphrase

The passphrase of a wallet encrypts its master keys.  `ChangeWalletPassphrase` locks the wallet,
unlocks it with the first master key that the old passphrase opens, and writes that master key back
under the new passphrase.  Every return in between leaves what was done by then.
-/

namespace FooCoin

/-- What `CCrypter` takes from OpenSSL; any of it may fail. -/
structure PassphraseCipher where
  /-- `EVP_BytesToKey` of salt, data and rounds: a key of 32 bytes and an initialization vector. -/
  bytesToKey : List UInt8 → List UInt8 → UInt32 → Option (List UInt8 × List UInt8)
  /-- AES-256-CBC of key, initialization vector and plaintext: whether it worked and the bytes that
  are left in the output. -/
  encrypt : List UInt8 → List UInt8 → List UInt8 → Bool × List UInt8
  decrypt : List UInt8 → List UInt8 → List UInt8 → Option (List UInt8)

/-- `CMasterKey`. -/
structure CMasterKey where
  vchCryptedKey : List UInt8
  vchSalt : List UInt8
  nDerivationMethod : UInt32
  nDeriveIterations : UInt32
  vchOtherDerivationParameters : List UInt8
deriving DecidableEq

/-- `WALLET_CRYPTO_SALT_SIZE`. -/
def walletCryptoSaltSize : Nat := 8

/-- The least number of rounds. -/
def minDeriveIterations : UInt32 := 25000

/-- The key store, the master keys by their numbers, and their database records. -/
structure EncryptedWallet where
  store : CCryptoKeyStore
  mapMasterKeys : List (UInt32 × CMasterKey)
  database : UInt32 → Option CMasterKey

section Cipher

variable (cipher : PassphraseCipher)

/-- `CCrypter::SetKeyFromPassphrase`. -/
def setKeyFromPassphrase (strKeyData : List UInt8) (kMasterKey : CMasterKey) :
    Option (List UInt8 × List UInt8) :=
  if kMasterKey.nDeriveIterations < 1 ∨ kMasterKey.vchSalt.length ≠ walletCryptoSaltSize then none
  else if kMasterKey.nDerivationMethod = 0 then
    cipher.bytesToKey kMasterKey.vchSalt strKeyData kMasterKey.nDeriveIterations
  else none

/-- What a passphrase decrypts a master key to. -/
def decryptMasterKey (strKeyData : List UInt8) (kMasterKey : CMasterKey) : Option (List UInt8) :=
  (setKeyFromPassphrase cipher strKeyData kMasterKey).bind fun (chKey, chIV) =>
    cipher.decrypt chKey chIV kMasterKey.vchCryptedKey

/-- The master key for the new passphrase; `nMeasured` is the number of rounds that the measurements
of the clock give. -/
def reencrypt (strNewWalletPassphrase vMasterKey : List UInt8) (nMeasured : UInt32)
    (kMasterKey : CMasterKey) : Bool × CMasterKey :=
  let kMasterKey := { kMasterKey with
    nDeriveIterations :=
      if nMeasured < minDeriveIterations then minDeriveIterations else nMeasured }
  match setKeyFromPassphrase cipher strNewWalletPassphrase kMasterKey with
  | none => (false, kMasterKey)
  | some (chKey, chIV) =>
      let (fOk, vchCryptedKey) := cipher.encrypt chKey chIV vMasterKey
      (fOk, { kMasterKey with vchCryptedKey })

variable (crypto : Crypto) (lib : OpenSSL)

/-- The loop of `ChangeWalletPassphrase` over the master keys that are left. -/
def changeLoop (strOldWalletPassphrase strNewWalletPassphrase : List UInt8) (nMeasured : UInt32)
    (fWasLocked : Bool) (database : UInt32 → Option CMasterKey) (store : CCryptoKeyStore) :
    List (UInt32 × CMasterKey) → Bool × EncryptedWallet
  | [] => (false, { store, mapMasterKeys := [], database })
  | (nID, kMasterKey) :: rest =>
      match decryptMasterKey cipher strOldWalletPassphrase kMasterKey with
      | none => (false, { store, mapMasterKeys := (nID, kMasterKey) :: rest, database })
      | some vMasterKey =>
          match store.unlock crypto lib vMasterKey with
          | (.error _, store) =>
              let (changed, wallet) := changeLoop strOldWalletPassphrase strNewWalletPassphrase
                nMeasured fWasLocked database store rest
              (changed, { wallet with mapMasterKeys := (nID, kMasterKey) :: wallet.mapMasterKeys })
          | (.ok (), store) =>
              match reencrypt cipher strNewWalletPassphrase vMasterKey nMeasured kMasterKey with
              | (false, kMasterKey) =>
                  (false, { store, mapMasterKeys := (nID, kMasterKey) :: rest, database })
              | (true, kMasterKey) =>
                  (true,
                    { store := if fWasLocked then store.lock.2 else store
                      mapMasterKeys := (nID, kMasterKey) :: rest
                      database := Function.update database nID (some kMasterKey) })

/-- `CWallet::ChangeWalletPassphrase`: what it returns and the wallet it leaves. -/
def changeWalletPassphrase (strOldWalletPassphrase strNewWalletPassphrase : List UInt8)
    (nMeasured : UInt32) (wallet : EncryptedWallet) : Bool × EncryptedWallet :=
  changeLoop cipher crypto lib strOldWalletPassphrase strNewWalletPassphrase nMeasured
    wallet.store.isLocked wallet.database wallet.store.lock.2 wallet.mapMasterKeys

/-- The first master key that the passphrase opens, unless one before it cannot be decrypted. -/
def openedBy (strKeyData : List UInt8) (store : CCryptoKeyStore) :
    List (UInt32 × CMasterKey) → Option (CMasterKey × List UInt8)
  | [] => none
  | (_, kMasterKey) :: rest =>
      match decryptMasterKey cipher strKeyData kMasterKey with
      | none => none
      | some vMasterKey =>
          match store.unlock crypto lib vMasterKey with
          | (.error _, _) => openedBy strKeyData store rest
          | (.ok (), _) => some (kMasterKey, vMasterKey)

/-- The wallet is locked when no master key is opened; a master key that is opened can be encrypted
again, or it is the one that the wallet was unlocked with and the failure does not touch it. -/
def Restores (strOldWalletPassphrase strNewWalletPassphrase : List UInt8) (nMeasured : UInt32)
    (wallet : EncryptedWallet) : Prop :=
  match openedBy cipher crypto lib strOldWalletPassphrase wallet.store wallet.mapMasterKeys with
  | none => wallet.store.isLocked = true
  | some (kMasterKey, vMasterKey) =>
      (reencrypt cipher strNewWalletPassphrase vMasterKey nMeasured kMasterKey).1 = true ∨
        wallet.store.vMasterKey = vMasterKey ∧
          (reencrypt cipher strNewWalletPassphrase vMasterKey nMeasured kMasterKey).2 = kMasterKey

end Cipher

/-! ## What a call leaves -/

variable {cipher : PassphraseCipher} {crypto : Crypto} {lib : OpenSSL}

/-- Whether a master key unlocks a store does not depend on the master key it has. -/
private theorem unlock_locked {store : CCryptoKeyStore} (crypted : store.fUseCrypto = true)
    (locked vMasterKey : List UInt8) :
    store.unlock crypto lib vMasterKey = (.ok (), { store with vMasterKey }) ∧
        CCryptoKeyStore.unlock crypto lib vMasterKey { store with vMasterKey := locked } =
          (.ok (), { store with vMasterKey }) ∨
      ∃ failure, store.unlock crypto lib vMasterKey = (.error failure, store) ∧
        CCryptoKeyStore.unlock crypto lib vMasterKey { store with vMasterKey := locked } =
          (.error failure, { store with vMasterKey := locked }) := by
  have crypted' : ({ store with vMasterKey := locked } : CCryptoKeyStore).fUseCrypto = true :=
    crypted
  rw [CCryptoKeyStore.unlock, CCryptoKeyStore.unlock,
    CCryptoKeyStore.setCrypted_of_crypted crypted, CCryptoKeyStore.setCrypted_of_crypted crypted']
  dsimp only
  split
  · exact .inl ⟨rfl, rfl⟩
  · split
    · exact .inr ⟨_, rfl, rfl⟩
    · exact .inl ⟨rfl, rfl⟩

section Loop

variable {old new : List UInt8} {nMeasured : UInt32} {fWasLocked : Bool}
  {database : UInt32 → Option CMasterKey} {store : CCryptoKeyStore}
  (crypted : store.fUseCrypto = true)

include crypted in
/-- Without a master key that the passphrase opens the loop changes nothing. -/
private theorem changeLoop_of_none {masterKeys : List (UInt32 × CMasterKey)}
    (none_opened : openedBy cipher crypto lib old store masterKeys = none) :
    changeLoop cipher crypto lib old new nMeasured fWasLocked database
        { store with vMasterKey := [] } masterKeys =
      (false,
        { store := { store with vMasterKey := [] }, mapMasterKeys := masterKeys, database }) := by
  induction masterKeys with
  | nil => rfl
  | cons entry rest induction =>
      obtain ⟨nID, kMasterKey⟩ := entry
      rw [openedBy] at none_opened
      rw [changeLoop]
      split at none_opened
      · rfl
      · rename_i vMasterKey decrypted
        rcases @unlock_locked crypto lib store crypted [] vMasterKey with
          ⟨opens, -⟩ | ⟨failure, refused, refused'⟩
        · simp [opens] at none_opened
        · rw [refused] at none_opened
          rw [refused']
          dsimp only
          rw [induction none_opened]

include crypted in
/-- A master key that the passphrase opens unlocks the store and is encrypted again. -/
private theorem changeLoop_of_some {masterKeys : List (UInt32 × CMasterKey)}
    {kMasterKey : CMasterKey} {vMasterKey : List UInt8}
    (opened : openedBy cipher crypto lib old store masterKeys = some (kMasterKey, vMasterKey)) :
    ∃ front nID back, masterKeys = front ++ (nID, kMasterKey) :: back ∧
      changeLoop cipher crypto lib old new nMeasured fWasLocked database
          { store with vMasterKey := [] } masterKeys =
        match reencrypt cipher new vMasterKey nMeasured kMasterKey with
        | (false, kMasterKey) =>
            (false,
              { store := { store with vMasterKey }
                mapMasterKeys := front ++ (nID, kMasterKey) :: back
                database })
        | (true, kMasterKey) =>
            (true,
              { store :=
                  if fWasLocked then (CCryptoKeyStore.lock { store with vMasterKey }).2
                  else { store with vMasterKey }
                mapMasterKeys := front ++ (nID, kMasterKey) :: back
                database := Function.update database nID (some kMasterKey) }) := by
  induction masterKeys with
  | nil => simp [openedBy] at opened
  | cons entry rest induction =>
      obtain ⟨nID, kMasterKey'⟩ := entry
      rw [openedBy] at opened
      rw [changeLoop]
      split at opened
      · simp at opened
      · rename_i vMasterKey' decrypted
        rcases @unlock_locked crypto lib store crypted [] vMasterKey' with
          ⟨opens, opens'⟩ | ⟨failure, refused, refused'⟩
        · rw [opens] at opened
          obtain ⟨rfl, rfl⟩ := Prod.mk.inj (Option.some.inj opened)
          refine ⟨[], nID, rest, rfl, ?_⟩
          rw [opens']
          rfl
        · rw [refused] at opened
          obtain ⟨front, nID', back, rfl, changed⟩ := induction opened
          refine ⟨(nID, kMasterKey') :: front, nID', back, rfl, ?_⟩
          rw [refused']
          dsimp only
          rw [changed]
          split
          · rfl
          · rfl

end Loop

private theorem lock_eq {store : CCryptoKeyStore} (crypted : store.fUseCrypto = true) :
    store.lock.2 = { store with vMasterKey := [] } := by
  rw [CCryptoKeyStore.lock, CCryptoKeyStore.setCrypted_of_crypted crypted]

private theorem isLocked_iff {store : CCryptoKeyStore} (crypted : store.fUseCrypto = true) :
    store.isLocked = true ↔ store.vMasterKey = [] := by
  simp [CCryptoKeyStore.isLocked, crypted]

/-- A passphrase change that returns `false` leaves the wallet as it was exactly when the wallet was
locked and the old passphrase opens no master key, or when OpenSSL does not fail afterwards. -/
theorem changeWalletPassphrase_restores_iff (cipher : PassphraseCipher) (crypto : Crypto)
    (lib : OpenSSL) (wallet : EncryptedWallet) (encrypted : wallet.store.fUseCrypto = true)
    (strOldWalletPassphrase strNewWalletPassphrase : List UInt8) (nMeasured : UInt32) :
    ((changeWalletPassphrase cipher crypto lib strOldWalletPassphrase strNewWalletPassphrase
          nMeasured wallet).1 = false →
        (changeWalletPassphrase cipher crypto lib strOldWalletPassphrase strNewWalletPassphrase
          nMeasured wallet).2 = wallet) ↔
      Restores cipher crypto lib strOldWalletPassphrase strNewWalletPassphrase nMeasured
        wallet := by
  obtain ⟨store, masterKeys, database⟩ := wallet
  dsimp only at encrypted
  rw [changeWalletPassphrase, Restores]
  dsimp only
  rw [lock_eq encrypted]
  cases opened : openedBy cipher crypto lib strOldWalletPassphrase store masterKeys with
  | none =>
      rw [changeLoop_of_none encrypted opened]
      dsimp only
      rw [isLocked_iff encrypted]
      constructor
      · intro restored
        have same := congrArg EncryptedWallet.store (restored rfl)
        exact (congrArg CCryptoKeyStore.vMasterKey same).symm
      · intro locked _
        rw [← locked]
  | some key =>
      obtain ⟨kMasterKey, vMasterKey⟩ := key
      obtain ⟨front, nID, back, rfl, changed⟩ := @changeLoop_of_some _ _ _ _ strNewWalletPassphrase
        nMeasured store.isLocked database _ encrypted _ _ _ opened
      rw [changed]
      dsimp only
      cases attempt : reencrypt cipher strNewWalletPassphrase vMasterKey nMeasured kMasterKey with
      | mk fOk after =>
          cases fOk with
          | true => simp
          | false =>
              dsimp only
              constructor
              · intro restored
                have whole := restored rfl
                have same := congrArg EncryptedWallet.store whole
                have keys := congrArg EncryptedWallet.mapMasterKeys whole
                refine .inr ⟨(congrArg CCryptoKeyStore.vMasterKey same).symm, ?_⟩
                simpa using keys
              · rintro (done | ⟨rfl, rfl⟩) _
                · contradiction
                · rfl

/-- A passphrase is its own key, and a ciphertext shows the key it was made with. -/
def sampleCipher : PassphraseCipher where
  bytesToKey _ data _ := some (data, [])
  encrypt key _ plaintext := (true, key ++ plaintext)
  decrypt key _ ciphertext :=
    if ciphertext.take key.length = key then some (ciphertext.drop key.length) else none

/-- A wallet without keys whose passphrase is one byte. -/
def passphraseWallet (vMasterKey : List UInt8) : EncryptedWallet where
  store := { CCryptoKeyStore.empty with vMasterKey, fUseCrypto := true }
  mapMasterKeys := [(1,
    { vchCryptedKey := 7 :: List.replicate 32 1
      vchSalt := List.replicate 8 0
      nDerivationMethod := 0
      nDeriveIterations := 25000
      vchOtherDerivationParameters := [] })]
  database _ := none

theorem changeWalletPassphrase_restores_locked :
    (changeWalletPassphrase sampleCipher sampleCrypto sampleOpenSSL [8] [9] 30000
        (passphraseWallet [])).1 = false ∧
      (changeWalletPassphrase sampleCipher sampleCrypto sampleOpenSSL [8] [9] 30000
        (passphraseWallet [])).2 = passphraseWallet [] :=
  ⟨by decide +kernel, (changeWalletPassphrase_restores_iff sampleCipher sampleCrypto sampleOpenSSL
    (passphraseWallet []) rfl [8] [9] 30000).mpr rfl (by decide +kernel)⟩

/-- A wrong passphrase locks a wallet that was not locked. -/
theorem not_changeWalletPassphrase_restores :
    ¬∀ (cipher : PassphraseCipher) (crypto : Crypto) (lib : OpenSSL) (wallet : EncryptedWallet),
      wallet.store.fUseCrypto = true →
        ∀ strOldWalletPassphrase strNewWalletPassphrase nMeasured,
          (changeWalletPassphrase cipher crypto lib strOldWalletPassphrase strNewWalletPassphrase
              nMeasured wallet).1 = false →
            (changeWalletPassphrase cipher crypto lib strOldWalletPassphrase strNewWalletPassphrase
              nMeasured wallet).2 = wallet := by
  intro restores
  have same := restores sampleCipher sampleCrypto sampleOpenSSL
    (passphraseWallet (List.replicate 32 1)) rfl [8] [9] 30000 (by decide +kernel)
  have locked := congrArg (fun wallet => wallet.store.isLocked) same
  exact absurd locked (by decide +kernel)

end FooCoin

import FooCoin.KeyStore
import FooCoin.SampleChain

/-!
# Encrypting a key store

Encrypting the keys of a store and unlocking it gives back the answers of the plain store.  The
exception is `GetKey` of an uncompressed key into an output key that still carries the compression
flag of another key: `CBasicKeyStore::GetKey` resets the output key, `CCryptoKeyStore::GetKey` does
not.
-/

namespace FooCoin

open Stateful

variable {crypto : Crypto} {lib : OpenSSL}

theorem CKey.setSecret_eq {key : CKey lib} {secret : CSecret} (size : secret.length = 32)
    (fCompressed : Bool) :
    key.setSecret secret fCompressed =
      .ok (CKey.ofSecret lib secret (fCompressed || key.fCompressedPubKey)) := by
  obtain ⟨pkey, fSet, fCompressedPubKey⟩ := key
  cases fCompressed <;> cases fCompressedPubKey <;>
    simp [setSecret, size, ofSecret, setCompressedPubKey]

theorem CKey.getPubKey_ofSecret (secret : CSecret) (fCompressed : Bool) :
    (CKey.ofSecret lib secret fCompressed).getPubKey = .ok (pubKeyOf lib secret fCompressed) :=
  rfl

theorem CKey.getSecret_ofSecret (secret : CSecret) (fCompressed : Bool) :
    (CKey.ofSecret lib secret fCompressed).getSecret = .ok (secret, fCompressed) :=
  rfl

theorem CBasicKeyStore.addKey_ofSecret (store : CBasicKeyStore) (secret : CSecret)
    (fCompressed : Bool) :
    store.addKey crypto (CKey.ofSecret lib secret fCompressed) = .ok
      { mapKeys := store.mapKeys.insert (crypto.Hash160 (pubKeyOf lib secret fCompressed))
          (secret, fCompressed) } :=
  rfl

/-- The length of a public key tells the form. -/
theorem OpenSSL.Documented.length_pubKeyOf (documented : lib.Documented) {secret : CSecret}
    (valid : lib.IsPrivate secret) (fCompressed : Bool) :
    (pubKeyOf lib secret fCompressed).length = if fCompressed then 33 else 65 := by
  cases fCompressed with
  | false => exact documented.length_uncompressed secret valid
  | true => exact documented.length_compressed secret valid

/-- `SetPubKey` of a public key only adds the compression flag. -/
theorem OpenSSL.Documented.setPubKey_flag (documented : lib.Documented) {secret : CSecret}
    (valid : lib.IsPrivate secret) (fCompressed : Bool) (key : CKey lib) :
    (key.setPubKey (pubKeyOf lib secret fCompressed)).2.fCompressedPubKey =
      (fCompressed || key.fCompressedPubKey) := by
  have read := documented.o2i_i2o secret (if fCompressed then .compressed else .uncompressed) valid
  have size := documented.length_pubKeyOf valid fCompressed
  simp only [CKey.setPubKey, pubKeyOf] at size ⊢
  rw [read]
  cases fCompressed <;> simp_all [CKey.setCompressedPubKey]

/-- A key that `SetSecret` or `MakeNewKey` made on a new object. -/
def CKey.Made (key : CKey lib) : Prop :=
  ∃ secret fCompressed, lib.IsPrivate secret ∧ key = CKey.ofSecret lib secret fCompressed

/-- The encrypted entry of a plain one. -/
def cryptedEntry (crypto : Crypto) (lib : OpenSSL) (vMasterKey : List UInt8)
    (plain : CSecret × Bool) : List UInt8 × List UInt8 :=
  let vchPubKey := pubKeyOf lib plain.1 plain.2
  (vchPubKey, lib.encrypt vMasterKey (uint256Bytes (crypto.Hash vchPubKey)) plain.1)

namespace CCryptoKeyStore

theorem encryptKey_ofSecret {vMasterKey : List UInt8} (size : vMasterKey.length = 32)
    (secret : CSecret) (fCompressed : Bool) :
    encryptKey crypto vMasterKey (CKey.ofSecret lib secret fCompressed) =
      .ok (cryptedEntry crypto lib vMasterKey (secret, fCompressed)) := by
  simp [encryptKey, CKey.getPubKey_ofSecret, CKey.getSecret_ofSecret, encryptSecret, size,
    cryptedEntry, bind, Except.bind, pure, Except.pure]

/-- `SetCrypted` fails and changes nothing, or there is no plain key. -/
theorem setCrypted_cases (store : CCryptoKeyStore) :
    setCrypted store = (.error .rejected, store) ∨
      (setCrypted store = (.ok (), { store with fUseCrypto := true }) ∧
        (store.fUseCrypto = true ∨ store.mapKeys = ∅)) := by
  unfold setCrypted
  split_ifs with crypted keyed
  · refine .inr ⟨?_, .inl crypted⟩
    rw [← crypted]
  · exact .inl rfl
  · exact .inr ⟨rfl, .inr (AList.ext (not_not.mp keyed))⟩

theorem setCrypted_of_crypted {store : CCryptoKeyStore} (crypted : store.fUseCrypto = true) :
    setCrypted store = (.ok (), store) := by
  rw [setCrypted, if_pos crypted]

/-- What holds in every state of a store. -/
structure Sound (crypto : Crypto) (lib : OpenSSL) (store : CCryptoKeyStore) : Prop where
  mapKeys_eq : store.fUseCrypto = true → store.mapKeys = ∅
  mapCryptedKeys_eq : store.fUseCrypto = false → store.mapCryptedKeys = ∅
  vMasterKey_eq : store.fUseCrypto = false → store.vMasterKey = []
  filed : ∀ address secret fCompressed,
    store.mapKeys.lookup address = some (secret, fCompressed) →
      lib.IsPrivate secret ∧ crypto.Hash160 (pubKeyOf lib secret fCompressed) = address

theorem Sound.empty : Sound crypto lib .empty where
  mapKeys_eq := by simp [CCryptoKeyStore.empty]
  mapCryptedKeys_eq := by simp [CCryptoKeyStore.empty]
  vMasterKey_eq := by simp [CCryptoKeyStore.empty]
  filed := by simp [CCryptoKeyStore.empty]

/-- A crypted store without plain keys is sound. -/
theorem sound_of_crypted {store : CCryptoKeyStore} (crypted : store.fUseCrypto = true)
    (keyless : store.mapKeys = ∅) : Sound crypto lib store where
  mapKeys_eq := fun _ => keyless
  mapCryptedKeys_eq := by simp [crypted]
  vMasterKey_eq := by simp [crypted]
  filed := by simp [keyless]

theorem Sound.keyless {store : CCryptoKeyStore} (sound : Sound crypto lib store)
    (crypted : store.fUseCrypto = true ∨ store.mapKeys = ∅) : store.mapKeys = ∅ :=
  crypted.elim sound.mapKeys_eq id

theorem Sound.lock {store : CCryptoKeyStore} (sound : Sound crypto lib store) :
    Sound crypto lib (lock store).2 := by
  rcases setCrypted_cases store with failed | ⟨crypted, plain⟩
  · simpa only [CCryptoKeyStore.lock, failed] using sound
  · simp only [CCryptoKeyStore.lock, crypted]
    exact sound_of_crypted rfl (sound.keyless plain)

theorem Sound.unlock {store : CCryptoKeyStore} (sound : Sound crypto lib store)
    (vMasterKeyIn : List UInt8) : Sound crypto lib (unlock crypto lib vMasterKeyIn store).2 := by
  rcases setCrypted_cases store with failed | ⟨crypted, plain⟩
  · simpa only [CCryptoKeyStore.unlock, failed] using sound
  · have keyless := sound.keyless plain
    simp only [CCryptoKeyStore.unlock, crypted]
    split
    · exact sound_of_crypted rfl keyless
    · split <;> exact sound_of_crypted rfl keyless

theorem Sound.addCryptedKey {store : CCryptoKeyStore} (sound : Sound crypto lib store)
    (vchPubKey vchCryptedSecret : List UInt8) :
    Sound crypto lib (addCryptedKey crypto vchPubKey vchCryptedSecret store).2 := by
  rcases setCrypted_cases store with failed | ⟨crypted, plain⟩
  · simpa only [CCryptoKeyStore.addCryptedKey, failed] using sound
  · simp only [CCryptoKeyStore.addCryptedKey, crypted]
    exact sound_of_crypted rfl (sound.keyless plain)

theorem Sound.addKey {store : CCryptoKeyStore} (sound : Sound crypto lib store) {key : CKey lib}
    (made : key.Made) : Sound crypto lib (addKey crypto key store).2 := by
  obtain ⟨secret, fCompressed, valid, rfl⟩ := made
  cases crypted : store.fUseCrypto with
  | false =>
      simp only [CCryptoKeyStore.addKey, crypted, CBasicKeyStore.addKey_ofSecret,
        Bool.false_eq_true, not_false_eq_true, if_true]
      constructor
      · simp
      · exact fun _ => sound.mapCryptedKeys_eq crypted
      · exact fun _ => sound.vMasterKey_eq crypted
      · intro address other otherCompressed found
        by_cases same : address = crypto.Hash160 (pubKeyOf lib secret fCompressed)
        · subst same
          simp only [AList.lookup_insert, Option.some.injEq, Prod.mk.injEq] at found
          obtain ⟨rfl, rfl⟩ := found
          exact ⟨valid, rfl⟩
        · rw [AList.lookup_insert_ne same] at found
          exact sound.filed address other otherCompressed found
  | true =>
      simp only [CCryptoKeyStore.addKey, crypted, not_true_eq_false, if_false]
      split
      · exact sound
      · split
        · exact sound
        · exact sound.addCryptedKey _ _

/-- The loop of `EncryptKeys` enters the encrypted form of every entry. -/
theorem sequence_encryptEntry (documented : lib.Documented) {vMasterKey : List UInt8}
    (size : vMasterKey.length = 32) {entries : List ((_ : UInt160) × CSecret × Bool)}
    (nodup : entries.NodupKeys)
    (filed : ∀ entry ∈ entries, lib.IsPrivate entry.2.1 ∧
      crypto.Hash160 (pubKeyOf lib entry.2.1 entry.2.2) = entry.1)
    {store : CCryptoKeyStore} (crypted : store.fUseCrypto = true) :
    ∃ mapCryptedKeys, sequence (encryptEntry crypto lib vMasterKey) entries store =
        (.ok (), { store with mapCryptedKeys }) ∧
      ∀ address, mapCryptedKeys.lookup address =
        ((entries.dlookup address).map (cryptedEntry crypto lib vMasterKey)).or
          (store.mapCryptedKeys.lookup address) := by
  induction entries generalizing store with
  | nil => exact ⟨store.mapCryptedKeys, rfl, fun address => by simp⟩
  | cons entry entries induction =>
      obtain ⟨id, secret, fCompressed⟩ := entry
      obtain ⟨valid, filed_here⟩ := filed _ List.mem_cons_self
      obtain ⟨fresh, nodup⟩ := List.nodupKeys_cons.mp nodup
      let value := cryptedEntry crypto lib vMasterKey (secret, fCompressed)
      let middle := { store with mapCryptedKeys := store.mapCryptedKeys.insert id value }
      have first : encryptEntry crypto lib vMasterKey ⟨id, secret, fCompressed⟩ store =
          (.ok (), middle) := by
        have made : (do
            let key : CKey lib ← CKey.reset.setSecret secret fCompressed
            encryptKey crypto vMasterKey key) = .ok value := by
          rw [CKey.setSecret_eq (documented.length_private secret valid)]
          simpa [CKey.reset] using encryptKey_ofSecret size secret fCompressed
        simp only [encryptEntry, made]
        simp only [value, cryptedEntry, addCryptedKey, setCrypted_of_crypted crypted, middle]
        rw [filed_here]
      obtain ⟨mapCryptedKeys, rest, lookup_eq⟩ := @induction nodup
        (fun entry member => filed entry (List.mem_cons_of_mem _ member)) middle crypted
      refine ⟨mapCryptedKeys, ?_, fun address => ?_⟩
      · rw [sequence_cons_eq_ok]
        exact ⟨middle, first, rest⟩
      · rw [lookup_eq]
        by_cases same : address = id
        · subst same
          rw [List.dlookup_eq_none.mpr fresh, List.dlookup_cons_eq]
          simp [middle, value]
        · rw [List.dlookup_cons_ne _ _ same]
          simp [middle, AList.lookup_insert_ne same]

/-- `EncryptKeys` of a plain store. -/
theorem Sound.encryptKeys_eq (documented : lib.Documented) {store : CCryptoKeyStore}
    (sound : Sound crypto lib store) (plain : store.fUseCrypto = false) {vMasterKey : List UInt8}
    (size : vMasterKey.length = 32) :
    ∃ mapCryptedKeys, encryptKeys crypto lib vMasterKey store =
        (.ok (), { mapKeys := ∅, mapCryptedKeys, vMasterKey := [], fUseCrypto := true }) ∧
      ∀ address, mapCryptedKeys.lookup address =
        (store.mapKeys.lookup address).map (cryptedEntry crypto lib vMasterKey) := by
  have filed : ∀ entry ∈ store.mapKeys.entries, lib.IsPrivate entry.2.1 ∧
      crypto.Hash160 (pubKeyOf lib entry.2.1 entry.2.2) = entry.1 := by
    rintro ⟨address, secret, fCompressed⟩ member
    exact sound.filed address secret fCompressed (AList.mem_lookup_iff.mpr member)
  obtain ⟨mapCryptedKeys, loop, lookup_eq⟩ := sequence_encryptEntry documented size
    store.mapKeys.nodupKeys filed (show ({ store with fUseCrypto := true }).fUseCrypto = true from rfl)
  refine ⟨mapCryptedKeys, ?_, fun address => ?_⟩
  · have idle : ¬(store.mapCryptedKeys.entries ≠ [] ∨ store.fUseCrypto = true) := by
      simp [sound.mapCryptedKeys_eq plain, plain]
    rw [encryptKeys, if_neg idle, loop, sound.vMasterKey_eq plain]
  · rw [lookup_eq, sound.mapCryptedKeys_eq plain]
    simp [AList.lookup]

/-- Nothing is encrypted twice. -/
theorem encryptKeys_of_crypted {store : CCryptoKeyStore} (crypted : store.fUseCrypto = true)
    (vMasterKey : List UInt8) :
    encryptKeys crypto lib vMasterKey store = (.error .rejected, store) := by
  rw [encryptKeys, if_pos (.inr crypted)]

theorem Sound.encryptKeys (documented : lib.Documented) {store : CCryptoKeyStore}
    (sound : Sound crypto lib store) {vMasterKey : List UInt8} (size : vMasterKey.length = 32) :
    Sound crypto lib (store.encryptKeys crypto lib vMasterKey).2 := by
  cases crypted : store.fUseCrypto with
  | false =>
      obtain ⟨mapCryptedKeys, outcome, _⟩ := sound.encryptKeys_eq documented crypted size
      rw [outcome]
      exact sound_of_crypted rfl rfl
  | true =>
      rw [encryptKeys_of_crypted crypted]
      exact sound

end CCryptoKeyStore

/-- The states that calls of the store lead to.  `EncryptKeys` gets a master key of the size that the
cipher takes. -/
inductive StoreRun (crypto : Crypto) (lib : OpenSSL) : CCryptoKeyStore → Prop
  | start : StoreRun crypto lib .empty
  | addKey {store : CCryptoKeyStore} {key : CKey lib} :
      StoreRun crypto lib store → key.Made → StoreRun crypto lib (store.addKey crypto key).2
  | addCryptedKey {store : CCryptoKeyStore} (vchPubKey vchCryptedSecret : List UInt8) :
      StoreRun crypto lib store →
        StoreRun crypto lib (store.addCryptedKey crypto vchPubKey vchCryptedSecret).2
  | encryptKeys {store : CCryptoKeyStore} {vMasterKey : List UInt8} :
      StoreRun crypto lib store → vMasterKey.length = 32 →
        StoreRun crypto lib (store.encryptKeys crypto lib vMasterKey).2
  | lock {store : CCryptoKeyStore} : StoreRun crypto lib store → StoreRun crypto lib store.lock.2
  | unlock {store : CCryptoKeyStore} (vMasterKey : List UInt8) :
      StoreRun crypto lib store → StoreRun crypto lib (store.unlock crypto lib vMasterKey).2

theorem StoreRun.sound (documented : lib.Documented) {store : CCryptoKeyStore}
    (run : StoreRun crypto lib store) : store.Sound crypto lib := by
  induction run with
  | start => exact .empty
  | addKey _ made induction => exact induction.addKey made
  | addCryptedKey vchPubKey vchCryptedSecret _ induction =>
      exact induction.addCryptedKey vchPubKey vchCryptedSecret
  | encryptKeys _ size induction => exact induction.encryptKeys documented size
  | lock _ induction => exact induction.lock
  | unlock vMasterKey _ induction => exact induction.unlock vMasterKey

/-! ## The same answers -/

/-- A store encrypts another one under a master key. -/
structure Encrypts (crypto : Crypto) (lib : OpenSSL) (vMasterKey : List UInt8)
    (plain encrypted : CCryptoKeyStore) : Prop where
  fUseCrypto_eq : encrypted.fUseCrypto = true
  lookup_eq : ∀ address, encrypted.mapCryptedKeys.lookup address =
    (plain.mapKeys.lookup address).map (cryptedEntry crypto lib vMasterKey)

/-- An encrypted store gives the answers of the plain one. -/
structure SameAnswers (crypto : Crypto) (plain encrypted : CCryptoKeyStore) (address : UInt160)
    (keyOut : CKey lib) : Prop where
  haveKey : encrypted.haveKey address = plain.haveKey address
  getPubKey : encrypted.getPubKey crypto lib address = plain.getPubKey crypto lib address
  getKey : encrypted.getKey crypto address keyOut = plain.getKey crypto address keyOut

section Answers

variable {vMasterKey : List UInt8} {plain encrypted : CCryptoKeyStore}

theorem decryptSecret_cryptedEntry (documented : lib.Documented) (size : vMasterKey.length = 32)
    (secret : CSecret) (fCompressed : Bool) :
    decryptSecret lib vMasterKey (cryptedEntry crypto lib vMasterKey (secret, fCompressed)).2
        (crypto.Hash (cryptedEntry crypto lib vMasterKey (secret, fCompressed)).1) =
      some secret := by
  rw [decryptSecret, if_neg (by simpa using size)]
  exact documented.decrypt_encrypt vMasterKey _ secret size

/-- `SetPubKey` and `SetSecret` after each other. -/
theorem setSecret_setPubKey (documented : lib.Documented) {secret : CSecret}
    (valid : lib.IsPrivate secret) (fCompressed : Bool) (key : CKey lib) :
    (key.setPubKey (pubKeyOf lib secret fCompressed)).2.setSecret secret false =
      .ok (CKey.ofSecret lib secret (fCompressed || key.fCompressedPubKey)) := by
  rw [CKey.setSecret_eq (documented.length_private secret valid),
    documented.setPubKey_flag valid]
  simp

theorem Encrypts.haveKey_eq (encrypts : Encrypts crypto lib vMasterKey plain encrypted)
    (uncrypted : plain.fUseCrypto = false) (address : UInt160) :
    encrypted.haveKey address = plain.haveKey address := by
  simp [CCryptoKeyStore.haveKey, CBasicKeyStore.haveKey, encrypts.fUseCrypto_eq, uncrypted,
    encrypts.lookup_eq]

/-- `GetKey` of the plain store. -/
theorem CCryptoKeyStore.Sound.getKey_eq (documented : lib.Documented)
    (sound : plain.Sound crypto lib) (uncrypted : plain.fUseCrypto = false) {address : UInt160}
    {secret : CSecret} {fCompressed : Bool}
    (found : plain.mapKeys.lookup address = some (secret, fCompressed)) (keyOut : CKey lib) :
    plain.getKey crypto address keyOut = .ok (true, CKey.ofSecret lib secret fCompressed) := by
  have valid := (sound.filed address secret fCompressed found).1
  simp [CCryptoKeyStore.getKey, CBasicKeyStore.getKey, uncrypted, found,
    CKey.setSecret_eq (documented.length_private secret valid), CKey.reset, bind, Except.bind,
    pure, Except.pure]

theorem CCryptoKeyStore.getKey_eq_of_unknown (uncrypted : plain.fUseCrypto = false)
    {address : UInt160} (unknown : plain.mapKeys.lookup address = none) (keyOut : CKey lib) :
    plain.getKey crypto address keyOut = .ok (false, keyOut) := by
  simp [CCryptoKeyStore.getKey, CBasicKeyStore.getKey, uncrypted, unknown]

theorem Encrypts.getPubKey_eq (encrypts : Encrypts crypto lib vMasterKey plain encrypted)
    (documented : lib.Documented) (sound : plain.Sound crypto lib)
    (uncrypted : plain.fUseCrypto = false) (address : UInt160) :
    encrypted.getPubKey crypto lib address = plain.getPubKey crypto lib address := by
  simp only [CCryptoKeyStore.getPubKey, encrypts.fUseCrypto_eq, uncrypted, encrypts.lookup_eq,
    Bool.false_eq_true, not_true_eq_false, not_false_eq_true, if_true, if_false]
  cases found : plain.mapKeys.lookup address with
  | none =>
      rw [CCryptoKeyStore.getKey_eq_of_unknown uncrypted found]
      rfl
  | some entry =>
      rw [sound.getKey_eq documented uncrypted found]
      rfl

/-- `GetKey` of an unlocked store. -/
theorem Encrypts.getKey_eq (encrypts : Encrypts crypto lib vMasterKey plain encrypted)
    (documented : lib.Documented) (sound : plain.Sound crypto lib)
    (size : vMasterKey.length = 32) (unlocked : encrypted.vMasterKey = vMasterKey)
    {address : UInt160} {secret : CSecret} {fCompressed : Bool}
    (found : plain.mapKeys.lookup address = some (secret, fCompressed)) (keyOut : CKey lib) :
    encrypted.getKey crypto address keyOut =
      .ok (true, CKey.ofSecret lib secret (fCompressed || keyOut.fCompressedPubKey)) := by
  have valid := (sound.filed address secret fCompressed found).1
  have entry : encrypted.mapCryptedKeys.lookup address =
      some (cryptedEntry crypto lib vMasterKey (secret, fCompressed)) := by
    rw [encrypts.lookup_eq, found]
    rfl
  simp only [CCryptoKeyStore.getKey, encrypts.fUseCrypto_eq, entry, unlocked,
    decryptSecret_cryptedEntry documented size, documented.length_private secret valid,
    not_true_eq_false, if_false, ne_eq]
  rw [show (cryptedEntry crypto lib vMasterKey (secret, fCompressed)).1 =
    pubKeyOf lib secret fCompressed from rfl, setSecret_setPubKey documented valid]
  rfl

/-- The answers differ only for an uncompressed key, read into a key with the compression flag. -/
theorem Encrypts.sameAnswers_iff (encrypts : Encrypts crypto lib vMasterKey plain encrypted)
    (documented : lib.Documented) (sound : plain.Sound crypto lib)
    (uncrypted : plain.fUseCrypto = false) (size : vMasterKey.length = 32)
    (unlocked : encrypted.vMasterKey = vMasterKey) (address : UInt160) (keyOut : CKey lib) :
    SameAnswers crypto plain encrypted address keyOut ↔
      (keyOut.fCompressedPubKey = true → ∀ secret fCompressed,
        plain.mapKeys.lookup address = some (secret, fCompressed) → fCompressed = true) := by
  have others : encrypted.getKey crypto address keyOut = plain.getKey crypto address keyOut →
      SameAnswers crypto plain encrypted address keyOut := fun same =>
    ⟨encrypts.haveKey_eq uncrypted address,
      encrypts.getPubKey_eq documented sound uncrypted address, same⟩
  cases found : plain.mapKeys.lookup address with
  | none =>
      have entry : encrypted.mapCryptedKeys.lookup address = none := by
        rw [encrypts.lookup_eq, found]
        rfl
      refine iff_of_true (others ?_) (by simp)
      rw [CCryptoKeyStore.getKey_eq_of_unknown uncrypted found]
      simp [CCryptoKeyStore.getKey, encrypts.fUseCrypto_eq, entry]
  | some entry =>
      obtain ⟨secret, fCompressed⟩ := entry
      have plain_key := sound.getKey_eq documented uncrypted found keyOut
      have encrypted_key := encrypts.getKey_eq documented sound size unlocked found keyOut
      constructor
      · rintro ⟨_, _, same⟩ flagged _ _ ⟨⟩
        rw [plain_key, encrypted_key, Except.ok.injEq, Prod.mk.injEq] at same
        have flags := congrArg CKey.fCompressedPubKey same.2
        simpa [CKey.ofSecret, flagged] using flags.symm
      · intro compressed
        apply others
        rw [plain_key, encrypted_key]
        cases flag : keyOut.fCompressedPubKey with
        | false => simp
        | true => simp [compressed flag secret fCompressed rfl]

/-- A locked store gives no key. -/
theorem CCryptoKeyStore.getKey_of_locked (crypted : encrypted.fUseCrypto = true)
    (locked : encrypted.vMasterKey = []) (address : UInt160) (keyOut : CKey lib) :
    encrypted.getKey crypto address keyOut = .ok (false, keyOut) := by
  simp only [CCryptoKeyStore.getKey, crypted, not_true_eq_false, if_false, locked, decryptSecret]
  cases encrypted.mapCryptedKeys.lookup address with
  | none => rfl
  | some entry => simp

/-- `Unlock` with the master key that the keys are encrypted with. -/
theorem Encrypts.unlock_eq (encrypts : Encrypts crypto lib vMasterKey plain encrypted)
    (documented : lib.Documented) (sound : plain.Sound crypto lib) (size : vMasterKey.length = 32) :
    encrypted.unlock crypto lib vMasterKey = (.ok (), { encrypted with vMasterKey }) := by
  simp only [CCryptoKeyStore.unlock, CCryptoKeyStore.setCrypted_of_crypted encrypts.fUseCrypto_eq]
  split
  · rfl
  · rename_i address vchPubKey vchCryptedSecret least
    have member := List.argmin_mem least
    have entry := encrypts.lookup_eq address
    rw [AList.mem_lookup_iff.mpr member, eq_comm, Option.map_eq_some_iff] at entry
    obtain ⟨⟨secret, fCompressed⟩, found, same⟩ := entry
    have valid := (sound.filed address secret fCompressed found).1
    have unlocks : CCryptoKeyStore.unlocks crypto lib vMasterKey vchPubKey vchCryptedSecret =
        .ok () := by
      have read := @decryptSecret_cryptedEntry crypto lib vMasterKey documented size secret fCompressed
      rw [same] at read
      obtain ⟨rfl, -⟩ := Prod.mk.inj same
      simp only [CCryptoKeyStore.unlocks, read, setSecret_setPubKey documented valid]
      simp [documented.length_private secret valid, CKey.reset, CKey.getPubKey_ofSecret]
    rw [unlocks]

end Answers

/-- Encryption is transparent, up to a compression flag that the output key carries already. -/
theorem encryption_transparent_iff (documented : lib.Documented) {store : CCryptoKeyStore}
    (run : StoreRun crypto lib store) :
    (store.fUseCrypto = true → store.mapKeys = ∅) ∧
      ∀ vMasterKey : List UInt8, vMasterKey.length = 32 → store.fUseCrypto = false →
        ∃ locked unlocked, store.encryptKeys crypto lib vMasterKey = (.ok (), locked) ∧
          locked.unlock crypto lib vMasterKey = (.ok (), unlocked) ∧
          unlocked.lock = (.ok (), locked) ∧
          (∀ (address : UInt160) (keyOut : CKey lib),
            locked.getKey crypto address keyOut = .ok (false, keyOut) ∧
            locked.haveKey address = store.haveKey address ∧
            locked.getPubKey crypto lib address = store.getPubKey crypto lib address) ∧
          ∀ (address : UInt160) (keyOut : CKey lib),
            SameAnswers crypto store unlocked address keyOut ↔
              (keyOut.fCompressedPubKey = true → ∀ secret fCompressed,
                store.mapKeys.lookup address = some (secret, fCompressed) →
                  fCompressed = true) := by
  have sound := run.sound documented
  refine ⟨sound.mapKeys_eq, fun vMasterKey size plain => ?_⟩
  obtain ⟨mapCryptedKeys, outcome, lookup_eq⟩ := sound.encryptKeys_eq documented plain size
  let locked : CCryptoKeyStore :=
    { mapKeys := ∅, mapCryptedKeys, vMasterKey := [], fUseCrypto := true }
  have encrypts : Encrypts crypto lib vMasterKey store locked := ⟨rfl, lookup_eq⟩
  have unlocked_encrypts : Encrypts crypto lib vMasterKey store { locked with vMasterKey } :=
    ⟨rfl, lookup_eq⟩
  refine ⟨locked, { locked with vMasterKey }, outcome,
    encrypts.unlock_eq documented sound size, rfl, ?_, ?_⟩
  · intro address keyOut
    exact ⟨CCryptoKeyStore.getKey_of_locked rfl rfl address keyOut,
      encrypts.haveKey_eq plain address, encrypts.getPubKey_eq documented sound plain address⟩
  · exact unlocked_encrypts.sameAnswers_iff documented sound plain size rfl

/-- A curve whose points are the secrets themselves, and a cipher that checks its key. -/
def sampleOpenSSL : OpenSSL where
  Point := CSecret
  IsPrivate secret := secret.length = 32
  regenerate := id
  i2o
    | .compressed, point => 2 :: point
    | .uncompressed, point => 4 :: (point ++ point)
    | .hybrid, point => 6 :: (point ++ point)
  o2i
    | 2 :: point => some (point, .compressed)
    | 4 :: octets => some (octets.take 32, .uncompressed)
    | 6 :: octets => some (octets.take 32, .hybrid)
    | _ => none
  encrypt key _ plaintext := key ++ plaintext
  decrypt key _ ciphertext :=
    if ciphertext.take 32 = key then some (ciphertext.drop 32) else none

theorem sampleOpenSSL_documented : sampleOpenSSL.Documented where
  length_private _ valid := valid
  length_compressed secret valid := by
    simpa [sampleOpenSSL] using valid
  length_uncompressed secret valid := by
    have size : secret.length = 32 := valid
    simp [sampleOpenSSL, size]
  o2i_i2o secret form valid := by
    have size : secret.length = 32 := valid
    cases form <;> simp [sampleOpenSSL, ← size]
  decrypt_encrypt key iv plaintext size := by
    simp [sampleOpenSSL, ← size]

/-- An uncompressed key. -/
def sampleKey : CKey sampleOpenSSL := .ofSecret sampleOpenSSL (List.replicate 32 1) false

/-- A plain store with one uncompressed key. -/
def plainStore : CCryptoKeyStore := (CCryptoKeyStore.empty.addKey sampleCrypto sampleKey).2

private theorem plainStore_run : StoreRun sampleCrypto sampleOpenSSL plainStore :=
  StoreRun.start.addKey ⟨_, _, List.length_replicate, rfl⟩

/-- The address of the key. -/
def sampleAddress : UInt160 :=
  sampleCrypto.Hash160 (pubKeyOf sampleOpenSSL (List.replicate 32 1) false)

private theorem plainStore_lookup :
    plainStore.mapKeys.lookup sampleAddress = some (List.replicate 32 1, false) :=
  AList.lookup_insert _

theorem encryption_transparent_iff_plainStore :
    ∃ locked unlocked,
      plainStore.encryptKeys sampleCrypto sampleOpenSSL (List.replicate 32 9) = (.ok (), locked) ∧
        locked.unlock sampleCrypto sampleOpenSSL (List.replicate 32 9) = (.ok (), unlocked) ∧
        ∀ address, SameAnswers sampleCrypto plainStore unlocked address
          (CKey.reset : CKey sampleOpenSSL) := by
  obtain ⟨locked, unlocked, encrypted, opened, _, _, answers⟩ :=
    (encryption_transparent_iff sampleOpenSSL_documented plainStore_run).2 (List.replicate 32 9)
      List.length_replicate rfl
  refine ⟨locked, unlocked, encrypted, opened, fun address => (answers address _).mpr ?_⟩
  simp [CKey.reset]

/-- An output key that held a compressed key turns an uncompressed key into a compressed one. -/
theorem not_encryption_transparent :
    ¬∀ (lib : OpenSSL) (store locked unlocked : CCryptoKeyStore) (vMasterKey : List UInt8)
        (address : UInt160) (keyOut : CKey lib),
      lib.Documented → StoreRun sampleCrypto lib store → vMasterKey.length = 32 →
      store.encryptKeys sampleCrypto lib vMasterKey = (.ok (), locked) →
      locked.unlock sampleCrypto lib vMasterKey = (.ok (), unlocked) →
        SameAnswers sampleCrypto store unlocked address keyOut := by
  intro transparent
  have documented := sampleOpenSSL_documented
  have sound := plainStore_run.sound documented
  have size : (List.replicate 32 (9 : UInt8)).length = 32 := List.length_replicate
  obtain ⟨mapCryptedKeys, encrypted, lookup_eq⟩ := sound.encryptKeys_eq documented rfl size
  have encrypts : Encrypts sampleCrypto sampleOpenSSL (List.replicate 32 9) plainStore
    { mapKeys := ∅, mapCryptedKeys, vMasterKey := [], fUseCrypto := true } := ⟨rfl, lookup_eq⟩
  have unlocked_encrypts : Encrypts sampleCrypto sampleOpenSSL (List.replicate 32 9) plainStore
    { mapKeys := ∅, mapCryptedKeys, vMasterKey := List.replicate 32 9, fUseCrypto := true } :=
    ⟨rfl, lookup_eq⟩
  have same := transparent sampleOpenSSL plainStore _ _ _ sampleAddress
    (CKey.ofSecret sampleOpenSSL (List.replicate 32 2) true) documented plainStore_run size encrypted
    (encrypts.unlock_eq documented sound size)
  have compressed := (unlocked_encrypts.sameAnswers_iff documented sound rfl size rfl _ _).mp same
    rfl _ _ plainStore_lookup
  contradiction

end FooCoin

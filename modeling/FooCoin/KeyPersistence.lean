import FooCoin.WalletFile

/-!
# A restart restores the keys

The records of the wallet file follow the key store.  Within `EncryptWallet` it is the transaction's
view that follows the encrypted part of the key store, while the file still holds the plain keys, so
that the end of the process loses nothing, and leaves no plain key in an encrypted file.
-/

namespace FooCoin

open Function Stateful

/-- What OpenSSL documents of written private keys. -/
structure KeyFormats.Documented {lib : OpenSSL} (formats : KeyFormats lib) : Prop where
  i2d_private : ∀ secret fCompressed, lib.IsPrivate secret →
    ∃ vchPrivKey, formats.i2d (CKey.ofSecret lib secret fCompressed).pkey = some vchPrivKey
  /-- A key is read into an object that holds its public key in its form. -/
  d2i_i2d : ∀ secret fCompressed vchPrivKey (pkey : EcKey lib), lib.IsPrivate secret →
    formats.i2d (CKey.ofSecret lib secret fCompressed).pkey = some vchPrivKey →
    pkey.publicKey = some (lib.regenerate secret) →
    pkey.convForm = (if fCompressed then .compressed else .uncompressed) →
    formats.d2i pkey vchPrivKey = (true, (CKey.ofSecret lib secret fCompressed).pkey)

/-- Only the master key that a secret was encrypted with passes the check of `Unlock`. -/
def OpenSSL.Authentic (crypto : Crypto) (lib : OpenSSL) : Prop :=
  ∀ vMasterKey vMasterKeyIn secret fCompressed, vMasterKey.length = 32 → lib.IsPrivate secret →
    CCryptoKeyStore.unlocks crypto lib vMasterKeyIn (pubKeyOf lib secret fCompressed)
      (cryptedEntry crypto lib vMasterKey (secret, fCompressed)).2 = .ok () →
    vMasterKeyIn = vMasterKey

/-- The public key of a secret with its form. -/
def publicOf (lib : OpenSSL) (key : CSecret × Bool) : List UInt8 := pubKeyOf lib key.1 key.2

/-- The address of a secret with its form. -/
def addressOf (crypto : Crypto) (lib : OpenSSL) (key : CSecret × Bool) : UInt160 :=
  crypto.Hash160 (publicOf lib key)

variable {lib : OpenSSL} {crypto : Crypto} {formats : KeyFormats lib}
  {keys : Set (CSecret × Bool)}

/-! ## Records -/

private theorem lookup_alist_insert {α β : Type} [DecidableEq α] (list : AList fun _ : α => β)
    (place : α) (value : β) :
    (list.insert place value).lookup = update list.lookup place (some value) := by
  funext other
  by_cases same : other = place
  · subst same
    rw [AList.lookup_insert, update_self]
  · rw [AList.lookup_insert_ne same, update_of_ne same]

private theorem alist_eq_empty {α : Type} {β : α → Type} [DecidableEq α] {list : AList β}
    (empty : ∀ place, list.lookup place = none) : list = ∅ := by
  refine AList.ext (List.eq_nil_iff_forall_not_mem.mpr fun entry listed => ?_)
  have found := AList.mem_lookup_iff.mpr listed
  rw [empty] at found
  cases found

/-- The records hold these plain keys, these encrypted keys, all of them under one master key, and
these master keys. -/
structure KeyRecords.Tracks (crypto : Crypto) (formats : KeyFormats lib)
    (keys : Set (CSecret × Bool)) (vMasterKey : List UInt8) (records : KeyRecords)
    (plain : UInt160 → Option (CSecret × Bool))
    (crypted : UInt160 → Option (List UInt8 × List UInt8))
    (masters : UInt32 → Option CMasterKey) : Prop where
  plain_filed : ∀ address key, plain address = some key →
    key ∈ keys ∧ addressOf crypto lib key = address
  crypted_filed : ∀ address entry, crypted address = some entry →
    ∃ key ∈ keys, addressOf crypto lib key = address ∧
      entry = cryptedEntry crypto lib vMasterKey key
  keyed : ∀ key ∈ keys, plain (addressOf crypto lib key) = some key ↔
    RecordKey.key (publicOf lib key) ∈ records ∨ RecordKey.wkey (publicOf lib key) ∈ records
  stored : ∀ vchPubKey vchPrivKey, (records.lookup (.key vchPubKey) = some vchPrivKey ∨
      records.lookup (.wkey vchPubKey) = some vchPrivKey) →
    ∃ key ∈ keys, publicOf lib key = vchPubKey ∧
      formats.i2d (CKey.ofSecret lib key.1 key.2).pkey = some vchPrivKey
  ckeyed : ∀ vchPubKey vchCryptedSecret,
    records.lookup (.ckey vchPubKey) = some vchCryptedSecret ↔
      crypted (crypto.Hash160 vchPubKey) = some (vchPubKey, vchCryptedSecret)
  mastered : ∀ nID, records.lookup (.mkey nID) = masters nID

namespace KeyRecords.Tracks

variable {vMasterKey : List UInt8} {records : KeyRecords}
  {plain : UInt160 → Option (CSecret × Bool)}
  {crypted : UInt160 → Option (List UInt8 × List UInt8)} {masters : UInt32 → Option CMasterKey}

theorem writeMasterKey
    (tracks : records.Tracks crypto formats keys vMasterKey plain crypted masters) (nID : UInt32)
    (kMasterKey : CMasterKey) :
    (records.writeMasterKey nID kMasterKey).2.Tracks crypto formats keys vMasterKey plain crypted
      (update masters nID (some kMasterKey)) := by
  have written : (records.writeMasterKey nID kMasterKey).2 =
      records.insert (.mkey nID) kMasterKey := by
    simp [KeyRecords.writeMasterKey, write]
  rw [written]
  exact {
    plain_filed := tracks.plain_filed
    crypted_filed := tracks.crypted_filed
    keyed := fun key member => by simp [tracks.keyed key member]
    stored := fun vchPubKey vchPrivKey => by
      simpa [AList.lookup_insert_ne] using tracks.stored vchPubKey vchPrivKey
    ckeyed := fun vchPubKey vchCryptedSecret => by
      simpa [AList.lookup_insert_ne] using tracks.ckeyed vchPubKey vchCryptedSecret
    mastered := fun other => by
      by_cases same : other = nID
      · subst same
        rw [AList.lookup_insert, update_self]
      · rw [AList.lookup_insert_ne (by simpa using same), update_of_ne same, tracks.mastered] }

/-- A key that is recorded already is not written again. -/
theorem writeKey (distinct : Set.InjOn (addressOf crypto lib) keys)
    (tracks : records.Tracks crypto formats keys vMasterKey plain crypted masters)
    {key : CSecret × Bool} (member : key ∈ keys) {vchPrivKey : List UInt8}
    (encoded : formats.i2d (CKey.ofSecret lib key.1 key.2).pkey = some vchPrivKey) :
    (records.writeKey (publicOf lib key) vchPrivKey).2.Tracks crypto formats keys vMasterKey
      (update plain (addressOf crypto lib key) (some key)) crypted masters := by
  by_cases present : RecordKey.key (publicOf lib key) ∈ records
  · have written : (records.writeKey (publicOf lib key) vchPrivKey).2 = records := by
      simp [KeyRecords.writeKey, write, present]
    have held := (tracks.keyed key member).mpr (.inl present)
    rwa [written, ← held, update_eq_self]
  have written : (records.writeKey (publicOf lib key) vchPrivKey).2 =
      records.insert (.key (publicOf lib key)) vchPrivKey := by
    simp [KeyRecords.writeKey, write, present]
  rw [written]
  exact {
    plain_filed := fun address other found => by
      by_cases same : address = addressOf crypto lib key
      · subst same
        rw [update_self, Option.some.injEq] at found
        exact found ▸ ⟨member, rfl⟩
      · rw [update_of_ne same] at found
        exact tracks.plain_filed address other found
    crypted_filed := tracks.crypted_filed
    keyed := fun other other_member => by
      by_cases same : other = key
      · subst same
        simp
      · have apart : addressOf crypto lib other ≠ addressOf crypto lib key :=
          fun equal => same (distinct other_member member equal)
        have apart' : publicOf lib other ≠ publicOf lib key :=
          fun equal => apart (congrArg crypto.Hash160 equal)
        rw [update_of_ne apart, tracks.keyed other other_member]
        simp [apart']
    stored := fun vchPubKey other found => by
      by_cases same : vchPubKey = publicOf lib key
      · subst same
        rw [AList.lookup_insert, AList.lookup_insert_ne (by simp)] at found
        rcases found with rewritten | found
        · cases rewritten
          exact ⟨key, member, rfl, encoded⟩
        · exact tracks.stored _ _ (.inr found)
      · rw [AList.lookup_insert_ne (by simpa using same), AList.lookup_insert_ne (by simp)] at found
        exact tracks.stored vchPubKey other found
    ckeyed := fun vchPubKey vchCryptedSecret => by
      rw [AList.lookup_insert_ne (by simp)]
      exact tracks.ckeyed vchPubKey vchCryptedSecret
    mastered := fun nID => by
      rw [AList.lookup_insert_ne (by simp)]
      exact tracks.mastered nID }

/-- An encrypted key takes the place of the plain one. -/
theorem writeCryptedKey (distinct : Set.InjOn (addressOf crypto lib) keys)
    (tracks : records.Tracks crypto formats keys vMasterKey plain crypted masters)
    {key : CSecret × Bool} (member : key ∈ keys) {after : KeyRecords}
    (written : records.writeCryptedKey (publicOf lib key)
      (cryptedEntry crypto lib vMasterKey key).2 = (true, after)) :
    after.Tracks crypto formats keys vMasterKey
      (update plain (addressOf crypto lib key) none)
      (update crypted (addressOf crypto lib key) (some (cryptedEntry crypto lib vMasterKey key)))
      masters := by
  have absent : RecordKey.ckey (publicOf lib key) ∉ records := by
    intro present
    simp [KeyRecords.writeCryptedKey, write, present] at written
  obtain rfl : ((records.insert (.ckey (publicOf lib key))
      (cryptedEntry crypto lib vMasterKey key).2).erase (.key (publicOf lib key))).erase
        (.wkey (publicOf lib key)) = after := by
    simpa [KeyRecords.writeCryptedKey, write, absent] using written
  exact {
    plain_filed := fun address other found => by
      by_cases same : address = addressOf crypto lib key
      · subst same
        simp at found
      · rw [update_of_ne same] at found
        exact tracks.plain_filed address other found
    crypted_filed := fun address entry found => by
      by_cases same : address = addressOf crypto lib key
      · subst same
        rw [update_self, Option.some.injEq] at found
        exact ⟨key, member, rfl, found.symm⟩
      · rw [update_of_ne same] at found
        exact tracks.crypted_filed address entry found
    keyed := fun other other_member => by
      by_cases same : other = key
      · subst same
        simp [AList.mem_erase]
      · have apart : addressOf crypto lib other ≠ addressOf crypto lib key :=
          fun equal => same (distinct other_member member equal)
        have apart' : publicOf lib other ≠ publicOf lib key :=
          fun equal => apart (congrArg crypto.Hash160 equal)
        rw [update_of_ne apart, tracks.keyed other other_member]
        simp [AList.mem_erase, apart']
    stored := fun vchPubKey vchPrivKey found => by
      by_cases same : vchPubKey = publicOf lib key
      · subst same
        rw [AList.lookup_erase, AList.lookup_erase_ne (by simp), AList.lookup_erase] at found
        simp at found
      · rw [AList.lookup_erase_ne (by simp), AList.lookup_erase_ne (by simpa using same),
          AList.lookup_insert_ne (by simp), AList.lookup_erase_ne (by simpa using same),
          AList.lookup_erase_ne (by simp), AList.lookup_insert_ne (by simp)] at found
        exact tracks.stored vchPubKey vchPrivKey found
    ckeyed := fun vchPubKey vchCryptedSecret => by
      rw [AList.lookup_erase_ne (by simp), AList.lookup_erase_ne (by simp)]
      by_cases same : vchPubKey = publicOf lib key
      · subst same
        have here : crypto.Hash160 (publicOf lib key) = addressOf crypto lib key := rfl
        have entry : cryptedEntry crypto lib vMasterKey key =
          (publicOf lib key, (cryptedEntry crypto lib vMasterKey key).2) := rfl
        rw [AList.lookup_insert, here, update_self, entry]
        simp
      · rw [AList.lookup_insert_ne (by simpa using same), tracks.ckeyed]
        by_cases collides : crypto.Hash160 vchPubKey = addressOf crypto lib key
        · rw [collides, update_self]
          refine iff_of_false (fun found => ?_) fun found => ?_
          · obtain ⟨other, other_member, address, entry⟩ := tracks.crypted_filed _ _ found
            obtain rfl := distinct other_member member address
            exact same (congrArg Prod.fst entry)
          · rw [Option.some.injEq] at found
            exact same (congrArg Prod.fst found).symm
        · rw [update_of_ne collides]
    mastered := fun nID => by
      rw [AList.lookup_erase_ne (by simp), AList.lookup_erase_ne (by simp),
        AList.lookup_insert_ne (by simp)]
      exact tracks.mastered nID }

end KeyRecords.Tracks

/-! ## Reading records -/

/-- What reading some records makes of a new wallet. -/
private structure WalletKeys.Loaded (crypto : Crypto) (lib : OpenSSL) (keys : Set (CSecret × Bool))
    (done : List (Sigma RecordKey.Value)) (loaded : WalletKeys) : Prop where
  plain : ∀ address key, loaded.keystore.mapKeys.lookup address = some key ↔
    key ∈ keys ∧ addressOf crypto lib key = address ∧
      (RecordKey.key (publicOf lib key) ∈ done.map Sigma.fst ∨
        RecordKey.wkey (publicOf lib key) ∈ done.map Sigma.fst)
  crypted : ∀ address entry, loaded.keystore.mapCryptedKeys.lookup address = some entry ↔
    crypto.Hash160 entry.1 = address ∧ ⟨.ckey entry.1, entry.2⟩ ∈ done
  mastered : ∀ nID kMasterKey, loaded.mapMasterKeys.lookup nID = some kMasterKey ↔
    ⟨.mkey nID, kMasterKey⟩ ∈ done
  flag : loaded.keystore.fUseCrypto = true ↔
    ∃ vchPubKey vchCryptedSecret, ⟨.ckey vchPubKey, vchCryptedSecret⟩ ∈ done
  locked : loaded.keystore.vMasterKey = []

namespace WalletKeys

/-- A key that the wallet wrote is read back. -/
private theorem loadKey_eq (documented : lib.Documented) (documents : formats.Documented)
    {key : CSecret × Bool} (valid : lib.IsPrivate key.1) {vchPrivKey : List UInt8}
    (encoded : formats.i2d (CKey.ofSecret lib key.1 key.2).pkey = some vchPrivKey)
    {wallet : WalletKeys} (uncrypted : wallet.keystore.fUseCrypto = false) :
    wallet.loadKey crypto formats (publicOf lib key) vchPrivKey = .ok { wallet with
      keystore := { wallet.keystore with
        mapKeys := wallet.keystore.mapKeys.insert (addressOf crypto lib key) key } } := by
  obtain ⟨secret, fCompressed⟩ := key
  have read := documented.o2i_i2o secret (if fCompressed then .compressed else .uncompressed) valid
  have object : ((CKey.reset : CKey lib).setPubKey (publicOf lib (secret, fCompressed))).2 =
      { pkey :=
          { privateKey := none
            publicKey := some (lib.regenerate secret)
            convForm := if fCompressed then .compressed else .uncompressed }
        fSet := true
        fCompressedPubKey := fCompressed } := by
    have size := documented.length_pubKeyOf valid fCompressed
    simp only [CKey.setPubKey, publicOf, pubKeyOf] at size ⊢
    rw [read]
    cases fCompressed <;> simp_all [CKey.setCompressedPubKey, CKey.reset, EcKey.new]
  have key_eq :
      ((CKey.reset : CKey lib).setPubKey (publicOf lib (secret, fCompressed))).2.setPrivKey formats
        vchPrivKey = (true, CKey.ofSecret lib secret fCompressed) := by
    rw [object, CKey.setPrivKey,
      documents.d2i_i2d secret fCompressed vchPrivKey _ valid encoded rfl rfl]
    rfl
  have own : pubKeyOf lib secret fCompressed = publicOf lib (secret, fCompressed) := rfl
  have checked : (CKey.ofSecret lib secret fCompressed).isValid = .ok true := by
    have fSet : (CKey.ofSecret lib secret fCompressed).fSet = true := rfl
    have same : (CKey.reset : CKey lib).setSecret secret fCompressed =
        .ok (CKey.ofSecret lib secret fCompressed) := by
      rw [CKey.setSecret_eq (documented.length_private secret valid)]
      simp [CKey.reset]
    simp only [CKey.isValid, fSet, not_true_eq_false, if_false, CKey.getSecret_ofSecret,
      except_ok_bind, same, CKey.getPubKey_ofSecret, decide_true]
    rfl
  simp only [loadKey, key_eq, CKey.getPubKey_ofSecret, own, except_ok_bind, checked, require,
    if_true, CCryptoKeyStore.addKey, uncrypted, CBasicKeyStore.addKey_ofSecret]
  rfl

/-- A plain key is entered under its address. -/
private theorem Loaded.insertKey (distinct : Set.InjOn (addressOf crypto lib) keys)
    {done : List (Sigma RecordKey.Value)} {wallet : WalletKeys}
    (loaded : wallet.Loaded crypto lib keys done) {key : CSecret × Bool} (member : key ∈ keys)
    {record : Sigma RecordKey.Value}
    (holds : record.1 = .key (publicOf lib key) ∨ record.1 = .wkey (publicOf lib key)) :
    WalletKeys.Loaded crypto lib keys (record :: done) { wallet with
      keystore := { wallet.keystore with
        mapKeys := wallet.keystore.mapKeys.insert (addressOf crypto lib key) key } } := by
  obtain ⟨place, value⟩ := record
  have filed (other : CSecret × Bool) :
      (RecordKey.key (publicOf lib other) ∈ (⟨place, value⟩ :: done).map Sigma.fst ∨
        RecordKey.wkey (publicOf lib other) ∈ (⟨place, value⟩ :: done).map Sigma.fst) ↔
      publicOf lib other = publicOf lib key ∨
        (RecordKey.key (publicOf lib other) ∈ done.map Sigma.fst ∨
          RecordKey.wkey (publicOf lib other) ∈ done.map Sigma.fst) := by
    rcases holds with holds | holds <;> (simp only at holds; subst holds; simp; tauto)
  have no_ckey (vchPubKey vchCryptedSecret : List UInt8) :
      (⟨.ckey vchPubKey, vchCryptedSecret⟩ : Sigma RecordKey.Value) ∈ ⟨place, value⟩ :: done ↔
        ⟨.ckey vchPubKey, vchCryptedSecret⟩ ∈ done := by
    rcases holds with holds | holds <;> (simp only at holds; subst holds; simp)
  have no_mkey (nID : UInt32) (kMasterKey : CMasterKey) :
      (⟨.mkey nID, kMasterKey⟩ : Sigma RecordKey.Value) ∈ ⟨place, value⟩ :: done ↔
        ⟨.mkey nID, kMasterKey⟩ ∈ done := by
    rcases holds with holds | holds <;> (simp only at holds; subst holds; simp)
  exact {
    plain := fun address other => by
      have inserted := congrFun
        (lookup_alist_insert wallet.keystore.mapKeys (addressOf crypto lib key) key) address
      rw [filed]
      change (wallet.keystore.mapKeys.insert (addressOf crypto lib key) key).lookup address =
        some other ↔ _
      rw [inserted]
      by_cases same : address = addressOf crypto lib key
      · subst same
        rw [update_self, Option.some.injEq]
        constructor
        · rintro rfl
          exact ⟨member, rfl, .inl rfl⟩
        · rintro ⟨other_member, address, -⟩
          exact (distinct other_member member address).symm
      · rw [update_of_ne same, loaded.plain]
        refine and_congr_right fun _ => and_congr_right fun here => ?_
        refine (or_iff_right fun equal => ?_).symm
        exact same (here ▸ congrArg crypto.Hash160 equal)
    crypted := fun address entry => (loaded.crypted address entry).trans
      (and_congr_right fun _ => (no_ckey _ _).symm)
    mastered := fun nID kMasterKey => (loaded.mastered nID kMasterKey).trans (no_mkey _ _).symm
    flag := loaded.flag.trans (by simp only [no_ckey])
    locked := loaded.locked }

/-- A record of the file is read. -/
private theorem Loaded.loadRecord (documented : lib.Documented) (documents : formats.Documented)
    (valid : ∀ key ∈ keys, lib.IsPrivate key.1)
    (distinct : Set.InjOn (addressOf crypto lib) keys) {vMasterKey : List UInt8}
    {records : KeyRecords} {plain : UInt160 → Option (CSecret × Bool)}
    {crypted : UInt160 → Option (List UInt8 × List UInt8)} {masters : UInt32 → Option CMasterKey}
    (tracks : records.Tracks crypto formats keys vMasterKey plain crypted masters)
    (exclusive : (∀ address, plain address = none) ∨ ∀ address, crypted address = none)
    {done : List (Sigma RecordKey.Value)} {wallet : WalletKeys}
    (loaded : wallet.Loaded crypto lib keys done) (read : ∀ record ∈ done, record ∈ records.entries)
    {record : Sigma RecordKey.Value} (present : record ∈ records.entries)
    (fresh : record.1 ∉ done.map Sigma.fst) :
    ∃ after, wallet.loadRecord crypto formats record = .ok after ∧
      after.Loaded crypto lib keys (record :: done) := by
  obtain ⟨place, value⟩ := record
  have found : records.lookup place = some value := AList.mem_lookup_iff.mpr present
  have keyed (vchPubKey vchPrivKey : List UInt8)
      (holds : place = .key vchPubKey ∧ HEq value vchPrivKey ∨
        place = .wkey vchPubKey ∧ HEq value vchPrivKey) :
      ∃ after, wallet.loadKey crypto formats vchPubKey vchPrivKey = .ok after ∧
        after.Loaded crypto lib keys (⟨place, value⟩ :: done) := by
    have recorded : records.lookup (.key vchPubKey) = some vchPrivKey ∨
        records.lookup (.wkey vchPubKey) = some vchPrivKey := by
      rcases holds with ⟨rfl, same⟩ | ⟨rfl, same⟩
      · exact .inl (eq_of_heq same ▸ found)
      · exact .inr (eq_of_heq same ▸ found)
    obtain ⟨key, member, rfl, encoded⟩ := tracks.stored _ _ recorded
    have held : plain (addressOf crypto lib key) = some key := by
      refine (tracks.keyed key member).mpr (recorded.imp (fun found => ?_) fun found => ?_)
      · exact AList.lookup_isSome.mp (Option.isSome_iff_exists.mpr ⟨_, found⟩)
      · exact AList.lookup_isSome.mp (Option.isSome_iff_exists.mpr ⟨_, found⟩)
    have uncrypted : wallet.keystore.fUseCrypto = false := by
      refine Bool.eq_false_iff.mpr fun flag => ?_
      obtain ⟨other, vchCryptedSecret, listed⟩ := loaded.flag.mp flag
      have ckeyed := (tracks.ckeyed other vchCryptedSecret).mp
        (AList.mem_lookup_iff.mpr (read _ listed))
      rcases exclusive with no_plain | no_crypted
      · rw [no_plain] at held
        cases held
      · rw [no_crypted] at ckeyed
        cases ckeyed
    exact ⟨_, loadKey_eq documented documents (valid key member) encoded uncrypted,
      loaded.insertKey distinct member (holds.imp And.left And.left)⟩
  cases place with
  | key vchPubKey => exact keyed vchPubKey value (.inl ⟨rfl, HEq.rfl⟩)
  | wkey vchPubKey => exact keyed vchPubKey value (.inr ⟨rfl, HEq.rfl⟩)
  | mkey nID =>
      have unknown : wallet.mapMasterKeys.lookup nID = none := by
        refine Option.eq_none_iff_forall_ne_some.mpr fun kMasterKey known => fresh ?_
        exact List.mem_map.mpr ⟨_, (loaded.mastered _ _).mp known, rfl⟩
      refine ⟨_, by
        simp only [WalletKeys.loadRecord, unknown, require, if_true, except_ok_bind]; rfl, ?_⟩
      exact {
        plain := fun address key => by simpa using loaded.plain address key
        crypted := fun address entry => by simpa using loaded.crypted address entry
        mastered := fun other kMasterKey => by
          have inserted := congrFun (lookup_alist_insert wallet.mapMasterKeys nID value) other
          change (wallet.mapMasterKeys.insert nID value).lookup other = some kMasterKey ↔ _
          rw [inserted, List.mem_cons]
          by_cases same : other = nID
          · subst same
            have absent : ⟨.mkey other, kMasterKey⟩ ∉ done := fun listed =>
              fresh (List.mem_map.mpr ⟨_, listed, rfl⟩)
            rw [update_self, Option.some.injEq, or_iff_left absent]
            simp [eq_comm]
          · rw [update_of_ne same, loaded.mastered]
            simp [same]
        flag := by simpa using loaded.flag
        locked := loaded.locked }
  | ckey vchPubKey =>
      have held := (tracks.ckeyed vchPubKey value).mp found
      have crypts : ∃ keystore, CCryptoKeyStore.setCrypted wallet.keystore = (.ok (), keystore) ∧
          keystore = { wallet.keystore with fUseCrypto := true } := by
        refine ⟨_, ?_, rfl⟩
        rcases CCryptoKeyStore.setCrypted_cases wallet.keystore with failed | ⟨crypts, -⟩
        · exfalso
          have keyless : wallet.keystore.mapKeys.entries ≠ [] := by
            intro keyless
            rw [CCryptoKeyStore.setCrypted, if_neg (not_not.mpr keyless)] at failed
            split_ifs at failed <;> cases (Prod.mk.inj failed).1
          obtain ⟨⟨address, key⟩, listed⟩ := List.exists_mem_of_ne_nil _ keyless
          obtain ⟨member, here, filed⟩ := (loaded.plain address key).mp
            (AList.mem_lookup_iff.mpr listed)
          have recorded : RecordKey.key (publicOf lib key) ∈ records ∨
              RecordKey.wkey (publicOf lib key) ∈ records := by
            refine filed.imp (fun filed => ?_) fun filed => ?_
            · obtain ⟨record, listed, same⟩ := List.mem_map.mp filed
              exact same ▸ List.mem_map_of_mem (f := Sigma.fst) (read record listed)
            · obtain ⟨record, listed, same⟩ := List.mem_map.mp filed
              exact same ▸ List.mem_map_of_mem (f := Sigma.fst) (read record listed)
          have plain_held := (tracks.keyed key member).mpr recorded
          rcases exclusive with no_plain | no_crypted
          · rw [no_plain] at plain_held
            cases plain_held
          · rw [no_crypted] at held
            cases held
        · exact crypts
      obtain ⟨keystore, crypts, rfl⟩ := crypts
      refine ⟨_, by
        simp only [WalletKeys.loadRecord, CCryptoKeyStore.addCryptedKey, crypts]; rfl, ?_⟩
      exact {
        plain := fun address key => by simpa using loaded.plain address key
        crypted := fun address entry => by
          have inserted := congrFun (lookup_alist_insert wallet.keystore.mapCryptedKeys
            (crypto.Hash160 vchPubKey) (vchPubKey, value)) address
          change (wallet.keystore.mapCryptedKeys.insert (crypto.Hash160 vchPubKey)
            (vchPubKey, value)).lookup address = some entry ↔ _
          rw [inserted, List.mem_cons]
          obtain ⟨other, vchCryptedSecret⟩ := entry
          by_cases same : address = crypto.Hash160 vchPubKey
          · subst same
            rw [update_self, Option.some.injEq]
            constructor
            · rintro entry
              cases entry
              exact ⟨rfl, .inl rfl⟩
            · rintro ⟨here, record | listed⟩
              · cases record
                rfl
              · have known := (tracks.ckeyed other vchCryptedSecret).mp
                  (AList.mem_lookup_iff.mpr (read _ listed))
                rw [here, held, Option.some.injEq] at known
                exact known
          · rw [update_of_ne same, loaded.crypted]
            refine and_congr_right fun here => (or_iff_right fun record => ?_).symm
            cases record
            exact same here.symm
        mastered := fun nID kMasterKey => by simpa using loaded.mastered nID kMasterKey
        flag := iff_of_true rfl ⟨vchPubKey, value, List.mem_cons_self⟩
        locked := loaded.locked }

/-- The records that are left are read. -/
private theorem Loaded.loadRecords (documented : lib.Documented) (documents : formats.Documented)
    (valid : ∀ key ∈ keys, lib.IsPrivate key.1)
    (distinct : Set.InjOn (addressOf crypto lib) keys) {vMasterKey : List UInt8}
    {records : KeyRecords} {plain : UInt160 → Option (CSecret × Bool)}
    {crypted : UInt160 → Option (List UInt8 × List UInt8)} {masters : UInt32 → Option CMasterKey}
    (tracks : records.Tracks crypto formats keys vMasterKey plain crypted masters)
    (exclusive : (∀ address, plain address = none) ∨ ∀ address, crypted address = none)
    {rest done : List (Sigma RecordKey.Value)} {wallet : WalletKeys}
    (loaded : wallet.Loaded crypto lib keys done)
    (perm : (done ++ rest).Perm records.entries) :
    ∃ after, WalletKeys.loadRecords crypto formats rest wallet = .ok after ∧
      ∃ order, order.Perm records.entries ∧ after.Loaded crypto lib keys order := by
  induction rest generalizing done wallet with
  | nil => exact ⟨wallet, rfl, done, by simpa using perm, loaded⟩
  | cons record rest induction =>
      have read : ∀ other ∈ done, other ∈ records.entries := fun other listed =>
        perm.subset (List.mem_append_left _ listed)
      have nodup : (done.map Sigma.fst ++ record.1 :: rest.map Sigma.fst).Nodup := by
        have keys_perm := perm.map Sigma.fst
        rw [List.map_append, List.map_cons] at keys_perm
        exact keys_perm.nodup_iff.mpr records.nodupKeys
      have fresh : record.1 ∉ done.map Sigma.fst := fun listed =>
        (List.nodup_append.mp nodup).2.2 _ listed _ List.mem_cons_self rfl
      obtain ⟨middle, first, loaded⟩ := loaded.loadRecord documented documents valid distinct tracks
        exclusive read (perm.subset (List.mem_append_right _ List.mem_cons_self)) fresh
      obtain ⟨after, rest_eq, whole⟩ := induction loaded
        ((List.perm_middle.symm.trans perm : (record :: (done ++ rest)).Perm records.entries))
      refine ⟨after, ?_, whole⟩
      rw [WalletKeys.loadRecords, first, except_ok_bind, rest_eq]

/-- Reading a file gives the keys that its records hold. -/
theorem loadRecords_of_tracks (documented : lib.Documented) (documents : formats.Documented)
    (valid : ∀ key ∈ keys, lib.IsPrivate key.1)
    (distinct : Set.InjOn (addressOf crypto lib) keys) {vMasterKey : List UInt8}
    {records : KeyRecords} {plain : UInt160 → Option (CSecret × Bool)}
    {crypted : UInt160 → Option (List UInt8 × List UInt8)} {masters : UInt32 → Option CMasterKey}
    (tracks : records.Tracks crypto formats keys vMasterKey plain crypted masters)
    (exclusive : (∀ address, plain address = none) ∨ ∀ address, crypted address = none)
    {order : List (Sigma RecordKey.Value)} (perm : order.Perm records.entries) :
    ∃ loaded, loadRecords crypto formats order .empty = .ok loaded ∧
      loaded.keystore.Sound crypto lib ∧ loaded.keystore.vMasterKey = [] ∧
      (∀ address, loaded.keystore.mapKeys.lookup address = plain address) ∧
      (∀ address, loaded.keystore.mapCryptedKeys.lookup address = crypted address) ∧
      (∀ nID, loaded.mapMasterKeys.lookup nID = masters nID) ∧
      (loaded.keystore.fUseCrypto = true ↔ ∃ address, crypted address ≠ none) := by
  have start : WalletKeys.empty.Loaded crypto lib keys [] := {
    plain := fun address key => by simp [WalletKeys.empty, CCryptoKeyStore.empty]
    crypted := fun address entry => by simp [WalletKeys.empty, CCryptoKeyStore.empty]
    mastered := fun nID kMasterKey => by simp [WalletKeys.empty]
    flag := by simp [WalletKeys.empty, CCryptoKeyStore.empty]
    locked := rfl }
  obtain ⟨after, read, whole, whole_perm, loaded⟩ :=
    start.loadRecords documented documents valid distinct tracks exclusive perm
  have recorded (place : RecordKey) : place ∈ whole.map Sigma.fst ↔ place ∈ records :=
    (whole_perm.map Sigma.fst).mem_iff
  have found (place : RecordKey) (value : place.Value) :
      ⟨place, value⟩ ∈ whole ↔ records.lookup place = some value :=
    whole_perm.mem_iff.trans AList.mem_lookup_iff.symm
  have plain_eq (address : UInt160) : after.keystore.mapKeys.lookup address = plain address := by
    refine Option.ext fun key => ?_
    rw [loaded.plain, recorded, recorded]
    constructor
    · rintro ⟨member, rfl, listed⟩
      exact (tracks.keyed key member).mpr listed
    · intro held
      obtain ⟨member, rfl⟩ := tracks.plain_filed address key held
      exact ⟨member, rfl, (tracks.keyed key member).mp held⟩
  have crypted_eq (address : UInt160) :
      after.keystore.mapCryptedKeys.lookup address = crypted address := by
    refine Option.ext fun entry => ?_
    rw [loaded.crypted, found]
    constructor
    · rintro ⟨rfl, listed⟩
      exact (tracks.ckeyed entry.1 entry.2).mp listed
    · intro held
      obtain ⟨key, member, rfl, rfl⟩ := tracks.crypted_filed address entry held
      exact ⟨rfl, (tracks.ckeyed _ _).mpr held⟩
  have masters_eq (nID : UInt32) : after.mapMasterKeys.lookup nID = masters nID := by
    refine Option.ext fun kMasterKey => ?_
    rw [loaded.mastered, found, tracks.mastered]
  have flagged : after.keystore.fUseCrypto = true ↔ ∃ address, crypted address ≠ none := by
    rw [loaded.flag]
    constructor
    · rintro ⟨vchPubKey, vchCryptedSecret, listed⟩
      have held := (tracks.ckeyed _ _).mp ((found _ _).mp listed)
      exact ⟨_, held ▸ Option.some_ne_none _⟩
    · rintro ⟨address, some_held⟩
      obtain ⟨entry, held⟩ := Option.ne_none_iff_exists'.mp some_held
      exact ⟨entry.1, entry.2, ((loaded.crypted address entry).mp (crypted_eq address ▸ held)).2⟩
  have sound : after.keystore.Sound crypto lib := {
    mapKeys_eq := fun flag => by
      obtain ⟨address, held⟩ := flagged.mp flag
      refine alist_eq_empty fun other => ?_
      rw [plain_eq]
      exact exclusive.elim (fun no_plain => no_plain other) fun no_crypted =>
        absurd (no_crypted address) held
    mapCryptedKeys_eq := fun flag => by
      refine alist_eq_empty fun other => ?_
      rw [crypted_eq]
      by_contra held
      rw [flagged.mpr ⟨other, held⟩] at flag
      cases flag
    vMasterKey_eq := fun _ => loaded.locked
    filed := fun address secret fCompressed held => by
      rw [plain_eq] at held
      obtain ⟨member, here⟩ := tracks.plain_filed _ _ held
      exact ⟨valid _ member, here⟩ }
  exact ⟨after, read, sound, loaded.locked, plain_eq, crypted_eq, masters_eq, flagged⟩

end WalletKeys

/-! ## Runs -/

namespace FileWallet

/-- No encryption is going on: the file follows the key store. -/
structure Steady (crypto : Crypto) (formats : KeyFormats lib) (keys : Set (CSecret × Bool))
    (vMasterKey : List UInt8) (wallet : FileWallet) : Prop where
  sound : wallet.keystore.Sound crypto lib
  tracks : wallet.file.Tracks crypto formats keys vMasterKey wallet.keystore.mapKeys.lookup
    wallet.keystore.mapCryptedKeys.lookup wallet.mapMasterKeys.lookup
  sized : wallet.keystore.mapCryptedKeys ≠ ∅ → vMasterKey.length = 32
  unlocked : wallet.keystore.vMasterKey = [] ∨ wallet.keystore.vMasterKey = vMasterKey

/-- Within `EncryptWallet`: the file has the plain keys, the transaction the encrypted ones and
those that are left. -/
structure Encrypting (crypto : Crypto) (formats : KeyFormats lib) (keys : Set (CSecret × Bool))
    (encryption : Encryption) (wallet : FileWallet) : Prop where
  before : ∃ vMasterKey masters, wallet.file.Tracks crypto formats keys vMasterKey
    wallet.keystore.mapKeys.lookup (fun _ => none) masters
  during : encryption.pwalletdbEncryption.Tracks crypto formats keys encryption.vMasterKey
    (encryption.mapKeysLeft.dlookup ·) wallet.keystore.mapCryptedKeys.lookup
    wallet.mapMasterKeys.lookup
  nodup : encryption.mapKeysLeft.NodupKeys
  size : encryption.vMasterKey.length = 32
  crypted : wallet.keystore.fUseCrypto = true

/-- What holds in every state. -/
structure Kept (crypto : Crypto) (formats : KeyFormats lib) (keys : Set (CSecret × Bool))
    (wallet : FileWallet) : Prop where
  steady : wallet.encryption = none → ∃ vMasterKey, wallet.Steady crypto formats keys vMasterKey
  encrypting : ∀ encryption, wallet.encryption = some encryption →
    wallet.Encrypting crypto formats keys encryption

variable {wallet after : FileWallet} {vMasterKey : List UInt8}

private theorem Kept.of_steady (idle : wallet.encryption = none)
    (steady : wallet.Steady crypto formats keys vMasterKey) : wallet.Kept crypto formats keys where
  steady _ := ⟨vMasterKey, steady⟩
  encrypting encryption busy := by
    rw [idle] at busy
    cases busy

private theorem empty_steady : FileWallet.empty.Steady crypto formats keys [] where
  sound := .empty
  tracks :=
    { plain_filed := by simp [FileWallet.empty, WalletKeys.empty, CCryptoKeyStore.empty]
      crypted_filed := by simp [FileWallet.empty, WalletKeys.empty, CCryptoKeyStore.empty]
      keyed := by simp [FileWallet.empty, WalletKeys.empty, CCryptoKeyStore.empty]
      stored := by simp [FileWallet.empty]
      ckeyed := by simp [FileWallet.empty, WalletKeys.empty, CCryptoKeyStore.empty]
      mastered := by simp [FileWallet.empty, WalletKeys.empty] }
  sized := fun nonempty => absurd rfl nonempty
  unlocked := .inl rfl

private theorem empty_kept : FileWallet.empty.Kept crypto formats keys :=
  .of_steady rfl empty_steady

/-- A change of the key store that leaves its keys alone.  Without encrypted keys, any master key
fits. -/
private theorem Steady.of_maps (steady : wallet.Steady crypto formats keys vMasterKey)
    {keystore : CCryptoKeyStore} (sound : keystore.Sound crypto lib)
    (plain : keystore.mapKeys = wallet.keystore.mapKeys)
    (crypted : keystore.mapCryptedKeys = wallet.keystore.mapCryptedKeys) {other : List UInt8}
    (fits : wallet.keystore.mapCryptedKeys = ∅ ∨ other = vMasterKey)
    (unlocked : keystore.vMasterKey = [] ∨ keystore.vMasterKey = other) :
    FileWallet.Steady crypto formats keys other { wallet with keystore } where
  sound := sound
  tracks := by
    simp only [plain, crypted]
    rcases fits with keyless | rfl
    · exact { steady.tracks with
        crypted_filed := fun address entry held => by simp [keyless] at held }
    · exact steady.tracks
  sized := fun nonempty => by
    rcases fits with keyless | rfl
    · exact absurd (crypted.trans keyless) nonempty
    · exact steady.sized (crypted ▸ nonempty)
  unlocked := unlocked

private theorem Steady.lock (steady : wallet.Steady crypto formats keys vMasterKey) :
    FileWallet.Steady crypto formats keys vMasterKey
      { wallet with keystore := wallet.keystore.lock.2 } := by
  have sound := steady.sound.lock
  rcases wallet.keystore.setCrypted_cases with failed | ⟨crypts, -⟩
  · simp only [CCryptoKeyStore.lock, failed] at sound ⊢
    exact steady.of_maps sound rfl rfl (.inr rfl) steady.unlocked
  · simp only [CCryptoKeyStore.lock, crypts] at sound ⊢
    exact steady.of_maps sound rfl rfl (.inr rfl) (.inl rfl)

private theorem Steady.unlock (authentic : lib.Authentic crypto)
    (valid : ∀ key ∈ keys, lib.IsPrivate key.1)
    (steady : wallet.Steady crypto formats keys vMasterKey) (vMasterKeyIn : List UInt8) :
    ∃ vMasterKey, FileWallet.Steady crypto formats keys vMasterKey
      { wallet with keystore := (wallet.keystore.unlock crypto lib vMasterKeyIn).2 } := by
  have sound := steady.sound.unlock vMasterKeyIn
  rcases wallet.keystore.setCrypted_cases with failed | ⟨crypts, -⟩
  · simp only [CCryptoKeyStore.unlock, failed] at sound ⊢
    exact ⟨vMasterKey, steady.of_maps sound rfl rfl (.inr rfl) steady.unlocked⟩
  simp only [CCryptoKeyStore.unlock, crypts] at sound ⊢
  cases first : wallet.keystore.mapCryptedKeys.entries.argmin fun entry => entry.1.toNat with
  | none =>
      have keyless : wallet.keystore.mapCryptedKeys = ∅ := AList.ext (List.argmin_eq_none.mp first)
      simp only [first] at sound ⊢
      exact ⟨vMasterKeyIn, steady.of_maps sound rfl rfl (.inl keyless) (.inr rfl)⟩
  | some entry =>
      obtain ⟨address, vchPubKey, vchCryptedSecret⟩ := entry
      simp only [first] at sound ⊢
      cases opened : CCryptoKeyStore.unlocks crypto lib vMasterKeyIn vchPubKey vchCryptedSecret with
      | error failure =>
          simp only [opened] at sound ⊢
          exact ⟨vMasterKey, steady.of_maps sound rfl rfl (.inr rfl) steady.unlocked⟩
      | ok result =>
          have held : wallet.keystore.mapCryptedKeys.lookup address =
              some (vchPubKey, vchCryptedSecret) :=
            AList.mem_lookup_iff.mpr (List.argmin_mem first)
          obtain ⟨key, member, -, entry⟩ := steady.tracks.crypted_filed _ _ held
          obtain ⟨rfl, rfl⟩ := Prod.mk.inj entry
          have size := steady.sized (by rintro keyless; simp [keyless] at held)
          obtain rfl := authentic vMasterKey vMasterKeyIn key.1 key.2 size (valid key member) opened
          simp only [opened] at sound ⊢
          exact ⟨vMasterKeyIn, steady.of_maps sound rfl rfl (.inr rfl) (.inr rfl)⟩

/-- A key that the file has already is entered as it was. -/
private theorem Steady.addCryptedKey (distinct : Set.InjOn (addressOf crypto lib) keys)
    (steady : wallet.Steady crypto formats keys vMasterKey) {key : CSecret × Bool}
    (member : key ∈ keys) (crypted : wallet.keystore.fUseCrypto = true)
    (size : vMasterKey.length = 32) :
    (wallet.addCryptedKey crypto (cryptedEntry crypto lib vMasterKey key).1
      (cryptedEntry crypto lib vMasterKey key).2).2.Steady crypto formats keys vMasterKey := by
  have sound := steady.sound.addCryptedKey (publicOf lib key)
    (cryptedEntry crypto lib vMasterKey key).2
  have public_eq : (cryptedEntry crypto lib vMasterKey key).1 = publicOf lib key := rfl
  have entry_eq : (publicOf lib key, (cryptedEntry crypto lib vMasterKey key).2) =
      cryptedEntry crypto lib vMasterKey key := rfl
  have plain : wallet.keystore.mapKeys.lookup (addressOf crypto lib key) = none := by
    simp [steady.sound.mapKeys_eq crypted]
  simp only [CCryptoKeyStore.addCryptedKey, CCryptoKeyStore.setCrypted_of_crypted crypted] at sound
  simp only [FileWallet.addCryptedKey, CCryptoKeyStore.addCryptedKey, public_eq,
    CCryptoKeyStore.setCrypted_of_crypted crypted]
  refine ⟨sound, ?_, fun _ => size, steady.unlocked⟩
  change KeyRecords.Tracks crypto formats keys vMasterKey
    (wallet.file.writeCryptedKey (publicOf lib key) (cryptedEntry crypto lib vMasterKey key).2).2
    wallet.keystore.mapKeys.lookup (wallet.keystore.mapCryptedKeys.insert (addressOf crypto lib key)
      (publicOf lib key, (cryptedEntry crypto lib vMasterKey key).2)).lookup
    wallet.mapMasterKeys.lookup
  rw [lookup_alist_insert, entry_eq]
  cases known : wallet.file.lookup (.ckey (publicOf lib key)) with
  | none =>
      have absent : RecordKey.ckey (publicOf lib key) ∉ wallet.file := AList.lookup_eq_none.mp known
      obtain ⟨file, written⟩ : ∃ file, wallet.file.writeCryptedKey (publicOf lib key)
          (cryptedEntry crypto lib vMasterKey key).2 = (true, file) := by
        simp [KeyRecords.writeCryptedKey, KeyRecords.write, absent]
      have tracks := steady.tracks.writeCryptedKey distinct member written
      rw [← plain, update_eq_self] at tracks
      rwa [written]
  | some vchCryptedSecret =>
      have present : RecordKey.ckey (publicOf lib key) ∈ wallet.file :=
        AList.lookup_isSome.mp (Option.isSome_iff_exists.mpr ⟨_, known⟩)
      have file_eq : (wallet.file.writeCryptedKey (publicOf lib key)
          (cryptedEntry crypto lib vMasterKey key).2).2 = wallet.file := by
        simp [KeyRecords.writeCryptedKey, KeyRecords.write, present]
      have held := (steady.tracks.ckeyed _ _).mp known
      obtain ⟨other, other_member, address, entry⟩ := steady.tracks.crypted_filed _ _ held
      obtain rfl := distinct other_member member address
      rw [entry] at held
      have same : update wallet.keystore.mapCryptedKeys.lookup (addressOf crypto lib other)
          (some (cryptedEntry crypto lib vMasterKey other)) =
            wallet.keystore.mapCryptedKeys.lookup := by
        rw [← held]
        exact update_eq_self _ _
      rw [file_eq, same]
      exact steady.tracks

private theorem Steady.addKey (documents : formats.Documented)
    (valid : ∀ key ∈ keys, lib.IsPrivate key.1)
    (distinct : Set.InjOn (addressOf crypto lib) keys)
    (steady : wallet.Steady crypto formats keys vMasterKey) {key : CSecret × Bool}
    (member : key ∈ keys) :
    (wallet.addKey crypto formats (CKey.ofSecret lib key.1 key.2)).2.Steady crypto formats keys
      vMasterKey := by
  cases crypted : wallet.keystore.fUseCrypto with
  | false =>
      obtain ⟨vchPrivKey, encoded⟩ := documents.i2d_private key.1 key.2 (valid key member)
      have private_eq : (CKey.ofSecret lib key.1 key.2).getPrivKey formats = .ok vchPrivKey := by
        rw [CKey.getPrivKey, encoded]
      have made : (CKey.ofSecret lib key.1 key.2).Made := ⟨key.1, key.2, valid key member, rfl⟩
      have sound := steady.sound.addKey made
      simp only [CCryptoKeyStore.addKey, crypted, CBasicKeyStore.addKey_ofSecret,
        Bool.false_eq_true, not_false_eq_true, if_true] at sound
      simp only [FileWallet.addKey, CCryptoKeyStore.addKey, crypted, CBasicKeyStore.addKey_ofSecret,
        Bool.false_eq_true, not_false_eq_true, if_true, CKey.getPubKey_ofSecret, private_eq]
      exact {
        sound := sound
        tracks := by
          have tracks := steady.tracks.writeKey distinct member encoded
          rw [← lookup_alist_insert] at tracks
          exact tracks
        sized := steady.sized
        unlocked := steady.unlocked }
  | true =>
      simp only [FileWallet.addKey, crypted, not_true_eq_false, if_false]
      cases locked : wallet.keystore.isLocked with
      | true => exact steady
      | false =>
          have held : wallet.keystore.vMasterKey = vMasterKey :=
            steady.unlocked.resolve_left fun keyless => by
              simp [CCryptoKeyStore.isLocked, crypted, keyless] at locked
          simp only [held, Bool.false_eq_true, if_false]
          by_cases size : vMasterKey.length = 32
          · rw [CCryptoKeyStore.encryptKey_ofSecret size]
            exact steady.addCryptedKey distinct member crypted size
          · have refused : CCryptoKeyStore.encryptKey crypto vMasterKey
                (CKey.ofSecret lib key.1 key.2) = .error .rejected := by
              simp only [CCryptoKeyStore.encryptKey, CKey.getPubKey_ofSecret,
                CKey.getSecret_ofSecret, except_ok_bind, encryptSecret, if_pos size]
              rfl
            rw [refused]
            exact steady

private theorem Steady.beginEncryption (steady : wallet.Steady crypto formats keys vMasterKey)
    (plain : wallet.keystore.fUseCrypto = false) (vMasterKeyNew : List UInt8)
    (size : vMasterKeyNew.length = 32) (kMasterKey : CMasterKey) :
    (wallet.beginEncryption vMasterKeyNew kMasterKey).Kept crypto formats keys where
  steady idle := by cases idle
  encrypting encryption busy := by
    obtain rfl := Option.some.inj busy
    have keyless := steady.sound.mapCryptedKeys_eq plain
    have no_crypted : wallet.keystore.mapCryptedKeys.lookup = fun _ => none := by
      funext address
      simp [keyless]
    have before := steady.tracks
    rw [no_crypted] at before
    have relabelled : wallet.file.Tracks crypto formats keys vMasterKeyNew
        wallet.keystore.mapKeys.lookup wallet.keystore.mapCryptedKeys.lookup
        wallet.mapMasterKeys.lookup :=
      { steady.tracks with crypted_filed := fun address entry held => by simp [keyless] at held }
    have during := relabelled.writeMasterKey (wallet.nMasterKeyMaxID + 1) kMasterKey
    rw [← lookup_alist_insert] at during
    exact {
      before := ⟨vMasterKey, _, before⟩
      during := during
      nodup := wallet.keystore.mapKeys.nodupKeys
      size := size
      crypted := rfl }

private theorem Encrypting.encryptEntry (documented : lib.Documented)
    (valid : ∀ key ∈ keys, lib.IsPrivate key.1)
    (distinct : Set.InjOn (addressOf crypto lib) keys) {encryption : Encryption}
    (encrypting : wallet.Encrypting crypto formats keys encryption)
    {mKey : (_ : UInt160) × CSecret × Bool}
    {mapKeysLeft : List ((_ : UInt160) × CSecret × Bool)}
    (left : encryption.mapKeysLeft = mKey :: mapKeysLeft)
    (stepped : wallet.encryptEntry crypto lib encryption mKey mapKeysLeft = some after) :
    after.Kept crypto formats keys := by
  obtain ⟨address, key⟩ := mKey
  have here : encryption.mapKeysLeft.dlookup address = some key := by
    rw [left, List.dlookup_cons_eq]
  obtain ⟨member, rfl⟩ := encrypting.during.plain_filed _ _ here
  have made : (CKey.reset : CKey lib).setSecret key.1 key.2 =
      .ok (CKey.ofSecret lib key.1 key.2) := by
    rw [CKey.setSecret_eq (documented.length_private key.1 (valid key member))]
    simp [CKey.reset]
  have nodup := encrypting.nodup
  rw [left, List.nodupKeys_cons] at nodup
  have rest : (fun place => mapKeysLeft.dlookup place) =
      update (fun place => encryption.mapKeysLeft.dlookup place) (addressOf crypto lib key)
        none := by
    funext place
    by_cases same : place = addressOf crypto lib key
    · subst same
      rw [update_self, List.dlookup_eq_none.mpr nodup.1]
    · rw [update_of_ne same, left, List.dlookup_cons_ne _ _ same]
  have encrypted : CCryptoKeyStore.encryptKey crypto encryption.vMasterKey
      (CKey.ofSecret lib key.1 key.2) =
        .ok (publicOf lib key, (cryptedEntry crypto lib encryption.vMasterKey key).2) :=
    CCryptoKeyStore.encryptKey_ofSecret encrypting.size key.1 key.2
  simp only [FileWallet.encryptEntry, made, Except.toOption, Option.bind_eq_bind, Option.bind_some,
    encrypted, CCryptoKeyStore.addCryptedKey,
    CCryptoKeyStore.setCrypted_of_crypted encrypting.crypted] at stepped
  rcases writes : encryption.pwalletdbEncryption.writeCryptedKey (publicOf lib key)
    (cryptedEntry crypto lib encryption.vMasterKey key).2 with ⟨written, pwalletdbEncryption⟩
  rw [writes] at stepped
  cases written with
  | false => cases stepped
  | true =>
      cases stepped
      refine ⟨(fun idle => by cases idle), fun other busy => ?_⟩
      obtain rfl := Option.some.inj busy
      have during := encrypting.during.writeCryptedKey distinct member writes
      rw [← rest, ← lookup_alist_insert] at during
      exact {
        before := encrypting.before
        during := during
        nodup := nodup.2
        size := encrypting.size
        crypted := encrypting.crypted }

private theorem Encrypting.commitEncryption {encryption : Encryption}
    (encrypting : wallet.Encrypting crypto formats keys encryption)
    (done : encryption.mapKeysLeft = []) :
    (wallet.commitEncryption encryption).Kept crypto formats keys := by
  let keystore : CCryptoKeyStore := { wallet.keystore with mapKeys := ∅ }
  have crypted : keystore.fUseCrypto = true := encrypting.crypted
  have locks : keystore.lock.2 = { keystore with vMasterKey := [] } := by
    rw [CCryptoKeyStore.lock, CCryptoKeyStore.setCrypted_of_crypted crypted]
  have committed : wallet.commitEncryption encryption = { wallet with
      keystore := { keystore with vMasterKey := [] }
      file := encryption.pwalletdbEncryption
      encryption := none } := by
    rw [FileWallet.commitEncryption, locks]
  have steady : (wallet.commitEncryption encryption).Steady crypto formats keys
      encryption.vMasterKey := by
    rw [committed]
    exact {
      sound := CCryptoKeyStore.sound_of_crypted crypted rfl
      tracks := by
        have during := encrypting.during
        rw [done] at during
        exact during
      sized := fun _ => encrypting.size
      unlocked := .inl rfl }
  exact .of_steady (by rw [committed]) steady

/-- What a file gives back: the plain keys, and, unless `EncryptWallet` is at work, the encrypted
keys and the master keys. -/
structure Restores (wallet : FileWallet) (loaded : WalletKeys) : Prop where
  mapKeys : ∀ address, loaded.keystore.mapKeys.lookup address =
    wallet.keystore.mapKeys.lookup address
  mapCryptedKeys : wallet.encryption = none → ∀ address,
    loaded.keystore.mapCryptedKeys.lookup address = wallet.keystore.mapCryptedKeys.lookup address
  mapMasterKeys : wallet.encryption = none → ∀ nID,
    loaded.mapMasterKeys.lookup nID = wallet.mapMasterKeys.lookup nID
  fUseCrypto : loaded.keystore.fUseCrypto = true ↔
    ∃ vchPubKey, RecordKey.ckey vchPubKey ∈ wallet.file

/-- The file can be read in any order, and the wallet goes on from what was read. -/
private theorem restarts (documented : lib.Documented) (documents : formats.Documented)
    (valid : ∀ key ∈ keys, lib.IsPrivate key.1)
    (distinct : Set.InjOn (addressOf crypto lib) keys)
    {plain : UInt160 → Option (CSecret × Bool)}
    {crypted : UInt160 → Option (List UInt8 × List UInt8)} {masters : UInt32 → Option CMasterKey}
    {file : KeyRecords} (tracks : file.Tracks crypto formats keys vMasterKey plain crypted masters)
    (exclusive : (∀ address, plain address = none) ∨ ∀ address, crypted address = none)
    (sized : (∃ address, crypted address ≠ none) → vMasterKey.length = 32)
    {records : List (Sigma RecordKey.Value)} (perm : records.Perm file.entries) :
    ∃ loaded, WalletKeys.loadRecords crypto formats records .empty = .ok loaded ∧
      (∀ address, loaded.keystore.mapKeys.lookup address = plain address) ∧
      (∀ address, loaded.keystore.mapCryptedKeys.lookup address = crypted address) ∧
      (∀ nID, loaded.mapMasterKeys.lookup nID = masters nID) ∧
      (loaded.keystore.fUseCrypto = true ↔ ∃ vchPubKey, RecordKey.ckey vchPubKey ∈ file) ∧
      ({ loaded with file, encryption := none } : FileWallet).Kept crypto formats keys := by
  obtain ⟨loaded, read, sound, locked, plain_eq, crypted_eq, masters_eq, flagged⟩ :=
    WalletKeys.loadRecords_of_tracks documented documents valid distinct tracks exclusive perm
  have recorded : (∃ address, crypted address ≠ none) ↔
      ∃ vchPubKey, RecordKey.ckey vchPubKey ∈ file := by
    constructor
    · rintro ⟨address, some_held⟩
      obtain ⟨entry, held⟩ := Option.ne_none_iff_exists'.mp some_held
      obtain ⟨key, member, rfl, rfl⟩ := tracks.crypted_filed address entry held
      have known := (tracks.ckeyed _ _).mpr held
      exact ⟨_, AList.lookup_isSome.mp (Option.isSome_iff_exists.mpr ⟨_, known⟩)⟩
    · rintro ⟨vchPubKey, present⟩
      obtain ⟨vchCryptedSecret, known⟩ :=
        Option.isSome_iff_exists.mp (AList.lookup_isSome.mpr present)
      exact ⟨_, (tracks.ckeyed _ _).mp known ▸ Option.some_ne_none _⟩
  have steady : ({ loaded with file, encryption := none } : FileWallet).Steady crypto formats keys
      vMasterKey := {
    sound := sound
    tracks := by
      rw [funext plain_eq, funext crypted_eq, funext masters_eq]
      exact tracks
    sized := fun nonempty => by
      refine sized ?_
      by_contra none_held
      push Not at none_held
      exact nonempty (alist_eq_empty fun address => (crypted_eq address).trans (none_held address))
    unlocked := .inl locked }
  exact ⟨loaded, read, plain_eq, crypted_eq, masters_eq, flagged.trans recorded,
    .of_steady rfl steady⟩

/-- A new process restores the keys. -/
private theorem Kept.restored (documented : lib.Documented) (documents : formats.Documented)
    (valid : ∀ key ∈ keys, lib.IsPrivate key.1)
    (distinct : Set.InjOn (addressOf crypto lib) keys)
    (kept : wallet.Kept crypto formats keys) {records : List (Sigma RecordKey.Value)}
    (perm : records.Perm wallet.file.entries) :
    ∃ loaded, WalletKeys.loadRecords crypto formats records .empty = .ok loaded ∧
      wallet.Restores loaded ∧
      ({ loaded with file := wallet.file, encryption := none } : FileWallet).Kept crypto formats
        keys := by
  cases busy : wallet.encryption with
  | none =>
      obtain ⟨vMasterKey, steady⟩ := kept.steady busy
      have exclusive : (∀ address, wallet.keystore.mapKeys.lookup address = none) ∨
          ∀ address, wallet.keystore.mapCryptedKeys.lookup address = none := by
        cases crypted : wallet.keystore.fUseCrypto with
        | false => exact .inr fun address => by simp [steady.sound.mapCryptedKeys_eq crypted]
        | true => exact .inl fun address => by simp [steady.sound.mapKeys_eq crypted]
      have sized : (∃ address, wallet.keystore.mapCryptedKeys.lookup address ≠ none) →
          vMasterKey.length = 32 := by
        rintro ⟨address, held⟩
        exact steady.sized fun keyless => held (by simp [keyless])
      obtain ⟨loaded, read, plain, crypted, masters, flag, again⟩ :=
        restarts documented documents valid distinct steady.tracks exclusive sized perm
      exact ⟨loaded, read, ⟨plain, fun _ => crypted, fun _ => masters, flag⟩, again⟩
  | some encryption =>
      obtain ⟨vMasterKey, masters, before⟩ := (kept.encrypting encryption busy).before
      obtain ⟨loaded, read, plain, crypted, masters, flag, again⟩ :=
        restarts documented documents valid distinct before (.inr fun _ => rfl)
          (by rintro ⟨_, held⟩; exact absurd rfl held) perm
      refine ⟨loaded, read, ⟨plain, fun idle => ?_, fun idle => ?_, flag⟩, again⟩
      · rw [busy] at idle
        cases idle
      · rw [busy] at idle
        cases idle

private theorem encryption_addKey (wallet : FileWallet) (key : CKey lib) :
    (wallet.addKey crypto formats key).2.encryption = wallet.encryption := by
  simp only [FileWallet.addKey, FileWallet.addCryptedKey]
  repeat' split
  all_goals rfl

/-- Every event keeps it. -/
private theorem Kept.step (documented : lib.Documented) (documents : formats.Documented)
    (authentic : lib.Authentic crypto) (valid : ∀ key ∈ keys, lib.IsPrivate key.1)
    (distinct : Set.InjOn (addressOf crypto lib) keys) (kept : wallet.Kept crypto formats keys)
    {event : Event lib} (admissible : event.Admissible keys wallet)
    (stepped : wallet.step crypto formats event = some after) : after.Kept crypto formats keys := by
  cases event with
  | addKey key =>
      simp only [FileWallet.step, Option.isSome_iff_ne_none, ne_eq, ite_not] at stepped
      split_ifs at stepped with idle
      cases stepped
      obtain ⟨secret, member, rfl⟩ := admissible
      obtain ⟨vMasterKey, steady⟩ := kept.steady idle
      exact .of_steady ((encryption_addKey wallet _).trans idle)
        (steady.addKey documents valid distinct member)
  | lock =>
      simp only [FileWallet.step, Option.isSome_iff_ne_none, ne_eq, ite_not] at stepped
      split_ifs at stepped with idle
      cases stepped
      obtain ⟨vMasterKey, steady⟩ := kept.steady idle
      exact .of_steady idle steady.lock
  | unlock vMasterKeyIn =>
      simp only [FileWallet.step, Option.isSome_iff_ne_none, ne_eq, ite_not] at stepped
      split_ifs at stepped with idle
      cases stepped
      obtain ⟨vMasterKey, steady⟩ := kept.steady idle
      obtain ⟨opened, steady⟩ := steady.unlock authentic valid vMasterKeyIn
      exact .of_steady idle steady
  | beginEncryption vMasterKeyNew kMasterKey =>
      simp only [FileWallet.step] at stepped
      split_ifs at stepped with busy
      cases stepped
      obtain ⟨idle, plain⟩ := not_or.mp busy
      obtain ⟨vMasterKey, steady⟩ := kept.steady (by simpa using idle)
      exact steady.beginEncryption (by simpa using plain) vMasterKeyNew admissible kMasterKey
  | encryptEntry =>
      obtain ⟨encryption, busy, stepped⟩ := Option.bind_eq_some_iff.mp stepped
      have encrypting := kept.encrypting encryption busy
      cases left : encryption.mapKeysLeft with
      | nil =>
          rw [left] at stepped
          cases stepped
      | cons mKey mapKeysLeft =>
          rw [left] at stepped
          exact encrypting.encryptEntry documented valid distinct left stepped
  | commitEncryption =>
      obtain ⟨encryption, busy, stepped⟩ := Option.bind_eq_some_iff.mp stepped
      split_ifs at stepped with done
      cases stepped
      exact (kept.encrypting encryption busy).commitEncryption (not_not.mp done)
  | restart records =>
      obtain ⟨loaded, read, -, again⟩ :=
        kept.restored documented documents valid distinct admissible
      simp only [FileWallet.step, read, Except.toOption, Option.map_some, Option.some.injEq]
        at stepped
      exact stepped ▸ again

/-- Whenever the process ends, also within `EncryptWallet`, a new one reads the file and restores
the keys of the wallet.  The file of an encrypted wallet has no plain key. -/
theorem Reachable.restores (documented : lib.Documented) (documents : formats.Documented)
    (authentic : lib.Authentic crypto) (valid : ∀ key ∈ keys, lib.IsPrivate key.1)
    (distinct : Set.InjOn (addressOf crypto lib) keys)
    (reachable : Reachable crypto formats keys wallet) :
    (∀ records : List (Sigma RecordKey.Value), records.Perm wallet.file.entries →
      ∃ loaded, WalletKeys.loadRecords crypto formats records .empty = .ok loaded ∧
        wallet.Restores loaded) ∧
      (wallet.encryption = none → wallet.keystore.fUseCrypto = true → ∀ vchPubKey,
        RecordKey.key vchPubKey ∉ wallet.file ∧ RecordKey.wkey vchPubKey ∉ wallet.file) := by
  have kept : wallet.Kept crypto formats keys := by
    induction reachable with
    | empty => exact empty_kept
    | step reachable admissible stepped induction =>
        exact induction.step documented documents authentic valid distinct admissible stepped
  refine ⟨fun records perm => ?_, fun idle crypted vchPubKey => ?_⟩
  · obtain ⟨loaded, read, restores, -⟩ :=
      kept.restored documented documents valid distinct perm
    exact ⟨loaded, read, restores⟩
  · obtain ⟨vMasterKey, steady⟩ := kept.steady idle
    have plain_free (key : CSecret × Bool) (member : key ∈ keys)
        (recorded : RecordKey.key (publicOf lib key) ∈ wallet.file ∨
          RecordKey.wkey (publicOf lib key) ∈ wallet.file) : False := by
      have held := (steady.tracks.keyed key member).mpr recorded
      simp [steady.sound.mapKeys_eq crypted] at held
    constructor
    · intro recorded
      obtain ⟨vchPrivKey, found⟩ := Option.isSome_iff_exists.mp (AList.lookup_isSome.mpr recorded)
      obtain ⟨key, member, rfl, -⟩ := steady.tracks.stored _ _ (.inl found)
      exact plain_free key member (.inl recorded)
    · intro recorded
      obtain ⟨vchPrivKey, found⟩ := Option.isSome_iff_exists.mp (AList.lookup_isSome.mpr recorded)
      obtain ⟨key, member, rfl, -⟩ := steady.tracks.stored _ _ (.inr found)
      exact plain_free key member (.inr recorded)

/-- A format of private keys that is the secret alone. -/
def plainFormats : KeyFormats sampleOpenSSL where
  d2i pkey vchPrivKey := (true,
    { privateKey := some vchPrivKey, publicKey := some vchPrivKey, convForm := pkey.convForm })
  i2d pkey := pkey.privateKey
  recover _ _ _ := none

theorem plainFormats_documented : plainFormats.Documented where
  i2d_private secret fCompressed _ := ⟨secret, rfl⟩
  d2i_i2d secret fCompressed vchPrivKey pkey _ encoded _ form := by
    obtain rfl := Option.some.inj encoded
    simp only [plainFormats, form]
    rfl

theorem sampleOpenSSL_authentic : sampleOpenSSL.Authentic sampleCrypto := by
  intro vMasterKey vMasterKeyIn secret fCompressed size _ opened
  by_contra wrong
  have refused : decryptSecret sampleOpenSSL vMasterKeyIn
      (cryptedEntry sampleCrypto sampleOpenSSL vMasterKey (secret, fCompressed)).2
      (sampleCrypto.Hash (pubKeyOf sampleOpenSSL secret fCompressed)) = none := by
    have taken : (vMasterKey ++ secret).take 32 = vMasterKey := by
      rw [List.take_append_of_le_length size.ge, List.take_of_length_le size.le]
    simp [decryptSecret, sampleOpenSSL, cryptedEntry, taken, Ne.symm wrong]
  simp only [CCryptoKeyStore.unlocks, refused] at opened
  cases opened

/-- The process ends between two steps of `EncryptWallet`. -/
theorem restores_interrupted : ∃ wallet : FileWallet,
    wallet.encryption.isSome = true ∧ wallet.keystore.fUseCrypto = true ∧
      ∃ loaded, WalletKeys.loadRecords sampleCrypto plainFormats wallet.file.entries .empty =
        .ok loaded ∧ wallet.Restores loaded := by
  let secret : CSecret × Bool := (List.replicate 32 1, false)
  have reachable : ∃ wallet : FileWallet, Reachable sampleCrypto plainFormats {secret} wallet ∧
      wallet.encryption.isSome = true ∧ wallet.keystore.fUseCrypto = true :=
    ⟨_, @Reachable.step _ _ _ _ _ _ .encryptEntry (@Reachable.step _ _ _ _ _ _
      (.beginEncryption (List.replicate 32 0) ⟨[], [], 0, 0, []⟩) (@Reachable.step _ _ _ _ _ _
        (.addKey sampleKey) .empty ⟨secret, rfl, rfl⟩ rfl) rfl rfl) trivial rfl, rfl, rfl⟩
  obtain ⟨wallet, reachable, busy, crypted⟩ := reachable
  exact ⟨wallet, busy, crypted, (Reachable.restores sampleOpenSSL_documented plainFormats_documented
    sampleOpenSSL_authentic (by simp [secret, sampleOpenSSL]) (Set.injOn_singleton _ _)
    reachable).1 _ (List.Perm.refl _)⟩

end FileWallet

end FooCoin

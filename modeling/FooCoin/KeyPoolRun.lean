import FooCoin.KeyPool

/-!
# Runs of the key pool

As long as no call writes a pool record under an index that a reservation holds, every index in the
set has a record with a key of the wallet and no index is in two hands.
-/

namespace FooCoin

open Function Stateful

variable {crypto : Crypto} {lib : OpenSSL}

/-! ## Keys stay in the key store -/

namespace CCryptoKeyStore

/-- The keys of a store are in another one. -/
def Within (store after : CCryptoKeyStore) : Prop :=
  ∀ address, store.haveKey address = true → after.haveKey address = true

private theorem isSome_lookup_insert {α : Type} {map : AList fun _ : UInt160 => α}
    {address : UInt160} (known : (map.lookup address).isSome = true) (other : UInt160) (value : α) :
    ((map.insert other value).lookup address).isSome = true := by
  by_cases same : address = other
  · subst same
    simp
  · rwa [AList.lookup_insert_ne same]

theorem within_setCrypted (store : CCryptoKeyStore) : store.Within (setCrypted store).2 := by
  rcases setCrypted_cases store with failed | ⟨succeeded, crypted | keyless⟩
  · simp [Within, failed]
  · simp [Within, setCrypted_of_crypted crypted]
  · intro address known
    rw [succeeded]
    cases crypted : store.fUseCrypto with
    | false => simp [haveKey, CBasicKeyStore.haveKey, crypted, keyless] at known
    | true => simpa [haveKey, crypted] using known

/-- Locking and unlocking change the master key only. -/
theorem within_of_maps {store after : CCryptoKeyStore} (same_keys : after.mapKeys = store.mapKeys)
    (same_crypted : after.mapCryptedKeys = store.mapCryptedKeys)
    (same_use : after.fUseCrypto = store.fUseCrypto) : store.Within after := by
  simp [Within, haveKey, CBasicKeyStore.haveKey, same_keys, same_crypted, same_use]

theorem Within.trans {first second third : CCryptoKeyStore} (before : first.Within second)
    (after : second.Within third) : first.Within third :=
  fun address known => after address (before address known)

theorem within_lock (store : CCryptoKeyStore) : store.Within (lock store).2 := by
  have crypted := within_setCrypted store
  unfold lock
  split
  · rename_i after outcome
    rwa [outcome] at crypted
  · rename_i after outcome
    rw [outcome] at crypted
    exact crypted.trans (within_of_maps rfl rfl rfl)

theorem within_unlock (lib : OpenSSL) (vMasterKeyIn : List UInt8) (store : CCryptoKeyStore) :
    store.Within (unlock crypto lib vMasterKeyIn store).2 := by
  have crypted := within_setCrypted store
  unfold unlock
  split
  · rename_i after outcome
    rwa [outcome] at crypted
  · rename_i after outcome
    rw [outcome] at crypted
    split
    · exact crypted.trans (within_of_maps rfl rfl rfl)
    · split
      · exact crypted
      · exact crypted.trans (within_of_maps rfl rfl rfl)

/-- A key that was entered in encrypted form is there. -/
theorem addCryptedKey_spec (store : CCryptoKeyStore) (vchPubKey vchCryptedSecret : List UInt8) :
    store.Within (addCryptedKey crypto vchPubKey vchCryptedSecret store).2 ∧
      ((addCryptedKey crypto vchPubKey vchCryptedSecret store).1 = .ok () →
        (addCryptedKey crypto vchPubKey vchCryptedSecret store).2.haveKey
          (crypto.Hash160 vchPubKey) = true) := by
  have within := within_setCrypted store
  rcases setCrypted_cases store with failed | ⟨crypted, -⟩
  · simp [addCryptedKey, failed, Within]
  · rw [crypted] at within
    simp only [addCryptedKey, crypted]
    refine ⟨within.trans fun address known => ?_, fun _ => by simp [haveKey]⟩
    simp only [haveKey, not_true_eq_false, if_false] at known ⊢
    exact isSome_lookup_insert known _ _

/-- A key that was added is there. -/
theorem addKey_spec (store : CCryptoKeyStore) {key : CKey lib} (made : key.Made) :
    store.Within (addKey crypto key store).2 ∧
      ((addKey crypto key store).1 = .ok () → ∃ vchPubKey, key.getPubKey = .ok vchPubKey ∧
        (addKey crypto key store).2.haveKey (crypto.Hash160 vchPubKey) = true) := by
  obtain ⟨secret, fCompressed, -, rfl⟩ := made
  cases crypted : store.fUseCrypto with
  | false =>
      simp only [addKey, crypted, CBasicKeyStore.addKey_ofSecret, Bool.false_eq_true,
        not_false_eq_true, if_true]
      refine ⟨fun address known => ?_, fun _ => ⟨_, CKey.getPubKey_ofSecret secret fCompressed, ?_⟩⟩
      · simp only [haveKey, CBasicKeyStore.haveKey, crypted, Bool.false_eq_true,
          not_false_eq_true, if_true] at known ⊢
        exact isSome_lookup_insert known _ _
      · simp [haveKey, CBasicKeyStore.haveKey]
  | true =>
      simp only [addKey, crypted, not_true_eq_false, if_false]
      split
      · simp [Within]
      · split
        · simp [Within]
        · rename_i vchPubKey vchCryptedSecret encrypted
          have added := @addCryptedKey_spec crypto store vchPubKey vchCryptedSecret
          refine ⟨added.1, fun succeeded => ⟨vchPubKey, ?_, added.2 succeeded⟩⟩
          simp only [encryptKey, CKey.getSecret_ofSecret, CKey.getPubKey_ofSecret,
            except_bind_eq_ok, pure_eq_ok, Except.ok.injEq, Prod.mk.injEq] at encrypted
          obtain ⟨_, rfl, _, rfl, _, _, rfl, _⟩ := encrypted
          exact CKey.getPubKey_ofSecret secret fCompressed

theorem Sound.within_encryptKeys (documented : lib.Documented) {store : CCryptoKeyStore}
    (sound : store.Sound crypto lib) {vMasterKey : List UInt8} (size : vMasterKey.length = 32) :
    store.Within (store.encryptKeys crypto lib vMasterKey).2 := by
  cases crypted : store.fUseCrypto with
  | false =>
      obtain ⟨mapCryptedKeys, outcome, lookup_eq⟩ := sound.encryptKeys_eq documented crypted size
      have encrypts : Encrypts crypto lib vMasterKey store
        { mapKeys := ∅, mapCryptedKeys, vMasterKey := [], fUseCrypto := true } := ⟨rfl, lookup_eq⟩
      rw [outcome]
      intro address known
      rwa [encrypts.haveKey_eq crypted]
  | true => simp [encryptKeys_of_crypted crypted, Within]

end CCryptoKeyStore

/-! ## The indices of a wallet -/

namespace KeyPool

/-- An index has a record with a key of the wallet. -/
def Recorded (crypto : Crypto) (wallet : KeyPool) (nIndex : Nat) : Prop :=
  ∃ vchPubKey, wallet.records nIndex = some vchPubKey ∧
    wallet.keystore.haveKey (crypto.Hash160 vchPubKey) = true

/-- What a wallet keeps while reservations hold the indices `held`. -/
structure Sound (crypto : Crypto) (lib : OpenSSL) (held : Set Nat) (wallet : KeyPool) : Prop where
  keystore : wallet.keystore.Sound crypto lib
  recorded : ∀ nIndex, nIndex ∈ wallet.setKeyPool ∨ nIndex ∈ held → wallet.Recorded crypto nIndex
  apart : ∀ nIndex ∈ held, nIndex ∉ wallet.setKeyPool

variable {held : Set Nat} {wallet : KeyPool}

theorem Sound.keystore_changed (sound : wallet.Sound crypto lib held) {keystore : CCryptoKeyStore}
    (keystore_sound : keystore.Sound crypto lib) (within : wallet.keystore.Within keystore) :
    ({ wallet with keystore } : KeyPool).Sound crypto lib held where
  keystore := keystore_sound
  recorded nIndex inside := by
    obtain ⟨vchPubKey, record, known⟩ := sound.recorded nIndex inside
    exact ⟨vchPubKey, record, within _ known⟩
  apart := sound.apart

/-- A taken index moves from the set to the reservations. -/
theorem Sound.take (sound : wallet.Sound crypto lib held) {nIndex : Nat}
    (pooled : nIndex ∈ wallet.setKeyPool) :
    ({ wallet with setKeyPool := wallet.setKeyPool.erase nIndex } : KeyPool).Sound crypto lib
      (insert nIndex held) where
  keystore := sound.keystore
  recorded other inside := by
    apply sound.recorded other
    rcases inside with pooled_other | rfl | held_other
    · exact .inl (Finset.mem_of_mem_erase pooled_other)
    · exact .inl pooled
    · exact .inr held_other
  apart other inside := by
    rcases inside with rfl | held_other
    · simp
    · simp [sound.apart other held_other]

theorem Sound.forget (sound : wallet.Sound crypto lib held) {held' : Set Nat}
    (fewer : held' ⊆ held) : wallet.Sound crypto lib held' where
  keystore := sound.keystore
  recorded nIndex inside := sound.recorded nIndex (inside.imp_right fun member => fewer member)
  apart nIndex member := sound.apart nIndex (fewer member)

theorem Sound.returnKey {nIndex : Nat} (sound : wallet.Sound crypto lib (insert nIndex held))
    (unheld : nIndex ∉ held) : (wallet.returnKey nIndex).Sound crypto lib held where
  keystore := sound.keystore
  recorded other inside := by
    apply sound.recorded other
    rcases inside with pooled | held_other
    · rcases Finset.mem_insert.mp pooled with rfl | pooled
      · exact .inr (.inl rfl)
      · exact .inl pooled
    · exact .inr (.inr held_other)
  apart other held_other := by
    have apart := sound.apart other (.inr held_other)
    have different : other ≠ nIndex := fun same => unheld (same ▸ held_other)
    simp [KeyPool.returnKey, different, apart]

theorem Sound.keepKey {nIndex : Nat} (sound : wallet.Sound crypto lib (insert nIndex held))
    (unheld : nIndex ∉ held) : (wallet.keepKey nIndex).Sound crypto lib held where
  keystore := sound.keystore
  recorded other inside := by
    have different : other ≠ nIndex := by
      rintro rfl
      exact inside.elim (sound.apart other (.inl rfl)) unheld
    obtain ⟨vchPubKey, record, known⟩ := sound.recorded other (inside.imp_right .inr)
    exact ⟨vchPubKey, (update_of_ne different _ _).trans record, known⟩
  apart other held_other := sound.apart other (.inr held_other)

/-- A new key is a key of the wallet. -/
theorem Sound.generateNewKey (sound : wallet.Sound crypto lib held) {key : CKey lib}
    (made : key.Made) :
    (wallet.generateNewKey crypto key).2.Sound crypto lib held ∧
      ∀ vchPubKey, (wallet.generateNewKey crypto key).1 = .ok vchPubKey →
        (wallet.generateNewKey crypto key).2.keystore.haveKey (crypto.Hash160 vchPubKey) = true := by
  have keystore_sound := sound.keystore.addKey made
  obtain ⟨within, added⟩ := @CCryptoKeyStore.addKey_spec crypto lib wallet.keystore key made
  have changed := sound.keystore_changed keystore_sound within
  unfold KeyPool.generateNewKey
  cases outcome : wallet.keystore.addKey crypto key with
  | mk result keystore =>
      rw [outcome] at added changed
      refine ⟨by cases result <;> exact changed, fun vchPubKey succeeded => ?_⟩
      cases result with
      | error failure => contradiction
      | ok value =>
          obtain ⟨newPubKey, public_eq, known⟩ := added rfl
          simp only [public_eq, Except.ok.injEq] at succeeded
          exact succeeded ▸ known

/-- A new record under an index that nobody holds. -/
theorem Sound.addPoolKey (sound : wallet.Sound crypto lib held) {nIndex : Nat} {key : CKey lib}
    (made : key.Made) (unheld : nIndex ∉ held) :
    (addPoolKey crypto nIndex key wallet).2.Sound crypto lib held := by
  obtain ⟨changed, added⟩ := sound.generateNewKey made
  unfold KeyPool.addPoolKey
  split
  · rename_i outcome
    rwa [outcome] at changed
  · rename_i vchPubKey after outcome
    rw [outcome] at changed added
    have known := added vchPubKey rfl
    refine ⟨changed.keystore, fun other inside => ?_, fun other held_other => ?_⟩
    · by_cases same : other = nIndex
      · subst same
        exact ⟨vchPubKey, update_self .., known⟩
      · obtain ⟨otherPubKey, record, other_known⟩ := changed.recorded other
          (inside.imp_left fun member => Finset.mem_of_mem_insert_of_ne member same)
        exact ⟨otherPubKey, (update_of_ne same _ _).trans record, other_known⟩
    · have different : other ≠ nIndex := fun same => unheld (same ▸ held_other)
      simpa [different] using changed.apart other held_other

theorem lt_nEnd {nIndex : Nat} (pooled : nIndex ∈ wallet.setKeyPool) : nIndex < wallet.nEnd := by
  have nonempty : wallet.setKeyPool.Nonempty := ⟨nIndex, pooled⟩
  rw [nEnd, dif_pos nonempty]
  exact Nat.lt_succ_of_le (Finset.le_max' _ _ pooled)

/-- After a key was added at the end, the end is one further. -/
theorem nEnd_insert {after : KeyPool}
    (inserted : after.setKeyPool = insert wallet.nEnd wallet.setKeyPool) :
    after.nEnd = wallet.nEnd + 1 := by
  have nonempty : after.setKeyPool.Nonempty := by simp [inserted]
  rw [nEnd, dif_pos nonempty]
  congr 1
  apply le_antisymm
  · apply Finset.max'_le
    intro nIndex member
    rw [inserted] at member
    rcases Finset.mem_insert.mp member with rfl | pooled
    · exact le_rfl
    · exact (lt_nEnd pooled).le
  · apply Finset.le_max'
    simp [inserted]

theorem setKeyPool_addPoolKey {nIndex : Nat} {key : CKey lib}
    (succeeded : (addPoolKey crypto nIndex key wallet).1 = .ok ()) :
    (addPoolKey crypto nIndex key wallet).2.setKeyPool = insert nIndex wallet.setKeyPool := by
  unfold addPoolKey generateNewKey at succeeded ⊢
  cases outcome : wallet.keystore.addKey crypto key with
  | mk result keystore =>
      cases result with
      | error failure => simp [outcome] at succeeded
      | ok value =>
          cases public_eq : key.getPubKey with
          | error failure => simp [outcome, public_eq] at succeeded
          | ok vchPubKey => simp

/-- The indices that topping up writes records under. -/
def topUpWrites (keypool : Nat) (wallet : KeyPool) : Finset Nat :=
  if wallet.keystore.isLocked then ∅
  else
    Finset.Ico wallet.nEnd (wallet.nEnd + (targetSize keypool - wallet.setKeyPool.card))

/-- The indices that `NewKeyPool` writes records under. -/
def newPoolWrites (keypool : Nat) : Finset Nat := Finset.Icc 1 keypool

theorem Sound.topUpLoop (keypool : Nat) {keys : Nat → CKey lib} (made : ∀ i, (keys i).Made)
    (fuel : Nat) {wallet : KeyPool} (sound : wallet.Sound crypto lib held)
    (unheld : ∀ nIndex ∈ held, ¬(wallet.nEnd ≤ nIndex ∧
      nIndex < wallet.nEnd + (targetSize keypool - wallet.setKeyPool.card))) :
    (topUpLoop crypto keypool keys fuel wallet).2.Sound crypto lib held := by
  induction fuel generalizing wallet with
  | zero => exact sound
  | succ fuel induction =>
      unfold KeyPool.topUpLoop
      split_ifs with short
      · have unheld_end : wallet.nEnd ∉ held := fun held_end =>
          unheld _ held_end ⟨le_rfl, by omega⟩
        have added := sound.addPoolKey (made fuel) unheld_end
        have inserted := @setKeyPool_addPoolKey crypto lib wallet wallet.nEnd (keys fuel)
        split
        · rename_i after outcome
          rwa [outcome] at added
        · rename_i after outcome
          rw [outcome] at added inserted
          have set_eq := inserted rfl
          have fresh : wallet.nEnd ∉ wallet.setKeyPool := fun pooled => (lt_nEnd pooled).false
          have card_eq : after.setKeyPool.card = wallet.setKeyPool.card + 1 := by
            rw [set_eq, Finset.card_insert_of_notMem fresh]
          apply induction added
          intro nIndex held_index inside
          rw [nEnd_insert set_eq, card_eq] at inside
          exact unheld nIndex held_index ⟨by omega, by omega⟩
      · exact sound

theorem Sound.topUpKeyPool {keypool : Nat} {keys : Nat → CKey lib} (made : ∀ i, (keys i).Made)
    (sound : wallet.Sound crypto lib held)
    (unheld : ∀ nIndex ∈ wallet.topUpWrites keypool, nIndex ∉ held) :
    (topUpKeyPool crypto keypool keys wallet).2.Sound crypto lib held := by
  unfold KeyPool.topUpKeyPool
  split_ifs with locked
  · exact sound
  · apply sound.topUpLoop keypool made
    intro nIndex held_index inside
    refine unheld nIndex ?_ held_index
    rw [topUpWrites, if_neg locked]
    exact Finset.mem_Ico.mpr inside

theorem Sound.newKeyPool {keypool : Nat} {keys : Nat → CKey lib} (made : ∀ i, (keys i).Made)
    (sound : wallet.Sound crypto lib held)
    (unheld : wallet.keystore.isLocked = false → ∀ nIndex ∈ newPoolWrites keypool, nIndex ∉ held) :
    (newKeyPool crypto keypool keys wallet).2.Sound crypto lib held := by
  let cleared : KeyPool :=
    { wallet with
      records := fun nIndex => if nIndex ∈ wallet.setKeyPool then none else wallet.records nIndex
      setKeyPool := ∅ }
  have cleared_sound : cleared.Sound crypto lib held := by
    refine ⟨sound.keystore, fun nIndex inside => ?_, fun nIndex _ => Finset.notMem_empty nIndex⟩
    have held_index : nIndex ∈ held := by simpa [cleared] using inside
    obtain ⟨vchPubKey, record, known⟩ := sound.recorded nIndex (.inr held_index)
    exact ⟨vchPubKey, by simp [cleared, sound.apart nIndex held_index, record], known⟩
  change (if cleared.keystore.isLocked then (_, cleared) else _).2.Sound crypto lib held
  split_ifs with locked
  · exact cleared_sound
  · have keeps : ∀ i ∈ List.range keypool, ∀ after : KeyPool, after.Sound crypto lib held →
        (KeyPool.addPoolKey crypto (i + 1) (keys i) after).2.Sound crypto lib held := by
      intro i member after after_sound
      refine after_sound.addPoolKey (made i) (unheld (by simpa using locked) (i + 1) ?_)
      have inside := List.mem_range.mp member
      exact Finset.mem_Icc.mpr ⟨by omega, by omega⟩
    exact sequence_keeps keeps cleared_sound

theorem Sound.lock (sound : wallet.Sound crypto lib held) :
    (onKeyStore CCryptoKeyStore.lock wallet).2.Sound crypto lib held :=
  sound.keystore_changed sound.keystore.lock (CCryptoKeyStore.within_lock _)

theorem Sound.unlock (sound : wallet.Sound crypto lib held) (vMasterKey : List UInt8) :
    (onKeyStore (CCryptoKeyStore.unlock crypto lib vMasterKey) wallet).2.Sound crypto lib held :=
  sound.keystore_changed (sound.keystore.unlock vMasterKey) (CCryptoKeyStore.within_unlock lib _ _)

theorem Sound.encryptKeys (documented : lib.Documented) (sound : wallet.Sound crypto lib held)
    {vMasterKey : List UInt8} (size : vMasterKey.length = 32) :
    (onKeyStore (CCryptoKeyStore.encryptKeys crypto lib vMasterKey) wallet).2.Sound crypto lib
      held := by
  refine sound.keystore_changed ?_ (sound.keystore.within_encryptKeys documented size)
  exact sound.keystore.encryptKeys documented size

theorem Sound.encryptWallet (documented : lib.Documented) {keypool : Nat}
    {vMasterKey : List UInt8} (size : vMasterKey.length = 32) {keys : Nat → CKey lib}
    (made : ∀ i, (keys i).Made) (sound : wallet.Sound crypto lib held)
    (unheld : wallet.keystore.fUseCrypto = false → ∀ nIndex ∈ newPoolWrites keypool,
      nIndex ∉ held) :
    (encryptWallet crypto lib keypool vMasterKey keys wallet).2.Sound crypto lib held := by
  unfold KeyPool.encryptWallet
  split_ifs with crypted
  · exact sound
  · have encrypted := sound.encryptKeys documented size
    split
    · rename_i after outcome
      rwa [outcome] at encrypted
    · rename_i after outcome
      rw [outcome] at encrypted
      dsimp only at encrypted ⊢
      have refilled := (encrypted.lock.unlock vMasterKey).newKeyPool made fun _ =>
        unheld (by simpa using crypted)
      split
      · rename_i thrown
        rwa [thrown] at refilled
      · rename_i ended
        rw [ended] at refilled
        exact refilled.lock

/-- What a reservation leaves: the index is none, or it was taken. -/
def Reserved (crypto : Crypto) (lib : OpenSSL) (held : Set Nat) : Option Nat × KeyPool → Prop
  | (none, after) => after.Sound crypto lib held
  | (some nIndex, after) => nIndex ∉ held ∧ after.Sound crypto lib (insert nIndex held)

theorem Sound.takeOldest (sound : wallet.Sound crypto lib held) :
    Reserved crypto lib held (wallet.takeOldest crypto).2 := by
  unfold KeyPool.takeOldest
  split_ifs with nonempty
  · have pooled := Finset.min'_mem _ nonempty
    have unheld : wallet.setKeyPool.min' nonempty ∉ held := fun held_index =>
      sound.apart _ held_index pooled
    have taken : Reserved crypto lib held (some (wallet.setKeyPool.min' nonempty),
        { wallet with setKeyPool := wallet.setKeyPool.erase (wallet.setKeyPool.min' nonempty) }) :=
      ⟨unheld, sound.take pooled⟩
    dsimp only
    split
    · exact taken
    · split_ifs <;> exact taken
  · exact sound

theorem Sound.reserveKeyFromKeyPool {keypool : Nat} {keys : Nat → CKey lib}
    (made : ∀ i, (keys i).Made) (sound : wallet.Sound crypto lib held)
    (unheld : ∀ nIndex ∈ wallet.topUpWrites keypool, nIndex ∉ held) :
    Reserved crypto lib held (wallet.reserveKeyFromKeyPool crypto keypool keys).2 := by
  have filled := @Sound.topUpKeyPool crypto lib held wallet keypool keys made sound unheld
  unfold KeyPool.reserveKeyFromKeyPool
  split_ifs with locked
  · exact sound.takeOldest
  · split
    · rename_i after outcome
      rwa [outcome] at filled
    · rename_i after outcome
      rw [outcome] at filled
      exact Sound.takeOldest filled

theorem Sound.getKeyFromPool {keypool : Nat} (fAllowReuse : Bool) {keys : Nat → CKey lib}
    {newKey : CKey lib} (made : ∀ i, (keys i).Made) (new_made : newKey.Made)
    (sound : wallet.Sound crypto lib held)
    (unheld : ∀ nIndex ∈ wallet.topUpWrites keypool, nIndex ∉ held) :
    (wallet.getKeyFromPool crypto keypool fAllowReuse keys newKey).2.Sound crypto lib held := by
  have reserved := sound.reserveKeyFromKeyPool made unheld
  unfold KeyPool.getKeyFromPool
  split
  · rename_i nIndex after outcome
    rw [outcome] at reserved
    cases nIndex with
    | none => exact reserved
    | some nIndex => exact reserved.2.forget (Set.subset_insert nIndex held)
  · rename_i nIndex after outcome
    rw [outcome] at reserved
    exact reserved.2.keepKey reserved.1
  · rename_i after outcome
    rw [outcome] at reserved
    split_ifs
    · exact reserved
    · exact reserved
    · exact (Sound.generateNewKey reserved new_made).1

end KeyPool

/-! ## Runs -/

/-- The keys of a call are made by `MakeNewKey`, and a master key has the size of AES keys. -/
def KeyPoolCall.Valid : KeyPoolCall lib → Prop
  | .topUpKeyPool keys | .newKeyPool keys | .getReservedKey _ keys => ∀ i, (keys i).Made
  | .encryptWallet vMasterKey keys => vMasterKey.length = 32 ∧ ∀ i, (keys i).Made
  | .getKeyFromPool _ keys newKey => (∀ i, (keys i).Made) ∧ newKey.Made
  | .keepKey _ | .returnKey _ | .lock | .unlock _ => True

/-- The states that calls lead to, each of them valid and `allowed` where it is made. -/
inductive PoolRun (crypto : Crypto) (lib : OpenSSL) (keypool : Nat)
    (allowed : PoolState → KeyPoolCall lib → Prop) : PoolState → Prop
  | start (vchDefaultKey : List UInt8) : PoolRun crypto lib keypool allowed (.empty vchDefaultKey)
  | step {state : PoolState} {call : KeyPoolCall lib} : PoolRun crypto lib keypool allowed state →
      call.Valid → allowed state call →
        PoolRun crypto lib keypool allowed (state.step crypto keypool call)

namespace PoolState

/-- Every index in the set has a record with a key of the wallet, and no index is in two hands. -/
structure Consistent (crypto : Crypto) (state : PoolState) : Prop where
  pooled : ∀ nIndex ∈ state.wallet.setKeyPool, state.wallet.Recorded crypto nIndex
  apart : ∀ object nIndex, (state.reservations object).nIndex = some nIndex →
    nIndex ∉ state.wallet.setKeyPool
  distinct : ∀ first second nIndex, (state.reservations first).nIndex = some nIndex →
    (state.reservations second).nIndex = some nIndex → first = second

/-- The indices that reservations hold. -/
def held (state : PoolState) : Set Nat :=
  {nIndex | ∃ object, (state.reservations object).nIndex = some nIndex}

/-- The indices that a call writes pool records under. -/
def writes (keypool : Nat) (state : PoolState) : KeyPoolCall lib → Finset Nat
  | .topUpKeyPool _ | .getKeyFromPool _ _ _ => state.wallet.topUpWrites keypool
  | .getReservedKey object _ =>
      if (state.reservations object).nIndex = none then state.wallet.topUpWrites keypool else ∅
  | .newKeyPool _ =>
      if state.wallet.keystore.isLocked then ∅ else KeyPool.newPoolWrites keypool
  | .encryptWallet _ _ =>
      if state.wallet.keystore.fUseCrypto then ∅ else KeyPool.newPoolWrites keypool
  | .keepKey _ | .returnKey _ | .lock | .unlock _ => ∅

/-- A call writes no pool record under an index that a reservation holds. -/
def Unheld (keypool : Nat) (state : PoolState) (call : KeyPoolCall lib) : Prop :=
  ∀ nIndex ∈ state.writes keypool call, nIndex ∉ state.held

/-- The invariant of the runs. -/
structure Sound (crypto : Crypto) (lib : OpenSSL) (state : PoolState) : Prop where
  wallet : state.wallet.Sound crypto lib state.held
  distinct : ∀ first second nIndex, (state.reservations first).nIndex = some nIndex →
    (state.reservations second).nIndex = some nIndex → first = second

variable {state : PoolState} {keypool : Nat}

theorem Sound.consistent (sound : state.Sound crypto lib) : state.Consistent crypto where
  pooled nIndex member := sound.wallet.recorded nIndex (.inl member)
  apart object nIndex holds := sound.wallet.apart nIndex ⟨object, holds⟩
  distinct := sound.distinct

theorem Sound.changed (sound : state.Sound crypto lib) {wallet : KeyPool}
    (wallet_sound : wallet.Sound crypto lib state.held) :
    ({ state with wallet } : PoolState).Sound crypto lib where
  wallet := wallet_sound
  distinct := sound.distinct

/-- An object without an index gets one that nobody holds, or none. -/
theorem Sound.reserve (sound : state.Sound crypto lib) {object : Nat}
    (idle : (state.reservations object).nIndex = none) {reservation : CReserveKey}
    {wallet : KeyPool}
    (reserved : KeyPool.Reserved crypto lib state.held (reservation.nIndex, wallet)) :
    ({ wallet, reservations := update state.reservations object reservation } :
      PoolState).Sound crypto lib := by
  have elsewhere {other nIndex : Nat} (holds : (state.reservations other).nIndex = some nIndex) :
      other ≠ object := by
    rintro rfl
    simp [idle] at holds
  obtain ⟨nIndex, vchPubKey⟩ := reservation
  have held_eq : ({ wallet, reservations := update state.reservations object ⟨nIndex, vchPubKey⟩ } :
      PoolState).held = {held_index | nIndex = some held_index} ∪ state.held := by
    ext held_index
    constructor
    · rintro ⟨other, holds⟩
      by_cases same : other = object
      · subst same
        exact .inl (by simpa using holds)
      · exact .inr ⟨other, by simpa [same] using holds⟩
    · rintro (taken | ⟨other, holds⟩)
      · exact ⟨object, by simpa using taken⟩
      · exact ⟨other, by simpa [elsewhere holds] using holds⟩
  cases nIndex with
  | none =>
      refine ⟨?_, fun first second nIndex first_holds second_holds => ?_⟩
      · rw [held_eq]
        simpa [KeyPool.Reserved] using reserved
      · by_cases first_same : first = object
        · simp [first_same] at first_holds
        · by_cases second_same : second = object
          · simp [second_same] at second_holds
          · simp only [update_of_ne first_same, update_of_ne second_same] at first_holds second_holds
            exact sound.distinct first second nIndex first_holds second_holds
  | some taken =>
      obtain ⟨unheld, wallet_sound⟩ := reserved
      refine ⟨?_, fun first second nIndex first_holds second_holds => ?_⟩
      · rw [held_eq]
        simpa [Set.insert_def, eq_comm] using wallet_sound
      · by_cases first_same : first = object
        · by_cases second_same : second = object
          · rw [first_same, second_same]
          · simp only [first_same, update_self, update_of_ne second_same, Option.some.injEq]
              at first_holds second_holds
            exact absurd ⟨second, first_holds ▸ second_holds⟩ unheld
        · by_cases second_same : second = object
          · simp only [second_same, update_self, update_of_ne first_same, Option.some.injEq]
              at first_holds second_holds
            exact absurd ⟨first, second_holds ▸ first_holds⟩ unheld
          · simp only [update_of_ne first_same, update_of_ne second_same] at first_holds second_holds
            exact sound.distinct first second nIndex first_holds second_holds

theorem Sound.getReservedKey (sound : state.Sound crypto lib) (object : Nat)
    {keys : Nat → CKey lib} (made : ∀ i, (keys i).Made)
    (unheld : state.Unheld keypool (.getReservedKey object keys)) :
    (state.getReservedKey crypto keypool object keys).Sound crypto lib := by
  unfold PoolState.getReservedKey
  split
  · exact sound
  · rename_i idle
    have writes_eq : state.writes keypool (.getReservedKey object keys) =
        state.wallet.topUpWrites keypool := if_pos idle
    rw [Unheld, writes_eq] at unheld
    have reserved := sound.wallet.reserveKeyFromKeyPool made unheld
    split
    · rename_i outcome
      rw [outcome] at reserved
      exact sound.reserve idle reserved
    · rename_i outcome
      rw [outcome] at reserved
      exact sound.reserve idle reserved
    · rename_i outcome
      rw [outcome] at reserved
      exact sound.reserve idle reserved

/-- An object gives its index away. -/
theorem Sound.release (sound : state.Sound crypto lib) (object : Nat)
    {settle : Nat → KeyPool → KeyPool}
    (settles : ∀ {held : Set Nat} {nIndex : Nat} {wallet : KeyPool},
      wallet.Sound crypto lib (insert nIndex held) → nIndex ∉ held →
        (settle nIndex wallet).Sound crypto lib held) :
    (state.release settle object).Sound crypto lib := by
  have kept {other nIndex : Nat}
      (holds : ((state.release settle object).reservations other).nIndex = some nIndex) :
      other ≠ object ∧ (state.reservations other).nIndex = some nIndex := by
    by_cases same : other = object
    · simp [PoolState.release, same] at holds
    · exact ⟨same, by simpa [PoolState.release, same] using holds⟩
  have fewer : (state.release settle object).held ⊆ state.held := by
    rintro nIndex ⟨other, holds⟩
    exact ⟨other, (kept holds).2⟩
  refine ⟨?_, fun first second nIndex first_holds second_holds =>
    sound.distinct first second nIndex (kept first_holds).2 (kept second_holds).2⟩
  cases holding : (state.reservations object).nIndex with
  | none =>
      have wallet_eq : (state.release settle object).wallet = state.wallet := by
        simp [PoolState.release, holding]
      rw [wallet_eq]
      exact sound.wallet.forget fewer
  | some nIndex =>
      have wallet_eq : (state.release settle object).wallet = settle nIndex state.wallet := by
        simp [PoolState.release, holding]
      rw [wallet_eq]
      apply settles
      · apply sound.wallet.forget
        rintro held_index (rfl | member)
        · exact ⟨object, holding⟩
        · exact fewer member
      · rintro ⟨other, holds⟩
        obtain ⟨different, held_other⟩ := kept holds
        exact different (sound.distinct other object nIndex held_other holding)

theorem Sound.step (documented : lib.Documented) (sound : state.Sound crypto lib)
    {call : KeyPoolCall lib} (valid : call.Valid) (unheld : state.Unheld keypool call) :
    (state.step crypto keypool call).Sound crypto lib := by
  cases call with
  | topUpKeyPool keys => exact sound.changed (sound.wallet.topUpKeyPool valid unheld)
  | newKeyPool keys =>
      refine sound.changed (sound.wallet.newKeyPool valid fun unlocked nIndex member => ?_)
      exact unheld nIndex (by simpa [writes, unlocked] using member)
  | encryptWallet vMasterKey keys =>
      obtain ⟨size, made⟩ := valid
      refine sound.changed (sound.wallet.encryptWallet documented size made
        fun plain nIndex member => ?_)
      exact unheld nIndex (by simpa [writes, plain] using member)
  | getKeyFromPool fAllowReuse keys newKey =>
      exact sound.changed (sound.wallet.getKeyFromPool fAllowReuse valid.1 valid.2 unheld)
  | getReservedKey object keys => exact sound.getReservedKey object valid unheld
  | keepKey object => exact sound.release object fun wallet_sound => wallet_sound.keepKey
  | returnKey object => exact sound.release object fun wallet_sound => wallet_sound.returnKey
  | lock => exact sound.changed sound.wallet.lock
  | unlock vMasterKey => exact sound.changed (sound.wallet.unlock vMasterKey)

theorem empty_sound (vchDefaultKey : List UInt8) :
    (PoolState.empty vchDefaultKey).Sound crypto lib where
  wallet :=
    { keystore := .empty
      recorded := by simp [PoolState.empty, held]
      apart := by simp [PoolState.empty, held] }
  distinct := by simp [PoolState.empty]

end PoolState

/-- The `i`-th key of a wallet. -/
def poolKeys (i : Nat) : CKey sampleOpenSSL :=
  .ofSecret sampleOpenSSL (List.replicate 31 1 ++ [UInt8.ofNat i]) true

private theorem poolKeys_made (i : Nat) : (poolKeys i).Made :=
  ⟨_, _, by simp [sampleOpenSSL], rfl⟩

/-- An object has reserved a key of a new wallet, with `-keypool=1`. -/
def reservedState : PoolState :=
  (PoolState.empty []).step sampleCrypto 1 (.getReservedKey 0 poolKeys)

private theorem reservedState_unheld :
    (PoolState.empty []).Unheld 1 (.getReservedKey 0 poolKeys) := by
  rintro nIndex - ⟨object, holds⟩
  simp [PoolState.empty] at holds

/-- The pool is made anew while the object holds index 1. -/
def renewedState : PoolState :=
  reservedState.step sampleCrypto 1 (.newKeyPool poolKeys)

end FooCoin

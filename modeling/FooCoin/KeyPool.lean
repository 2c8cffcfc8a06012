import FooCoin.KeyEncryption

/-!
# The key pool

The wallet makes keys in advance.  The indices of the keys that nobody has are in `setKeyPool`, their
records are in the wallet database, and a `CReserveKey` object holds the index that it took.  A new
record gets the index after the last one in the set, or 1, which may be an index that is still held.
-/

namespace FooCoin

open Function Stateful

/-- `CReserveKey`; the index -1 is `none`. -/
structure CReserveKey where
  nIndex : Option Nat
  vchPubKey : List UInt8

/-- The part of `CWallet` that the key pool uses. -/
structure KeyPool where
  keystore : CCryptoKeyStore
  setKeyPool : Finset Nat
  /-- The public keys in the "pool" records of the wallet database. -/
  records : Nat → Option (List UInt8)
  vchDefaultKey : List UInt8

/-- `CPubKey::IsValid`. -/
def isValidPubKey (vchPubKey : List UInt8) : Bool :=
  vchPubKey.length = 33 ∨ vchPubKey.length = 65

namespace KeyPool

variable {lib : OpenSSL} (crypto : Crypto)

/-- `CWallet::GenerateNewKey`; `key` is what `MakeNewKey` makes. -/
def generateNewKey (key : CKey lib) (wallet : KeyPool) : Outcome (List UInt8) × KeyPool :=
  match wallet.keystore.addKey crypto key with
  | (.error _, keystore) => (.error .thrown, { wallet with keystore })
  | (.ok (), keystore) => (key.getPubKey, { wallet with keystore })

/-- Write the record of a new key and put its index into the set. -/
def addPoolKey (nIndex : Nat) (key : CKey lib) : Action Failure KeyPool := fun wallet =>
  match wallet.generateNewKey crypto key with
  | (.error failure, wallet) => (.error failure, wallet)
  | (.ok vchPubKey, wallet) =>
      (.ok (), { wallet with
        records := update wallet.records nIndex (some vchPubKey)
        setKeyPool := insert nIndex wallet.setKeyPool })

/-- `nEnd` of `TopUpKeyPool`. -/
def nEnd (wallet : KeyPool) : Nat :=
  if nonempty : wallet.setKeyPool.Nonempty then wallet.setKeyPool.max' nonempty + 1 else 1

/-- `nTargetSize + 1`, for the option `-keypool`. -/
def targetSize (keypool : Nat) : Nat := (keypool % 2 ^ 32 + 1) % 2 ^ 32

/-- The loop of `TopUpKeyPool`; `keys` are the keys that it makes, the last one first. -/
def topUpLoop (keypool : Nat) (keys : Nat → CKey lib) : Nat → Action Failure KeyPool
  | 0, wallet => (.ok (), wallet)
  | fuel + 1, wallet =>
      if wallet.setKeyPool.card < targetSize keypool then
        match addPoolKey crypto wallet.nEnd (keys fuel) wallet with
        | (.error failure, wallet) => (.error failure, wallet)
        | (.ok (), wallet) => topUpLoop keypool keys fuel wallet
      else (.ok (), wallet)

/-- `CWallet::TopUpKeyPool`. -/
def topUpKeyPool (keypool : Nat) (keys : Nat → CKey lib) : Action Failure KeyPool := fun wallet =>
  if wallet.keystore.isLocked then (.error .rejected, wallet)
  else topUpLoop crypto keypool keys (targetSize keypool) wallet

/-- `CWallet::NewKeyPool`. -/
def newKeyPool (keypool : Nat) (keys : Nat → CKey lib) : Action Failure KeyPool := fun wallet =>
  let wallet :=
    { wallet with
      records := fun nIndex => if nIndex ∈ wallet.setKeyPool then none else wallet.records nIndex
      setKeyPool := ∅ }
  if wallet.keystore.isLocked then (.error .rejected, wallet)
  else sequence (fun i => addPoolKey crypto (i + 1) (keys i)) (List.range keypool) wallet

/-- Take the least index out of the set.  The results are the outcome with the public key, `nIndex`
as it is left also by a failure, and the wallet. -/
def takeOldest (wallet : KeyPool) : Outcome (List UInt8) × Option Nat × KeyPool :=
  if nonempty : wallet.setKeyPool.Nonempty then
    let nIndex := wallet.setKeyPool.min' nonempty
    let wallet := { wallet with setKeyPool := wallet.setKeyPool.erase nIndex }
    match wallet.records nIndex with
    | none => (.error .thrown, some nIndex, wallet)
    | some vchPubKey =>
        if ¬wallet.keystore.haveKey (crypto.Hash160 vchPubKey) then
          (.error .thrown, some nIndex, wallet)
        else if ¬isValidPubKey vchPubKey then (.error .assertion, some nIndex, wallet)
        else (.ok vchPubKey, some nIndex, wallet)
  else (.ok [], none, wallet)

/-- `CWallet::ReserveKeyFromKeyPool`, with results like those of `takeOldest`. -/
def reserveKeyFromKeyPool (keypool : Nat) (keys : Nat → CKey lib) (wallet : KeyPool) :
    Outcome (List UInt8) × Option Nat × KeyPool :=
  if wallet.keystore.isLocked then wallet.takeOldest crypto
  else
    match topUpKeyPool crypto keypool keys wallet with
    | (.error failure, wallet) => (.error failure, none, wallet)
    | (.ok (), wallet) => wallet.takeOldest crypto

/-- `CWallet::KeepKey`. -/
def keepKey (nIndex : Nat) (wallet : KeyPool) : KeyPool :=
  { wallet with records := update wallet.records nIndex none }

/-- `CWallet::ReturnKey`. -/
def returnKey (nIndex : Nat) (wallet : KeyPool) : KeyPool :=
  { wallet with setKeyPool := insert nIndex wallet.setKeyPool }

/-- `CWallet::GetKeyFromPool`; `newKey` is the key it makes when the pool is empty. -/
def getKeyFromPool (keypool : Nat) (fAllowReuse : Bool) (keys : Nat → CKey lib)
    (newKey : CKey lib) (wallet : KeyPool) : Outcome (List UInt8) × KeyPool :=
  match wallet.reserveKeyFromKeyPool crypto keypool keys with
  | (.error failure, _, wallet) => (.error failure, wallet)
  | (.ok vchPubKey, some nIndex, wallet) => (.ok vchPubKey, wallet.keepKey nIndex)
  | (.ok _, none, wallet) =>
      if fAllowReuse ∧ isValidPubKey wallet.vchDefaultKey then (.ok wallet.vchDefaultKey, wallet)
      else if wallet.keystore.isLocked then (.error .rejected, wallet)
      else wallet.generateNewKey crypto newKey

/-- Replace the key store by what a call of it leaves. -/
def onKeyStore (call : Action Failure CCryptoKeyStore) : Action Failure KeyPool := fun wallet =>
  ((call wallet.keystore).1, { wallet with keystore := (call wallet.keystore).2 })

/-- `CWallet::EncryptWallet` with a passphrase that the new master key can be encrypted with. -/
def encryptWallet (lib : OpenSSL) (keypool : Nat) (vMasterKey : List UInt8)
    (keys : Nat → CKey lib) : Action Failure KeyPool := fun wallet =>
  if wallet.keystore.fUseCrypto then (.error .rejected, wallet)
  else
    match onKeyStore (CCryptoKeyStore.encryptKeys crypto lib vMasterKey) wallet with
    | (.error failure, wallet) => (.error failure, wallet)
    | (.ok (), wallet) =>
        let wallet := (onKeyStore CCryptoKeyStore.lock wallet).2
        let wallet := (onKeyStore (CCryptoKeyStore.unlock crypto lib vMasterKey) wallet).2
        match newKeyPool crypto keypool keys wallet with
        | (.error .thrown, wallet) => (.error .thrown, wallet)
        | (_, wallet) => (.ok (), (onKeyStore CCryptoKeyStore.lock wallet).2)

end KeyPool

/-- A wallet with its `CReserveKey` objects. -/
structure PoolState where
  wallet : KeyPool
  reservations : Nat → CReserveKey

/-- A new wallet. -/
def PoolState.empty (vchDefaultKey : List UInt8) : PoolState where
  wallet :=
    { keystore := .empty
      setKeyPool := ∅
      records := fun _ => none
      vchDefaultKey }
  reservations _ := { nIndex := none, vchPubKey := [] }

/-- The calls on a wallet and its `CReserveKey` objects. -/
inductive KeyPoolCall (lib : OpenSSL)
  | topUpKeyPool (keys : Nat → CKey lib)
  | newKeyPool (keys : Nat → CKey lib)
  | encryptWallet (vMasterKey : List UInt8) (keys : Nat → CKey lib)
  | getKeyFromPool (fAllowReuse : Bool) (keys : Nat → CKey lib) (newKey : CKey lib)
  | getReservedKey (object : Nat) (keys : Nat → CKey lib)
  | keepKey (object : Nat)
  | returnKey (object : Nat)
  | lock
  | unlock (vMasterKey : List UInt8)

namespace PoolState

variable {lib : OpenSSL} (crypto : Crypto) (keypool : Nat)

/-- `CReserveKey::GetReservedKey`. -/
def getReservedKey (object : Nat) (keys : Nat → CKey lib) (state : PoolState) : PoolState :=
  match (state.reservations object).nIndex with
  | some _ => state
  | none =>
      match state.wallet.reserveKeyFromKeyPool crypto keypool keys with
      | (.error _, nIndex, wallet) =>
          let reservation := { state.reservations object with nIndex }
          { wallet, reservations := update state.reservations object reservation }
      | (.ok vchPubKey, some nIndex, wallet) =>
          let reservation := { nIndex := some nIndex, vchPubKey }
          { wallet, reservations := update state.reservations object reservation }
      | (.ok _, none, wallet) =>
          let reservation := { nIndex := none, vchPubKey := wallet.vchDefaultKey }
          { wallet, reservations := update state.reservations object reservation }

/-- `CReserveKey::KeepKey` and `CReserveKey::ReturnKey`, with what they do to the wallet. -/
def release (settle : Nat → KeyPool → KeyPool) (object : Nat) (state : PoolState) : PoolState where
  wallet :=
    match (state.reservations object).nIndex with
    | none => state.wallet
    | some nIndex => settle nIndex state.wallet
  reservations := update state.reservations object { nIndex := none, vchPubKey := [] }

/-- `CReserveKey::KeepKey`. -/
def keepKey : Nat → PoolState → PoolState := release KeyPool.keepKey

/-- `CReserveKey::ReturnKey`, which the destructor calls too. -/
def returnKey : Nat → PoolState → PoolState := release KeyPool.returnKey

/-- The state that a call leaves, whether it succeeds or not. -/
def step (state : PoolState) : KeyPoolCall lib → PoolState
  | .topUpKeyPool keys =>
      { state with wallet := (KeyPool.topUpKeyPool crypto keypool keys state.wallet).2 }
  | .newKeyPool keys =>
      { state with wallet := (KeyPool.newKeyPool crypto keypool keys state.wallet).2 }
  | .encryptWallet vMasterKey keys =>
      { state with
        wallet := (KeyPool.encryptWallet crypto lib keypool vMasterKey keys state.wallet).2 }
  | .getKeyFromPool fAllowReuse keys newKey =>
      { state with
        wallet := (state.wallet.getKeyFromPool crypto keypool fAllowReuse keys newKey).2 }
  | .getReservedKey object keys => state.getReservedKey crypto keypool object keys
  | .keepKey object => state.keepKey object
  | .returnKey object => state.returnKey object
  | .lock => { state with wallet := (KeyPool.onKeyStore CCryptoKeyStore.lock state.wallet).2 }
  | .unlock vMasterKey =>
      { state with
        wallet := (KeyPool.onKeyStore (CCryptoKeyStore.unlock crypto lib vMasterKey)
          state.wallet).2 }

end PoolState

end FooCoin

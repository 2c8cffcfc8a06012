import FooCoin.KeyEncryption

/-!
# Locking the wallet again

`walletpassphrase` unlocks the wallet and starts a thread that locks it after a time.  The threads of
all calls share the deadline `nWalletUnlockTime`, and `walletlock` clears it.  RPC commands hold
`cs_main` and `cs_wallet`, so each of them is one step; the sections of a thread under
`cs_nWalletUnlockTime` are steps of their own, between which the clock goes on.
-/

namespace FooCoin

open Stateful

/-- An error that an RPC command throws. -/
structure RPCError where
  code : Int
  message : String
deriving DecidableEq

/-- The variables of `ThreadCleanWalletPassphrase` between its sections. -/
inductive CleanerStage
  /-- `*((int64*)parg)`, before the thread has run. -/
  | started (nSleepTime : Int)
  | ready (nMyWakeTime : Int)
  /-- In the loop, until the time that `Sleep` was called for. -/
  | sleeping (wakes : Int)
deriving DecidableEq

/-- A cleaner thread and the number of times the wallet had been locked when it was started. -/
structure Cleaner where
  epoch : Nat
  stage : CleanerStage
deriving DecidableEq

/-- The thread is in its waiting loop. -/
def Cleaner.waits (cleaner : Cleaner) : Bool :=
  match cleaner.stage with
  | .sleeping _ => true
  | _ => false

/-- The wallet, the threads and the time in milliseconds, with the number of times the wallet was
locked and the wake-up times that were requested by then. -/
structure LockState where
  clock : Nat
  store : CCryptoKeyStore
  nWalletUnlockTime : Int
  cleaners : List Cleaner
  nLocks : Nat
  requested : List (Nat × Int)

/-- `Sleep` is limited to ten years. -/
def maxSleep : Int := 315576000000

/-- `nMyWakeTime`. -/
def nMyWakeTime (clock : Nat) (nSleepTime : Int) : Outcome Int := do
  int64 (clock + (← int64 (nSleepTime * 1000)))

namespace LockState

/-- `CCryptoKeyStore::Lock`. -/
def lock (state : LockState) : LockState :=
  { state with store := (state.store.lock).2, nLocks := state.nLocks + 1 }

/-- `walletlock`. -/
def walletlock (state : LockState) : Except RPCError Unit × LockState :=
  if state.store.fUseCrypto = false then
    (.error ⟨-15, "Error: running with an unencrypted wallet, but walletlock was called."⟩, state)
  else (.ok (), { state.lock with nWalletUnlockTime := 0 })

section Passphrase

variable (crypto : Crypto) (lib : OpenSSL)

/-- The loop of `CWallet::Unlock` over what the passphrase decrypts the master keys to. -/
def unlockWith : List (Option (List UInt8)) → CCryptoKeyStore → Bool × CCryptoKeyStore
  | [], store => (false, store)
  | none :: _, store => (false, store)
  | some vMasterKey :: masterKeys, store =>
      match store.unlock crypto lib vMasterKey with
      | (.ok (), store) => (true, store)
      | (.error _, store) => unlockWith masterKeys store

/-- `CWallet::Unlock`. -/
def unlock (masterKeys : List (Option (List UInt8))) (store : CCryptoKeyStore) :
    Bool × CCryptoKeyStore :=
  if store.isLocked then unlockWith crypto lib masterKeys store else (false, store)

/-- `walletpassphrase`. -/
def walletpassphrase (decrypt : List UInt8 → List (Option (List UInt8)))
    (passphrase : List UInt8) (nSleepTime : Int) (state : LockState) :
    Except RPCError Unit × LockState :=
  if state.store.fUseCrypto = false then
    (.error ⟨-15,
      "Error: running with an unencrypted wallet, but walletpassphrase was called."⟩, state)
  else if state.store.isLocked = false then
    (.error ⟨-17, "Error: Wallet is already unlocked."⟩, state)
  else
    -- `c_str` ends at the first zero byte.
    let strWalletPass := passphrase.takeWhile (· ≠ 0)
    if strWalletPass = [] then
      (.error ⟨-1, "walletpassphrase <passphrase> <timeout>\n" ++
        "Stores the wallet decryption key in memory for <timeout> seconds."⟩, state)
    else
      match unlock crypto lib (decrypt strWalletPass) state.store with
      | (false, store) =>
          (.error ⟨-14, "Error: The wallet passphrase entered was incorrect."⟩,
            { state with store })
      | (true, store) =>
          (.ok (), { state with
            store
            cleaners := state.cleaners ++ [⟨state.nLocks, .started nSleepTime⟩] })

end Passphrase

/-- The loop of a cleaner up to its next `Sleep`, or up to its end. -/
def cleanLoop (state : LockState) : Option Int × LockState :=
  if state.nWalletUnlockTime = 0 then (none, state)
  else
    let nToSleep := state.nWalletUnlockTime - state.clock
    if nToSleep ≤ 0 then (none, { state with nWalletUnlockTime := 0 }.lock)
    else (some (state.clock + min nToSleep maxSleep), state)

/-- The first section of a cleaner. -/
def firstSection (nMyWakeTime : Int) (state : LockState) : Option Int × LockState :=
  if state.nWalletUnlockTime = 0 then cleanLoop { state with nWalletUnlockTime := nMyWakeTime }
  else if state.nWalletUnlockTime < nMyWakeTime then
    (none, { state with nWalletUnlockTime := nMyWakeTime })
  else (none, state)

/-- After a section the thread at position `i` sleeps, or it has ended. -/
def leave (i epoch : Nat) : Option Int × LockState → LockState
  | (some wakes, state) => { state with cleaners := state.cleaners.set i ⟨epoch, .sleeping wakes⟩ }
  | (none, state) => { state with cleaners := state.cleaners.eraseIdx i }

end LockState

/-- What can happen next. -/
inductive LockEvent
  | tick (nMillis : Nat)
  | walletpassphrase (passphrase : List UInt8) (nSleepTime : Int)
  | walletlock
  /-- The thread at a position computes its wake-up time. -/
  | wakeTime (i : Nat)
  /-- It enters its first section. -/
  | first (i : Nat)
  /-- `Sleep` returns. -/
  | wake (i : Nat)

namespace LockState

section Step

variable (crypto : Crypto) (lib : OpenSSL) (decrypt : List UInt8 → List (Option (List UInt8)))

/-- A step, unless the event cannot happen. -/
def step (state : LockState) : LockEvent → Option LockState
  | .tick nMillis => some { state with clock := state.clock + nMillis }
  | .walletpassphrase passphrase nSleepTime =>
      some (walletpassphrase crypto lib decrypt passphrase nSleepTime state).2
  | .walletlock => some state.walletlock.2
  | .wakeTime i =>
      match state.cleaners[i]? with
      | some ⟨epoch, .started nSleepTime⟩ =>
          match nMyWakeTime state.clock nSleepTime with
          | .ok nMyWakeTime => some { state with
              cleaners := state.cleaners.set i ⟨epoch, .ready nMyWakeTime⟩
              requested := (epoch, nMyWakeTime) :: state.requested }
          | .error _ => none
      | _ => none
  | .first i =>
      match state.cleaners[i]? with
      | some ⟨epoch, .ready nMyWakeTime⟩ => some (leave i epoch (state.firstSection nMyWakeTime))
      | _ => none
  | .wake i =>
      match state.cleaners[i]? with
      | some ⟨epoch, .sleeping wakes⟩ =>
          if wakes ≤ state.clock then some (leave i epoch state.cleanLoop) else none
      | _ => none

end Step

/-- An encrypted wallet after the program has started. -/
structure Fresh (state : LockState) : Prop where
  crypted : state.store.fUseCrypto = true
  locked : state.store.vMasterKey = []
  unset : state.nWalletUnlockTime = 0
  idle : state.cleaners = []

/-- An unlocked wallet will be locked, and not later than requested since it was last locked. -/
structure Guarded (state : LockState) : Prop where
  attended : state.store.isLocked = false →
    (∃ cleaner ∈ state.cleaners, cleaner.waits = false) ∨
      (state.nWalletUnlockTime ≠ 0 ∧ ∃ cleaner ∈ state.cleaners, cleaner.waits = true)
  timely : state.nWalletUnlockTime ≠ 0 →
    ∃ nWakeTime, (state.nLocks, nWakeTime) ∈ state.requested ∧
      state.nWalletUnlockTime ≤ nWakeTime

/-- A wake-up time extends no deadline beyond what was requested since the wallet was last locked,
and it does not stand for a missing deadline while no other thread has yet to run. -/
def Suits (state : LockState) (i : Nat) (nMyWakeTime : Int) : Prop :=
  ((nMyWakeTime ≤ if state.nWalletUnlockTime = 0 then (state.clock : Int)
      else state.nWalletUnlockTime) ∨
    ∃ nWakeTime, (state.nLocks, nWakeTime) ∈ state.requested ∧ nMyWakeTime ≤ nWakeTime) ∧
  (state.nWalletUnlockTime = 0 → nMyWakeTime = 0 → state.store.isLocked = false →
    ∃ cleaner ∈ state.cleaners.eraseIdx i, cleaner.waits = false)

/-- A cleaner enters its first section only with a wake-up time that suits. -/
def Meets (state : LockState) : LockEvent → Prop
  | .first i => ∀ epoch nMyWakeTime,
      state.cleaners[i]? = some ⟨epoch, .ready nMyWakeTime⟩ → state.Suits i nMyWakeTime
  | _ => True

/-- The states of runs whose steps meet the condition. -/
inductive Run (crypto : Crypto) (lib : OpenSSL) (decrypt : List UInt8 → List (Option (List UInt8)))
    (start : LockState) : LockState → Prop
  | refl : Run crypto lib decrypt start start
  | step {state after : LockState} (event : LockEvent) (run : Run crypto lib decrypt start state)
      (meets : state.Meets event) (stepped : state.step crypto lib decrypt event = some after) :
      Run crypto lib decrypt start after

/-! ## Locking and unlocking -/

variable {crypto : Crypto} {lib : OpenSSL} {decrypt : List UInt8 → List (Option (List UInt8))}
  {state : LockState}

private theorem lock_store (crypted : state.store.fUseCrypto = true) :
    state.lock.store = { state.store with vMasterKey := [] } := by
  rw [lock, CCryptoKeyStore.lock, CCryptoKeyStore.setCrypted_of_crypted crypted]

private theorem isLocked_lock (crypted : state.store.fUseCrypto = true) :
    state.lock.store.isLocked = true := by
  rw [lock_store crypted]
  simp [CCryptoKeyStore.isLocked, crypted]

private theorem fUseCrypto_lock (crypted : state.store.fUseCrypto = true) :
    state.lock.store.fUseCrypto = true := by
  rw [lock_store crypted]
  exact crypted

/-- A key store either takes the master key or stays as it was. -/
private theorem unlock_cases {store : CCryptoKeyStore} (crypted : store.fUseCrypto = true)
    (vMasterKey : List UInt8) :
    store.unlock crypto lib vMasterKey = (.ok (), { store with vMasterKey }) ∨
      ∃ failure, store.unlock crypto lib vMasterKey = (.error failure, store) := by
  rw [CCryptoKeyStore.unlock, CCryptoKeyStore.setCrypted_of_crypted crypted]
  dsimp only
  split
  · exact .inl rfl
  · split
    · exact .inr ⟨_, rfl⟩
    · exact .inl rfl

private theorem unlockWith_cases {store : CCryptoKeyStore} (crypted : store.fUseCrypto = true)
    (masterKeys : List (Option (List UInt8))) :
    unlockWith crypto lib masterKeys store = (false, store) ∨
      ∃ vMasterKey, unlockWith crypto lib masterKeys store = (true, { store with vMasterKey }) := by
  induction masterKeys with
  | nil => exact .inl rfl
  | cons masterKey masterKeys induction =>
      cases masterKey with
      | none => exact .inl rfl
      | some vMasterKey =>
          rw [unlockWith]
          rcases unlock_cases crypted vMasterKey with taken | ⟨failure, refused⟩
          · rw [taken]
            exact .inr ⟨vMasterKey, rfl⟩
          · rw [refused]
            exact induction

/-- A call of `walletpassphrase` changes nothing, or it takes a master key and starts a thread. -/
private theorem walletpassphrase_cases (crypted : state.store.fUseCrypto = true)
    (passphrase : List UInt8) (nSleepTime : Int) :
    (walletpassphrase crypto lib decrypt passphrase nSleepTime state).2 = state ∨
      ∃ vMasterKey, (walletpassphrase crypto lib decrypt passphrase nSleepTime state).2 =
        { state with
          store := { state.store with vMasterKey }
          cleaners := state.cleaners ++ [⟨state.nLocks, .started nSleepTime⟩] } := by
  rw [walletpassphrase, if_neg (by simp [crypted])]
  by_cases unlocked : state.store.isLocked = false
  · rw [if_pos unlocked]
    exact .inl rfl
  rw [if_neg unlocked]
  dsimp only
  split
  · exact .inl rfl
  · rw [unlock, if_pos (by simpa using unlocked)]
    rcases unlockWith_cases crypted (decrypt (passphrase.takeWhile (· ≠ 0))) with
      refused | ⟨vMasterKey, taken⟩
    · rw [refused]
      exact .inl rfl
    · rw [taken]
      exact .inr ⟨vMasterKey, rfl⟩

/-! ## The sections of a thread -/

/-- The loop ends without a deadline, it locks the wallet, or it sleeps until the deadline. -/
private theorem cleanLoop_cases (state : LockState) :
    (state.nWalletUnlockTime = 0 ∧ state.cleanLoop = (none, state)) ∨
      (state.nWalletUnlockTime ≠ 0 ∧ state.nWalletUnlockTime ≤ state.clock ∧
        state.cleanLoop = (none, { state with nWalletUnlockTime := 0 }.lock)) ∨
      ((state.clock : Int) < state.nWalletUnlockTime ∧
        ∃ wakes, state.cleanLoop = (some wakes, state)) := by
  rw [cleanLoop]
  split
  · rename_i unset
    exact .inl ⟨unset, rfl⟩
  · rename_i deadline
    dsimp only
    split
    · rename_i past
      exact .inr (.inl ⟨deadline, by omega, rfl⟩)
    · rename_i ahead
      exact .inr (.inr ⟨by omega, _, rfl⟩)

/-! ## Positions -/

section Positions

variable {cleaners : List Cleaner} {i : Nat} {cleaner other : Cleaner}

private theorem mem_eraseIdx_of_waits (at_i : cleaners[i]? = some cleaner)
    (member : other ∈ cleaners) (different : other.waits ≠ cleaner.waits) :
    other ∈ cleaners.eraseIdx i := by
  obtain ⟨j, at_j⟩ := List.mem_iff_getElem?.mp member
  refine List.mem_eraseIdx_iff_getElem?.mpr ⟨j, ?_, at_j⟩
  rintro rfl
  obtain rfl := Option.some.inj (at_i.symm.trans at_j)
  exact different rfl

private theorem mem_set_of_waits {next : Cleaner} (at_i : cleaners[i]? = some cleaner)
    (same : next.waits = cleaner.waits) (member : other ∈ cleaners) :
    ∃ found ∈ cleaners.set i next, found.waits = other.waits := by
  obtain ⟨j, at_j⟩ := List.mem_iff_getElem?.mp member
  have inside := (List.getElem?_eq_some_iff.mp at_i).1
  by_cases here : i = j
  · subst here
    obtain rfl := Option.some.inj (at_i.symm.trans at_j)
    exact ⟨next, List.mem_set inside next, same⟩
  · refine ⟨other, List.mem_iff_getElem?.mpr ⟨j, ?_⟩, rfl⟩
    rw [List.getElem?_set_ne here, at_j]

end Positions

/-! ## Every run -/

/-- What holds in every state of a run. -/
private structure Sound (state : LockState) : Prop where
  crypted : state.store.fUseCrypto = true
  nonneg : 0 ≤ state.nWalletUnlockTime
  waited : state.nWalletUnlockTime ≠ 0 → ∃ cleaner ∈ state.cleaners, cleaner.waits = true
  guarded : state.Guarded

/-- An unlocked wallet has a thread that has yet to run, or a deadline. -/
private theorem Sound.of_attended (crypted : state.store.fUseCrypto = true)
    (nonneg : 0 ≤ state.nWalletUnlockTime)
    (waited : state.nWalletUnlockTime ≠ 0 → ∃ cleaner ∈ state.cleaners, cleaner.waits = true)
    (attended : state.store.isLocked = false → state.nWalletUnlockTime = 0 →
      ∃ cleaner ∈ state.cleaners, cleaner.waits = false)
    (timely : state.nWalletUnlockTime ≠ 0 →
      ∃ nWakeTime, (state.nLocks, nWakeTime) ∈ state.requested ∧
        state.nWalletUnlockTime ≤ nWakeTime) : state.Sound := by
  refine ⟨crypted, nonneg, waited, fun unlocked => ?_, timely⟩
  by_cases unset : state.nWalletUnlockTime = 0
  · exact .inl (attended unlocked unset)
  · exact .inr ⟨unset, waited unset⟩

/-- A locked wallet without a deadline. -/
private theorem Sound.of_locked (crypted : state.store.fUseCrypto = true)
    (locked : state.store.isLocked = true) (unset : state.nWalletUnlockTime = 0) : state.Sound := by
  refine .of_attended crypted unset.ge (fun deadline => absurd unset deadline) ?_
    fun deadline => absurd unset deadline
  intro unlocked
  exact absurd (locked.symm.trans unlocked) (by decide)

private theorem Sound.walletlock (sound : state.Sound) : state.walletlock.2.Sound := by
  rw [LockState.walletlock, if_neg (by simp [sound.crypted])]
  exact .of_locked (fUseCrypto_lock sound.crypted) (isLocked_lock sound.crypted) rfl

private theorem Sound.walletpassphrase (sound : state.Sound) (passphrase : List UInt8)
    (nSleepTime : Int) :
    (walletpassphrase crypto lib decrypt passphrase nSleepTime state).2.Sound := by
  rcases walletpassphrase_cases sound.crypted passphrase nSleepTime with
    same | ⟨vMasterKey, taken⟩
  · rwa [same]
  · rw [taken]
    refine .of_attended sound.crypted sound.nonneg (fun deadline => ?_) (fun _ _ => ?_)
      sound.guarded.timely
    · obtain ⟨cleaner, member, waits⟩ := sound.waited deadline
      exact ⟨cleaner, List.mem_append_left _ member, waits⟩
    · exact ⟨_, List.mem_append_right _ (List.mem_singleton_self _), rfl⟩

/-- A thread computes its wake-up time. -/
private theorem Sound.wakeTime (sound : state.Sound) {i epoch : Nat} {nSleepTime : Int}
    (at_i : state.cleaners[i]? = some ⟨epoch, .started nSleepTime⟩) (nMyWakeTime : Int) :
    Sound { state with
      cleaners := state.cleaners.set i ⟨epoch, .ready nMyWakeTime⟩
      requested := (epoch, nMyWakeTime) :: state.requested } := by
  refine .of_attended sound.crypted sound.nonneg (fun deadline => ?_) (fun unlocked unset => ?_)
    fun deadline => ?_
  · obtain ⟨cleaner, member, waits⟩ := sound.waited deadline
    obtain ⟨found, there, same⟩ :=
      @mem_set_of_waits _ _ _ _ ⟨epoch, .ready nMyWakeTime⟩ at_i rfl member
    exact ⟨found, there, same.trans waits⟩
  · exact ⟨_, List.mem_set (List.getElem?_eq_some_iff.mp at_i).1 _, rfl⟩
  · obtain ⟨nWakeTime, member, later⟩ := sound.guarded.timely deadline
    exact ⟨nWakeTime, List.mem_cons_of_mem _ member, later⟩

/-- A thread that waited goes on. -/
private theorem Sound.wake (sound : state.Sound) {i epoch : Nat} {wakes : Int}
    (at_i : state.cleaners[i]? = some ⟨epoch, .sleeping wakes⟩) :
    (leave i epoch state.cleanLoop).Sound := by
  rcases cleanLoop_cases state with ⟨unset, ended⟩ | ⟨deadline, past, ended⟩ | ⟨ahead, later, slept⟩
  · rw [ended]
    refine .of_attended sound.crypted sound.nonneg (fun deadline => absurd unset deadline)
      (fun unlocked _ => ?_) fun deadline => absurd unset deadline
    rcases sound.guarded.attended unlocked with ⟨cleaner, member, pending⟩ | ⟨deadline, -⟩
    · have different : cleaner.waits ≠ Cleaner.waits ⟨epoch, .sleeping wakes⟩ :=
        fun same => Bool.noConfusion (pending.symm.trans same)
      exact ⟨cleaner, mem_eraseIdx_of_waits at_i member different, pending⟩
    · exact absurd unset deadline
  · rw [ended]
    exact .of_locked (fUseCrypto_lock sound.crypted) (isLocked_lock sound.crypted) rfl
  · rw [slept]
    refine .of_attended sound.crypted sound.nonneg (fun _ => ?_) (fun _ unset => ?_)
      sound.guarded.timely
    · exact ⟨_, List.mem_set (List.getElem?_eq_some_iff.mp at_i).1 _, rfl⟩
    · change state.nWalletUnlockTime = 0 at unset
      omega

/-- The first section ends without a deadline or locks the wallet, sets the deadline, extends it or
leaves it as it is. -/
private theorem firstSection_cases (state : LockState) (nMyWakeTime : Int) :
    (state.nWalletUnlockTime = 0 ∧ nMyWakeTime = 0 ∧
        state.firstSection nMyWakeTime = (none, state)) ∨
      (state.nWalletUnlockTime = 0 ∧ nMyWakeTime ≠ 0 ∧ nMyWakeTime ≤ state.clock ∧
        state.firstSection nMyWakeTime = (none, state.lock)) ∨
      (state.nWalletUnlockTime = 0 ∧ (state.clock : Int) < nMyWakeTime ∧ ∃ wakes,
        state.firstSection nMyWakeTime =
          (some wakes, { state with nWalletUnlockTime := nMyWakeTime })) ∨
      (state.nWalletUnlockTime ≠ 0 ∧ state.nWalletUnlockTime < nMyWakeTime ∧
        state.firstSection nMyWakeTime =
          (none, { state with nWalletUnlockTime := nMyWakeTime })) ∨
      (state.nWalletUnlockTime ≠ 0 ∧ nMyWakeTime ≤ state.nWalletUnlockTime ∧
        state.firstSection nMyWakeTime = (none, state)) := by
  rw [firstSection]
  by_cases unset : state.nWalletUnlockTime = 0
  · have restored : { state with nWalletUnlockTime := 0 } = state := by rw [← unset]
    rw [if_pos unset]
    rcases cleanLoop_cases { state with nWalletUnlockTime := nMyWakeTime } with
      ⟨rfl, ended⟩ | ⟨deadline, past, ended⟩ | ⟨ahead, slept⟩
    · exact .inl ⟨unset, rfl, by rw [ended, restored]⟩
    · exact .inr (.inl ⟨unset, deadline, past, by rw [ended, restored]⟩)
    · exact .inr (.inr (.inl ⟨unset, ahead, slept⟩))
  · rw [if_neg unset]
    by_cases later : state.nWalletUnlockTime < nMyWakeTime
    · exact .inr (.inr (.inr (.inl ⟨unset, later, if_pos later⟩)))
    · exact .inr (.inr (.inr (.inr ⟨unset, Int.not_lt.mp later, if_neg later⟩)))

section First

variable {i epoch : Nat} {nMyWakeTime : Int}

/-- A first section with a wake-up time that suits. -/
private theorem Sound.first (sound : state.Sound)
    (at_i : state.cleaners[i]? = some ⟨epoch, .ready nMyWakeTime⟩)
    (suits : state.Suits i nMyWakeTime) :
    (leave i epoch (state.firstSection nMyWakeTime)).Sound := by
  obtain ⟨requested, other⟩ := suits
  have waited : state.nWalletUnlockTime ≠ 0 →
      ∃ cleaner ∈ state.cleaners.eraseIdx i, cleaner.waits = true := by
    intro deadline
    obtain ⟨cleaner, member, waits⟩ := sound.waited deadline
    have different : cleaner.waits ≠ Cleaner.waits ⟨epoch, .ready nMyWakeTime⟩ :=
      fun same => Bool.noConfusion (waits.symm.trans same)
    exact ⟨cleaner, mem_eraseIdx_of_waits at_i member different, waits⟩
  have nonneg := sound.nonneg
  rcases firstSection_cases state nMyWakeTime with
    ⟨unset, zero, ended⟩ | ⟨unset, nonzero, past, ended⟩ | ⟨unset, ahead, wakes, slept⟩ |
      ⟨deadline, later, ended⟩ | ⟨deadline, earlier, ended⟩
  · rw [ended]
    exact .of_attended sound.crypted nonneg (fun deadline => absurd unset deadline)
      (fun unlocked _ => other unset zero unlocked) fun deadline => absurd unset deadline
  · rw [ended]
    exact .of_locked (fUseCrypto_lock sound.crypted) (isLocked_lock sound.crypted) unset
  · rw [slept]
    have positive : 0 < nMyWakeTime := by omega
    refine .of_attended sound.crypted positive.le (fun _ => ?_)
      (fun _ unset => absurd unset positive.ne') fun _ => ?_
    · exact ⟨_, List.mem_set (List.getElem?_eq_some_iff.mp at_i).1 _, rfl⟩
    · rw [if_pos unset] at requested
      exact requested.resolve_left (Int.not_le.mpr ahead)
  · rw [ended]
    have positive : 0 < nMyWakeTime := by omega
    refine .of_attended sound.crypted positive.le (fun _ => waited deadline)
      (fun _ unset => absurd unset positive.ne') fun _ => ?_
    rw [if_neg deadline] at requested
    exact requested.resolve_left (Int.not_le.mpr later)
  · rw [ended]
    exact .of_attended sound.crypted nonneg (fun _ => waited deadline)
      (fun _ unset => absurd unset deadline) sound.guarded.timely

/-- After a first section with a wake-up time that does not suit, the guard is lost. -/
private theorem Suits.of_guarded (nonneg : 0 ≤ state.nWalletUnlockTime)
    (guarded : (leave i epoch (state.firstSection nMyWakeTime)).Guarded) :
    state.Suits i nMyWakeTime := by
  rcases firstSection_cases state nMyWakeTime with
    ⟨unset, zero, ended⟩ | ⟨unset, nonzero, past, ended⟩ | ⟨unset, ahead, wakes, slept⟩ |
      ⟨deadline, later, ended⟩ | ⟨deadline, earlier, ended⟩
  · rw [ended] at guarded
    refine ⟨.inl (by rw [if_pos unset]; omega), fun _ _ unlocked => ?_⟩
    rcases guarded.attended unlocked with pending | ⟨deadline, -⟩
    · exact pending
    · exact absurd unset deadline
  · exact ⟨.inl (by rwa [if_pos unset]), fun _ zero => absurd zero nonzero⟩
  · rw [slept] at guarded
    have positive : 0 < nMyWakeTime := by omega
    exact ⟨.inr (guarded.timely positive.ne'), fun _ zero => absurd zero positive.ne'⟩
  · rw [ended] at guarded
    have positive : 0 < nMyWakeTime := by omega
    exact ⟨.inr (guarded.timely positive.ne'), fun unset => absurd unset deadline⟩
  · exact ⟨.inl (by rwa [if_neg deadline]), fun unset => absurd unset deadline⟩

end First

/-- A step keeps what holds in every state exactly if it meets the condition. -/
private theorem Sound.step (sound : state.Sound) {event : LockEvent} {after : LockState}
    (stepped : state.step crypto lib decrypt event = some after) :
    (state.Meets event → after.Sound) ∧ (after.Guarded → state.Meets event) := by
  cases event with
  | tick nMillis =>
      obtain rfl := Option.some.inj stepped
      exact ⟨fun _ => ⟨sound.crypted, sound.nonneg, sound.waited, sound.guarded.attended,
        sound.guarded.timely⟩, fun _ => trivial⟩
  | walletpassphrase passphrase nSleepTime =>
      obtain rfl := Option.some.inj stepped
      exact ⟨fun _ => sound.walletpassphrase passphrase nSleepTime, fun _ => trivial⟩
  | walletlock =>
      obtain rfl := Option.some.inj stepped
      exact ⟨fun _ => sound.walletlock, fun _ => trivial⟩
  | wakeTime i =>
      rw [LockState.step] at stepped
      split at stepped
      · rename_i epoch nSleepTime at_i
        split at stepped
        · rename_i nMyWakeTime computed
          obtain rfl := Option.some.inj stepped
          exact ⟨fun _ => sound.wakeTime at_i nMyWakeTime, fun _ => trivial⟩
        · simp at stepped
      · simp at stepped
  | first i =>
      rw [LockState.step] at stepped
      split at stepped
      · rename_i epoch nMyWakeTime at_i
        obtain rfl := Option.some.inj stepped
        refine ⟨fun meets => sound.first at_i (meets epoch nMyWakeTime at_i),
          fun guarded other nOtherTime found => ?_⟩
        cases at_i.symm.trans found
        exact .of_guarded sound.nonneg guarded
      · simp at stepped
  | wake i =>
      rw [LockState.step] at stepped
      split at stepped
      · rename_i epoch wakes at_i
        split at stepped
        · obtain rfl := Option.some.inj stepped
          exact ⟨fun _ => sound.wake at_i, fun _ => trivial⟩
        · simp at stepped
      · simp at stepped

private theorem Fresh.sound (fresh : state.Fresh) : state.Sound :=
  .of_locked fresh.crypted (by simp [CCryptoKeyStore.isLocked, fresh.crypted, fresh.locked])
    fresh.unset

private theorem Run.sound {start : LockState} (fresh : start.Fresh)
    (run : Run crypto lib decrypt start state) : state.Sound := by
  induction run with
  | refl => exact fresh.sound
  | step event run meets stepped induction => exact (induction.step stepped).1 meets

/-- The only passphrase of the sample wallet is the byte 1. -/
def sampleDecrypt (strWalletPass : List UInt8) : List (Option (List UInt8)) :=
  [if strWalletPass = [1] then some (List.replicate 32 9) else none]

/-- An encrypted wallet with one key. -/
def encryptedWallet : LockState where
  clock := 1000
  store :=
    { mapKeys := ∅
      mapCryptedKeys := (∅ : AList fun _ : UInt160 => List UInt8 × List UInt8).insert sampleAddress
        (pubKeyOf sampleOpenSSL (List.replicate 32 1) false,
          List.replicate 32 9 ++ List.replicate 32 1)
      vMasterKey := []
      fUseCrypto := true }
  nWalletUnlockTime := 0
  cleaners := []
  nLocks := 0
  requested := []

theorem encryptedWallet_fresh : encryptedWallet.Fresh := ⟨rfl, rfl, rfl, rfl⟩

/-- The sample wallet after some events. -/
def afterEvents (events : List LockEvent) : Option LockState :=
  events.foldlM (step sampleCrypto sampleOpenSSL sampleDecrypt) encryptedWallet

private theorem exists_afterEvents {events : List LockEvent} {property : LockState → Prop}
    [DecidablePred property] (holds : (afterEvents events).any fun state => property state) :
    ∃ state, afterEvents events = some state ∧ property state := by
  obtain ⟨state, reached, decided⟩ := (Option.any_eq_true _ _).mp holds
  exact ⟨state, reached, of_decide_eq_true decided⟩

end LockState

end FooCoin

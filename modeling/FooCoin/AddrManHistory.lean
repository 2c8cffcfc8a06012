import FooCoin.AddrManPersist

/-!
# Managers that are saved and loaded

Any sequence of calls, in which the manager may be saved and loaded into another object, reaches only
managers that can be saved and loaded again.
-/

namespace FooCoin

open Codec Function

namespace CAddrMan

/-! ## The key never changes -/

variable {crypto : Crypto} {chance : CallChance} {m after : CAddrMan} {nId : Int}
  {info : CAddrInfo}

private theorem swapRandom_nKey {first second : Nat}
    (swapped : m.swapRandom first second = some after) : after.nKey = m.nKey := by
  rw [CAddrMan.swapRandom] at swapped
  split at swapped
  · exact Option.some.inj swapped ▸ rfl
  · simp only [Option.bind_eq_bind, Option.bind_eq_some_iff, Option.pure_def,
      Option.some.injEq] at swapped
    obtain ⟨_, -, _, -, _, -, _, -, rfl⟩ := swapped
    rfl

private theorem removeNew_nKey {nUBucket : Fin newBucketCount}
    (removed : m.removeNew nUBucket nId = some after) : after.nKey = m.nKey := by
  simp only [CAddrMan.removeNew, Option.bind_eq_bind, Option.pure_def, Option.bind_some] at removed
  obtain ⟨info, -, result⟩ := Option.bind_eq_some_iff.mp removed
  split at result
  · obtain ⟨swapped, exchange, same⟩ := Option.bind_eq_some_iff.mp result
    rw [← Option.some.inj same]
    exact (swapRandom_nKey exchange).trans rfl
  · exact Option.some.inj result ▸ rfl

private theorem shrinkNew_nKey {nUBucket : Fin newBucketCount}
    (shrunk : m.shrinkNew chance nUBucket = some after) : after.nKey = m.nKey := by
  simp only [CAddrMan.shrinkNew, Option.bind_eq_bind, Option.bind_eq_some_iff] at shrunk
  obtain ⟨terrible, -, removed⟩ := shrunk
  cases terrible with
  | some nId => exact removeNew_nKey removed
  | none =>
      obtain ⟨nOldest, -, removed⟩ := Option.bind_eq_some_iff.mp removed
      exact removeNew_nKey removed

private theorem makeTried_nKey {nOrigin : Fin newBucketCount}
    (tried : m.makeTried crypto chance nId info nOrigin = some after) : after.nKey = m.nKey := by
  simp only [CAddrMan.makeTried] at tried
  split_ifs at tried
  · exact Option.some.inj tried ▸ rfl
  · simp only [Option.bind_eq_bind, Option.bind_eq_some_iff, Option.pure_def,
      Option.some.injEq] at tried
    obtain ⟨_, -, _, -, _, -, rfl⟩ := tried
    rfl

private theorem good_nKey {addr : CService} {nTime : Int64}
    (done : m.good crypto chance addr nTime = some after) : after.nKey = m.nKey := by
  simp only [CAddrMan.good] at done
  split at done
  · exact Option.some.inj done ▸ rfl
  · split_ifs at done
    · exact Option.some.inj done ▸ rfl
    · exact Option.some.inj done ▸ rfl
    · split at done
      · exact Option.some.inj done ▸ rfl
      · exact (makeTried_nKey done).trans rfl

private theorem enterNew_nKey {source : CNetAddr}
    (entered : m.enterNew crypto chance nId info source = some after) : after.nKey = m.nKey := by
  simp only [CAddrMan.enterNew] at entered
  split at entered
  · exact Option.some.inj entered ▸ rfl
  · simp only [Option.bind_eq_bind, Option.pure_def, Option.bind_some] at entered
    split at entered
    · obtain ⟨shrunk, room, same⟩ := Option.bind_eq_some_iff.mp entered
      rw [← Option.some.inj same]
      exact (shrinkNew_nKey room).trans rfl
    · exact Option.some.inj entered ▸ rfl

private theorem add_nKey {addr : CAddress} {source : CNetAddr} {nTimePenalty : Int64} {fNew : Bool}
    (added : m.add crypto chance addr source nTimePenalty = some (fNew, after)) :
    after.nKey = m.nKey := by
  simp only [CAddrMan.add] at added
  split at added
  · exact congrArg (·.2.nKey) (Option.some.inj added.symm)
  · split at added
    · split_ifs at added
      · exact congrArg (·.2.nKey) (Option.some.inj added.symm)
      · exact congrArg (·.2.nKey) (Option.some.inj added.symm)
      · exact congrArg (·.2.nKey) (Option.some.inj added.symm)
      · exact congrArg (·.2.nKey) (Option.some.inj added.symm)
      · obtain ⟨entered, result, same⟩ := Option.map_eq_some_iff.mp added
        rw [← (Prod.mk.inj same).2]
        exact (enterNew_nKey result).trans rfl
    · simp only [Option.bind_eq_bind, Option.bind_eq_some_iff, Option.map_eq_some_iff,
        Prod.mk.injEq] at added
      obtain ⟨⟨nId, info, created⟩, creates, entered, result, -, rfl⟩ := added
      obtain ⟨-, -, -, rfl⟩ := create_eq_some.mp creates
      exact (enterNew_nKey result).trans rfl

private theorem getAddrLoop_nKey {left n : Nat} {vAddr addrs : List CAddress}
    (done : getAddrLoop chance left n vAddr m = some (addrs, after)) : after.nKey = m.nKey := by
  induction left generalizing n vAddr m with
  | zero => exact congrArg (·.2.nKey) (Option.some.inj done.symm)
  | succ left induction =>
      simp only [getAddrLoop, Option.bind_eq_bind, Option.bind_eq_some_iff] at done
      obtain ⟨swapped, swap, _, -, _, -, later⟩ := done
      exact (induction later).trans (swapRandom_nKey swap)

/-- A call keeps the key. -/
theorem step_nKey {call : AddrManCall} (runs : m.step crypto call = some after) :
    after.nKey = m.nKey := by
  cases call with
  | add chance addr source nTimePenalty =>
      obtain ⟨⟨fNew, result⟩, added, rfl⟩ := Option.map_eq_some_iff.mp runs
      exact add_nKey added
  | good chance addr nTime => exact good_nKey runs
  | attempt addr nTime =>
      simp only [CAddrMan.step, CAddrMan.attempt] at runs
      split at runs
      · exact Option.some.inj runs ▸ rfl
      · split_ifs at runs
        · exact Option.some.inj runs ▸ rfl
        · exact Option.some.inj runs ▸ rfl
  | connected addr nTime =>
      obtain rfl := Option.some.inj runs
      simp only [CAddrMan.connected]
      split
      · rfl
      · split_ifs <;> rfl
  | getAddr chance =>
      obtain ⟨⟨addrs, result⟩, done, rfl⟩ := Option.map_eq_some_iff.mp runs
      exact getAddrLoop_nKey done

end CAddrMan

/-- The managers that calls, saving and loading reach from an empty one. -/
inductive AddrManHistory (crypto : Crypto) : CAddrMan → Prop
  | init (nKey : Vector UInt8 32) : AddrManHistory crypto (.init nKey)
  | step {m after : CAddrMan} {call : AddrManCall} : AddrManHistory crypto m → call.Valid →
      m.step crypto call = some after → AddrManHistory crypto after
  | load {m am after : CAddrMan} : AddrManHistory crypto m →
      Reads (am.unserialize crypto) m.serialize after → AddrManHistory crypto after

variable {crypto : Crypto} {m : CAddrMan}

/-- Calls alone make a history. -/
theorem AddrManRun.history (run : AddrManRun crypto m) : AddrManHistory crypto m := by
  induction run with
  | init nKey => exact .init nKey
  | step _ valid runs induction => exact .step induction valid runs

/-- Every manager of a history is sound, and its key has the size it was drawn with. -/
theorem AddrManHistory.sound (history : AddrManHistory crypto m) :
    m.Sound crypto none ∧ m.Bounded ∧ m.nKey.length = 32 := by
  induction history with
  | init nKey =>
      obtain ⟨sound, bounded⟩ := CAddrMan.sound_init nKey
      exact ⟨sound, bounded, nKey.length_toList⟩
  | step _ valid runs induction =>
      obtain ⟨sound, bounded, keySize⟩ := induction
      obtain ⟨after, result, after_sound, after_bounded⟩ :=
        sound.step bounded valid (AddrManCall.fits_of_step runs)
      obtain rfl := Option.some.inj (runs.symm.trans result)
      exact ⟨after_sound, after_bounded, CAddrMan.step_nKey runs ▸ keySize⟩
  | @load _ am _ _ reads induction =>
      obtain ⟨sound, bounded, keySize⟩ := induction
      have small : 32 ≤ maxSize := by decide
      obtain ⟨after, result, reloaded⟩ := sound.reads_unserialize bounded (keySize ▸ small) am
      obtain rfl := reads.unique result
      exact ⟨reloaded.sound sound, reloaded.bounded sound bounded, reloaded.nKey ▸ keySize⟩

/-- What a manager writes can be read into any object: `Check_` passes, no bucket exceeds its size,
and every address is there with its information in the same buckets. -/
theorem addrMan_restored_of_history (history : AddrManHistory crypto m) (am : CAddrMan) :
    ∃ after, Reads (am.unserialize crypto) m.serialize after ∧ after.check_ = 0 ∧
      after.Bounded ∧ m.Restored after := by
  obtain ⟨sound, bounded, keySize⟩ := history.sound
  have small : 32 ≤ maxSize := by decide
  obtain ⟨after, reads, reloaded⟩ := sound.reads_unserialize bounded (keySize ▸ small) am
  exact ⟨after, reads, (reloaded.sound sound).check_eq_zero, reloaded.bounded sound bounded,
    reloaded.restored sound⟩

theorem addrMan_restored_of_history_sample : ∃ m, sampleAddrMan = some m ∧
    ∃ after, Reads ((CAddrMan.init (.replicate 32 1)).unserialize sampleCrypto) m.serialize after ∧
      after.check_ = 0 ∧ after.Bounded ∧ m.Restored after := by
  obtain ⟨m, result, run⟩ := sampleAddrMan_run
  exact ⟨m, result, addrMan_restored_of_history run.history _⟩

end FooCoin

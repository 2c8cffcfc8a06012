import FooCoin.Transaction
import Mathlib.Logic.Function.Basic
import Mathlib.Tactic

/-!
# The relay memory

A relayed message is kept in `mapRelay` so that peers can ask for it, and a record in
`vRelayExpiration` says when to forget it.  The map has one entry for each inventory item, the queue
one record for each relay: the record of an early relay also ends the time of a later one.
-/

namespace FooCoin

open Function

/-- `CInv`: the name of an object. -/
structure CInv where
  type : Int32
  hash : UInt256
deriving DecidableEq

/-- How long a relayed message is kept, in seconds. -/
def relaySeconds : Int := 15 * 60

/-- `mapRelay` and `vRelayExpiration`. -/
structure RelayMemory where
  mapRelay : CInv → Option (List UInt8)
  vRelayExpiration : List (Int × CInv)

namespace RelayMemory

/-- The memory of a node that has relayed nothing. -/
def empty : RelayMemory where
  mapRelay _ := none
  vRelayExpiration := []

/-- The loop that expires old relay messages. -/
def expire (now : Int) (mapRelay : CInv → Option (List UInt8)) : List (Int × CInv) → RelayMemory
  | [] => { mapRelay, vRelayExpiration := [] }
  | front :: rest =>
      if front.1 < now then expire now (update mapRelay front.2 none) rest
      else { mapRelay, vRelayExpiration := front :: rest }

end RelayMemory

/-- A call of `RelayMessage` at a time of `GetTime()`. -/
structure RelayCall where
  time : Int
  inv : CInv
  ss : List UInt8

/-- The record that a call leaves. -/
def RelayCall.expiration (call : RelayCall) : Int × CInv := (call.time + relaySeconds, call.inv)

namespace RelayMemory

/-- `RelayMessage`: `insert` does not replace an entry. -/
def relayMessage (memory : RelayMemory) (call : RelayCall) : RelayMemory :=
  let memory := expire call.time memory.mapRelay memory.vRelayExpiration
  { mapRelay :=
      if (memory.mapRelay call.inv).isSome then memory.mapRelay
      else update memory.mapRelay call.inv (some call.ss)
    vRelayExpiration := memory.vRelayExpiration ++ [call.expiration] }

/-- The memory after some calls. -/
def run (calls : List RelayCall) : RelayMemory := calls.foldl relayMessage empty

end RelayMemory

/-- The calls are in the order of their times. -/
def InOrder (calls : List RelayCall) : Prop :=
  calls.Pairwise fun earlier later => earlier.time ≤ later.time

/-- What a peer asks for is there as long as no more than 15 minutes have passed. -/
def Retrievable (calls : List RelayCall) : Prop :=
  ∀ earlier call later, calls = earlier ++ call :: later →
    (∀ next ∈ later, next.time ≤ call.time + relaySeconds) →
      (RelayMemory.run calls).mapRelay call.inv = some call.ss

/-- No record of an earlier relay of the item is pending, except one of the same second for the same
message. -/
def RelayMemory.Fresh (memory : RelayMemory) (call : RelayCall) : Prop :=
  ∀ time, (time, call.inv) ∈ memory.vRelayExpiration → call.time ≤ time →
    time = call.time + relaySeconds ∧ ∀ ss, memory.mapRelay call.inv = some ss → ss = call.ss

/-- Every call of the run is fresh. -/
def FreshRun (calls : List RelayCall) : Prop :=
  ∀ earlier call later, calls = earlier ++ call :: later →
    (RelayMemory.run earlier).Fresh call

/-! ## The expiration loop -/

namespace RelayMemory

variable {now : Int} {mapRelay : CInv → Option (List UInt8)} {records : List (Int × CInv)}

private theorem mem_expire (sorted : records.Pairwise fun a b => a.1 ≤ b.1) (record : Int × CInv) :
    record ∈ (expire now mapRelay records).vRelayExpiration ↔
      record ∈ records ∧ now ≤ record.1 := by
  induction records generalizing mapRelay with
  | nil => simp [expire]
  | cons front rest induction =>
      obtain ⟨below, sorted⟩ := List.pairwise_cons.mp sorted
      rw [expire]
      split_ifs with old
      · rw [induction sorted, List.mem_cons]
        refine and_congr_left fun recent => (or_iff_right ?_).symm
        rintro rfl
        omega
      · refine (and_iff_left_of_imp fun member => ?_).symm
        rcases List.mem_cons.mp member with rfl | member
        · omega
        · have above := below record member
          omega

private theorem expire_suffix :
    (expire now mapRelay records).vRelayExpiration <:+ records := by
  induction records generalizing mapRelay with
  | nil => exact List.suffix_refl _
  | cons front rest induction =>
      rw [expire]
      split_ifs
      · exact induction.trans (List.suffix_cons front rest)
      · exact List.suffix_refl _

private theorem expire_of_not_old {inv : CInv}
    (kept : ∀ time, (time, inv) ∈ records → now ≤ time) :
    (expire now mapRelay records).mapRelay inv = mapRelay inv := by
  induction records generalizing mapRelay with
  | nil => rfl
  | cons front rest induction =>
      obtain ⟨own, others⟩ : (inv = front.2 → now ≤ front.1) ∧
          ∀ time, (time, inv) ∈ rest → now ≤ time :=
        ⟨fun same => kept front.1 (same ▸ List.mem_cons_self),
          fun time member => kept time (List.mem_cons_of_mem _ member)⟩
      rw [expire]
      split_ifs with old
      · rw [induction others]
        exact update_of_ne (fun same => absurd (own same) (not_le.mpr old)) ..
      · rfl

private theorem expire_of_old (sorted : records.Pairwise fun a b => a.1 ≤ b.1) {inv : CInv}
    {time : Int} (member : (time, inv) ∈ records) (old : time < now) :
    (expire now mapRelay records).mapRelay inv = none := by
  induction records generalizing mapRelay time with
  | nil => contradiction
  | cons front rest induction =>
      obtain ⟨below, sorted⟩ := List.pairwise_cons.mp sorted
      have front_old : front.1 < now := by
        rcases List.mem_cons.mp member with rfl | member
        · exact old
        · exact (below _ member).trans_lt old
      rw [expire, if_pos front_old]
      by_cases other : ∃ time, (time, inv) ∈ rest ∧ time < now
      · obtain ⟨next, member, old⟩ := other
        exact induction sorted member old
      · rw [expire_of_not_old fun time member => not_lt.mp fun old => other ⟨time, member, old⟩]
        have here : (time, inv) = front :=
          (List.mem_cons.mp member).resolve_right fun member => other ⟨time, member, old⟩
        rw [← here]
        exact update_self ..

/-! ## One call -/

section Step

variable {memory : RelayMemory} {call : RelayCall} {calls : List RelayCall}

/-- The queue holds the records of the calls of the last 15 minutes, and the map has no entry
without a record. -/
private structure Tracks (calls : List RelayCall) (memory : RelayMemory) : Prop where
  sorted : memory.vRelayExpiration.Pairwise fun a b => a.1 ≤ b.1
  listed : ∀ record ∈ memory.vRelayExpiration, ∃ call ∈ calls, record = call.expiration
  recent : ∀ call ∈ calls, (∀ next ∈ calls, next.time ≤ call.time + relaySeconds) →
    call.expiration ∈ memory.vRelayExpiration
  above : ∀ record ∈ memory.vRelayExpiration, ∀ call ∈ calls, call.time ≤ record.1
  pending : ∀ inv, memory.mapRelay inv ≠ none → ∃ time, (time, inv) ∈ memory.vRelayExpiration

private theorem tracks_empty : Tracks [] empty where
  sorted := List.Pairwise.nil
  listed _ member := absurd member List.not_mem_nil
  recent _ member := absurd member List.not_mem_nil
  above _ member := absurd member List.not_mem_nil
  pending _ stored := absurd rfl stored

private theorem mem_relayMessage (tracks : Tracks calls memory) (record : Int × CInv) :
    record ∈ (memory.relayMessage call).vRelayExpiration ↔
      record ∈ memory.vRelayExpiration ∧ call.time ≤ record.1 ∨ record = call.expiration := by
  rw [relayMessage, List.mem_append, mem_expire tracks.sorted, List.mem_singleton]

private theorem mapRelay_relayMessage_of_ne {inv : CInv} (other : inv ≠ call.inv) :
    (memory.relayMessage call).mapRelay inv =
      (expire call.time memory.mapRelay memory.vRelayExpiration).mapRelay inv := by
  rw [relayMessage]
  dsimp only
  split_ifs
  · rfl
  · exact update_of_ne other ..

private theorem mapRelay_relayMessage_self :
    (memory.relayMessage call).mapRelay call.inv =
      some (((expire call.time memory.mapRelay memory.vRelayExpiration).mapRelay call.inv).getD
        call.ss) := by
  rw [relayMessage]
  dsimp only
  split_ifs with known
  · obtain ⟨ss, found⟩ := Option.isSome_iff_exists.mp known
    rw [found]
    rfl
  · rw [Option.not_isSome_iff_eq_none.mp known]
    exact update_self ..

private theorem stored_before_expire (tracks : Tracks calls memory) {inv : CInv} {ss : List UInt8}
    (found : (expire call.time memory.mapRelay memory.vRelayExpiration).mapRelay inv = some ss) :
    memory.mapRelay inv = some ss ∧ ∀ time, (time, inv) ∈ memory.vRelayExpiration →
      call.time ≤ time := by
  have kept (time : Int) (member : (time, inv) ∈ memory.vRelayExpiration) : call.time ≤ time := by
    by_contra old
    rw [expire_of_old tracks.sorted member (not_le.mp old)] at found
    contradiction
  exact ⟨(expire_of_not_old kept).symm.trans found, kept⟩

private theorem tracks_relayMessage (tracks : Tracks calls memory)
    (last : ∀ earlier ∈ calls, earlier.time ≤ call.time) :
    Tracks (calls ++ [call]) (memory.relayMessage call) := by
  have seconds : (0 : Int) ≤ relaySeconds := by decide
  refine ⟨?_, fun record member => ?_, fun other member promised => ?_,
    fun record member other listed => ?_, fun inv stored => ?_⟩
  · refine List.pairwise_append.mpr ⟨?_, List.pairwise_singleton _ _, ?_⟩
    · exact tracks.sorted.sublist expire_suffix.sublist
    · intro record member own here
      obtain ⟨earlier, listed, rfl⟩ := tracks.listed record (expire_suffix.subset member)
      rw [List.mem_singleton.mp here]
      exact Int.add_le_add_right (last earlier listed) _
  · rcases (mem_relayMessage tracks record).mp member with ⟨member, -⟩ | rfl
    · obtain ⟨earlier, listed, same⟩ := tracks.listed record member
      exact ⟨earlier, List.mem_append_left _ listed, same⟩
    · exact ⟨call, List.mem_append_right _ (List.mem_singleton_self call), rfl⟩
  · rw [mem_relayMessage tracks]
    rcases List.mem_append.mp member with member | member
    · refine .inl ⟨tracks.recent other member fun next listed => ?_, ?_⟩
      · exact promised next (List.mem_append_left _ listed)
      · exact promised call (List.mem_append_right _ (List.mem_singleton_self call))
    · rw [List.mem_singleton.mp member]
      exact .inr rfl
  · have recent : call.time ≤ record.1 := by
      rcases (mem_relayMessage tracks record).mp member with ⟨-, recent⟩ | rfl
      · exact recent
      · exact le_add_of_nonneg_right seconds
    rcases List.mem_append.mp listed with listed | listed
    · exact (last other listed).trans recent
    · rwa [List.mem_singleton.mp listed]
  · by_cases here : inv = call.inv
    · subst here
      exact ⟨_, (mem_relayMessage tracks _).mpr (.inr rfl)⟩
    · rw [mapRelay_relayMessage_of_ne here] at stored
      obtain ⟨ss, found⟩ := Option.ne_none_iff_exists'.mp stored
      obtain ⟨before, kept⟩ := stored_before_expire tracks found
      obtain ⟨time, member⟩ := tracks.pending inv (by simp [before])
      exact ⟨time, (mem_relayMessage tracks _).mpr (.inl ⟨member, kept time member⟩)⟩

/-- One record time for each item, and the message of the call is stored as long as its record is
pending. -/
private structure Serves (calls : List RelayCall) (memory : RelayMemory) : Prop where
  unique : ∀ inv time time', (time, inv) ∈ memory.vRelayExpiration →
    (time', inv) ∈ memory.vRelayExpiration → time = time'
  stored : ∀ call ∈ calls, call.expiration ∈ memory.vRelayExpiration →
    memory.mapRelay call.inv = some call.ss

private theorem serves_empty : Serves [] empty where
  unique _ _ _ member := absurd member List.not_mem_nil
  stored _ member := absurd member List.not_mem_nil

private theorem serves_relayMessage (tracks : Tracks calls memory) (serves : Serves calls memory)
    (last : ∀ earlier ∈ calls, earlier.time ≤ call.time) (fresh : memory.Fresh call) :
    Serves (calls ++ [call]) (memory.relayMessage call) := by
  have seconds : (0 : Int) ≤ relaySeconds := by decide
  -- a record that stays keeps its entry: the item has no older record
  have kept (other : RelayCall) (member : other ∈ calls)
      (pending : other.expiration ∈ memory.vRelayExpiration)
      (recent : call.time ≤ other.time + relaySeconds) :
      (memory.relayMessage call).mapRelay other.inv = some other.ss := by
    have found : (expire call.time memory.mapRelay memory.vRelayExpiration).mapRelay other.inv =
        some other.ss := by
      rw [expire_of_not_old fun time member => ?_]
      · exact serves.stored other member pending
      · exact recent.trans_eq (serves.unique _ _ _ pending member)
    by_cases here : other.inv = call.inv
    · rw [here] at found ⊢
      rw [mapRelay_relayMessage_self, found]
      rfl
    · rw [mapRelay_relayMessage_of_ne here, found]
  constructor
  · intro inv time time' first second
    rw [mem_relayMessage tracks] at first second
    rcases first with ⟨first, recent⟩ | first
    · rcases second with ⟨second, -⟩ | second
      · exact serves.unique inv time time' first second
      · obtain ⟨rfl, rfl⟩ := Prod.mk.inj second
        exact (fresh time first recent).1
    · obtain ⟨rfl, rfl⟩ := Prod.mk.inj first
      rcases second with ⟨second, recent⟩ | second
      · exact (fresh time' second recent).1.symm
      · exact (Prod.mk.inj second).1.symm
  · intro other member pending
    rw [mem_relayMessage tracks] at pending
    rcases List.mem_append.mp member with member | member
    · have recorded : other.expiration ∈ memory.vRelayExpiration ∧
          call.time ≤ other.time + relaySeconds := by
        rcases pending with pending | same
        · exact pending
        · have time : other.time = call.time :=
            add_right_cancel (Prod.mk.inj same).1
          rw [time]
          refine ⟨tracks.recent other member fun next listed => ?_, by omega⟩
          have before := last next listed
          omega
      exact kept other member recorded.1 recorded.2
    · obtain rfl := List.mem_singleton.mp member
      rw [mapRelay_relayMessage_self]
      cases found :
          (expire other.time memory.mapRelay memory.vRelayExpiration).mapRelay other.inv with
      | none => rfl
      | some ss =>
          obtain ⟨before, recent⟩ := stored_before_expire tracks found
          obtain ⟨time, member⟩ := tracks.pending other.inv (by simp [before])
          rw [(fresh time member (recent time member)).2 ss before]
          rfl

end Step

/-! ## Every run -/

section Run

variable {calls : List RelayCall}

private theorem run_concat (calls : List RelayCall) (call : RelayCall) :
    run (calls ++ [call]) = (run calls).relayMessage call := by
  rw [run, List.foldl_append]
  rfl

private theorem inOrder_concat {call : RelayCall} :
    InOrder (calls ++ [call]) ↔ InOrder calls ∧ ∀ earlier ∈ calls, earlier.time ≤ call.time := by
  simp [InOrder, List.pairwise_append]

private theorem tracks_run (ordered : InOrder calls) : Tracks calls (run calls) := by
  induction calls using List.reverseRecOn with
  | nil => exact tracks_empty
  | append_singleton calls call induction =>
      obtain ⟨ordered, last⟩ := inOrder_concat.mp ordered
      rw [run_concat]
      exact tracks_relayMessage (induction ordered) last

private theorem serves_run (ordered : InOrder calls) (fresh : FreshRun calls) :
    Serves calls (run calls) := by
  induction calls using List.reverseRecOn with
  | nil => exact serves_empty
  | append_singleton calls call induction =>
      obtain ⟨ordered, last⟩ := inOrder_concat.mp ordered
      have before : FreshRun calls := fun earlier next later split =>
        fresh earlier next (later ++ [call]) (by simp [split])
      rw [run_concat]
      exact serves_relayMessage (tracks_run ordered) (induction ordered before) last
        (fresh calls call [] rfl)

private theorem retrievable_of_freshRun (ordered : InOrder calls) (fresh : FreshRun calls) :
    Retrievable calls := by
  have seconds : (0 : Int) ≤ relaySeconds := by decide
  intro earlier call later split promised
  have listed : call ∈ calls := by simp [split]
  refine (serves_run ordered fresh).stored call listed ?_
  refine (tracks_run ordered).recent call listed fun next member => ?_
  subst split
  obtain ⟨-, -, before⟩ := List.pairwise_append.mp ordered
  rcases List.mem_append.mp member with member | member
  · have time := before next member call List.mem_cons_self
    omega
  · rcases List.mem_cons.mp member with rfl | member
    · omega
    · exact promised next member

/-- Some other object. -/
private def otherInv (inv : CInv) : CInv := { inv with hash := inv.hash + 1 }

private theorem otherInv_ne (inv : CInv) : inv ≠ otherInv inv := by
  intro same
  have hash : inv.hash = inv.hash + 1 := congrArg CInv.hash same
  simp at hash

private theorem not_retrievable_of_not_fresh {call : RelayCall}
    (ordered : InOrder (calls ++ [call])) (stale : ¬(run calls).Fresh call) :
    ∃ more, InOrder (calls ++ call :: more) ∧ ¬Retrievable (calls ++ call :: more) := by
  have whole := tracks_run ordered
  obtain ⟨before, last⟩ := inOrder_concat.mp ordered
  have tracks := tracks_run before
  simp only [Fresh, not_forall] at stale
  obtain ⟨time, member, recent, stale⟩ := stale
  obtain ⟨earlier, listed, same⟩ := tracks.listed _ member
  obtain ⟨rfl, same⟩ := Prod.mk.inj same
  have start := last earlier listed
  by_cases again : earlier.time = call.time
  · -- relayed in the same second, with another message
    have other : ∃ ss, (run calls).mapRelay call.inv = some ss ∧ ss ≠ call.ss := by
      simpa [again] using stale
    obtain ⟨ss, found, different⟩ := other
    refine ⟨[], ordered, fun promised => different ?_⟩
    have stored := promised calls call [] rfl (by simp)
    rw [run_concat, mapRelay_relayMessage_self, expire_of_not_old fun time member => ?_, found,
      Option.getD_some, Option.some.injEq] at stored
    · exact stored
    · exact again ▸ tracks.above _ member earlier listed
  · -- the next call finds the record of the earlier relay
    let next : RelayCall :=
      { time := earlier.time + relaySeconds + 1, inv := otherInv call.inv, ss := [] }
    have split : calls ++ [call, next] = calls ++ [call] ++ [next] := by simp
    refine ⟨[next], ?_, fun promised => ?_⟩
    · rw [split, inOrder_concat]
      refine ⟨ordered, fun other member => ?_⟩
      have time : call.time ≤ next.time := by
        dsimp only [next]
        omega
      rcases List.mem_append.mp member with member | member
      · exact (last other member).trans time
      · rwa [List.mem_singleton.mp member]
    · have stored := promised calls call [next] rfl fun other member => by
        rw [List.mem_singleton.mp member]
        dsimp only [next]
        omega
      have pending : (earlier.time + relaySeconds, call.inv) ∈
          (run (calls ++ [call])).vRelayExpiration := by
        rw [run_concat, mem_relayMessage tracks]
        exact .inl ⟨member, recent⟩
      rw [split, run_concat, mapRelay_relayMessage_of_ne (otherInv_ne call.inv),
        expire_of_old whole.sorted pending (Int.lt_succ _)] at stored
      contradiction

end Run

end RelayMemory

/-- A relayed message can be retrieved for 15 minutes when no item is relayed again while a record
of it is pending; otherwise one more relay shows a message that is gone too early.  Every entry has
a pending record. -/
theorem retrievable_of_fresh (calls : List RelayCall) (ordered : InOrder calls) :
    (FreshRun calls → Retrievable calls) ∧
    (∀ inv ss, (RelayMemory.run calls).mapRelay inv = some ss →
      ∃ time, (time, inv) ∈ (RelayMemory.run calls).vRelayExpiration ∧
        ∀ call ∈ calls, call.time ≤ time) ∧
    ∀ call, (∀ earlier ∈ calls, earlier.time ≤ call.time) → ¬(RelayMemory.run calls).Fresh call →
      ∃ more, InOrder (calls ++ call :: more) ∧ ¬Retrievable (calls ++ call :: more) := by
  refine ⟨RelayMemory.retrievable_of_freshRun ordered, fun inv ss found => ?_,
    fun call last => RelayMemory.not_retrievable_of_not_fresh
      (RelayMemory.inOrder_concat.mpr ⟨ordered, last⟩)⟩
  have tracks := RelayMemory.tracks_run ordered
  obtain ⟨time, member⟩ := tracks.pending inv (by simp [found])
  exact ⟨time, member, tracks.above _ member⟩

/-- Two objects that are relayed, and the first of them again after ten minutes. -/
def relayedAgain : List RelayCall :=
  [⟨0, ⟨1, 7⟩, [1]⟩, ⟨600, ⟨1, 7⟩, [1]⟩, ⟨901, ⟨1, 8⟩, [2]⟩]

theorem retrievable_of_fresh_relayed :
    (RelayMemory.run [⟨0, ⟨1, 7⟩, [1]⟩, ⟨600, ⟨1, 8⟩, [2]⟩]).mapRelay ⟨1, 7⟩ = some [1] := by
  have fresh := (retrievable_of_fresh [⟨0, ⟨1, 7⟩, [1]⟩, ⟨600, ⟨1, 8⟩, [2]⟩] (by simp [InOrder])).1
  refine fresh (fun earlier call later split => ?_) [] ⟨0, ⟨1, 7⟩, [1]⟩ [⟨600, ⟨1, 8⟩, [2]⟩] rfl
    (by simp [relaySeconds])
  rcases earlier with - | ⟨first, - | ⟨second, earlier⟩⟩
  · intro time member
    exact absurd member List.not_mem_nil
  · simp only [List.cons_append, List.nil_append, List.cons.injEq] at split
    obtain ⟨rfl, rfl, -⟩ := split
    intro time member
    obtain ⟨-, same⟩ := Prod.mk.inj (List.mem_singleton.mp member)
    exact absurd same (by decide)
  · simp at split

theorem not_retrievable_relayedAgain :
    ¬∀ calls, InOrder calls → Retrievable calls ∧
      ∀ inv ss, (RelayMemory.run calls).mapRelay inv = some ss →
        ∃ time, (time, inv) ∈ (RelayMemory.run calls).vRelayExpiration := by
  intro always
  have stored := (always relayedAgain (by simp [InOrder, relayedAgain])).1
    [⟨0, ⟨1, 7⟩, [1]⟩] ⟨600, ⟨1, 7⟩, [1]⟩ [⟨901, ⟨1, 8⟩, [2]⟩] rfl (by simp [relaySeconds])
  exact absurd stored (by decide)

end FooCoin

import FooCoin.Library.SortedSet
import FooCoin.Library.Stateful
import FooCoin.Transaction

/-!
# Alerts

A signed alert is stored in `mapAlerts` until it expires or another alert cancels it.
`ProcessAlert` checks the signature, deletes the stored alerts that the new one cancels and those
that have expired, and stores the new alert unless one of the others cancels it.
-/

namespace FooCoin

open LittleEndian Codec Stateful

/-- `CUnsignedAlert`. -/
structure CUnsignedAlert where
  nVersion : Int32
  nRelayUntil : Int64
  nExpiration : Int64
  nID : Int32
  nCancel : Int32
  setCancel : Finset Int32
  nMinVer : Int32
  nMaxVer : Int32
  setSubVer : Finset (List UInt8)
  nPriority : Int32
  strComment : List UInt8
  strStatusBar : List UInt8
  strReserved : List UInt8

/-- `CAlert`: the fields are those that `vchMsg` serializes once the signature has been checked. -/
structure CAlert extends CUnsignedAlert where
  vchMsg : List UInt8
  vchSig : List UInt8

/-- Read an `int`. -/
def readInt32 : Reader Int32 := do
  let word ← readLE 4
  pure (UInt32.ofNat word).toInt32

/-- Read an `int64`. -/
def readInt64 : Reader Int64 := do
  let word ← readLE 8
  pure (UInt64.ofNat word).toInt64

/-- Read a `std::set`. -/
def readSet {α : Type} [DecidableEq α] (reader : Reader α) : Reader (Finset α) := do
  let nSize ← readCompactSize
  let keys ← readMany reader nSize
  pure keys.toFinset

/-- `CUnsignedAlert::Unserialize`. -/
def CUnsignedAlert.unserialize : Reader CUnsignedAlert := do
  let nVersion ← readInt32
  let nRelayUntil ← readInt64
  let nExpiration ← readInt64
  let nID ← readInt32
  let nCancel ← readInt32
  let setCancel ← readSet readInt32
  let nMinVer ← readInt32
  let nMaxVer ← readInt32
  let setSubVer ← readSet readVector
  let nPriority ← readInt32
  let strComment ← readVector
  let strStatusBar ← readVector
  let strReserved ← readVector
  pure
    { nVersion, nRelayUntil, nExpiration, nID, nCancel, setCancel, nMinVer, nMaxVer, setSubVer
      nPriority, strComment, strStatusBar, strReserved }

/-- The public key that alerts are signed for. -/
def alertPubKey : List UInt8 :=
  0x04 ::
    (leBytes 32 0x0184710fa689ad5023690c80f3a49c8f13f8d45b8c857fbcbc8bc4a8e4d3eb4b).reverse ++
      (leBytes 32 0x10f4d4604fa08dce601aaf0f470216fe1b51850b4acf21b179c45070ac7b03a9).reverse

namespace CAlert

variable (crypto : Crypto) (nAdjustedTime : Int)

/-- `CAlert::GetHash`. -/
def getHash (alert : CAlert) : UInt256 :=
  crypto.Hash (writeVector alert.vchMsg ++ writeVector alert.vchSig)

/-- `CAlert::CheckSignature`: also the alert with the fields that were read. -/
def checkSignature (alert : CAlert) : Outcome CAlert := do
  require (crypto.SetPubKey alertPubKey = true)
  require (crypto.Verify alertPubKey (crypto.Hash alert.vchMsg) alert.vchSig = true)
  match CUnsignedAlert.unserialize.run alert.vchMsg with
  | none => throw .thrown
  | some (fields, _) => pure { alert with toCUnsignedAlert := fields }

/-- `CAlert::IsInEffect`. -/
def isInEffect (alert : CAlert) : Bool := nAdjustedTime < alert.nExpiration.toInt

/-- `CAlert::Cancels`. -/
def cancels (canceller alert : CAlert) : Bool :=
  if ¬canceller.isInEffect nAdjustedTime then false
  else alert.nID ≤ canceller.nCancel ∨ alert.nID ∈ canceller.setCancel

end CAlert

/-- An entry of `mapAlerts`. -/
structure AlertEntry where
  hash : UInt256
  alert : CAlert

/-- The order of `mapAlerts`. -/
def AlertEntry.key (item : AlertEntry) : Nat := item.hash.toNat

/-- `mapAlerts`. -/
abbrev AlertMap := SortedSet AlertEntry.key

namespace CAlert

variable (crypto : Crypto) (nAdjustedTime : Int)

/-- The loop over `mapAlerts` that deletes cancelled and expired alerts. -/
def cancelPrevious (alert : CAlert) (mapAlerts : AlertMap) : AlertMap :=
  mapAlerts.elements.foldl
    (fun mapAlerts item =>
      if alert.cancels nAdjustedTime item.alert then mapAlerts.erase item
      else if ¬item.alert.isInEffect nAdjustedTime then mapAlerts.erase item
      else mapAlerts)
    mapAlerts

/-- `CAlert::ProcessAlert`. -/
def processAlert (alert : CAlert) : Action Failure AlertMap := fun mapAlerts =>
  match alert.checkSignature crypto with
  | .error failure => (.error failure, mapAlerts)
  | .ok alert =>
      if ¬alert.isInEffect nAdjustedTime then (.error .rejected, mapAlerts)
      else
        let mapAlerts := alert.cancelPrevious nAdjustedTime mapAlerts
        if mapAlerts.elements.any fun item => item.alert.cancels nAdjustedTime alert then
          (.error .rejected, mapAlerts)
        else (.ok (), mapAlerts.insert { hash := alert.getHash crypto, alert })

/-- `mapAlerts` after calls of `ProcessAlert`. -/
def processAlerts (alerts : List CAlert) : AlertMap :=
  alerts.foldl (fun mapAlerts alert => (alert.processAlert crypto nAdjustedTime mapAlerts).2) .empty

/-! ## One alert -/

variable {crypto nAdjustedTime}

/-- The loop keeps the alerts in effect that are not cancelled. -/
private theorem mem_cancelPrevious {alert : CAlert} {mapAlerts : AlertMap} {item : AlertEntry} :
    item ∈ (alert.cancelPrevious nAdjustedTime mapAlerts).elements ↔
      item ∈ mapAlerts.elements ∧ alert.cancels nAdjustedTime item.alert = false ∧
        item.alert.isInEffect nAdjustedTime = true := by
  have step : (fun (mapAlerts : AlertMap) (item : AlertEntry) =>
      if alert.cancels nAdjustedTime item.alert then mapAlerts.erase item
      else if ¬item.alert.isInEffect nAdjustedTime then mapAlerts.erase item
      else mapAlerts) = fun mapAlerts item =>
        if (alert.cancels nAdjustedTime item.alert || !item.alert.isInEffect nAdjustedTime) then
          mapAlerts.erase item
        else mapAlerts := by
    funext mapAlerts item
    split_ifs <;> simp_all
  rw [cancelPrevious, step, SortedSet.mem_foldl_erase]
  simp

/-- The stored alerts are in effect and none cancels another one. -/
structure Effective (nAdjustedTime : Int) (mapAlerts : AlertMap) : Prop where
  inEffect : ∀ item ∈ mapAlerts.elements, item.alert.isInEffect nAdjustedTime = true
  uncancelled : ∀ item ∈ mapAlerts.elements, ∀ other ∈ mapAlerts.elements, item.hash ≠ other.hash →
    item.alert.cancels nAdjustedTime other.alert = false

private theorem effective_empty : Effective nAdjustedTime .empty where
  inEffect item member := by simp [SortedSet.empty] at member
  uncancelled item member := by simp [SortedSet.empty] at member

private theorem effective_cancelPrevious {mapAlerts : AlertMap} (alert : CAlert)
    (effective : Effective nAdjustedTime mapAlerts) :
    Effective nAdjustedTime (alert.cancelPrevious nAdjustedTime mapAlerts) where
  inEffect _ member := (mem_cancelPrevious.mp member).2.2
  uncancelled item member other other_member :=
    effective.uncancelled item (mem_cancelPrevious.mp member).1 other
      (mem_cancelPrevious.mp other_member).1

/-- A call either leaves the map, or deletes alerts and rejects its own, or also stores its own. -/
private theorem processAlert_cases (alert : CAlert) (mapAlerts : AlertMap) :
    (∃ failure, alert.processAlert crypto nAdjustedTime mapAlerts = (.error failure, mapAlerts)) ∨
      ∃ checked, alert.checkSignature crypto = .ok checked ∧
        checked.isInEffect nAdjustedTime = true ∧
        (alert.processAlert crypto nAdjustedTime mapAlerts =
            (.error .rejected, checked.cancelPrevious nAdjustedTime mapAlerts) ∨
          (∀ item ∈ (checked.cancelPrevious nAdjustedTime mapAlerts).elements,
              item.alert.cancels nAdjustedTime checked = false) ∧
            alert.processAlert crypto nAdjustedTime mapAlerts =
              (.ok (), (checked.cancelPrevious nAdjustedTime mapAlerts).insert
                { hash := checked.getHash crypto, alert := checked })) := by
  unfold processAlert
  cases signature : alert.checkSignature crypto with
  | error failure => exact .inl ⟨failure, rfl⟩
  | ok checked =>
      by_cases effective : checked.isInEffect nAdjustedTime = true
      · refine .inr ⟨checked, rfl, effective, ?_⟩
        cases cancelled : (checked.cancelPrevious nAdjustedTime mapAlerts).elements.any
          fun item => item.alert.cancels nAdjustedTime checked
        · right
          constructor
          · simpa using cancelled
          · simp [effective, cancelled]
        · left
          simp [effective, cancelled]
      · exact .inl ⟨.rejected, by simp [effective]⟩

/-- A call keeps the stored alerts effective. -/
private theorem effective_processAlert {mapAlerts : AlertMap} (alert : CAlert)
    (effective : Effective nAdjustedTime mapAlerts) :
    Effective nAdjustedTime (alert.processAlert crypto nAdjustedTime mapAlerts).2 := by
  rcases processAlert_cases alert mapAlerts with
    ⟨failure, outcome⟩ | ⟨checked, -, current, outcome | ⟨uncancelled, outcome⟩⟩
  · rw [outcome]
    exact effective
  · rw [outcome]
    exact effective_cancelPrevious checked effective
  · rw [outcome]
    have others := effective_cancelPrevious checked effective
    constructor
    · intro item member
      rcases SortedSet.mem_insertInto member with rfl | old
      · exact current
      · exact others.inEffect item old
    · intro item member other other_member different
      rcases SortedSet.mem_insertInto member with rfl | old
      · rcases SortedSet.mem_insertInto other_member with rfl | other_old
        · exact absurd rfl different
        · exact (mem_cancelPrevious.mp other_old).2.1
      · rcases SortedSet.mem_insertInto other_member with rfl | other_old
        · exact uncancelled item old
        · exact others.uncancelled item old other other_old different

/-- What a call stores, it has accepted. -/
private theorem stored_processAlert {alert : CAlert} {mapAlerts : AlertMap} {item : AlertEntry}
    (stored : item ∈ (alert.processAlert crypto nAdjustedTime mapAlerts).2.elements) :
    item ∈ mapAlerts.elements ∨
      (alert.processAlert crypto nAdjustedTime mapAlerts).1 = .ok () ∧
        alert.checkSignature crypto = .ok item.alert ∧ item.hash = item.alert.getHash crypto := by
  rcases processAlert_cases alert mapAlerts with
    ⟨failure, outcome⟩ | ⟨checked, signature, current, outcome | ⟨uncancelled, outcome⟩⟩
  · rw [outcome] at stored
    exact .inl stored
  · rw [outcome] at stored
    exact .inl (mem_cancelPrevious.mp stored).1
  · rw [outcome] at stored ⊢
    rcases SortedSet.mem_insertInto stored with rfl | old
    · exact .inr ⟨rfl, signature, rfl⟩
    · exact .inl (mem_cancelPrevious.mp old).1

/-! ## Every sequence of alerts -/

theorem processAlerts_concat (alerts : List CAlert) (alert : CAlert) :
    processAlerts crypto nAdjustedTime (alerts ++ [alert]) =
      (alert.processAlert crypto nAdjustedTime (processAlerts crypto nAdjustedTime alerts)).2 := by
  simp [processAlerts]

private theorem effective_processAlerts (alerts : List CAlert) :
    Effective nAdjustedTime (processAlerts crypto nAdjustedTime alerts) := by
  induction alerts using List.reverseRecOn with
  | nil => exact effective_empty
  | append_singleton alerts alert induction =>
      rw [processAlerts_concat]
      exact effective_processAlert alert induction

/-- A stored alert is one that was delivered and accepted. -/
private theorem stored_processAlerts {alerts : List CAlert} {item : AlertEntry}
    (stored : item ∈ (processAlerts crypto nAdjustedTime alerts).elements) :
    ∃ earlier alert later, alerts = earlier ++ alert :: later ∧
      (alert.processAlert crypto nAdjustedTime (processAlerts crypto nAdjustedTime earlier)).1 =
        .ok () ∧
      alert.checkSignature crypto = .ok item.alert ∧ item.hash = item.alert.getHash crypto := by
  induction alerts using List.reverseRecOn with
  | nil => simp [processAlerts, SortedSet.empty] at stored
  | append_singleton alerts alert induction =>
      rw [processAlerts_concat] at stored
      rcases stored_processAlert stored with old | accepted
      · obtain ⟨earlier, first, later, rfl, accepted⟩ := induction old
        exact ⟨earlier, first, later ++ [alert], by simp, accepted⟩
      · exact ⟨alerts, alert, [], rfl, accepted⟩

/-- An alert that has expired on arrival is turned away before the map is looked at. -/
private theorem processAlert_expired {alert checked : CAlert}
    (signature : alert.checkSignature crypto = .ok checked)
    (expired : checked.isInEffect nAdjustedTime = false) (mapAlerts : AlertMap) :
    alert.processAlert crypto nAdjustedTime mapAlerts = (.error .rejected, mapAlerts) := by
  simp [processAlert, signature, expired]

/-- At every time, the stored alerts are in effect, none of them is cancelled by another one and
each was accepted under its own hash; an expired alert changes nothing. -/
theorem mapAlerts_sound (crypto : Crypto) (nAdjustedTime : Int) (alerts : List CAlert) :
    (∀ item ∈ (processAlerts crypto nAdjustedTime alerts).elements,
        item.alert.isInEffect nAdjustedTime = true ∧
          (∀ other ∈ (processAlerts crypto nAdjustedTime alerts).elements, other.hash ≠ item.hash →
            other.alert.cancels nAdjustedTime item.alert = false) ∧
          ∃ earlier alert later, alerts = earlier ++ alert :: later ∧
            (alert.processAlert crypto nAdjustedTime
              (processAlerts crypto nAdjustedTime earlier)).1 = .ok () ∧
            alert.checkSignature crypto = .ok item.alert ∧
              item.hash = item.alert.getHash crypto) ∧
      ∀ late checked : CAlert, late.checkSignature crypto = .ok checked →
        checked.isInEffect nAdjustedTime = false →
        late.processAlert crypto nAdjustedTime (processAlerts crypto nAdjustedTime alerts) =
          (.error .rejected, processAlerts crypto nAdjustedTime alerts) := by
  have effective := @effective_processAlerts crypto nAdjustedTime alerts
  constructor
  · intro item member
    exact ⟨effective.inEffect item member,
      fun other other_member => effective.uncancelled other other_member item member,
      stored_processAlerts member⟩
  · intro late checked signature expired
    exact processAlert_expired signature expired _

end CAlert

end FooCoin

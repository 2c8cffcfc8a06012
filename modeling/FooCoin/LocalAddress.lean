import FooCoin.AddrMan
import Mathlib.Data.List.Lex

/-!
# The local addresses of a node

`mapLocalHost` has one entry for each of our addresses: a score and a port.  What a node tells its
peers about itself comes from this table.  An address that is added again gets the next port.
-/

namespace FooCoin

/-- `memcmp` of the bytes. -/
instance : LinearOrder CNetAddr :=
  LinearOrder.lift' (fun addr => addr.ip.toList.map UInt8.toNat) fun first second same => by
    have bytes := List.map_injective_iff.mpr (fun _ _ => UInt8.toNat_inj.mp) same
    obtain ⟨first⟩ := first
    obtain ⟨second⟩ := second
    exact congrArg CNetAddr.mk (Vector.toList_inj.mp bytes)

/-! ## Reachability -/

/-- What `GetExtNetwork` adds to `enum Network`. -/
inductive ExtNetwork
  | net (network : Network)
  | unknown
  | teredo
deriving DecidableEq

/-- `GetExtNetwork`; no address is `NULL`. -/
def getExtNetwork : Option CNetAddr → ExtNetwork
  | none => .unknown
  | some addr => if addr.isRFC4380 then .teredo else .net addr.getNetwork

/-- `enum Reachability`. -/
inductive Reachability
  | unreachable
  | default
  | teredo
  | ipv6Weak
  | ipv4
  | ipv6Strong
  | privateNet

/-- The number of a degree of reachability. -/
def Reachability.toInt : Reachability → Int
  | unreachable => 0
  | default => 1
  | teredo => 2
  | ipv6Weak => 3
  | ipv4 => 4
  | ipv6Strong => 5
  | privateNet => 6

/-- `GetReachabilityFrom`. -/
def CNetAddr.getReachabilityFrom (addr : CNetAddr) (paddrPartner : Option CNetAddr) :
    Reachability :=
  if !addr.isRoutable then .unreachable
  else
    let ourNet := getExtNetwork (some addr)
    let fTunnel := addr.isRFC3964 || addr.isRFC6052 || addr.isRFC6145
    match getExtNetwork paddrPartner with
    | .net .ipv4 => if ourNet = .net .ipv4 then .ipv4 else .default
    | .net .ipv6 =>
        match ourNet with
        | .teredo => .teredo
        | .net .ipv4 => .ipv4
        -- a tunnel is no reason to give our IPv6 address
        | .net .ipv6 => if fTunnel then .ipv6Weak else .ipv6Strong
        | _ => .default
    | .net .tor =>
        match ourNet with
        | .net .ipv4 => .ipv4
        | .net .tor => .privateNet
        | _ => .default
    | .net .i2p => if ourNet = .net .i2p then .privateNet else .default
    | .teredo =>
        match ourNet with
        | .teredo => .teredo
        | .net .ipv6 => .ipv6Weak
        | .net .ipv4 => .ipv4
        | _ => .default
    | .unknown | .net .unroutable =>
        match ourNet with
        | .teredo => .teredo
        | .net .ipv6 => .ipv6Weak
        | .net .ipv4 => .ipv4
        | .net .i2p => .privateNet
        | .net .tor => .privateNet
        | _ => .default

/-! ## The table -/

/-- `LocalServiceInfo`. -/
structure LocalServiceInfo where
  nScore : Int
  nPort : Nat
deriving DecidableEq

/-- The table and the networks that can be reached. -/
structure LocalTable where
  mapLocalHost : OrderedMap CNetAddr LocalServiceInfo
  vfReachable : Network → Bool

/-- `LOCAL_MANUAL`: the score of an address that the user gave. -/
def localManual : Int := 6

/-- The largest `int`. -/
def int32Max : Int := 2 ^ 31 - 1

namespace LocalTable

/-- A node without addresses. -/
def empty : LocalTable where
  mapLocalHost := .empty
  vfReachable _ := false

/-- `SetReachable` with the flag set. -/
def setReachable (table : LocalTable) (net : Network) : LocalTable :=
  { table with
    vfReachable := fun other =>
      if other = net ∨ net = .ipv6 ∧ other = .ipv4 then true else table.vfReachable other }

/-- The checks of `AddLocal`; `vfLimited` are the networks that are off limits. -/
def accepts (fDiscover : Bool) (vfLimited : Network → Bool) (addr : CService) (nScore : Int) :
    Bool :=
  addr.isRoutable && (fDiscover || localManual ≤ nScore) && !vfLimited addr.getNetwork

/-- The entry that `AddLocal` leaves. -/
def addedInfo (addr : CService) (nScore : Int) : Option LocalServiceInfo → LocalServiceInfo
  | none => { nScore, nPort := addr.port.toNat }
  | some info =>
      if info.nScore ≤ nScore then { nScore, nPort := addr.port.toNat + 1 } else info

/-- `AddLocal`. -/
def addLocal (table : LocalTable) (fDiscover : Bool) (vfLimited : Network → Bool)
    (addr : CService) (nScore : Int) : Bool × LocalTable :=
  if accepts fDiscover vfLimited addr nScore then
    let info := addedInfo addr nScore (table.mapLocalHost.find addr.toCNetAddr)
    (true, { table with mapLocalHost := table.mapLocalHost.insert addr.toCNetAddr info }
      |>.setReachable addr.getNetwork)
  else (false, table)

/-- `SeenLocal`: the score wraps. -/
def seenLocal (table : LocalTable) (addr : CService) : Bool × LocalTable :=
  match table.mapLocalHost.find addr.toCNetAddr with
  | none => (false, table)
  | some info =>
      let info := { info with nScore := (info.nScore + 1).bmod (2 ^ 32) }
      (true, { table with mapLocalHost := table.mapLocalHost.insert addr.toCNetAddr info })

/-- `CService(addr, nPort)`: the port is cut to 16 bits. -/
def service (entry : CNetAddr × LocalServiceInfo) : CService where
  toCNetAddr := entry.1
  port := UInt16.ofNat entry.2.nPort

/-- The best address so far with `nBestScore` and `nBestReachability`. -/
structure BestLocal where
  addr : CService
  nBestScore : Int
  nBestReachability : Int

/-- The loop body of `GetLocal`. -/
def BestLocal.compare (paddrPeer : Option CNetAddr) (best : BestLocal)
    (entry : CNetAddr × LocalServiceInfo) : BestLocal :=
  let nScore := entry.2.nScore
  let nReachability := (entry.1.getReachabilityFrom paddrPeer).toInt
  if best.nBestReachability < nReachability ∨
      nReachability = best.nBestReachability ∧ best.nBestScore < nScore then
    { addr := service entry, nBestScore := nScore, nBestReachability := nReachability }
  else best

/-- `GetLocal`; `addr` is also what it gets by reference. -/
def getLocal (table : LocalTable) (fNoListen : Bool) (addr : CService)
    (paddrPeer : Option CNetAddr) : Bool × CService :=
  if fNoListen then (false, addr)
  else
    let best := table.mapLocalHost.toList.foldl (BestLocal.compare paddrPeer) ⟨addr, -1, -1⟩
    (0 ≤ best.nBestScore, best.addr)

/-- `CService("0.0.0.0", 0)`. -/
def anyAddress : CService where
  ip := #v[0, 0, 0, 0, 0, 0, 0, 0, 0, 0, 0xff, 0xff, 0, 0, 0, 0]
  port := 0

/-- `CService()`. -/
def noAddress : CService where
  ip := Vector.replicate 16 0
  port := 0

/-- `GetLocalAddress`. -/
def getLocalAddress (table : LocalTable) (fNoListen : Bool) (nLocalServices : UInt64)
    (nAdjustedTime : UInt32) (paddrPeer : Option CNetAddr) : CAddress :=
  let (found, addr) := table.getLocal fNoListen noAddress paddrPeer
  if found then
    { toCService := addr, nServices := nLocalServices, nTime := nAdjustedTime, nLastTry := 0 }
  else { toCService := anyAddress, nServices := 0, nTime := 100000000, nLastTry := 0 }

end LocalTable

/-- A call that changes the table. -/
inductive LocalCall
  | add (fDiscover : Bool) (vfLimited : Network → Bool) (addr : CService) (nScore : Int)
  | seen (addr : CService)

/-- The table after a call. -/
def LocalTable.step (table : LocalTable) : LocalCall → LocalTable
  | .add fDiscover vfLimited addr nScore => (table.addLocal fDiscover vfLimited addr nScore).2
  | .seen addr => (table.seenLocal addr).2

/-- The table after some calls. -/
def LocalTable.run (calls : List LocalCall) : LocalTable := calls.foldl step empty

/-- The call adds an address with a score. -/
def LocalCall.Adds (addr : CService) (nScore : Int) : LocalCall → Prop
  | add fDiscover vfLimited addr' nScore' =>
      addr' = addr ∧ nScore' = nScore ∧ LocalTable.accepts fDiscover vfLimited addr nScore = true
  | seen _ => False

/-- A service was added by some call. -/
def Added (calls : List LocalCall) (addr : CService) : Prop :=
  ∃ call ∈ calls, ∃ nScore, call.Adds addr nScore

/-- An address in the table is not added again with at least its score, unless the next port was
added before; a score does not wrap. -/
def LocalCall.Harmless (earlier : List LocalCall) : LocalCall → Prop
  | add fDiscover vfLimited addr nScore =>
      LocalTable.accepts fDiscover vfLimited addr nScore = true →
        ∀ info, (LocalTable.run earlier).mapLocalHost.find addr.toCNetAddr = some info →
          info.nScore ≤ nScore → Added earlier { addr with port := addr.port + 1 }
  | seen addr =>
      ∀ info, (LocalTable.run earlier).mapLocalHost.find addr.toCNetAddr = some info →
        info.nScore < int32Max

/-! ## One call -/

section Step

variable {calls : List LocalCall} {table : LocalTable}

/-- Entries were added, with scores no higher than theirs. -/
private structure Faithful (calls : List LocalCall) (table : LocalTable) : Prop where
  entry : ∀ addr info, table.mapLocalHost.find addr = some info →
    Added calls (LocalTable.service (addr, info))
  score : ∀ call ∈ calls, ∀ addr nScore, call.Adds addr nScore →
    ∃ info, table.mapLocalHost.find addr.toCNetAddr = some info ∧ nScore ≤ info.nScore

private theorem Added.concat {addr : CService} (added : Added calls addr) (call : LocalCall) :
    Added (calls ++ [call]) addr := by
  obtain ⟨earlier, member, adds⟩ := added
  exact ⟨earlier, List.mem_append_left _ member, adds⟩

private theorem added_last {call : LocalCall} {addr : CService} {nScore : Int}
    (adds : call.Adds addr nScore) : Added (calls ++ [call]) addr :=
  ⟨call, List.mem_append_right _ (List.mem_singleton_self call), nScore, adds⟩

private theorem service_port (addr : CService) (nScore : Int) :
    LocalTable.service (addr.toCNetAddr, ⟨nScore, addr.port.toNat⟩) = addr := by
  simp [LocalTable.service]

private theorem service_next (addr : CService) (nScore : Int) :
    LocalTable.service (addr.toCNetAddr, ⟨nScore, addr.port.toNat + 1⟩) =
      { addr with port := addr.port + 1 } := by
  simp [LocalTable.service]

/-- An entry is replaced by one that was added, too, with a score that is no lower. -/
private theorem Faithful.insert {call : LocalCall} (faithful : Faithful calls table)
    {addr : CNetAddr} {info : LocalServiceInfo} {vfReachable : Network → Bool}
    (entry : Added (calls ++ [call]) (LocalTable.service (addr, info)))
    (higher : ∀ old, table.mapLocalHost.find addr = some old → old.nScore ≤ info.nScore)
    (own : ∀ other nScore, call.Adds other nScore →
      other.toCNetAddr = addr ∧ nScore ≤ info.nScore) :
    Faithful (calls ++ [call])
      { mapLocalHost := table.mapLocalHost.insert addr info, vfReachable } := by
  constructor
  · intro other found stored
    by_cases here : other = addr
    · subst here
      rw [OrderedMap.find_insert_self] at stored
      obtain rfl := Option.some.inj stored
      exact entry
    · rw [OrderedMap.find_insert_of_ne here] at stored
      exact (faithful.entry other found stored).concat call
  · intro earlier member other nScore adds
    rcases List.mem_append.mp member with member | member
    · obtain ⟨old, found, below⟩ := faithful.score earlier member other nScore adds
      by_cases here : other.toCNetAddr = addr
      · rw [here] at found ⊢
        exact ⟨info, OrderedMap.find_insert_self, below.trans (higher old found)⟩
      · exact ⟨old, (OrderedMap.find_insert_of_ne here).trans found, below⟩
    · obtain rfl := List.mem_singleton.mp member
      obtain ⟨rfl, below⟩ := own other nScore adds
      exact ⟨info, OrderedMap.find_insert_self, below⟩

/-- A call that changes nothing and adds nothing. -/
private theorem Faithful.quiet {call : LocalCall} (faithful : Faithful calls table)
    (own : ∀ other nScore, ¬call.Adds other nScore) : Faithful (calls ++ [call]) table := by
  refine ⟨fun addr info found => (faithful.entry addr info found).concat call, ?_⟩
  intro earlier member other nScore adds
  rcases List.mem_append.mp member with member | member
  · exact faithful.score earlier member other nScore adds
  · obtain rfl := List.mem_singleton.mp member
    exact absurd adds (own other nScore)

private theorem nScore_le_addedInfo (addr : CService) (nScore : Int)
    (old : Option LocalServiceInfo) :
    nScore ≤ (LocalTable.addedInfo addr nScore old).nScore ∧
      ∀ info, old = some info → info.nScore ≤ (LocalTable.addedInfo addr nScore old).nScore := by
  cases old with
  | none => exact ⟨le_rfl, fun info found => nomatch found⟩
  | some info =>
      rw [LocalTable.addedInfo]
      split_ifs with replaced
      · refine ⟨le_rfl, fun other found => ?_⟩
        obtain rfl := Option.some.inj found
        exact replaced
      · refine ⟨by omega, fun other found => ?_⟩
        obtain rfl := Option.some.inj found
        exact le_rfl

private theorem faithful_step (faithful : Faithful calls (LocalTable.run calls)) {call : LocalCall}
    (harmless : call.Harmless calls) :
    Faithful (calls ++ [call]) ((LocalTable.run calls).step call) := by
  cases call with
  | add fDiscover vfLimited addr nScore =>
      rw [LocalTable.step, LocalTable.addLocal]
      split_ifs with accepted
      · have adds : (LocalCall.add fDiscover vfLimited addr nScore).Adds addr nScore :=
          ⟨rfl, rfl, accepted⟩
        obtain ⟨own, higher⟩ := nScore_le_addedInfo addr nScore
          ((LocalTable.run calls).mapLocalHost.find addr.toCNetAddr)
        refine faithful.insert ?_ higher ?_
        · cases found : (LocalTable.run calls).mapLocalHost.find addr.toCNetAddr with
          | none =>
              rw [LocalTable.addedInfo, service_port]
              exact added_last adds
          | some info =>
              rw [LocalTable.addedInfo]
              split_ifs with replaced
              · rw [service_next]
                exact (harmless accepted info found replaced).concat _
              · exact (faithful.entry _ info found).concat _
        · rintro other score ⟨rfl, rfl, -⟩
          exact ⟨rfl, own⟩
      · refine faithful.quiet ?_
        rintro other score ⟨rfl, rfl, accepted'⟩
        exact accepted accepted'
  | seen addr =>
      rw [LocalTable.step, LocalTable.seenLocal]
      cases found : (LocalTable.run calls).mapLocalHost.find addr.toCNetAddr with
      | none => exact faithful.quiet fun _ _ => id
      | some info =>
          refine faithful.insert ((faithful.entry _ info found).concat _) ?_ fun _ _ => False.elim
          intro old same
          obtain rfl := Option.some.inj (found.symm.trans same)
          have small := harmless info found
          dsimp only
          by_cases negative : info.nScore + 1 < -2 ^ 31
          · have low : -((2 ^ 32 : Nat) / 2 : Int) ≤ (info.nScore + 1).bmod (2 ^ 32) :=
              Int.le_bmod (by decide)
            norm_num at low negative ⊢
            omega
          · rw [Int.bmod_eq_of_le]
            · omega
            · norm_num at negative ⊢
              omega
            · norm_num [int32Max] at small ⊢
              omega

end Step

/-! ## Every sequence of calls -/

private theorem localTable_run_concat (calls : List LocalCall) (call : LocalCall) :
    LocalTable.run (calls ++ [call]) = (LocalTable.run calls).step call := by
  rw [LocalTable.run, List.foldl_append]
  rfl

private theorem faithful_run {calls : List LocalCall}
    (harmless : ∀ earlier call later, calls = earlier ++ call :: later →
      call.Harmless earlier) : Faithful calls (LocalTable.run calls) := by
  induction calls using List.reverseRecOn with
  | nil =>
      refine ⟨fun addr info found => ?_, fun _ member => absurd member List.not_mem_nil⟩
      exact absurd found (by simp [LocalTable.run, LocalTable.empty])
  | append_singleton calls call induction =>
      rw [localTable_run_concat]
      refine faithful_step (induction fun earlier next later split => ?_)
        (harmless calls call [] rfl)
      exact harmless earlier next (later ++ [call]) (by simp [split])

/-- The best address is the one before the loop or one of the table. -/
private theorem mem_of_best {paddrPeer : Option CNetAddr}
    {entries : List (CNetAddr × LocalServiceInfo)} {best : LocalTable.BestLocal}
    (better : 0 ≤ (entries.foldl (LocalTable.BestLocal.compare paddrPeer) best).nBestScore) :
    entries.foldl (LocalTable.BestLocal.compare paddrPeer) best = best ∨
      ∃ entry ∈ entries, (entries.foldl (LocalTable.BestLocal.compare paddrPeer) best).addr =
        LocalTable.service entry := by
  induction entries generalizing best with
  | nil => exact .inl rfl
  | cons entry entries induction =>
      rw [List.foldl_cons] at better ⊢
      rcases induction better with same | ⟨later, member, same⟩
      · rw [same, LocalTable.BestLocal.compare]
        split_ifs
        · exact .inr ⟨entry, List.mem_cons_self, rfl⟩
        · exact .inl rfl
      · exact .inr ⟨later, List.mem_cons_of_mem entry member, same⟩

/-- `GetLocal` finds a service of the table. -/
private theorem getLocal_mem {table : LocalTable} {fNoListen : Bool} {addr : CService}
    {paddrPeer : Option CNetAddr} (found : (table.getLocal fNoListen addr paddrPeer).1 = true) :
    ∃ host info, table.mapLocalHost.find host = some info ∧
      (table.getLocal fNoListen addr paddrPeer).2 = LocalTable.service (host, info) := by
  rw [LocalTable.getLocal] at found ⊢
  split_ifs at found ⊢
  have score := of_decide_eq_true found
  rcases mem_of_best score with same | ⟨⟨host, info⟩, member, same⟩
  · rw [same] at score
    exact absurd score (show ¬(0 : Int) ≤ -1 by decide)
  · exact ⟨host, info, OrderedMap.mem_toList.mp member, same⟩

/-- What a node tells a peer about itself was added, and scores stay, when no address is added again
with at least its score; an address that is added so is stored with a port that was never added. -/
theorem getLocal_added (calls : List LocalCall) :
    ((∀ earlier call later, calls = earlier ++ call :: later → call.Harmless earlier) →
      (∀ fNoListen addr paddrPeer,
        ((LocalTable.run calls).getLocal fNoListen addr paddrPeer).1 = true →
          Added calls ((LocalTable.run calls).getLocal fNoListen addr paddrPeer).2) ∧
      ∀ call ∈ calls, ∀ addr nScore, call.Adds addr nScore →
        ∃ info, (LocalTable.run calls).mapLocalHost.find addr.toCNetAddr = some info ∧
          nScore ≤ info.nScore) ∧
    ∀ fDiscover vfLimited addr nScore,
      ¬(LocalCall.add fDiscover vfLimited addr nScore).Harmless calls →
        ∃ info, ((LocalTable.run calls).step
            (.add fDiscover vfLimited addr nScore)).mapLocalHost.find addr.toCNetAddr = some info ∧
          ¬Added (calls ++ [.add fDiscover vfLimited addr nScore])
            (LocalTable.service (addr.toCNetAddr, info)) := by
  refine ⟨fun harmless => ?_, fun fDiscover vfLimited addr nScore harmful => ?_⟩
  · have faithful := faithful_run harmless
    refine ⟨fun fNoListen addr paddrPeer found => ?_, faithful.score⟩
    obtain ⟨host, info, stored, same⟩ := getLocal_mem found
    rw [same]
    exact faithful.entry host info stored
  · simp only [LocalCall.Harmless, not_forall] at harmful
    obtain ⟨accepted, info, found, higher, missing⟩ := harmful
    refine ⟨⟨nScore, addr.port.toNat + 1⟩, ?_, ?_⟩
    · rw [LocalTable.step, LocalTable.addLocal, if_pos accepted]
      refine OrderedMap.find_insert_self.trans ?_
      rw [found, LocalTable.addedInfo, if_pos higher]
    · rw [service_next]
      rintro ⟨call, member, score, adds⟩
      rcases List.mem_append.mp member with member | member
      · exact missing ⟨call, member, score, adds⟩
      · rw [List.mem_singleton.mp member] at adds
        have port : addr.port = addr.port + 1 := congrArg CService.port adds.1
        simp at port

/-- An address in the internet. -/
def publicAddress : CService where
  ip := #v[0, 0, 0, 0, 0, 0, 0, 0, 0, 0, 0xff, 0xff, 8, 8, 8, 8]
  port := 8333

/-- The address of an interface, found again by asking a web site. -/
def addedTwice : List LocalCall :=
  [.add true (fun _ => false) publicAddress 1, .add true (fun _ => false) publicAddress 5]

theorem not_getLocal_added :
    ¬∀ calls fNoListen addr paddrPeer,
      ((LocalTable.run calls).getLocal fNoListen addr paddrPeer).1 = true →
        Added calls ((LocalTable.run calls).getLocal fNoListen addr paddrPeer).2 := by
  intro always
  obtain ⟨call, member, score, adds⟩ :=
    always addedTwice false LocalTable.noAddress none (by decide +kernel)
  have told : ((LocalTable.run addedTwice).getLocal false LocalTable.noAddress none).2.port =
      8334 := by decide +kernel
  have port : ∀ call ∈ addedTwice, ∀ addr score, call.Adds addr score → addr.port = 8333 := by
    intro call member addr score adds
    rcases List.mem_pair.mp member with rfl | rfl
    · exact adds.1 ▸ rfl
    · exact adds.1 ▸ rfl
  rw [port call member _ score adds] at told
  exact absurd told (by decide)

end FooCoin

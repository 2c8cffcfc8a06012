import FooCoin.Library.Batches
import FooCoin.Library.Histories
import FooCoin.Relay
import Mathlib.Data.List.Sort

/-!
# Requests for inventory

What peers announce is asked for one peer after the other.  `AskFor` enters an item in the queue of
a peer under the time of its request, two minutes after the item was last asked for or requested
from any peer, and `SendMessages` requests what is due, unless it has come in the meantime.
-/

namespace FooCoin

open Function

/-- A `getdata` message is sent as soon as it has so many items. -/
def requestBatch : Nat := 1000

/-- The time between two requests of an item, in microseconds. -/
def retryInterval : Int := 2 * 60 * 1000000

/-- An entry of `mapAskFor`: the time of a request, in microseconds, and its item. -/
structure AskEntry where
  nRequestTime : Int
  inv : CInv
deriving DecidableEq

/-- `insert` into `mapAskFor`: behind the entries of the same time. -/
def insertAsk (entry : AskEntry) (mapAskFor : List AskEntry) : List AskEntry :=
  mapAskFor.orderedInsert (fun left right => left.nRequestTime < right.nRequestTime) entry

/-- What the node remembers of its requests; peers have numbers. -/
structure RequestState where
  /-- `mapAlreadyAskedFor`, with 0 where there is no entry. -/
  mapAlreadyAskedFor : CInv → Int
  /-- The static variable of `AskFor`. -/
  nLastTime : Int
  mapAskFor : Nat → List AskEntry

namespace RequestState

/-- A node that has asked for nothing. -/
def initial : RequestState where
  mapAlreadyAskedFor _ := 0
  nLastTime := 0
  mapAskFor _ := []

/-- `nNow` of `AskFor` at a time of `GetTime()`. -/
def nextTime (state : RequestState) (time : Int) : Int :=
  max ((time - 1) * 1000000) (state.nLastTime + 1)

/-- The entry that `AskFor` makes. -/
def askEntry (state : RequestState) (inv : CInv) (time : Int) : AskEntry where
  nRequestTime := max (state.mapAlreadyAskedFor inv + retryInterval) (state.nextTime time)
  inv

/-- `AskFor`. -/
def askFor (state : RequestState) (pnode : Nat) (inv : CInv) (time : Int) : RequestState :=
  let entry := state.askEntry inv time
  { mapAlreadyAskedFor := update state.mapAlreadyAskedFor inv entry.nRequestTime
    nLastTime := state.nextTime time
    mapAskFor := update state.mapAskFor pnode (insertAsk entry (state.mapAskFor pnode)) }

/-- `mapAlreadyAskedFor.erase` when an object has come. -/
def forget (state : RequestState) (inv : CInv) : RequestState :=
  { state with mapAlreadyAskedFor := update state.mapAlreadyAskedFor inv 0 }

end RequestState

/-- The variables of the loop over `mapAskFor`. -/
structure Requesting where
  mapAlreadyAskedFor : CInv → Int
  /-- `vGetData` with the `getdata` messages that are out. -/
  vGetData : Batches CInv
  /-- The entries that are erased. -/
  erased : List AskEntry

namespace Requesting

/-- The body of the loop. -/
def next (fAlreadyHave : CInv → Bool) (nNow : Int) (loop : Requesting) (entry : AskEntry) :
    Requesting :=
  let erased := loop.erased ++ [entry]
  if fAlreadyHave entry.inv then { loop with erased }
  else
    { mapAlreadyAskedFor := update loop.mapAlreadyAskedFor entry.inv nNow
      vGetData := loop.vGetData.add requestBatch entry.inv
      erased }

/-- The loop, with the entries that are not due yet. -/
def run (fAlreadyHave : CInv → Bool) (nNow : Int) (loop : Requesting) :
    List AskEntry → Requesting × List AskEntry
  | [] => (loop, [])
  | entry :: mapAskFor =>
      if entry.nRequestTime ≤ nNow then
        run fAlreadyHave nNow (loop.next fAlreadyHave nNow entry) mapAskFor
      else (loop, entry :: mapAskFor)

end Requesting

/-- The loop of `SendMessages` over `mapAskFor` of a peer, with the entries that are left. -/
def RequestState.request (state : RequestState) (pto : Nat) (nNow : Int)
    (fAlreadyHave : CInv → Bool) : Requesting × List AskEntry :=
  Requesting.run fAlreadyHave nNow
    { mapAlreadyAskedFor := state.mapAlreadyAskedFor, vGetData := .empty, erased := [] }
    (state.mapAskFor pto)

/-- What happens to the requests. -/
inductive RequestEvent
  | askFor (pnode : Nat) (inv : CInv) (time : Int)
  /-- `SendMessages` at a time of `GetTime()`, with what `AlreadyHave` says. -/
  | sendMessages (pto : Nat) (time : Int) (fAlreadyHave : CInv → Bool)
  /-- An object has come and is accepted. -/
  | received (inv : CInv)

/-- What has happened to an item. -/
inductive RequestRecord
  /-- It was asked for, `nNow` being that of `AskFor`. -/
  | asked (pnode : Nat) (entry : AskEntry) (nNow : Int)
  /-- Its entry was erased, and it was requested unless the node already had it. -/
  | settled (pto : Nat) (entry : AskEntry) (nNow : Int) (fAlreadyHave : Bool)
  | received (inv : CInv)

/-- What a record leaves in `mapAlreadyAskedFor`. -/
def RequestRecord.written (inv : CInv) : RequestRecord → Option Int
  | .asked _ entry _ => if entry.inv = inv then some entry.nRequestTime else none
  | .settled _ entry nNow fAlreadyHave =>
      if entry.inv = inv ∧ fAlreadyHave = false then some nNow else none
  | .received other => if other = inv then some 0 else none

/-- When an item was last asked for or requested since it was received. -/
def lastContact (inv : CInv) (log : List RequestRecord) : Int :=
  log.foldl (fun time record => (record.written inv).getD time) 0

/-- The entry that was made for a peer. -/
def RequestRecord.madeFor (pnode : Nat) : RequestRecord → Option AskEntry
  | .asked other entry _ => if other = pnode then some entry else none
  | _ => none

/-- The entry of a peer that was erased. -/
def RequestRecord.erasedFor (pnode : Nat) : RequestRecord → Option AskEntry
  | .settled other entry _ _ => if other = pnode then some entry else none
  | _ => none

/-- The item that was requested from a peer. -/
def RequestRecord.requestedFrom (pnode : Nat) : RequestRecord → Option CInv
  | .settled other entry _ fAlreadyHave =>
      if other = pnode ∧ fAlreadyHave = false then some entry.inv else none
  | _ => none

/-- `nNow` of a call of `AskFor`. -/
def RequestRecord.askTime : RequestRecord → Option Int
  | .asked _ _ nNow => some nNow
  | _ => none

/-- The requests with all records and the `getdata` messages to each peer. -/
structure RequestHistory where
  state : RequestState
  log : List RequestRecord
  messages : Nat → List (List CInv)

namespace RequestHistory

/-- The history of a node that has asked for nothing. -/
def initial : RequestHistory := ⟨.initial, [], fun _ => []⟩

/-- An event in the history. -/
def next (history : RequestHistory) : RequestEvent → RequestHistory
  | .askFor pnode inv time =>
      { history with
        state := history.state.askFor pnode inv time
        log := history.log ++
          [.asked pnode (history.state.askEntry inv time) (history.state.nextTime time)] }
  | .sendMessages pto time fAlreadyHave =>
      let nNow := time * 1000000
      let request := history.state.request pto nNow fAlreadyHave
      { state :=
          { history.state with
            mapAlreadyAskedFor := request.1.mapAlreadyAskedFor
            mapAskFor := update history.state.mapAskFor pto request.2 }
        log := history.log ++
          request.1.erased.map fun entry => .settled pto entry nNow (fAlreadyHave entry.inv)
        messages := update history.messages pto (history.messages pto ++ request.1.vGetData.all) }
  | .received inv =>
      { history with
        state := history.state.forget inv
        log := history.log ++ [.received inv] }

/-- The history of some events. -/
def run (events : List RequestEvent) : RequestHistory := events.foldl next initial

end RequestHistory

/-! ## The queue of a peer -/

section Queue

variable {entry : AskEntry} {entries : List AskEntry}

/-- The times of some entries ascend. -/
def Ascending (entries : List AskEntry) : Prop :=
  entries.Pairwise fun left right => left.nRequestTime ≤ right.nRequestTime

private theorem perm_insertAsk : (insertAsk entry entries).Perm (entry :: entries) :=
  List.perm_orderedInsert _ entry entries

private theorem ascending_insertAsk (ascending : Ascending entries) :
    Ascending (insertAsk entry entries) := by
  induction entries with
  | nil => exact List.pairwise_singleton _ entry
  | cons first entries induction =>
      obtain ⟨below, ascending⟩ := List.pairwise_cons.mp ascending
      rw [insertAsk, List.orderedInsert_cons]
      split_ifs with early
      · refine List.pairwise_cons.mpr ⟨?_, List.pairwise_cons.mpr ⟨below, ascending⟩⟩
        intro other member
        rcases List.mem_cons.mp member with rfl | member
        · exact early.le
        · exact early.le.trans (below other member)
      · refine List.pairwise_cons.mpr ⟨?_, induction ascending⟩
        intro other member
        rcases List.mem_cons.mp (perm_insertAsk.mem_iff.mp member) with rfl | member
        · exact not_lt.mp early
        · exact below other member

end Queue

/-! ## One call of `SendMessages` -/

private theorem requestBatch_pos : 0 < requestBatch := by norm_num [requestBatch]

section Loop

variable {fAlreadyHave : CInv → Bool} {nNow : Int} {start loop : Requesting} {pto : Nat}
  {taken entries : List AskEntry} {entry : AskEntry}

/-- The loop takes the due entries off the front. -/
private theorem run_requesting (fAlreadyHave : CInv → Bool) (nNow : Int) (loop : Requesting)
    (entries : List AskEntry) :
    ∃ taken, entries = taken ++ (loop.run fAlreadyHave nNow entries).2 ∧
      (∀ entry ∈ taken, entry.nRequestTime ≤ nNow) ∧
      (∀ entry ∈ (loop.run fAlreadyHave nNow entries).2.head?, nNow < entry.nRequestTime) ∧
      (loop.run fAlreadyHave nNow entries).1 =
        taken.foldl (Requesting.next fAlreadyHave nNow) loop := by
  induction entries generalizing loop with
  | nil => exact ⟨[], rfl, by simp, by simp [Requesting.run], rfl⟩
  | cons entry entries induction =>
      rw [Requesting.run]
      split_ifs with due
      · obtain ⟨taken, split, early, late, same⟩ := induction (loop.next fAlreadyHave nNow entry)
        refine ⟨entry :: taken, ?_, ?_, late, same⟩
        · rw [List.cons_append, ← split]
        · intro other member
          rcases List.mem_cons.mp member with rfl | member
          · exact due
          · exact early other member
      · exact ⟨[], rfl, by simp, by simpa using due, rfl⟩

/-- The record of an entry that is erased. -/
private def settle (pto : Nat) (nNow : Int) (fAlreadyHave : CInv → Bool) (entry : AskEntry) :
    RequestRecord :=
  .settled pto entry nNow (fAlreadyHave entry.inv)

/-- What the loop has done after some entries. -/
private structure Requests (fAlreadyHave : CInv → Bool) (nNow : Int) (pto : Nat)
    (start : CInv → Int) (taken : List AskEntry) (loop : Requesting) : Prop where
  erased : loop.erased = taken
  requested : loop.vGetData.elements = taken.filterMap fun entry =>
    (settle pto nNow fAlreadyHave entry).requestedFrom pto
  written : ∀ inv, loop.mapAlreadyAskedFor inv =
    (taken.map (settle pto nNow fAlreadyHave)).foldl
      (fun time record => (record.written inv).getD time) (start inv)
  filled : loop.vGetData.Filled requestBatch

private theorem Requests.next {start : CInv → Int}
    (requests : Requests fAlreadyHave nNow pto start taken loop) (entry : AskEntry) :
    Requests fAlreadyHave nNow pto start (taken ++ [entry])
      (loop.next fAlreadyHave nNow entry) := by
  have erased : loop.erased ++ [entry] = taken ++ [entry] := by rw [requests.erased]
  rw [Requesting.next]
  split_ifs with present
  · refine ⟨erased, ?_, fun inv => ?_, requests.filled⟩
    · rw [List.filterMap_append, ← requests.requested]
      simp [settle, RequestRecord.requestedFrom, present]
    · rw [List.map_append, List.foldl_append, ← requests.written]
      simp [settle, RequestRecord.written, present]
  · rw [Bool.not_eq_true] at present
    refine ⟨erased, ?_, fun inv => ?_, requests.filled.add entry.inv⟩
    · rw [Batches.elements_add, List.filterMap_append, ← requests.requested]
      simp [settle, RequestRecord.requestedFrom, present]
    · rw [List.map_append, List.foldl_append, ← requests.written]
      by_cases same : entry.inv = inv
      · subst same
        simp [settle, RequestRecord.written, present]
      · simp [settle, RequestRecord.written, same, update_of_ne (Ne.symm same)]

/-- The loop from its start. -/
private theorem requests_request (state : RequestState) (pto : Nat) (nNow : Int)
    (fAlreadyHave : CInv → Bool) :
    ∃ taken, state.mapAskFor pto = taken ++ (state.request pto nNow fAlreadyHave).2 ∧
      (∀ entry ∈ taken, entry.nRequestTime ≤ nNow) ∧
      (∀ entry ∈ (state.request pto nNow fAlreadyHave).2.head?, nNow < entry.nRequestTime) ∧
      Requests fAlreadyHave nNow pto state.mapAlreadyAskedFor taken
        (state.request pto nNow fAlreadyHave).1 := by
  obtain ⟨taken, split, early, late, same⟩ := run_requesting fAlreadyHave nNow
    { mapAlreadyAskedFor := state.mapAlreadyAskedFor, vGetData := .empty, erased := [] }
    (state.mapAskFor pto)
  have start : Requests fAlreadyHave nNow pto state.mapAlreadyAskedFor []
      { mapAlreadyAskedFor := state.mapAlreadyAskedFor, vGetData := .empty, erased := [] } :=
    { erased := rfl
      requested := rfl
      written := fun inv => rfl
      filled := Batches.filled_empty requestBatch_pos }
  refine ⟨taken, split, early, late, ?_⟩
  rw [RequestState.request, same]
  exact Histories.foldl_keeps (fun _ _ entry requests => requests.next entry) start taken

end Loop

/-! ## All events -/

theorem lastContact_append (inv : CInv) (earlier later : List RequestRecord) :
    lastContact inv (earlier ++ later) =
      later.foldl (fun time record => (record.written inv).getD time)
        (lastContact inv earlier) :=
  List.foldl_append ..

/-- Every request of a log is scheduled two minutes after the last contact, or at once. -/
def Scheduled (log : List RequestRecord) : Prop :=
  ∀ earlier pnode entry nNow later, log = earlier ++ .asked pnode entry nNow :: later →
    entry.nRequestTime = max (lastContact entry.inv earlier + retryInterval) nNow

section Log

variable {log : List RequestRecord}

/-- A record of another kind. -/
private theorem Scheduled.concat (scheduled : Scheduled log) {record : RequestRecord}
    (timed : ∀ pnode entry nNow, record = .asked pnode entry nNow →
      entry.nRequestTime = max (lastContact entry.inv log + retryInterval) nNow) :
    Scheduled (log ++ [record]) := by
  intro earlier pnode entry nNow later split
  rcases Histories.concat_eq_append_cons.mp split with ⟨rfl, same, -⟩ | ⟨rest, before, -⟩
  · exact timed pnode entry nNow same.symm
  · exact scheduled earlier pnode entry nNow rest before

private theorem Scheduled.append_settled (scheduled : Scheduled log) (pto : Nat) (nNow : Int)
    (fAlreadyHave : CInv → Bool) (entries : List AskEntry) :
    Scheduled (log ++ entries.map (settle pto nNow fAlreadyHave)) := by
  induction entries generalizing log with
  | nil => simpa using scheduled
  | cons entry entries induction =>
      rw [List.map_cons, List.append_cons]
      refine induction (scheduled.concat fun pnode other time asked => ?_)
      rw [settle] at asked
      cases asked

end Log

namespace RequestHistory

/-- What every history keeps. -/
private structure Keeps (history : RequestHistory) : Prop where
  contact : ∀ inv, history.state.mapAlreadyAskedFor inv = lastContact inv history.log
  scheduled : Scheduled history.log
  times : (history.log.filterMap RequestRecord.askTime).Pairwise (· < ·)
  latest : ∀ time ∈ history.log.filterMap RequestRecord.askTime, time ≤ history.state.nLastTime
  conserved : ∀ pnode, (history.log.filterMap (RequestRecord.madeFor pnode)).Perm
    (history.log.filterMap (RequestRecord.erasedFor pnode) ++ history.state.mapAskFor pnode)
  requested : ∀ pnode, (history.messages pnode).flatten =
    history.log.filterMap (RequestRecord.requestedFrom pnode)
  sized : ∀ pnode, ∀ message ∈ history.messages pnode,
    0 < message.length ∧ message.length ≤ requestBatch
  ascending : ∀ pnode, Ascending (history.state.mapAskFor pnode)
  punctual : ∀ pto entry nNow fAlreadyHave,
    .settled pto entry nNow fAlreadyHave ∈ history.log → entry.nRequestTime ≤ nNow

variable {history : RequestHistory}

private theorem keeps_initial : initial.Keeps where
  contact _ := rfl
  scheduled := by
    intro earlier pnode entry nNow later split
    simp [initial] at split
  times := List.Pairwise.nil
  latest _ member := absurd member List.not_mem_nil
  conserved _ := .refl _
  requested _ := rfl
  sized _ _ member := absurd member List.not_mem_nil
  ascending _ := List.Pairwise.nil
  punctual _ _ _ _ member := absurd member List.not_mem_nil

/-- `AskFor`. -/
private theorem Keeps.ask (keeps : history.Keeps) (pnode : Nat) (inv : CInv) (time : Int) :
    (history.next (.askFor pnode inv time)).Keeps := by
  have later : history.state.nLastTime < history.state.nextTime time :=
    (lt_add_one _).trans_le (le_max_right _ _)
  refine
    { contact := fun other => ?_
      scheduled := ?_
      times := ?_
      latest := ?_
      conserved := fun other => ?_
      requested := fun other => ?_
      sized := keeps.sized
      ascending := fun other => ?_
      punctual := ?_ }
  · rw [next, lastContact_append, ← keeps.contact]
    by_cases same : inv = other
    · subst same
      simp [RequestState.askFor, RequestState.askEntry, RequestRecord.written]
    · simp [RequestState.askFor, RequestState.askEntry, RequestRecord.written, same,
        update_of_ne (Ne.symm same)]
  · refine keeps.scheduled.concat fun _ entry nNow asked => ?_
    obtain ⟨-, rfl, rfl⟩ := RequestRecord.asked.inj asked
    rw [← keeps.contact]
    rfl
  · rw [next, List.filterMap_append]
    refine List.pairwise_append.mpr ⟨keeps.times, List.pairwise_singleton _ _, ?_⟩
    intro earlier member last own
    obtain rfl := List.mem_singleton.mp own
    exact (keeps.latest earlier member).trans_lt later
  · intro index member
    rw [next, List.filterMap_append] at member
    rcases List.mem_append.mp member with member | member
    · exact (keeps.latest index member).trans later.le
    · obtain rfl := List.mem_singleton.mp member
      exact le_rfl
  · have conserved := keeps.conserved other
    rw [next, List.filterMap_append, List.filterMap_append]
    by_cases same : pnode = other
    · subst same
      simp only [RequestState.askFor, update_self, List.filterMap_cons, List.filterMap_nil,
        RequestRecord.madeFor, RequestRecord.erasedFor, if_true, List.append_nil]
      refine (conserved.append_right _).trans ?_
      rw [List.append_assoc]
      refine List.Perm.append_left _ ((List.perm_append_singleton _ _).trans ?_)
      exact perm_insertAsk.symm
    · simpa [List.filterMap_cons, RequestState.askFor, RequestRecord.madeFor,
        RequestRecord.erasedFor, same, update_of_ne (Ne.symm same)] using conserved
  · rw [next, List.filterMap_append]
    simpa [List.filterMap_cons, RequestRecord.requestedFrom] using keeps.requested other
  · rw [next, RequestState.askFor]
    by_cases same : pnode = other
    · subst same
      simpa using ascending_insertAsk (keeps.ascending pnode)
    · simpa [update_of_ne (Ne.symm same)] using keeps.ascending other
  · intro pto entry nNow fAlreadyHave member
    rcases List.mem_append.mp member with member | member
    · exact keeps.punctual pto entry nNow fAlreadyHave member
    · cases List.mem_singleton.mp member

/-- An object has come. -/
private theorem Keeps.forget (keeps : history.Keeps) (inv : CInv) :
    (history.next (.received inv)).Keeps := by
  have unlogged : ∀ {β : Type} (look : RequestRecord → Option β), look (.received inv) = none →
      (history.next (.received inv)).log.filterMap look = history.log.filterMap look := by
    intro β look none
    rw [next, List.filterMap_append, List.filterMap_cons_none none, List.filterMap_nil,
      List.append_nil]
  refine
    { contact := fun other => ?_
      scheduled := keeps.scheduled.concat fun _ _ _ asked => by cases asked
      times := unlogged RequestRecord.askTime rfl ▸ keeps.times
      latest := unlogged RequestRecord.askTime rfl ▸ keeps.latest
      conserved := fun other => ?_
      requested := fun other => ?_
      sized := keeps.sized
      ascending := keeps.ascending
      punctual := ?_ }
  · rw [next, lastContact_append, ← keeps.contact]
    by_cases same : inv = other
    · subst same
      simp [RequestState.forget, RequestRecord.written]
    · simp [RequestState.forget, RequestRecord.written, same, update_of_ne (Ne.symm same)]
  · rw [unlogged (RequestRecord.madeFor other) rfl, unlogged (RequestRecord.erasedFor other) rfl]
    exact keeps.conserved other
  · rw [unlogged (RequestRecord.requestedFrom other) rfl]
    exact keeps.requested other
  · intro pto entry nNow fAlreadyHave member
    rcases List.mem_append.mp member with member | member
    · exact keeps.punctual pto entry nNow fAlreadyHave member
    · cases List.mem_singleton.mp member

private theorem mapAskFor_send (pto : Nat) (time : Int) (fAlreadyHave : CInv → Bool) :
    (history.next (.sendMessages pto time fAlreadyHave)).state.mapAskFor =
      update history.state.mapAskFor pto
        (history.state.request pto (time * 1000000) fAlreadyHave).2 :=
  rfl

private theorem messages_send (pto : Nat) (time : Int) (fAlreadyHave : CInv → Bool) :
    (history.next (.sendMessages pto time fAlreadyHave)).messages =
      update history.messages pto (history.messages pto ++
        (history.state.request pto (time * 1000000) fAlreadyHave).1.vGetData.all) :=
  rfl

/-- The loop of `SendMessages`. -/
private theorem Keeps.send (keeps : history.Keeps) (pto : Nat) (time : Int)
    (fAlreadyHave : CInv → Bool) :
    (history.next (.sendMessages pto time fAlreadyHave)).Keeps := by
  obtain ⟨taken, split, due, -, requests⟩ :=
    requests_request history.state pto (time * 1000000) fAlreadyHave
  have log : (history.next (.sendMessages pto time fAlreadyHave)).log =
      history.log ++ taken.map (settle pto (time * 1000000) fAlreadyHave) := by
    rw [next, requests.erased]
    rfl
  have unlogged : ∀ {β : Type} (look : RequestRecord → Option β),
      (∀ entry, look (settle pto (time * 1000000) fAlreadyHave entry) = none) →
      (history.next (.sendMessages pto time fAlreadyHave)).log.filterMap look =
        history.log.filterMap look := by
    intro β look none
    have settled : taken.filterMap (look ∘ settle pto (time * 1000000) fAlreadyHave) = [] :=
      List.filterMap_eq_nil_iff.mpr fun entry _ => none entry
    rw [log, List.filterMap_append, List.filterMap_map, settled, List.append_nil]
  refine
    { contact := fun inv => ?_
      scheduled := log ▸ keeps.scheduled.append_settled pto _ fAlreadyHave taken
      times := unlogged RequestRecord.askTime (fun _ => rfl) ▸ keeps.times
      latest := unlogged RequestRecord.askTime (fun _ => rfl) ▸ keeps.latest
      conserved := fun other => ?_
      requested := fun other => ?_
      sized := fun other => ?_
      ascending := fun other => ?_
      punctual := ?_ }
  · rw [log, lastContact_append, ← keeps.contact]
    exact requests.written inv
  · rw [unlogged (RequestRecord.madeFor other) fun _ => rfl, log, List.filterMap_append,
      List.filterMap_map, List.append_assoc]
    refine (keeps.conserved other).trans (List.Perm.append_left _ (.of_eq ?_))
    by_cases same : pto = other
    · subst same
      have erased : taken.filterMap (RequestRecord.erasedFor pto ∘
          settle pto (time * 1000000) fAlreadyHave) = taken := by
        simp [Function.comp_def, settle, RequestRecord.erasedFor]
      rw [erased, mapAskFor_send, update_self, ← split]
    · have erased : taken.filterMap (RequestRecord.erasedFor other ∘
          settle pto (time * 1000000) fAlreadyHave) = [] := by
        simp [Function.comp_def, settle, RequestRecord.erasedFor, same]
      rw [erased, List.nil_append, mapAskFor_send, update_of_ne (Ne.symm same)]
  · rw [log, List.filterMap_append, List.filterMap_map, ← keeps.requested other, messages_send]
    by_cases same : pto = other
    · subst same
      rw [update_self, List.flatten_append, Batches.flatten_all, requests.requested]
      rfl
    · have requested : taken.filterMap (RequestRecord.requestedFrom other ∘
          settle pto (time * 1000000) fAlreadyHave) = [] := by
        simp [Function.comp_def, settle, RequestRecord.requestedFrom, same]
      rw [requested, List.append_nil, update_of_ne (Ne.symm same)]
  · rw [messages_send]
    by_cases same : pto = other
    · subst same
      rw [update_self]
      intro message member
      rcases List.mem_append.mp member with member | member
      · exact keeps.sized pto message member
      · exact requests.filled.sized message member
    · rw [update_of_ne (Ne.symm same)]
      exact keeps.sized other
  · rw [mapAskFor_send]
    by_cases same : pto = other
    · subst same
      rw [update_self]
      have ascending := keeps.ascending pto
      rw [split] at ascending
      exact (List.pairwise_append.mp ascending).2.1
    · rw [update_of_ne (Ne.symm same)]
      exact keeps.ascending other
  · intro pnode entry nNow fHave member
    rw [log] at member
    rcases List.mem_append.mp member with member | member
    · exact keeps.punctual pnode entry nNow fHave member
    · obtain ⟨other, taken, settled⟩ := List.mem_map.mp member
      obtain ⟨-, rfl, rfl, -⟩ := RequestRecord.settled.inj settled
      exact due other taken

private theorem keeps_run (events : List RequestEvent) : (run events).Keeps := by
  induction events using List.reverseRecOn with
  | nil => exact keeps_initial
  | append_singleton events event induction =>
      rw [run, List.foldl_concat]
      cases event with
      | askFor pnode inv time => exact induction.ask pnode inv time
      | sendMessages pto time fAlreadyHave => exact induction.send pto time fAlreadyHave
      | received inv => exact induction.forget inv

/-- After a call of `SendMessages` nothing is due. -/
private theorem Keeps.undue (keeps : history.Keeps) (pto : Nat) (time : Int)
    (fAlreadyHave : CInv → Bool) :
    ∀ entry ∈ (history.next (.sendMessages pto time fAlreadyHave)).state.mapAskFor pto,
      time * 1000000 < entry.nRequestTime := by
  obtain ⟨taken, -, -, late, -⟩ :=
    requests_request history.state pto (time * 1000000) fAlreadyHave
  have ascending := (keeps.send pto time fAlreadyHave).ascending pto
  have rest : (history.next (.sendMessages pto time fAlreadyHave)).state.mapAskFor pto =
      (history.state.request pto (time * 1000000) fAlreadyHave).2 := by
    rw [mapAskFor_send]
    exact update_self ..
  rw [rest] at ascending ⊢
  intro entry member
  cases left : (history.state.request pto (time * 1000000) fAlreadyHave).2 with
  | nil =>
      rw [left] at member
      cases member
  | cons first entries =>
      rw [left] at ascending member late
      have above : time * 1000000 < first.nRequestTime := late first rfl
      rcases List.mem_cons.mp member with rfl | member
      · exact above
      · exact above.trans_le ((List.pairwise_cons.mp ascending).1 entry member)

/-- How items are requested. -/
structure Requested (events : List RequestEvent) : Prop where
  /-- A request is scheduled two minutes after its item was last asked for or requested from any
  peer, and not before its turn. -/
  scheduled : Scheduled (run events).log
  /-- No two calls of `AskFor` have the same turn. -/
  turns : ((run events).log.filterMap RequestRecord.askTime).Pairwise (· < ·)
  /-- Every entry made for a peer was erased or waits, once. -/
  conserved : ∀ pnode, ((run events).log.filterMap (RequestRecord.madeFor pnode)).Perm
    ((run events).log.filterMap (RequestRecord.erasedFor pnode) ++
      (run events).state.mapAskFor pnode)
  /-- The messages carry the items of erased entries that the node did not have. -/
  messages : ∀ pnode, ((run events).messages pnode).flatten =
    (run events).log.filterMap (RequestRecord.requestedFrom pnode)
  sized : ∀ pnode, ∀ message ∈ (run events).messages pnode,
    0 < message.length ∧ message.length ≤ requestBatch
  /-- No entry is erased before its time. -/
  punctual : ∀ pto entry nNow fAlreadyHave,
    .settled pto entry nNow fAlreadyHave ∈ (run events).log → entry.nRequestTime ≤ nNow
  /-- The queue of a peer is ordered, and after a call of `SendMessages` nothing in it is due. -/
  ordered : ∀ pnode, Ascending ((run events).state.mapAskFor pnode)
  undue : ∀ before pto time fAlreadyHave,
    events = before ++ [.sendMessages pto time fAlreadyHave] →
      ∀ entry ∈ (run events).state.mapAskFor pto, time * 1000000 < entry.nRequestTime

end RequestHistory

end FooCoin

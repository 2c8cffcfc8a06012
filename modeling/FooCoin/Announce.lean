import FooCoin.Crypto
import FooCoin.Library.Batches
import FooCoin.MruSet
import FooCoin.Relay
import Mathlib.Data.Prod.Lex

/-!
# Announcing inventory to a peer

A node that has something to offer puts its name on a list for each peer, and `SendMessages` moves
names from the list into `inv` messages, unless the peer knows them: because it has sent them itself
or because they have been announced to it.  Transactions wait for a trickle, most of them.  What the
peer knows is remembered in an `mruset`, so a name may be announced again once enough others came.
-/

namespace FooCoin

open Window

/-- The order of inventory items. -/
def CInv.key (inv : CInv) : Int ×ₗ Nat := toLex (inv.type.toInt, inv.hash.toNat)

/-- The type of transactions in the inventory. -/
def msgTx : Int32 := 1

/-- An `inv` message is sent as soon as it has so many items. -/
def inventoryBatch : Nat := 1000

/-- `count` of an `mruset`. -/
def MruSet.count {α κ : Type} [LinearOrder κ] {key : α → κ} (m : MruSet key) (x : α) : Bool :=
  (m.set.lookup (key x)).isSome

/-- What a `CNode` remembers of the inventory of its peer. -/
structure PeerInventory where
  setInventoryKnown : MruSet CInv.key
  vInventoryToSend : List CInv

/-- A transaction waits for the next trickle: three quarters of them by their hashes, and our own
ones. -/
def fTrickleWait (crypto : Crypto) (hashSalt : UInt256) (fFromMe : UInt256 → Bool)
    (hash : UInt256) : Bool :=
  let hashRand := crypto.Hash (uint256Bytes (hash ^^^ hashSalt))
  hashRand &&& 3 ≠ 0 || fFromMe hash

/-- The variables of the loop over `vInventoryToSend`. -/
structure Announcing where
  setInventoryKnown : MruSet CInv.key
  /-- `vInv` with the `inv` messages that are out. -/
  vInv : Batches CInv
  vInvWait : List CInv

/-- What decides in a call of `SendMessages` which transactions wait: whether the peer is the one of
the trickle, the salt of the process, and the transactions that are our own. -/
structure Trickling where
  fSendTrickle : Bool
  hashSalt : UInt256
  fFromMe : UInt256 → Bool

/-- The item waits for a trickle. -/
def Trickling.waits (crypto : Crypto) (trickling : Trickling) (inv : CInv) : Bool :=
  inv.type == msgTx && !trickling.fSendTrickle &&
    fTrickleWait crypto trickling.hashSalt trickling.fFromMe inv.hash

namespace Announcing

/-- One turn of the loop. -/
def next (crypto : Crypto) (trickling : Trickling) (state : Announcing) (inv : CInv) : Announcing :=
  if state.setInventoryKnown.count inv then state
  else if trickling.waits crypto inv then { state with vInvWait := state.vInvWait ++ [inv] }
  else
    let (inserted, setInventoryKnown) := state.setInventoryKnown.insert inv
    if inserted.2 then
      { state with setInventoryKnown, vInv := state.vInv.add inventoryBatch inv }
    else { state with setInventoryKnown }

end Announcing

namespace PeerInventory

/-- A new node; `limit` is a thousandth of the size of the send buffer. -/
def init (limit : Nat) : PeerInventory where
  setInventoryKnown := .init limit
  vInventoryToSend := []

/-- `AddInventoryKnown`. -/
def addInventoryKnown (peer : PeerInventory) (inv : CInv) : PeerInventory :=
  { peer with setInventoryKnown := (peer.setInventoryKnown.insert inv).2 }

/-- `PushInventory`. -/
def pushInventory (peer : PeerInventory) (inv : CInv) : PeerInventory :=
  if peer.setInventoryKnown.count inv then peer
  else { peer with vInventoryToSend := peer.vInventoryToSend ++ [inv] }

/-- The loop over `vInventoryToSend`. -/
def announce (crypto : Crypto) (trickling : Trickling) (peer : PeerInventory) : Announcing :=
  peer.vInventoryToSend.foldl (Announcing.next crypto trickling)
    { setInventoryKnown := peer.setInventoryKnown, vInv := .empty, vInvWait := [] }

/-- The part of `SendMessages` for inventory, with the `inv` messages. -/
def sendInventory (crypto : Crypto) (trickling : Trickling) (peer : PeerInventory) :
    List (List CInv) × PeerInventory :=
  let state := peer.announce crypto trickling
  (state.vInv.all,
    { setInventoryKnown := state.setInventoryKnown, vInventoryToSend := state.vInvWait })

end PeerInventory

/-- What happens to the inventory of a peer. -/
inductive InventoryEvent
  | pushInventory (inv : CInv)
  | addInventoryKnown (inv : CInv)
  | sendMessages (trickling : Trickling)

/-- An item that was new to `setInventoryKnown`, because it was announced or learned. -/
structure Notice where
  inv : CInv
  fAnnounced : Bool

/-- A peer, the `inv` messages that were sent to it, and in their order all items that were new to
`setInventoryKnown`. -/
structure InventoryHistory where
  peer : PeerInventory
  messages : List (List CInv)
  noticed : List Notice

namespace InventoryHistory

/-- The history of a new node. -/
def init (limit : Nat) : InventoryHistory := ⟨.init limit, [], []⟩

/-- An event in the history. -/
def next (crypto : Crypto) (history : InventoryHistory) : InventoryEvent → InventoryHistory
  | .pushInventory inv => { history with peer := history.peer.pushInventory inv }
  | .addInventoryKnown inv =>
      { history with
        peer := history.peer.addInventoryKnown inv
        noticed := history.noticed ++
          if (history.peer.setInventoryKnown.insert inv).1.2 then [⟨inv, false⟩] else [] }
  | .sendMessages trickling =>
      let (messages, peer) := history.peer.sendInventory crypto trickling
      { peer
        messages := history.messages ++ messages
        noticed := history.noticed ++ messages.flatten.map fun inv => ⟨inv, true⟩ }

/-- The history of some events. -/
def run (crypto : Crypto) (limit : Nat) (events : List InventoryEvent) : InventoryHistory :=
  events.foldl (next crypto) (init limit)

/-- The items that were announced. -/
def announced (history : InventoryHistory) : List CInv := history.messages.flatten

/-- The items that became known. -/
def items (history : InventoryHistory) : List CInv := history.noticed.map Notice.inv

end InventoryHistory

/-- The items that were offered to the peer. -/
def pushed (events : List InventoryEvent) : List CInv :=
  events.filterMap fun event => match event with
    | .pushInventory inv => some inv
    | _ => none


/-! ## The known items -/

theorem CInv.key_injective : Function.Injective CInv.key := by
  intro left right same
  obtain ⟨types, hashes⟩ := Prod.mk.inj (toLex.injective same)
  cases left
  cases right
  congr 1
  · exact Int32.toInt_inj.mp types
  · exact BitVec.eq_of_toNat_eq hashes

section Known

variable {known : MruSet CInv.key} {inv : CInv}

theorem MruSet.Sound.count_eq (sound : known.Sound) (inv : CInv) :
    known.count inv = true ↔ inv ∈ known.queue := by
  rw [MruSet.count, Option.isSome_iff_exists, ← sound.same.mem_iff]
  constructor
  · rintro ⟨present, found⟩
    obtain ⟨listed, same⟩ := SortedSet.lookup_eq_some.mp found
    exact CInv.key_injective same ▸ listed
  · exact fun listed => ⟨inv, SortedSet.lookup_eq_some.mpr ⟨listed, rfl⟩⟩

/-- To insert a known item changes nothing. -/
theorem MruSet.Sound.insert_known (sound : known.Sound) (listed : inv ∈ known.queue) :
    known.insert inv = ((inv, false), known) :=
  sound.insert_present listed rfl

/-- An unknown item becomes the latest one. -/
theorem MruSet.Sound.insert_unknown (sound : known.Sound) (unlisted : inv ∉ known.queue) :
    (known.insert inv).1.2 = true ∧ (known.insert inv).2.Sound ∧
      (known.insert inv).2.nMaxSize = known.nMaxSize ∧
      (known.insert inv).2.queue = latest known.nMaxSize (known.queue ++ [inv]) := by
  have absent : known.set.lookup (CInv.key inv) = none := by
    have uncounted : ¬known.count inv = true := fun counted =>
      unlisted ((sound.count_eq inv).mp counted)
    rwa [MruSet.count, Bool.not_eq_true, Option.isSome_eq_false_iff,
      Option.isNone_iff_eq_none] at uncounted
  obtain ⟨result, limit, -, queue⟩ := sound.insert_new absent
  exact ⟨congrArg Prod.snd result, sound.step (.insert inv), limit, queue⟩

end Known

/-! ## One call of `SendMessages` -/

private theorem inventoryBatch_pos : 0 < inventoryBatch := by norm_num [inventoryBatch]

/-- What the loop keeps after some items, when the items of a log were known before it. -/
private structure Announces (crypto : Crypto) (trickling : Trickling) (limit : Nat)
    (log taken : List CInv) (state : Announcing) : Prop where
  sound : state.setInventoryKnown.Sound
  limited : state.setInventoryKnown.nMaxSize = limit
  queue : state.setInventoryKnown.queue = latest limit (log ++ state.vInv.elements)
  spaced : Spaced limit (log ++ state.vInv.elements)
  filled : state.vInv.Filled inventoryBatch
  handled : ∀ inv ∈ taken,
    inv ∈ latest limit log ∨ inv ∈ state.vInv.elements ∨ inv ∈ state.vInvWait
  waiting : ∀ inv ∈ state.vInvWait, trickling.waits crypto inv = true
  sent : state.vInv.elements.Sublist taken
  kept : state.vInvWait.Sublist taken

section Loop

variable {crypto : Crypto} {trickling : Trickling} {limit : Nat} {log taken : List CInv}
  {state : Announcing} {inv : CInv}

/-- A known item is passed over. -/
private theorem Announces.known (announces : Announces crypto trickling limit log taken state)
    (listed : inv ∈ state.setInventoryKnown.queue) :
    Announces crypto trickling limit log (taken ++ [inv]) state :=
  { announces with
    handled := by
      intro other member
      rcases List.mem_append.mp member with member | member
      · exact announces.handled other member
      · obtain rfl := List.mem_singleton.mp member
        rw [announces.queue] at listed
        exact (mem_latest_append listed).imp_right .inl
    sent := announces.sent.trans (List.sublist_append_left _ _)
    kept := announces.kept.trans (List.sublist_append_left _ _) }

/-- An item waits. -/
private theorem Announces.wait (announces : Announces crypto trickling limit log taken state)
    (waits : trickling.waits crypto inv = true) :
    Announces crypto trickling limit log (taken ++ [inv])
      { state with vInvWait := state.vInvWait ++ [inv] } :=
  { announces with
    handled := by
      intro other member
      rcases List.mem_append.mp member with member | member
      · exact (announces.handled other member).imp_right
          (.imp_right (List.mem_append_left _))
      · exact .inr (.inr (List.mem_append_right _ member))
    waiting := by
      intro other member
      rcases List.mem_append.mp member with member | member
      · exact announces.waiting other member
      · obtain rfl := List.mem_singleton.mp member
        exact waits
    sent := announces.sent.trans (List.sublist_append_left _ _)
    kept := announces.kept.append (.refl _) }

/-- An item is announced. -/
private theorem Announces.announce (announces : Announces crypto trickling limit log taken state)
    (unlisted : inv ∉ state.setInventoryKnown.queue) :
    Announces crypto trickling limit log (taken ++ [inv])
      { state with
        setInventoryKnown := (state.setInventoryKnown.insert inv).2
        vInv := state.vInv.add inventoryBatch inv } := by
  obtain ⟨-, sound, limited, queue⟩ := announces.sound.insert_unknown unlisted
  have announced := Batches.elements_add inventoryBatch state.vInv inv
  refine
    { sound
      limited := limited.trans announces.limited
      queue := ?_
      spaced := ?_
      filled := announces.filled.add inv
      handled := ?_
      waiting := announces.waiting
      sent := ?_
      kept := announces.kept.trans (List.sublist_append_left _ _) }
  · rw [queue, announces.limited, announces.queue, latest_latest_append, announced,
      List.append_assoc]
  · rw [announced, ← List.append_assoc]
    exact announces.spaced.concat (announces.queue ▸ unlisted)
  · intro other member
    rw [announced, List.mem_append]
    rcases List.mem_append.mp member with member | member
    · exact (announces.handled other member).imp_right (.imp_left .inl)
    · exact .inr (.inl (.inr member))
  · rw [announced]
    exact announces.sent.append (.refl _)

/-- One turn of the loop. -/
private theorem Announces.next (announces : Announces crypto trickling limit log taken state)
    (inv : CInv) :
    Announces crypto trickling limit log (taken ++ [inv]) (state.next crypto trickling inv) := by
  rw [Announcing.next]
  split_ifs with counted waits
  · exact announces.known ((announces.sound.count_eq inv).mp counted)
  · exact announces.wait waits
  · have unlisted : inv ∉ state.setInventoryKnown.queue := fun listed =>
      counted ((announces.sound.count_eq inv).mpr listed)
    simp only [(announces.sound.insert_unknown unlisted).1, if_true]
    exact announces.announce unlisted

end Loop

section Send

variable {crypto : Crypto} {trickling : Trickling} {limit : Nat} {log : List CInv}
  {peer : PeerInventory}

/-- The whole loop. -/
private theorem announces_announce (sound : peer.setInventoryKnown.Sound)
    (limited : peer.setInventoryKnown.nMaxSize = limit)
    (queue : peer.setInventoryKnown.queue = latest limit log) (spaced : Spaced limit log) :
    Announces crypto trickling limit log peer.vInventoryToSend
      (peer.announce crypto trickling) := by
  have start : Announces crypto trickling limit log []
      { setInventoryKnown := peer.setInventoryKnown, vInv := .empty, vInvWait := [] } :=
    { sound
      limited
      queue := by simpa [Batches.elements, Batches.empty] using queue
      spaced := by simpa [Batches.elements, Batches.empty] using spaced
      filled := Batches.filled_empty inventoryBatch_pos
      handled := fun inv member => absurd member List.not_mem_nil
      waiting := fun inv member => absurd member List.not_mem_nil
      sent := .refl _
      kept := .refl _ }
  exact Histories.foldl_keeps (fun _ _ inv announces => announces.next inv) start
    peer.vInventoryToSend

/-- The messages carry what was announced. -/
private theorem flatten_sendInventory :
    (peer.sendInventory crypto trickling).1.flatten =
      (peer.announce crypto trickling).vInv.elements :=
  Batches.flatten_all _

private theorem type_of_waits {inv : CInv} (waits : trickling.waits crypto inv = true) :
    inv.type = msgTx ∧ trickling.fSendTrickle = false := by
  simp only [Trickling.waits, Bool.and_eq_true, beq_iff_eq, Bool.not_eq_true'] at waits
  exact waits.1

end Send

/-! ## All events -/

namespace InventoryHistory

/-- Items other than transactions do not trickle. -/
def untrickled (items : List CInv) : List CInv := items.filter fun inv => inv.type != msgTx

/-- What every history keeps. -/
private structure Keeps (limit : Nat) (events : List InventoryEvent) (history : InventoryHistory) :
    Prop where
  sound : history.peer.setInventoryKnown.Sound
  limited : history.peer.setInventoryKnown.nMaxSize = limit
  queue : history.peer.setInventoryKnown.queue = latest limit history.items
  spaced : Spaced limit history.items
  sized : ∀ message ∈ history.messages, 0 < message.length ∧ message.length ≤ inventoryBatch
  announced : history.announced = (history.noticed.filter Notice.fAnnounced).map Notice.inv
  learned : ∀ notice ∈ history.noticed, notice.fAnnounced = false →
    .addInventoryKnown notice.inv ∈ events
  offered : history.announced ++ history.peer.vInventoryToSend ⊆ pushed events
  ordered : (untrickled (history.announced ++ history.peer.vInventoryToSend)).Sublist
    (untrickled (pushed events))

variable {crypto : Crypto} {limit : Nat} {events : List InventoryEvent}
  {history : InventoryHistory}

private theorem pushed_concat (event : InventoryEvent) :
    pushed (events ++ [event]) = pushed events ++ pushed [event] :=
  List.filterMap_append

private theorem keeps_init : Keeps limit [] (init limit) where
  sound := MruSet.sound_init limit
  limited := rfl
  queue := (latest_of_le (.inr (Nat.zero_le _))).symm
  spaced := spaced_nil
  sized _ member := absurd member List.not_mem_nil
  announced := rfl
  learned _ member := absurd member List.not_mem_nil
  offered := List.nil_subset _
  ordered := .refl _

private theorem Keeps.push (keeps : Keeps limit events history) (inv : CInv) :
    Keeps limit (events ++ [.pushInventory inv]) (history.next crypto (.pushInventory inv)) := by
  have same : pushed (events ++ [.pushInventory inv]) = pushed events ++ [inv] := pushed_concat _
  rw [next, PeerInventory.pushInventory]
  split_ifs with counted
  · exact
      { keeps with
        learned := fun notice member learned =>
          List.mem_append_left _ (keeps.learned notice member learned)
        offered := by
          rw [same]
          exact List.subset_append_of_subset_left _ keeps.offered
        ordered := by
          rw [same]
          exact keeps.ordered.trans ((List.sublist_append_left _ _).filter _) }
  · exact
      { keeps with
        learned := fun notice member learned =>
          List.mem_append_left _ (keeps.learned notice member learned)
        offered := by
          rw [same, ← List.append_assoc]
          exact List.append_subset.mpr ⟨List.subset_append_of_subset_left _ keeps.offered,
            List.subset_append_right _ _⟩
        ordered := by
          rw [same, ← List.append_assoc, untrickled, untrickled, List.filter_append,
            List.filter_append (pushed events)]
          exact keeps.ordered.append (.refl _) }

private theorem Keeps.learn (keeps : Keeps limit events history) (inv : CInv) :
    Keeps limit (events ++ [.addInventoryKnown inv])
      (history.next crypto (.addInventoryKnown inv)) := by
  have same : pushed (events ++ [.addInventoryKnown inv]) = pushed events := by
    rw [pushed_concat]
    exact List.append_nil _
  have earlier : ∀ notice ∈ history.noticed, notice.fAnnounced = false →
      .addInventoryKnown notice.inv ∈ events ++ [.addInventoryKnown inv] :=
    fun notice member learned => List.mem_append_left _ (keeps.learned notice member learned)
  rw [next, PeerInventory.addInventoryKnown]
  by_cases listed : inv ∈ history.peer.setInventoryKnown.queue
  · rw [keeps.sound.insert_known listed, if_neg Bool.false_ne_true, List.append_nil]
    exact
      { keeps with
        learned := earlier
        offered := same ▸ keeps.offered
        ordered := same ▸ keeps.ordered }
  · obtain ⟨inserted, sound, limited, queue⟩ := keeps.sound.insert_unknown listed
    have items : (history.noticed ++ [Notice.mk inv false]).map Notice.inv =
        history.items ++ [inv] := List.map_append
    rw [inserted, if_pos rfl]
    refine
      { sound
        limited := limited.trans keeps.limited
        queue := ?_
        spaced := ?_
        sized := keeps.sized
        announced := ?_
        learned := ?_
        offered := same ▸ keeps.offered
        ordered := same ▸ keeps.ordered }
    · rw [InventoryHistory.items, items, ← latest_latest_append, ← keeps.queue, ← keeps.limited]
      exact queue
    · rw [InventoryHistory.items, items]
      exact keeps.spaced.concat (keeps.queue ▸ listed)
    · rw [List.filter_append]
      simpa [InventoryHistory.announced] using keeps.announced
    · intro notice member learned
      rcases List.mem_append.mp member with member | member
      · exact earlier notice member learned
      · obtain rfl := List.mem_singleton.mp member
        exact List.mem_append_right _ List.mem_cons_self

/-- The loop of a call of `SendMessages` in a history. -/
private theorem Keeps.loop (keeps : Keeps limit events history) (crypto : Crypto)
    (trickling : Trickling) :
    Announces crypto trickling limit history.items history.peer.vInventoryToSend
      (history.peer.announce crypto trickling) :=
  announces_announce keeps.sound keeps.limited keeps.queue keeps.spaced

private theorem items_send (trickling : Trickling) :
    (history.next crypto (.sendMessages trickling)).items =
      history.items ++ (history.peer.announce crypto trickling).vInv.elements := by
  have kept : ∀ items : List CInv, (items.map (Notice.mk · true)).map Notice.inv = items :=
    fun items => by simp [Function.comp_def]
  rw [InventoryHistory.items, next]
  dsimp only
  rw [List.map_append, kept, flatten_sendInventory]
  rfl

private theorem announced_send (trickling : Trickling) :
    (history.next crypto (.sendMessages trickling)).announced =
      history.announced ++ (history.peer.announce crypto trickling).vInv.elements := by
  rw [InventoryHistory.announced, next]
  dsimp only
  rw [List.flatten_append, flatten_sendInventory]
  rfl

private theorem untrickled_waiting {trickling : Trickling} {items : List CInv}
    (waiting : ∀ inv ∈ items, trickling.waits crypto inv = true) : untrickled items = [] := by
  refine List.filter_eq_nil_iff.mpr fun inv member => ?_
  simp [(type_of_waits (waiting inv member)).1]

private theorem Keeps.send (keeps : Keeps limit events history) (trickling : Trickling) :
    Keeps limit (events ++ [.sendMessages trickling])
      (history.next crypto (.sendMessages trickling)) := by
  have same : pushed (events ++ [.sendMessages trickling]) = pushed events := by
    rw [pushed_concat]
    exact List.append_nil _
  have announces := keeps.loop crypto trickling
  refine
    { sound := announces.sound
      limited := announces.limited
      queue := ?_
      spaced := ?_
      sized := ?_
      announced := ?_
      learned := ?_
      offered := ?_
      ordered := ?_ }
  · rw [items_send]
    exact announces.queue
  · rw [items_send]
    exact announces.spaced
  · intro message member
    rcases List.mem_append.mp member with member | member
    · exact keeps.sized message member
    · exact announces.filled.sized message member
  · rw [announced_send, keeps.announced, next]
    dsimp only
    rw [List.filter_append, List.map_append, flatten_sendInventory]
    simp [List.filter_map, Function.comp_def]
  · intro notice member learned
    rcases List.mem_append.mp member with member | member
    · exact List.mem_append_left _ (keeps.learned notice member learned)
    · obtain ⟨inv, -, rfl⟩ := List.mem_map.mp member
      cases learned
  · rw [same, announced_send, List.append_assoc]
    obtain ⟨before, waiting⟩ := List.append_subset.mp keeps.offered
    refine List.append_subset.mpr ⟨before, List.append_subset.mpr ⟨?_, ?_⟩⟩
    · exact List.Subset.trans announces.sent.subset waiting
    · exact List.Subset.trans announces.kept.subset waiting
  · have waiting : untrickled (history.next crypto (.sendMessages trickling)).peer.vInventoryToSend
        = [] := untrickled_waiting announces.waiting
    rw [same, announced_send, untrickled, List.filter_append, ← untrickled, ← untrickled, waiting,
      List.append_nil]
    refine List.Sublist.trans ?_ keeps.ordered
    exact ((List.Sublist.refl _).append announces.sent).filter _

private theorem run_concat (event : InventoryEvent) :
    run crypto limit (events ++ [event]) = (run crypto limit events).next crypto event :=
  List.foldl_concat ..

private theorem keeps_run (crypto : Crypto) (limit : Nat) (events : List InventoryEvent) :
    Keeps limit events (run crypto limit events) := by
  induction events using List.reverseRecOn with
  | nil => exact keeps_init
  | append_singleton events event induction =>
      rw [run_concat]
      cases event with
      | pushInventory inv => exact induction.push inv
      | addInventoryKnown inv => exact induction.learn inv
      | sendMessages trickling => exact induction.send trickling

/-! ## What the peer hears -/

/-- An offered item that the peer did not know waits or has become known since. -/
private def Settled (log : List CInv) (inv : CInv) (history : InventoryHistory) : Prop :=
  (∃ since, history.items = log ++ since ∧ inv ∈ since) ∨
    (∃ since, history.items = log ++ since) ∧ inv ∈ history.peer.vInventoryToSend

private theorem Settled.items {log : List CInv} {inv : CInv} (settled : Settled log inv history) :
    ∃ since, history.items = log ++ since := by
  obtain ⟨since, items, -⟩ | ⟨extends_log, -⟩ := settled
  · exact ⟨since, items⟩
  · exact extends_log

/-- More known items. -/
private theorem Settled.append {log more : List CInv} {inv : CInv} {after : InventoryHistory}
    (settled : Settled log inv history) (items : after.items = history.items ++ more)
    (waiting : inv ∈ history.peer.vInventoryToSend →
      inv ∈ more ∨ inv ∈ after.peer.vInventoryToSend) : Settled log inv after := by
  obtain ⟨since, extended⟩ := settled.items
  have longer : after.items = log ++ (since ++ more) := by
    rw [items, extended, List.append_assoc]
  obtain ⟨known, same, member⟩ | ⟨-, member⟩ := settled
  · obtain rfl := List.append_cancel_left (extended.symm.trans same)
    exact .inl ⟨_, longer, List.mem_append_left _ member⟩
  · rcases waiting member with member | member
    · exact .inl ⟨_, longer, List.mem_append_right _ member⟩
    · exact .inr ⟨⟨_, longer⟩, member⟩

private theorem Settled.next {log : List CInv} {inv : CInv} (settled : Settled log inv history)
    (keeps : Keeps limit events history) (unknown : inv ∉ latest limit log)
    (event : InventoryEvent) : Settled log inv (history.next crypto event) := by
  cases event with
  | pushInventory other =>
      refine settled.append (List.append_nil _).symm fun member => .inr ?_
      rw [InventoryHistory.next, PeerInventory.pushInventory]
      split_ifs
      · exact member
      · exact List.mem_append_left _ member
  | addInventoryKnown other => exact settled.append List.map_append .inr
  | sendMessages trickling =>
      obtain ⟨since, extended⟩ := settled.items
      have announces := keeps.loop crypto trickling
      obtain ⟨known, same, member⟩ | ⟨-, member⟩ := settled
      · rw [same] at extended
        exact .inl ⟨_, by rw [items_send, same, List.append_assoc],
          List.mem_append_left _ member⟩
      · have longer : (history.next crypto (.sendMessages trickling)).items =
            log ++ (since ++ (history.peer.announce crypto trickling).vInv.elements) := by
          rw [items_send, extended, List.append_assoc]
        obtain recent | announced | waits := announces.handled inv member
        · rw [extended] at recent
          have member := (mem_latest_append recent).resolve_left unknown
          exact .inl ⟨_, longer, List.mem_append_left _ member⟩
        · exact .inl ⟨_, longer, List.mem_append_right _ announced⟩
        · exact .inr ⟨⟨_, longer⟩, waits⟩

private theorem settled_run {before : List InventoryEvent} {inv : CInv}
    (unknown : inv ∉ latest limit (run crypto limit before).items) (after : List InventoryEvent) :
    Settled (run crypto limit before).items inv
      (run crypto limit (before ++ .pushInventory inv :: after)) := by
  induction after using List.reverseRecOn with
  | nil =>
      have keeps := keeps_run crypto limit before
      have uncounted : ¬(run crypto limit before).peer.setInventoryKnown.count inv = true :=
        fun counted => unknown (keeps.queue ▸ (keeps.sound.count_eq inv).mp counted)
      rw [run_concat, next, PeerInventory.pushInventory, if_neg uncounted]
      exact .inr ⟨⟨[], (List.append_nil _).symm⟩, List.mem_append_right _ List.mem_cons_self⟩
  | append_singleton after event induction =>
      rw [← List.cons_append, ← List.append_assoc, run_concat]
      exact induction.next (keeps_run crypto limit _) unknown event

/-- What a peer hears of the items that it is offered. -/
structure Hears (crypto : Crypto) (limit : Nat) (events : List InventoryEvent) : Prop where
  /-- Unless an item is among the latest ones that the peer knows when it is offered, it becomes
  known later, or it still waits. -/
  reached : ∀ before inv after, events = before ++ .pushInventory inv :: after →
    inv ∈ latest limit (run crypto limit before).items ∨
      (∃ since, (run crypto limit events).items = (run crypto limit before).items ++ since ∧
        inv ∈ since) ∨
      inv ∈ (run crypto limit events).peer.vInventoryToSend
  /-- Only transactions wait, and nothing after a trickle. -/
  waiting : ∀ before trickling, events = before ++ [.sendMessages trickling] →
    ∀ inv ∈ (run crypto limit events).peer.vInventoryToSend,
      inv.type = msgTx ∧ trickling.fSendTrickle = false
  /-- What becomes known has been announced, or the peer has sent it. -/
  announced : (run crypto limit events).announced =
    ((run crypto limit events).noticed.filter Notice.fAnnounced).map Notice.inv
  learned : ∀ notice ∈ (run crypto limit events).noticed, notice.fAnnounced = false →
    .addInventoryKnown notice.inv ∈ events
  /-- Between two times that an item becomes known, as many others as the limit says come. -/
  spaced : ∀ earlier inv between later,
    (run crypto limit events).items = earlier ++ inv :: between ++ inv :: later →
      limit ≠ 0 ∧ limit ≤ between.length
  /-- Only what was offered is announced, and blocks in their order. -/
  offered : (run crypto limit events).announced ⊆ pushed events
  ordered : (untrickled (run crypto limit events).announced).Sublist (untrickled (pushed events))
  /-- A message carries from 1 to 1000 items. -/
  sized : ∀ message ∈ (run crypto limit events).messages,
    0 < message.length ∧ message.length ≤ inventoryBatch

/-- Whatever is offered, learned and sent, in any order: a peer hears of every item that it does not
know, again only after as many others as the limit says, and of nothing else. -/
theorem run_hears (crypto : Crypto) (limit : Nat) (events : List InventoryEvent) :
    Hears crypto limit events := by
  have keeps := keeps_run crypto limit events
  refine
    { reached := ?_
      waiting := ?_
      announced := keeps.announced
      learned := keeps.learned
      spaced := fun earlier inv between later twice => keeps.spaced.gap twice
      offered := (List.append_subset.mp keeps.offered).1
      ordered := ((List.sublist_append_left _ _).filter _).trans keeps.ordered
      sized := keeps.sized }
  · rintro before inv after rfl
    refine or_iff_not_imp_left.mpr fun unknown => ?_
    exact (settled_run unknown after).imp_right And.right
  · rintro before trickling rfl inv
    rw [run_concat]
    intro member
    have announces := (keeps_run crypto limit before).loop crypto trickling
    exact type_of_waits (announces.waiting inv member)

end InventoryHistory

end FooCoin

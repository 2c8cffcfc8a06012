import FooCoin.Library.Histories
import FooCoin.NetAddr

/-!
# Bans

A peer that misbehaves collects points.  When it has as many as `-banscore` says, its address is
banned for a time and its connection is closed.  A longer ban replaces a shorter one.  No
connection is accepted from a banned address or opened to it, except to a peer given by name.
-/

namespace FooCoin

open Function

/-- `-banscore` and `-bantime`. -/
structure BanOptions where
  banscore : Int
  bantime : Int

/-- What bans look at in a `CNode`. -/
structure BanNode where
  addr : CNetAddr
  nMisbehavior : Int
  /-- `hSocket` is not `INVALID_SOCKET`. -/
  fOpen : Bool

/-- `setBanned`, and the nodes in the order in which they were made. -/
structure BanState where
  setBanned : CNetAddr → Option Int
  nodes : List BanNode

/-- What happens to the nodes, at times of `GetTime()`. -/
inductive BanEvent
  /-- A connection from an address is tried, or one to it. -/
  | connect (addr : CNetAddr) (now : Int)
  /-- A connection to a peer given by its name. -/
  | connectNamed (addr : CNetAddr)
  | misbehave (pnode : Nat) (howmuch : Int) (now : Int)
  /-- The connection ends for another reason. -/
  | close (pnode : Nat)

namespace BanState

/-- No bans and no nodes. -/
def initial : BanState := ⟨fun _ => none, []⟩

/-- `CNode::IsBanned`. -/
def isBanned (state : BanState) (ip : CNetAddr) (now : Int) : Bool :=
  (state.setBanned ip).any fun t => now < t

/-- A new node. -/
def addNode (state : BanState) (addr : CNetAddr) : BanState :=
  { state with nodes := state.nodes ++ [⟨addr, 0, true⟩] }

/-- `if (setBanned[addr] < banTime) setBanned[addr] = banTime`. -/
def ban (state : BanState) (addr : CNetAddr) (banTime : Int) : BanState :=
  { state with
    setBanned := update state.setBanned addr (some (max ((state.setBanned addr).getD 0) banTime)) }

/-- `CNode::CloseSocketDisconnect`. -/
def closeSocketDisconnect (state : BanState) (pnode : Nat) : BanState :=
  { state with nodes := state.nodes.modify pnode fun node => { node with fOpen := false } }

/-- `nMisbehavior += howmuch`. -/
def addPoints (state : BanState) (pnode : Nat) (howmuch : Int) : BanState :=
  { state with
    nodes := state.nodes.modify pnode fun node =>
      { node with nMisbehavior := node.nMisbehavior + howmuch } }

/-- `CNode::Misbehaving` of a node, with what it returns. -/
def misbehaving (options : BanOptions) (state : BanState) (pnode : Nat) (node : BanNode)
    (howmuch now : Int) : Bool × BanState :=
  if node.addr.isLocal then (false, state)
  else
    let state := state.addPoints pnode howmuch
    if options.banscore ≤ node.nMisbehavior + howmuch then
      (true, (state.ban node.addr (now + options.bantime)).closeSocketDisconnect pnode)
    else (false, state)

/-- One event, `none` where the node does not exist. -/
def step (options : BanOptions) (state : BanState) : BanEvent → Option BanState
  | .connect addr now => some (if state.isBanned addr now then state else state.addNode addr)
  | .connectNamed addr => some (state.addNode addr)
  | .misbehave pnode howmuch now =>
      state.nodes[pnode]?.map fun node => (misbehaving options state pnode node howmuch now).2
  | .close pnode => some (state.closeSocketDisconnect pnode)

/-- The state after some events. -/
def run (options : BanOptions) (events : List BanEvent) : Option BanState :=
  events.foldlM (step options) initial

end BanState

/-- The points that an event gives to a node. -/
def BanEvent.points (pnode : Nat) : BanEvent → Int
  | .misbehave other howmuch _ => if other = pnode then howmuch else 0
  | _ => 0

/-- The points that a node has got. -/
def pointsOf (pnode : Nat) (events : List BanEvent) : Int :=
  (events.map (BanEvent.points pnode)).sum

/-- A report at a time gives an address, which is not local, as many points as a ban takes. -/
def Banning (options : BanOptions) (events : List BanEvent) (ip : CNetAddr) (time : Int) : Prop :=
  ∃ before pnode howmuch after earlier node,
    events = before ++ .misbehave pnode howmuch time :: after ∧
      BanState.run options before = some earlier ∧ earlier.nodes[pnode]? = some node ∧
      node.addr = ip ∧ ip.isLocal = false ∧
      options.banscore ≤ pointsOf pnode before + howmuch

namespace BanState

/-! ## One event -/

variable {options : BanOptions} {state after : BanState} {events : List BanEvent}

/-- What every run keeps of the nodes. -/
private structure Counted (options : BanOptions) (events : List BanEvent) (state : BanState) :
    Prop where
  points : ∀ (pnode : Nat) node, state.nodes[pnode]? = some node → node.addr.isLocal = false →
    node.nMisbehavior = pointsOf pnode events
  unmade : ∀ pnode, state.nodes.length ≤ pnode → pointsOf pnode events = 0
  below : 0 < options.banscore → ∀ (pnode : Nat) node, state.nodes[pnode]? = some node →
    node.fOpen = true → node.nMisbehavior < options.banscore

private theorem pointsOf_concat (pnode : Nat) (events : List BanEvent) (event : BanEvent) :
    pointsOf pnode (events ++ [event]) = pointsOf pnode events + event.points pnode := by
  simp [pointsOf]

/-- An event that gives no points and leaves the nodes alone. -/
private theorem Counted.same (counted : Counted options events state) {event : BanEvent}
    (nodes : after.nodes = state.nodes)
    (points : ∀ (pnode : Nat) node, state.nodes[pnode]? = some node → node.addr.isLocal = false →
      event.points pnode = 0)
    (unmade : ∀ pnode, state.nodes.length ≤ pnode → event.points pnode = 0) :
    Counted options (events ++ [event]) after := by
  refine ⟨?_, ?_, nodes ▸ counted.below⟩
  · intro pnode node found foreign
    rw [nodes] at found
    rw [pointsOf_concat, points pnode node found foreign, add_zero]
    exact counted.points pnode node found foreign
  · intro pnode beyond
    rw [nodes] at beyond
    rw [pointsOf_concat, unmade pnode beyond, counted.unmade pnode beyond, add_zero]

/-- A new node has no points. -/
private theorem Counted.addNode (counted : Counted options events state) (addr : CNetAddr)
    {event : BanEvent} (points : ∀ pnode, event.points pnode = 0) :
    Counted options (events ++ [event]) (state.addNode addr) := by
  have cases_of : ∀ (pnode : Nat) node, (state.addNode addr).nodes[pnode]? = some node →
      state.nodes[pnode]? = some node ∨ state.nodes.length ≤ pnode ∧ node = ⟨addr, 0, true⟩ := by
    intro pnode node found
    rw [BanState.addNode, List.getElem?_append] at found
    split_ifs at found with old
    · exact .inl found
    · obtain ⟨_, same⟩ := List.getElem?_eq_some_iff.mp found
      rw [List.getElem_singleton] at same
      exact .inr ⟨not_lt.mp old, same.symm⟩
  refine ⟨?_, ?_, ?_⟩
  · intro pnode node found foreign
    rw [pointsOf_concat, points, add_zero]
    rcases cases_of pnode node found with found | ⟨beyond, rfl⟩
    · exact counted.points pnode node found foreign
    · exact (counted.unmade pnode beyond).symm
  · intro pnode beyond
    have longer : (state.addNode addr).nodes.length = state.nodes.length + 1 := by
      simp [BanState.addNode]
    rw [pointsOf_concat, points, add_zero]
    exact counted.unmade pnode (by omega)
  · intro positive pnode node found connected
    rcases cases_of pnode node found with found | ⟨-, rfl⟩
    · exact counted.below positive pnode node found connected
    · exact positive

private theorem Counted.close (counted : Counted options events state) (pnode : Nat) :
    Counted options events (state.closeSocketDisconnect pnode) := by
  have before_of : ∀ (other : Nat) node,
      (state.closeSocketDisconnect pnode).nodes[other]? = some node →
      ∃ before, state.nodes[other]? = some before ∧ before.addr = node.addr ∧
        before.nMisbehavior = node.nMisbehavior ∧ (node.fOpen = true → before.fOpen = true) := by
    intro other node found
    rw [closeSocketDisconnect, List.getElem?_modify] at found
    obtain ⟨before, present, rfl⟩ := Option.map_eq_some_iff.mp found
    refine ⟨before, present, ?_⟩
    split_ifs
    · exact ⟨rfl, rfl, fun connected => by cases connected⟩
    · exact ⟨rfl, rfl, id⟩
  refine ⟨?_, ?_, ?_⟩
  · intro other node found foreign
    obtain ⟨before, present, addr, points, -⟩ := before_of other node found
    rw [← points]
    exact counted.points other before present (addr ▸ foreign)
  · intro other beyond
    rw [closeSocketDisconnect, List.length_modify] at beyond
    exact counted.unmade other beyond
  · intro positive other node found connected
    obtain ⟨before, present, -, points, still⟩ := before_of other node found
    rw [← points]
    exact counted.below positive other before present (still connected)

/-- The nodes after a report about a node that is not local. -/
private theorem nodes_misbehaving (options : BanOptions) {pnode : Nat} {node : BanNode}
    (present : state.nodes[pnode]? = some node) (foreign : node.addr.isLocal = false)
    (howmuch now : Int) :
    (misbehaving options state pnode node howmuch now).2.nodes =
      state.nodes.set pnode { node with
        nMisbehavior := node.nMisbehavior + howmuch
        fOpen := node.fOpen && !decide (options.banscore ≤ node.nMisbehavior + howmuch) } := by
  obtain ⟨inside, same⟩ := List.getElem?_eq_some_iff.mp present
  rw [misbehaving, if_neg (Bool.eq_false_iff.mp foreign)]
  dsimp only
  split_ifs with enough
  · simp [closeSocketDisconnect, ban, addPoints, List.modify_eq_set_getElem?, inside, same, enough]
  · simp [addPoints, List.modify_eq_set_getElem?, inside, same, enough]

private theorem Counted.misbehave (counted : Counted options events state) {pnode : Nat}
    {node : BanNode} (present : state.nodes[pnode]? = some node) (howmuch now : Int) :
    Counted options (events ++ [.misbehave pnode howmuch now])
      (misbehaving options state pnode node howmuch now).2 := by
  obtain ⟨inside, -⟩ := List.getElem?_eq_some_iff.mp present
  have elsewhere : ∀ other, pnode ≠ other →
      BanEvent.points other (.misbehave pnode howmuch now) = 0 := fun other different =>
    if_neg different
  cases own : node.addr.isLocal with
  | true =>
      have unchanged : misbehaving options state pnode node howmuch now = (false, state) :=
        if_pos own
      rw [unchanged]
      refine counted.same rfl (fun other found there foreign => elsewhere other ?_)
        fun other beyond => elsewhere other (by omega)
      rintro rfl
      rw [there] at present
      obtain rfl := Option.some.inj present
      rw [own] at foreign
      cases foreign
  | false =>
      have nodes := nodes_misbehaving options present own howmuch now
      refine ⟨?_, ?_, ?_⟩
      · intro other after found foreign
        rw [pointsOf_concat]
        rw [nodes, List.getElem?_set] at found
        split_ifs at found with same
        · subst same
          obtain rfl := Option.some.inj found
          dsimp only
          rw [counted.points pnode node present own, BanEvent.points, if_pos rfl]
        · rw [elsewhere other same, add_zero]
          exact counted.points other after found foreign
      · intro other beyond
        rw [nodes, List.length_set] at beyond
        rw [pointsOf_concat, elsewhere other (by omega), add_zero]
        exact counted.unmade other beyond
      · intro positive other after found connected
        rw [nodes, List.getElem?_set] at found
        split_ifs at found with same
        · obtain rfl := Option.some.inj found
          simp only [Bool.and_eq_true, Bool.not_eq_true', decide_eq_false_iff_not] at connected
          exact not_le.mp connected.2
        · exact counted.below positive other after found connected

/-! ## The bans -/

/-- The entries of `setBanned` come from the bans. -/
private structure Recorded (options : BanOptions) (events : List BanEvent) (state : BanState) :
    Prop where
  caused : ∀ ip t, state.setBanned ip = some t →
    t = 0 ∨ ∃ time, Banning options events ip time ∧ t = time + options.bantime
  lasting : ∀ ip time, Banning options events ip time →
    ∃ t, state.setBanned ip = some t ∧ time + options.bantime ≤ t

private theorem run_concat (events : List BanEvent) (event : BanEvent) :
    run options (events ++ [event]) = (run options events).bind fun state =>
      state.step options event := by
  rw [run, List.foldlM_append]
  cases h : run options events with
  | none =>
      rw [run] at h
      rw [h]
      rfl
  | some state =>
      rw [run] at h
      rw [h]
      simp

/-- One more event bans an address, or an earlier one did. -/
private theorem banning_concat (ran : run options events = some state) (event : BanEvent)
    (ip : CNetAddr) (time : Int) :
    Banning options (events ++ [event]) ip time ↔ Banning options events ip time ∨
      ∃ pnode howmuch node, event = .misbehave pnode howmuch time ∧
        state.nodes[pnode]? = some node ∧ node.addr = ip ∧ ip.isLocal = false ∧
        options.banscore ≤ pointsOf pnode events + howmuch := by
  constructor
  · rintro ⟨before, pnode, howmuch, after, earlier, node, split, reached, facts⟩
    rcases Histories.concat_eq_append_cons.mp split with ⟨rfl, same, -⟩ | ⟨rest, split, -⟩
    · obtain rfl := Option.some.inj (ran.symm.trans reached)
      exact .inr ⟨pnode, howmuch, node, same.symm, facts⟩
    · exact .inl ⟨before, pnode, howmuch, rest, earlier, node, split, reached, facts⟩
  · rintro (⟨before, pnode, howmuch, after, earlier, node, rfl, facts⟩ |
      ⟨pnode, howmuch, node, rfl, facts⟩)
    · exact ⟨before, pnode, howmuch, after ++ [event], earlier, node, by simp, facts⟩
    · exact ⟨events, pnode, howmuch, [], state, node, rfl, ran, facts⟩

/-- An event that bans nobody. -/
private theorem Recorded.same (recorded : Recorded options events state)
    (ran : run options events = some state) {event : BanEvent}
    (setBanned : after.setBanned = state.setBanned)
    (harmless : ∀ pnode howmuch time node, event = .misbehave pnode howmuch time →
      state.nodes[pnode]? = some node → node.addr.isLocal = false →
      ¬options.banscore ≤ pointsOf pnode events + howmuch) :
    Recorded options (events ++ [event]) after := by
  have bans : ∀ ip time, Banning options (events ++ [event]) ip time ↔
      Banning options events ip time := by
    intro ip time
    rw [banning_concat ran]
    refine or_iff_left ?_
    rintro ⟨pnode, howmuch, node, same, found, rfl, foreign, enough⟩
    exact harmless pnode howmuch time node same found foreign enough
  refine ⟨?_, ?_⟩
  · intro ip t found
    rw [setBanned] at found
    refine (recorded.caused ip t found).imp_right ?_
    rintro ⟨time, banning, same⟩
    exact ⟨time, (bans ip time).mpr banning, same⟩
  · intro ip time banning
    rw [setBanned]
    exact recorded.lasting ip time ((bans ip time).mp banning)

private theorem setBanned_ban (state : BanState) (addr : CNetAddr) (banTime : Int) :
    (state.ban addr banTime).setBanned =
      update state.setBanned addr (some (max ((state.setBanned addr).getD 0) banTime)) :=
  rfl

/-- A report that bans an address. -/
private theorem Recorded.ban (recorded : Recorded options events state)
    (ran : run options events = some state) {pnode : Nat} {node : BanNode} {howmuch now : Int}
    (present : state.nodes[pnode]? = some node) (foreign : node.addr.isLocal = false)
    (enough : options.banscore ≤ pointsOf pnode events + howmuch)
    (setBanned : after.setBanned = (state.ban node.addr (now + options.bantime)).setBanned) :
    Recorded options (events ++ [.misbehave pnode howmuch now]) after := by
  have own : Banning options (events ++ [.misbehave pnode howmuch now]) node.addr now :=
    (banning_concat ran _ _ _).mpr
      (.inr ⟨pnode, howmuch, node, rfl, present, rfl, foreign, enough⟩)
  have earlier : ∀ ip time, Banning options events ip time →
      Banning options (events ++ [.misbehave pnode howmuch now]) ip time := fun ip time banning =>
    (banning_concat ran _ _ _).mpr (.inl banning)
  refine ⟨?_, ?_⟩
  · intro ip t found
    rw [setBanned, setBanned_ban] at found
    by_cases same : ip = node.addr
    · subst same
      rw [update_self] at found
      obtain rfl := Option.some.inj found
      rcases max_choice ((state.setBanned node.addr).getD 0) (now + options.bantime) with
        old | new
      · rw [old]
        cases banned : state.setBanned node.addr with
        | none => exact .inl rfl
        | some t =>
            refine (recorded.caused node.addr t banned).imp_right ?_
            rintro ⟨time, banning, rfl⟩
            exact ⟨time, earlier _ _ banning, rfl⟩
      · rw [new]
        exact .inr ⟨now, own, rfl⟩
    · rw [update_of_ne same] at found
      refine (recorded.caused ip t found).imp_right ?_
      rintro ⟨time, banning, rfl⟩
      exact ⟨time, earlier _ _ banning, rfl⟩
  · intro ip time banning
    rw [setBanned, setBanned_ban]
    by_cases same : ip = node.addr
    · subst same
      rw [update_self]
      refine ⟨_, rfl, ?_⟩
      rcases (banning_concat ran _ _ _).mp banning with banning | ⟨_, _, _, report, -⟩
      · obtain ⟨t, banned, later⟩ := recorded.lasting node.addr time banning
        rw [banned, Option.getD_some]
        exact later.trans (le_max_left _ _)
      · obtain ⟨-, -, rfl⟩ := BanEvent.misbehave.inj report
        exact le_max_right _ _
    · rw [update_of_ne same]
      rcases (banning_concat ran _ _ _).mp banning with
        banning | ⟨_, _, other, report, found, rfl, -⟩
      · exact recorded.lasting ip time banning
      · obtain ⟨rfl, -, -⟩ := BanEvent.misbehave.inj report
        rw [present] at found
        obtain rfl := Option.some.inj found
        exact absurd rfl same

private theorem Recorded.misbehave (recorded : Recorded options events state)
    (counted : Counted options events state) (ran : run options events = some state)
    {pnode : Nat} {node : BanNode} (present : state.nodes[pnode]? = some node)
    (howmuch now : Int) :
    Recorded options (events ++ [.misbehave pnode howmuch now])
      (misbehaving options state pnode node howmuch now).2 := by
  have reported : ∀ other amount time found, BanEvent.misbehave pnode howmuch now =
      .misbehave other amount time → state.nodes[other]? = some found →
      found = node ∧ other = pnode ∧ amount = howmuch := by
    intro other amount time found report there
    obtain ⟨rfl, rfl, -⟩ := BanEvent.misbehave.inj report
    exact ⟨Option.some.inj (there.symm.trans present), rfl, rfl⟩
  have points := counted.points pnode node present
  rw [misbehaving]
  split_ifs with own enough
  · refine recorded.same ran rfl fun other amount time found report there foreign => ?_
    obtain ⟨rfl, -, -⟩ := reported other amount time found report there
    rw [own] at foreign
    cases foreign
  · have foreign := Bool.eq_false_iff.mpr own
    rw [points foreign] at enough
    exact recorded.ban ran present foreign enough rfl
  · refine recorded.same ran rfl fun other amount time found report there foreign => ?_
    obtain ⟨rfl, rfl, rfl⟩ := reported other amount time found report there
    rwa [← points foreign]

private theorem kept_run (ran : run options events = some state) :
    Counted options events state ∧ Recorded options events state := by
  induction events using List.reverseRecOn generalizing state with
  | nil =>
      obtain rfl := Option.some.inj ran
      refine ⟨⟨?_, fun _ _ => rfl, ?_⟩, ⟨?_, ?_⟩⟩
      · intro pnode node found
        simp [initial] at found
      · intro _ pnode node found
        simp [initial] at found
      · intro ip t found
        cases found
      · rintro ip time ⟨before, pnode, howmuch, after, earlier, node, split, -⟩
        simp at split
  | append_singleton events event induction =>
      rw [run_concat] at ran
      obtain ⟨before, earlier, stepped⟩ := Option.bind_eq_some_iff.mp ran
      obtain ⟨counted, recorded⟩ := induction earlier
      cases event with
      | connect addr now =>
          obtain rfl := Option.some.inj stepped
          split_ifs
          · exact ⟨counted.same rfl (fun _ _ _ _ => rfl) fun _ _ => rfl,
              recorded.same earlier rfl fun _ _ _ _ report => by cases report⟩
          · exact ⟨counted.addNode addr fun _ => rfl,
              recorded.same earlier rfl fun _ _ _ _ report => by cases report⟩
      | connectNamed addr =>
          obtain rfl := Option.some.inj stepped
          exact ⟨counted.addNode addr fun _ => rfl,
            recorded.same earlier rfl fun _ _ _ _ report => by cases report⟩
      | misbehave pnode howmuch now =>
          obtain ⟨node, present, rfl⟩ := Option.map_eq_some_iff.mp stepped
          exact ⟨counted.misbehave present howmuch now,
            recorded.misbehave counted earlier present howmuch now⟩
      | close pnode =>
          obtain rfl := Option.some.inj stepped
          exact ⟨(counted.same rfl (fun _ _ _ _ => rfl) fun _ _ => rfl).close pnode,
            recorded.same earlier rfl fun _ _ _ _ report => by cases report⟩

/-- The default options. -/
def defaultBans : BanOptions := ⟨100, 60 * 60 * 24⟩

/-- An address outside. -/
def bannedAddress : CNetAddr :=
  ⟨#v[0, 0, 0, 0, 0, 0, 0, 0, 0, 0, 0xff, 0xff, 0xa0, 0xb0, 0xc0, 0x01]⟩

end BanState

end FooCoin

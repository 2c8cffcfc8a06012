import Mathlib.Data.Fintype.Card
import FooCoin.AddrMan
import FooCoin.Library.KeyedTotal

/-!
# The nodes of the network threads

Nodes are shared by the threads that open connections, the socket handler and the message handler.
An event is a critical section or a statement of one of these threads, and the events of different
threads come in any order.
-/

namespace FooCoin

open Function

/-- `CNode*`. -/
abbrev NodePtr := Fin (2 ^ 64)

/-- `CNode`: what its lifetime depends on. -/
structure CNode where
  /-- There is a socket. -/
  hSocket : Bool
  addr : CAddress
  vSend : List UInt8
  vRecv : List UInt8
  fInbound : Bool
  fNetworkNode : Bool := false
  fDisconnect : Bool := false
  /-- `grantOutbound.fHaveGrant`. -/
  grantOutbound : Bool := false
  nRefCount : Int := 0
  nReleaseTime : Int := 0

namespace CNode

/-- `GetRefCount`. -/
def getRefCount (node : CNode) (nTime : Int) : Int :=
  max node.nRefCount 0 + if nTime < node.nReleaseTime then 1 else 0

/-- `AddRef` without a timeout. -/
def addRef (node : CNode) : CNode := { node with nRefCount := node.nRefCount + 1 }

/-- `Release`. -/
def release (node : CNode) : CNode := { node with nRefCount := node.nRefCount - 1 }

/-- `CloseSocketDisconnect`. -/
def closeSocketDisconnect (node : CNode) : CNode :=
  let node := { node with fDisconnect := true }
  if node.hSocket then { node with hSocket := false, vRecv := [] } else node

section Closed

variable (node : CNode)

@[simp]
theorem closeSocketDisconnect_nRefCount : node.closeSocketDisconnect.nRefCount = node.nRefCount := by
  rw [closeSocketDisconnect]
  split <;> rfl

@[simp]
theorem closeSocketDisconnect_nReleaseTime :
    node.closeSocketDisconnect.nReleaseTime = node.nReleaseTime := by
  rw [closeSocketDisconnect]
  split <;> rfl

@[simp]
theorem closeSocketDisconnect_fNetworkNode :
    node.closeSocketDisconnect.fNetworkNode = node.fNetworkNode := by
  rw [closeSocketDisconnect]
  split <;> rfl

@[simp]
theorem closeSocketDisconnect_fInbound : node.closeSocketDisconnect.fInbound = node.fInbound := by
  rw [closeSocketDisconnect]
  split <;> rfl

@[simp]
theorem closeSocketDisconnect_grantOutbound :
    node.closeSocketDisconnect.grantOutbound = node.grantOutbound := by
  rw [closeSocketDisconnect]
  split <;> rfl

end Closed

end CNode

/-- A call of `OpenNetworkConnection` with the grant of the thread. -/
inductive Opening
  /-- `ConnectNode` has found and connected nothing yet. -/
  | searching (fHaveGrant : Bool)
  /-- `FindNode` returned a node at this time. -/
  | found (fHaveGrant : Bool) (pnode : NodePtr) (nTime : Int)
  /-- `ConnectNode` has a reference to a node. -/
  | connected (fHaveGrant : Bool) (pnode : NodePtr)
deriving DecidableEq

/-- The grant of the thread. -/
def Opening.fHaveGrant : Opening → Bool
  | .searching fHaveGrant | .found fHaveGrant _ _ | .connected fHaveGrant _ => fHaveGrant

/-- The node that the thread references. -/
def Opening.reference : Opening → Option NodePtr
  | .searching _ | .found _ _ _ => none
  | .connected _ pnode => some pnode

/-- The threads that open connections. -/
inductive Opener
  | openConnections
  | addedConnections
deriving DecidableEq

instance : Fintype Opener where
  elems := {.openConnections, .addedConnections}
  complete thread := by cases thread <;> simp

/-- The threads that work on a copy of `vNodes`. -/
inductive NodeHandler
  | socketHandler
  | messageHandler
deriving DecidableEq

instance : Fintype NodeHandler where
  elems := {.socketHandler, .messageHandler}
  complete thread := by cases thread <;> simp

/-- The state that the network threads share, and where they are. -/
structure NodeState where
  nTime : Int
  /-- The nodes that are allocated. -/
  nodes : NodePtr → Option CNode
  vNodes : List NodePtr
  vNodesDisconnected : List NodePtr
  /-- `semOutbound->value`. -/
  semOutbound : Int
  openers : Opener → Option Opening
  /-- `vNodesCopy`. -/
  copies : NodeHandler → Option (List NodePtr)

/-- Why an event does not happen. -/
inductive Stuck
  /-- The thread is not there yet. -/
  | disabled
  /-- The thread uses a node that is not allocated. -/
  | dangling
deriving DecidableEq

/-- The options. -/
structure NetworkOptions where
  /-- `-maxconnections`. -/
  maxConnections : Int
  /-- `-connect` is given. -/
  fConnect : Bool

/-- `MAX_OUTBOUND_CONNECTIONS`. -/
def maxOutboundConnections : Int := 8

/-- The initial value of `semOutbound`. -/
def NetworkOptions.nMaxOutbound (options : NetworkOptions) : Int :=
  min maxOutboundConnections options.maxConnections

/-- An event. -/
inductive ThreadEvent
  /-- Time passes. -/
  | tick (nTime : Int)
  /-- A thread closes the socket of a node that it may use. -/
  | close (pnode : NodePtr)
  /-- A thread finds that a node is inactive. -/
  | inactive (pnode : NodePtr)
  /-- The buffers of a node change. -/
  | transfer (pnode : NodePtr) (vSend vRecv : List UInt8)
  /-- The socket handler accepts a connection. -/
  | accept (pnode : NodePtr) (addr : CAddress)
  /-- A turn of the loop that disconnects nodes. -/
  | disconnect (pnode : NodePtr)
  /-- A turn of the loop that deletes disconnected nodes, with the locks of the node. -/
  | delete (pnode : NodePtr)
  /-- The thread copies `vNodes` and references the nodes. -/
  | copy (thread : NodeHandler)
  /-- The thread releases the nodes of its copy. -/
  | releaseCopy (thread : NodeHandler)
  /-- The thread gets a grant for `OpenNetworkConnection`. -/
  | acquire (thread : Opener)
  /-- `OpenNetworkConnection` is called without a grant, for `-connect`. -/
  | withoutGrant (thread : Opener)
  /-- `OpenNetworkConnection` returns `false`. -/
  | giveUp (thread : Opener)
  /-- `FindNode` returns a node. -/
  | find (thread : Opener) (addr : CService)
  /-- `ConnectNode` references the node that `FindNode` returned. -/
  | addRef (thread : Opener)
  /-- `ConnectNode` makes a new node. -/
  | connect (thread : Opener) (pnode : NodePtr) (addr : CAddress) (vSend : List UInt8)
  /-- `OpenNetworkConnection` moves the grant to the node and returns `true`. -/
  | finish (thread : Opener)

/-- The result of an event. -/
abbrev StepResult := Except Stuck NodeState

/-- Go on under a condition. -/
def whenever (condition : Prop) [Decidable condition] (result : StepResult) : StepResult :=
  if condition then result else .error .disabled

namespace NodeState

/-- Use a node. -/
def deref (state : NodeState) (pnode : NodePtr) (use : CNode → StepResult) : StepResult :=
  (state.nodes pnode).elim (.error .dangling) use

/-- Change a node. -/
def modify (state : NodeState) (pnode : NodePtr) (change : CNode → CNode) : StepResult :=
  state.deref pnode fun node =>
    .ok { state with nodes := update state.nodes pnode (some (change node)) }

/-- Change some nodes one after the other. -/
def modifyAll (change : CNode → CNode) : List NodePtr → NodeState → StepResult
  | [], state => .ok state
  | pnode :: pnodes, state => do
      let state ← state.modify pnode change
      modifyAll change pnodes state

/-- The node at an address that is allocated. -/
def isInbound (state : NodeState) (pnode : NodePtr) : Bool :=
  (state.nodes pnode).any CNode.fInbound

/-- `FindNode`. -/
def findNode (state : NodeState) (addr : CService) : Option NodePtr :=
  state.vNodes.find? fun pnode => (state.nodes pnode).any fun node => node.addr.toCService = addr

/-- `semOutbound->post()` for a grant. -/
def post (state : NodeState) (fHaveGrant : Bool) : NodeState :=
  { state with semOutbound := state.semOutbound + if fHaveGrant then 1 else 0 }

/-- Put a new node into `vNodes`. -/
def insertNode (state : NodeState) (pnode : NodePtr) (node : CNode) : NodeState :=
  { state with
    nodes := update state.nodes pnode (some node)
    vNodes := state.vNodes ++ [pnode] }

/-- The body of the loop over `vNodes`. -/
def disconnectNode (state : NodeState) (pnode : NodePtr) : StepResult :=
  state.deref pnode fun node =>
    whenever (node.fDisconnect ∨
        (node.getRefCount state.nTime ≤ 0 ∧ node.vRecv = [] ∧ node.vSend = [])) <|
      let released := { node with grantOutbound := false }.closeSocketDisconnect
      let held := { released with
        nReleaseTime := max released.nReleaseTime (state.nTime + 15 * 60) }
      let final := if held.fNetworkNode || held.fInbound then held.release else held
      .ok { state.post node.grantOutbound with
        nodes := update state.nodes pnode (some final)
        vNodes := state.vNodes.filter (· ≠ pnode)
        vNodesDisconnected := state.vNodesDisconnected ++ [pnode] }

/-- The body of the loop over `vNodesDisconnected`. -/
def deleteNode (state : NodeState) (pnode : NodePtr) : StepResult :=
  state.deref pnode fun node =>
    whenever (node.getRefCount state.nTime ≤ 0) <|
      .ok { state.post node.grantOutbound with
        nodes := update state.nodes pnode none
        vNodesDisconnected := state.vNodesDisconnected.filter (· ≠ pnode) }

/-- The rest of `OpenNetworkConnection` after `ConnectNode`. -/
def finishOpening (state : NodeState) (thread : Opener) (fHaveGrant : Bool) (pnode : NodePtr) :
    StepResult :=
  state.deref pnode fun node =>
    -- `MoveTo` gives back the grant that the node may have.
    .ok { state.post (fHaveGrant && node.grantOutbound) with
      nodes := update state.nodes pnode (some { node with
        grantOutbound := fHaveGrant || node.grantOutbound
        fNetworkNode := true })
      openers := update state.openers thread none }

/-- The nodes that threads use: those of `vNodes` under `cs_vNodes`, those of the copies and those
that connections are opened to. -/
def Uses (state : NodeState) (pnode : NodePtr) : Prop :=
  pnode ∈ state.vNodes ∨ (∃ thread, pnode ∈ (state.copies thread).getD []) ∨
    ∃ thread, (state.openers thread).bind Opening.reference = some pnode

instance (state : NodeState) (pnode : NodePtr) : Decidable (state.Uses pnode) := by
  unfold Uses
  infer_instance

/-- The reference that `disconnectNode` will release. -/
def owned (state : NodeState) (pnode : NodePtr) (node : CNode) : Int :=
  if pnode ∈ state.vNodes ∧ (node.fNetworkNode || node.fInbound) = true then 1 else 0

variable (options : NetworkOptions)

/-- One event. -/
def step (state : NodeState) : ThreadEvent → StepResult
  | .tick nTime => whenever (state.nTime ≤ nTime) <| .ok { state with nTime }
  | .close pnode => whenever (state.Uses pnode) <| state.modify pnode .closeSocketDisconnect
  | .inactive pnode =>
      whenever (state.Uses pnode) <| state.modify pnode fun node => { node with fDisconnect := true }
  | .transfer pnode vSend vRecv =>
      whenever (state.Uses pnode) <| state.modify pnode fun node => { node with vSend, vRecv }
  | .accept pnode addr =>
      whenever ((state.vNodes.countP state.isInbound : Int) <
          options.maxConnections - maxOutboundConnections ∧ state.nodes pnode = none) <|
        .ok (state.insertNode pnode
          (CNode.addRef { hSocket := true, addr, vSend := [], vRecv := [], fInbound := true }))
  | .disconnect pnode => whenever (pnode ∈ state.vNodes) <| state.disconnectNode pnode
  | .delete pnode => whenever (pnode ∈ state.vNodesDisconnected) <| state.deleteNode pnode
  | .copy thread =>
      whenever (state.copies thread = none) <|
        modifyAll .addRef state.vNodes
          { state with copies := update state.copies thread (some state.vNodes) }
  | .releaseCopy thread =>
      (state.copies thread).elim (.error .disabled) fun vNodesCopy =>
        modifyAll .release vNodesCopy { state with copies := update state.copies thread none }
  | .acquire thread =>
      whenever (state.openers thread = none ∧ 1 ≤ state.semOutbound) <|
        .ok { state with
          semOutbound := state.semOutbound - 1
          openers := update state.openers thread (some (.searching true)) }
  | .withoutGrant thread =>
      whenever (state.openers thread = none ∧ options.fConnect) <|
        .ok { state with openers := update state.openers thread (some (.searching false)) }
  | .giveUp thread =>
      match state.openers thread with
      | some (.searching fHaveGrant) =>
          .ok { state.post fHaveGrant with openers := update state.openers thread none }
      | _ => .error .disabled
  | .find thread addr =>
      match state.openers thread, state.findNode addr with
      | some (.searching fHaveGrant), some pnode =>
          .ok { state with
            openers := update state.openers thread (some (.found fHaveGrant pnode state.nTime)) }
      | _, _ => .error .disabled
  | .addRef thread =>
      match state.openers thread with
      | some (.found fHaveGrant pnode _) =>
          modify { state with
            openers := update state.openers thread (some (.connected fHaveGrant pnode)) } pnode
              .addRef
      | _ => .error .disabled
  | .connect thread pnode addr vSend =>
      match state.openers thread with
      | some (.searching fHaveGrant) =>
          whenever (state.nodes pnode = none) <|
            .ok (insertNode { state with
              openers := update state.openers thread (some (.connected fHaveGrant pnode)) } pnode
                (CNode.addRef { hSocket := true, addr, vSend, vRecv := [], fInbound := false }))
      | _ => .error .disabled
  | .finish thread =>
      match state.openers thread with
      | some (.connected fHaveGrant pnode) => state.finishOpening thread fHaveGrant pnode
      | _ => .error .disabled

/-- The state after `StartNode`. -/
def start (nTime : Int) : NodeState where
  nTime := nTime
  nodes _ := none
  vNodes := []
  vNodesDisconnected := []
  semOutbound := options.nMaxOutbound
  openers _ := none
  copies _ := none

/-- The states that the threads get to. -/
inductive Reachable : NodeState → Prop
  | start (nTime : Int) : Reachable (start options nTime)
  | step {state after : NodeState} (event : ThreadEvent) (earlier : Reachable state)
      (stepped : state.step options event = .ok after) : Reachable after

end NodeState

end FooCoin

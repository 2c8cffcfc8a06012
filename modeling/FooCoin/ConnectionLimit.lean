import FooCoin.NodeLifetime

/-!
# The number of connections

Outbound connections hold grants of `semOutbound`, which threads move to the nodes that they connect
to; inbound connections are counted before they are accepted.  Together they stay within
`-maxconnections`.
-/

namespace FooCoin

open Function KeyedTotal

namespace NodeState

/-- The grant of a node. -/
def nodeGrant (node : CNode) : Int := if node.grantOutbound then 1 else 0

/-- The grant of a thread. -/
def threadGrant (opening : Opening) : Int := if opening.fHaveGrant then 1 else 0

/-- The grants are accounted for, each outbound node has one, and inbound nodes are few. -/
structure Limited (options : NetworkOptions) (state : NodeState) : Prop where
  granted : state.semOutbound + total nodeGrant state.nodes + total threadGrant state.openers =
    options.nMaxOutbound
  floor : min 0 options.nMaxOutbound ≤ state.semOutbound
  given : ∀ thread opening, state.openers thread = some opening → opening.fHaveGrant = true
  outbound : ∀ pnode ∈ state.vNodes, ∀ node, state.nodes pnode = some node →
    node.fInbound = true ∨ node.grantOutbound = true ∨
      ∃ thread, state.openers thread = some (.connected true pnode)
  inbound : (state.vNodes.countP state.isInbound : Int) ≤
    max 0 (options.maxConnections - maxOutboundConnections)

variable {options : NetworkOptions} {state after : NodeState} {pnode : NodePtr}

/-- What the limit looks at in a node. -/
def role (node : CNode) : Bool × Bool := (node.fInbound, node.grantOutbound)

private theorem weightOf_nodeGrant {node node' : Option CNode}
    (same : node.map role = node'.map role) : weightOf nodeGrant node = weightOf nodeGrant node' := by
  cases node with
  | none =>
      obtain rfl := Option.map_eq_none_iff.mp same.symm
      rfl
  | some node =>
      obtain ⟨node', rfl, roles⟩ := Option.map_eq_some_iff.mp same.symm
      have grants : node'.grantOutbound = node.grantOutbound := congrArg Prod.snd roles
      simp only [weightOf_some, nodeGrant, grants]

private theorem any_fInbound {node node' : Option CNode} (same : node.map role = node'.map role) :
    node.any CNode.fInbound = node'.any CNode.fInbound := by
  cases node with
  | none =>
      obtain rfl := Option.map_eq_none_iff.mp same.symm
      rfl
  | some node =>
      obtain ⟨node', rfl, roles⟩ := Option.map_eq_some_iff.mp same.symm
      exact (congrArg Prod.fst roles).symm

/-- Changes of the nodes that keep their roles. -/
private theorem Limited.of_roles (limited : Limited options state)
    (roles : ∀ pnode, (after.nodes pnode).map role = (state.nodes pnode).map role)
    (vNodes : after.vNodes = state.vNodes) (semOutbound : after.semOutbound = state.semOutbound)
    (grants : ∀ thread, weightOf threadGrant (after.openers thread) =
      weightOf threadGrant (state.openers thread))
    (given : ∀ thread opening, after.openers thread = some opening → opening.fHaveGrant = true)
    (connected : ∀ thread pnode, state.openers thread = some (.connected true pnode) →
      after.openers thread = some (.connected true pnode)) : Limited options after where
  granted := by
    have nodes : total nodeGrant after.nodes = total nodeGrant state.nodes :=
      Finset.sum_congr rfl fun pnode _ => weightOf_nodeGrant (roles pnode)
    have openers : total threadGrant after.openers = total threadGrant state.openers :=
      Finset.sum_congr rfl fun thread _ => grants thread
    rw [semOutbound, nodes, openers, limited.granted]
  floor := semOutbound ▸ limited.floor
  given := given
  outbound pnode listed node present := by
    have same := roles pnode
    rw [present] at same
    obtain ⟨before, present', roles'⟩ := Option.map_eq_some_iff.mp same.symm
    have flags : before.fInbound = node.fInbound ∧ before.grantOutbound = node.grantOutbound :=
      Prod.mk.inj roles'
    rw [← flags.1, ← flags.2]
    exact (limited.outbound pnode (vNodes ▸ listed) before present').imp_right
      (.imp_right (Exists.imp fun thread => connected thread pnode))
  inbound := by
    have same : after.isInbound = state.isInbound :=
      funext fun pnode => any_fInbound (roles pnode)
    rw [vNodes, same]
    exact limited.inbound

/-- Changing one call of `OpenNetworkConnection` together with the semaphore. -/
private theorem Limited.of_openers (limited : Limited options state) (thread : Opener)
    (opening : Option Opening) (semOutbound : Int)
    (grants : semOutbound + weightOf threadGrant opening =
      state.semOutbound + weightOf threadGrant (state.openers thread))
    (floor : min 0 options.nMaxOutbound ≤ semOutbound)
    (given : ∀ opening' ∈ opening, opening'.fHaveGrant = true)
    (unconnected : ∀ pnode, state.openers thread ≠ some (.connected true pnode)) :
    Limited options { state with
      semOutbound, openers := update state.openers thread opening } where
  granted := by
    have before := limited.granted
    change semOutbound + total nodeGrant state.nodes + _ = _
    rw [total_update]
    omega
  floor := floor
  given other opening' opened := by
    by_cases same : other = thread
    · subst same
      simp only [update_self] at opened
      exact given opening' opened
    · simp only [update_of_ne same] at opened
      exact limited.given other opening' opened
  outbound pnode listed node present := by
    refine (limited.outbound pnode listed node present).imp_right (.imp_right ?_)
    rintro ⟨other, opened⟩
    have same : other ≠ thread := by
      rintro rfl
      exact unconnected pnode opened
    exact ⟨other, by simpa [update_of_ne same] using opened⟩
  inbound := limited.inbound

private theorem countP_isInbound_insertNode (unlisted : pnode ∉ state.vNodes) {node : CNode} :
    (state.insertNode pnode node).vNodes.countP (state.insertNode pnode node).isInbound =
      state.vNodes.countP state.isInbound + if node.fInbound then 1 else 0 := by
  have others : state.vNodes.countP (state.insertNode pnode node).isInbound =
      state.vNodes.countP state.isInbound := by
    refine List.countP_congr fun other listed => ?_
    have same : other ≠ pnode := by
      rintro rfl
      exact unlisted listed
    simp [isInbound, insertNode, update_of_ne same]
  have own : (state.insertNode pnode node).isInbound pnode = node.fInbound := by
    simp [isInbound, insertNode]
  rw [insertNode] at others ⊢
  rw [List.countP_append, others, List.countP_singleton]
  exact congrArg (fun flag : Bool => _ + if flag then 1 else 0) own

/-- A new node without a grant. -/
private theorem Limited.of_insertNode (limited : Limited options state)
    (fresh : state.nodes pnode = none) (unlisted : pnode ∉ state.vNodes) {node : CNode}
    (ungranted : node.grantOutbound = false)
    (few : node.fInbound = true → (state.vNodes.countP state.isInbound : Int) <
      options.maxConnections - maxOutboundConnections)
    (connected : node.fInbound = false →
      ∃ thread, state.openers thread = some (.connected true pnode)) :
    Limited options (state.insertNode pnode node) where
  granted := by
    have before := limited.granted
    have alone : nodeGrant node = 0 := by simp [nodeGrant, ungranted]
    change state.semOutbound + total nodeGrant (update state.nodes pnode (some node)) + _ = _
    rw [total_update, fresh, weightOf_none, weightOf_some, alone, sub_zero, add_zero]
    exact before
  floor := limited.floor
  given := limited.given
  outbound other listed node' present := by
    by_cases same : other = pnode
    · subst same
      simp only [insertNode, update_self, Option.some.injEq] at present
      subst present
      cases inbound : node.fInbound with
      | true => exact .inl rfl
      | false => exact .inr (.inr (connected inbound))
    · simp only [insertNode, update_of_ne same] at present
      have before : other ∈ state.vNodes := by
        simpa [insertNode, same] using listed
      exact limited.outbound other before node' present
  inbound := by
    have before := limited.inbound
    rw [countP_isInbound_insertNode unlisted]
    split_ifs with inbound
    · have room := few inbound
      omega
    · simpa using before

/-- A node that leaves `vNodes` gives back its grant. -/
private theorem Limited.of_disconnect (limited : Limited options state) {node final : CNode}
    (present : state.nodes pnode = some node) (ungranted : final.grantOutbound = false)
    (vNodesDisconnected : List NodePtr) :
    Limited options { state.post node.grantOutbound with
      nodes := update state.nodes pnode (some final)
      vNodes := state.vNodes.filter (· ≠ pnode)
      vNodesDisconnected } where
  granted := by
    have before := limited.granted
    have alone : nodeGrant final = 0 := by simp [nodeGrant, ungranted]
    change state.semOutbound + nodeGrant node + total nodeGrant (update _ _ _) + _ = _
    rw [total_update, present, weightOf_some, weightOf_some, alone]
    change _ + total threadGrant state.openers = _
    omega
  floor := by
    refine limited.floor.trans ?_
    change state.semOutbound ≤ state.semOutbound + if node.grantOutbound then 1 else 0
    split <;> omega
  given := limited.given
  outbound other listed node' present' := by
    simp only [List.mem_filter, decide_eq_true_eq] at listed
    simp only [update_of_ne listed.2] at present'
    exact limited.outbound other listed.1 node' present'
  inbound := by
    refine le_trans ?_ limited.inbound
    have others : (state.vNodes.filter (· ≠ pnode)).countP (fun other =>
        (update state.nodes pnode (some final) other).any CNode.fInbound) =
        (state.vNodes.filter (· ≠ pnode)).countP state.isInbound := by
      refine List.countP_congr fun other listed => ?_
      simp only [List.mem_filter, decide_eq_true_eq] at listed
      rw [update_of_ne listed.2, isInbound]
    exact Int.ofNat_le.mpr (others.trans_le (List.Sublist.countP_le List.filter_sublist))

/-- A deleted node gives back its grant. -/
private theorem Limited.of_delete (limited : Limited options state) (referenced : state.Referenced)
    (listed : pnode ∈ state.vNodesDisconnected) {node : CNode}
    (present : state.nodes pnode = some node) (vNodesDisconnected : List NodePtr) :
    Limited options { state.post node.grantOutbound with
      nodes := update state.nodes pnode none
      vNodesDisconnected } where
  granted := by
    have before := limited.granted
    change state.semOutbound + nodeGrant node + total nodeGrant (update _ _ _) + _ = _
    rw [total_update, present, weightOf_some, weightOf_none]
    change _ + total threadGrant state.openers = _
    omega
  floor := by
    refine limited.floor.trans ?_
    change state.semOutbound ≤ state.semOutbound + if node.grantOutbound then 1 else 0
    split <;> omega
  given := limited.given
  outbound other listed' node' present' := by
    have same : other ≠ pnode := by
      rintro rfl
      simp at present'
    simp only [update_of_ne same] at present'
    exact limited.outbound other listed' node' present'
  inbound := by
    have others : state.vNodes.countP (fun other =>
        (update state.nodes pnode none other).any CNode.fInbound) =
        state.vNodes.countP state.isInbound := by
      refine List.countP_congr fun other listed' => ?_
      have same : other ≠ pnode := by
        rintro rfl
        exact (List.nodup_append.mp referenced.nodup).2.2 other listed' other listed rfl
      rw [update_of_ne same, isInbound]
    exact (congrArg Int.ofNat others).trans_le limited.inbound

/-- The grant of the thread moves to the node. -/
private theorem Limited.of_finishOpening (limited : Limited options state) {thread : Opener}
    {fHaveGrant : Bool} (opened : state.openers thread = some (.connected fHaveGrant pnode))
    {node : CNode} (present : state.nodes pnode = some node)
    (finished : state.finishOpening thread fHaveGrant pnode = .ok after) :
    Limited options after := by
  have own : fHaveGrant = true := limited.given thread _ opened
  subst own
  simp only [finishOpening, deref, present, Option.elim_some, Except.ok.injEq] at finished
  subst finished
  constructor
  · have before := limited.granted
    change state.semOutbound + (if (true && node.grantOutbound) = true then 1 else 0) +
      total nodeGrant (update _ _ _) + total threadGrant (update _ _ _) = _
    rw [total_update, total_update, present, opened]
    simp only [weightOf_some, weightOf_none, nodeGrant, threadGrant, Opening.fHaveGrant,
      Bool.true_and, Bool.true_or, if_true]
    omega
  · refine limited.floor.trans ?_
    change state.semOutbound ≤ state.semOutbound + if (true && node.grantOutbound) = true then 1 else 0
    split <;> omega
  · intro other opening opened'
    by_cases same : other = thread
    · subst same
      simp at opened'
    · simp only [update_of_ne same] at opened'
      exact limited.given other opening opened'
  · intro other listed node' present'
    by_cases same : other = pnode
    · subst same
      simp only [update_self, Option.some.injEq] at present'
      subst present'
      exact .inr (.inl rfl)
    · simp only [update_of_ne same] at present'
      refine (limited.outbound other listed node' present').imp_right (.imp_right ?_)
      rintro ⟨other_thread, opened'⟩
      have differs : other_thread ≠ thread := by
        rintro rfl
        rw [opened, Option.some.injEq, Opening.connected.injEq] at opened'
        exact same opened'.2.symm
      exact ⟨other_thread, by simpa [update_of_ne differs] using opened'⟩
  · refine le_trans (le_of_eq ?_) limited.inbound
    refine congrArg Int.ofNat (List.countP_congr fun other _ => ?_)
    by_cases same : other = pnode
    · subst same
      simp [isInbound, present]
    · simp [isInbound, update_of_ne same]

private theorem Referenced.unlisted (referenced : state.Referenced)
    (fresh : state.nodes pnode = none) : pnode ∉ state.vNodes := fun listed => by
  have allocated := (referenced.allocated pnode).mp (List.mem_append_left _ listed)
  simp [fresh] at allocated

private theorem Limited.of_modify (limited : Limited options state) {change : CNode → CNode}
    (roles : ∀ node, role (change node) = role node)
    (modified : state.modify pnode change = .ok after) : Limited options after := by
  obtain ⟨node, present, rfl⟩ := modify_eq_ok.mp modified
  refine limited.of_roles (fun other => ?_) rfl rfl (fun _ => rfl) limited.given fun _ _ => id
  by_cases same : other = pnode
  · subst same
    simp [present, roles]
  · simp [update_of_ne same]

private theorem Limited.of_modifyAll {copies : NodeHandler → Option (List NodePtr)}
    (limited : Limited options state) {change : CNode → CNode} {pnodes : List NodePtr}
    (roles : ∀ count node, role (change^[count] node) = role node)
    (modified : modifyAll change pnodes { state with copies } = .ok after)
    (allocated : ∀ pnode ∈ pnodes, (state.nodes pnode).isSome = true) : Limited options after := by
  cases modified.symm.trans (modifyAll_eq allocated)
  refine limited.of_roles (fun pnode => ?_) rfl rfl (fun _ => rfl) limited.given fun _ _ => id
  simp only [Option.map_map]
  exact congrArg (Option.map · (state.nodes pnode)) (funext fun node => roles _ node)

/-- Every event keeps the limits, when no connection is opened without a grant. -/
private theorem Limited.step (no_connect : options.fConnect = false)
    (limited : Limited options state) (referenced : state.Referenced) {event : ThreadEvent}
    (stepped : state.step options event = .ok after) : Limited options after := by
  cases event with
  | tick nTime =>
      obtain ⟨-, ended⟩ := whenever_eq_ok.mp stepped
      cases ended
      exact limited.of_roles (fun _ => rfl) rfl rfl (fun _ => rfl) limited.given fun _ _ => id
  | close pnode =>
      exact limited.of_modify (fun node => by simp [role]) (whenever_eq_ok.mp stepped).2
  | inactive pnode =>
      refine limited.of_modify ?_ (whenever_eq_ok.mp stepped).2
      exact fun node => rfl
  | transfer pnode vSend vRecv =>
      refine limited.of_modify ?_ (whenever_eq_ok.mp stepped).2
      exact fun node => rfl
  | accept pnode addr =>
      obtain ⟨⟨few, fresh⟩, ended⟩ := whenever_eq_ok.mp stepped
      cases ended
      exact limited.of_insertNode fresh (referenced.unlisted fresh) rfl (fun _ => few)
        fun outbound => by cases outbound
  | disconnect pnode =>
      obtain ⟨listed, disconnected⟩ := whenever_eq_ok.mp stepped
      obtain ⟨node, present⟩ := Option.isSome_iff_exists.mp
        ((referenced.allocated pnode).mp (List.mem_append_left _ listed))
      simp only [disconnectNode, deref, present, Option.elim_some, whenever_eq_ok,
        Except.ok.injEq] at disconnected
      obtain ⟨-, rfl⟩ := disconnected
      refine limited.of_disconnect present ?_ _
      split <;> simp [CNode.release]
  | delete pnode =>
      obtain ⟨listed, deleted⟩ := whenever_eq_ok.mp stepped
      obtain ⟨node, present⟩ := Option.isSome_iff_exists.mp
        ((referenced.allocated pnode).mp (List.mem_append_right _ listed))
      simp only [deleteNode, deref, present, Option.elim_some, whenever_eq_ok,
        Except.ok.injEq] at deleted
      obtain ⟨-, rfl⟩ := deleted
      exact limited.of_delete referenced listed present _
  | copy thread =>
      refine limited.of_modifyAll (fun count node => by rw [addRef_iterate, role, role])
        (whenever_eq_ok.mp stepped).2 fun pnode listed => ?_
      exact (referenced.allocated pnode).mp (List.mem_append_left _ listed)
  | releaseCopy thread =>
      cases copies : state.copies thread with
      | none => simp [NodeState.step, copies] at stepped
      | some vNodesCopy =>
          simp only [NodeState.step, copies, Option.elim_some] at stepped
          exact limited.of_modifyAll (fun count node => by rw [release_iterate, role, role]) stepped
            fun pnode listed => isSome_of_held referenced copies listed
  | acquire thread =>
      obtain ⟨⟨idle, available⟩, ended⟩ := whenever_eq_ok.mp stepped
      cases ended
      refine limited.of_openers thread _ _ ?_ ?_ ?_ (by simp [idle])
      · simp [idle, threadGrant, Opening.fHaveGrant]
      · omega
      · rintro _ ⟨⟩
        rfl
  | withoutGrant thread =>
      obtain ⟨⟨-, connects⟩, -⟩ := whenever_eq_ok.mp stepped
      rw [no_connect] at connects
      cases connects
  | giveUp thread =>
      simp only [NodeState.step] at stepped
      split at stepped
      · rename_i fHaveGrant opened
        cases stepped
        obtain rfl : fHaveGrant = true := limited.given thread _ opened
        refine limited.of_openers thread none _ ?_ ?_ (by simp) (by simp [opened])
        · simp [opened, threadGrant, Opening.fHaveGrant, post]
        · exact limited.floor.trans (Int.le_add_one le_rfl)
      · cases stepped
  | find thread addr =>
      simp only [NodeState.step] at stepped
      split at stepped
      · rename_i fHaveGrant pnode opened found
        cases stepped
        obtain rfl : fHaveGrant = true := limited.given thread _ opened
        exact limited.of_openers thread _ state.semOutbound
          (by simp [opened, threadGrant, Opening.fHaveGrant]) limited.floor
          (by simp [Opening.fHaveGrant]) (by simp [opened])
      · cases stepped
  | addRef thread =>
      simp only [NodeState.step] at stepped
      split at stepped
      · rename_i fHaveGrant pnode nTime opened
        obtain rfl : fHaveGrant = true := limited.given thread _ opened
        have opens := limited.of_openers thread (some (.connected true pnode)) state.semOutbound
          (by simp [opened, threadGrant, Opening.fHaveGrant]) limited.floor
          (by simp [Opening.fHaveGrant]) (by simp [opened])
        refine opens.of_modify ?_ stepped
        exact fun node => rfl
      · cases stepped
  | connect thread pnode addr vSend =>
      simp only [NodeState.step] at stepped
      split at stepped
      · rename_i fHaveGrant opened
        obtain ⟨fresh, ended⟩ := whenever_eq_ok.mp stepped
        cases ended
        obtain rfl : fHaveGrant = true := limited.given thread _ opened
        have opens := limited.of_openers thread (some (.connected true pnode)) state.semOutbound
          (by simp [opened, threadGrant, Opening.fHaveGrant]) limited.floor
          (by simp [Opening.fHaveGrant]) (by simp [opened])
        exact opens.of_insertNode fresh (referenced.unlisted fresh) rfl
          (fun inbound => by cases inbound) fun _ => ⟨thread, update_self ..⟩
      · cases stepped
  | finish thread =>
      simp only [NodeState.step] at stepped
      split at stepped
      · rename_i fHaveGrant pnode opened
        obtain ⟨node, present⟩ := Option.isSome_iff_exists.mp
          (isSome_of_pending referenced opened rfl)
        exact limited.of_finishOpening opened present stepped
      · cases stepped

private theorem limited_start (nTime : Int) : Limited options (start options nTime) where
  granted := by simp [start, total]
  floor := min_le_right _ _
  given thread opening opened := by simp [start] at opened
  outbound pnode listed := by simp [start] at listed
  inbound := by simp [start]

private theorem Reachable.limited (no_connect : options.fConnect = false)
    (reachable : Reachable options state) : Limited options state := by
  induction reachable with
  | start nTime => exact limited_start nTime
  | step event earlier stepped induction =>
      exact induction.step no_connect earlier.referenced stepped

/-! ## Counting -/

/-- A thread has connected to a node with a grant. -/
private def connecting (opening : Option Opening) (pnode : NodePtr) : Int :=
  if opening = some (.connected true pnode) then 1 else 0

private theorem connecting_nonneg (opening : Option Opening) (pnode : NodePtr) :
    0 ≤ connecting opening pnode := by
  unfold connecting
  split <;> decide

private theorem nodeGrant_nonneg (node : CNode) : 0 ≤ nodeGrant node := by
  unfold nodeGrant
  split <;> decide

private theorem threadGrant_nonneg (opening : Opening) : 0 ≤ threadGrant opening := by
  unfold threadGrant
  split <;> decide

private theorem sum_connecting_le (opening : Option Opening) :
    ∑ pnode, connecting opening pnode ≤ weightOf threadGrant opening := by
  by_cases connected : ∃ pnode, opening = some (.connected true pnode)
  · obtain ⟨pnode, rfl⟩ := connected
    simp [connecting, threadGrant, Opening.fHaveGrant]
  · have absent : ∀ pnode ∈ Finset.univ, connecting opening pnode = 0 :=
      fun pnode _ => if_neg fun same => connected ⟨pnode, same⟩
    rw [Finset.sum_eq_zero absent]
    exact zero_le_weightOf threadGrant_nonneg opening

/-- There are at most as many outbound nodes as grants. -/
private theorem countP_outbound_le (limited : Limited options state)
    (referenced : state.Referenced) :
    (state.vNodes.countP (fun pnode => ¬state.isInbound pnode) : Int) ≤
      total nodeGrant state.nodes + total threadGrant state.openers := by
  have nodup := (List.nodup_append.mp referenced.nodup).1.filter fun pnode =>
    ¬state.isInbound pnode
  have each : ∀ pnode ∈ (state.vNodes.filter fun pnode => ¬state.isInbound pnode).toFinset,
      (1 : Int) ≤ weightOf nodeGrant (state.nodes pnode) +
        ∑ thread, connecting (state.openers thread) pnode := by
    intro pnode member
    simp only [List.mem_toFinset, List.mem_filter, decide_eq_true_eq] at member
    obtain ⟨node, present⟩ := Option.isSome_iff_exists.mp
      ((referenced.allocated pnode).mp (List.mem_append_left _ member.1))
    have others : 0 ≤ ∑ thread, connecting (state.openers thread) pnode :=
      Finset.sum_nonneg fun thread _ => connecting_nonneg _ _
    have own := nodeGrant_nonneg node
    rw [present, weightOf_some]
    rcases limited.outbound pnode member.1 node present with inbound | granted | ⟨thread, opened⟩
    · simp [isInbound, present, inbound] at member
    · rw [nodeGrant, if_pos granted]
      omega
    · have one := Finset.single_le_sum
        (f := fun thread => connecting (state.openers thread) pnode)
        (fun thread _ => connecting_nonneg _ _) (Finset.mem_univ thread)
      simp only [opened] at one
      rw [connecting, if_pos rfl] at one
      omega
  calc (state.vNodes.countP (fun pnode => ¬state.isInbound pnode) : Int)
      = ∑ _pnode ∈ (state.vNodes.filter fun pnode => ¬state.isInbound pnode).toFinset, 1 := by
        rw [Finset.sum_const, List.toFinset_card_of_nodup nodup, List.countP_eq_length_filter]
        simp
    _ ≤ ∑ pnode ∈ (state.vNodes.filter fun pnode => ¬state.isInbound pnode).toFinset,
          (weightOf nodeGrant (state.nodes pnode) +
            ∑ thread, connecting (state.openers thread) pnode) := Finset.sum_le_sum each
    _ ≤ ∑ pnode, (weightOf nodeGrant (state.nodes pnode) +
          ∑ thread, connecting (state.openers thread) pnode) :=
        Finset.sum_le_sum_of_subset_of_nonneg (Finset.subset_univ _) fun pnode _ _ =>
          add_nonneg (zero_le_weightOf nodeGrant_nonneg _)
            (Finset.sum_nonneg fun thread _ => connecting_nonneg _ _)
    _ ≤ total nodeGrant state.nodes + total threadGrant state.openers := by
        rw [Finset.sum_add_distrib, Finset.sum_comm]
        exact add_le_add_right (Finset.sum_le_sum fun thread _ => sum_connecting_le _) _

private theorem exists_connected : ∃ state, Reachable defaultOptions state ∧
    state.vNodes = [7, 5] ∧ state.semOutbound = 7 :=
  ⟨_, .step (.finish .openConnections) (.step (.accept 5 peerAddress)
    (.step (.connect .openConnections 7 peerAddress []) (.step (.acquire .openConnections)
      (.start 0) rfl) rfl) rfl) rfl, rfl, rfl⟩

end NodeState

end FooCoin

import FooCoin.Connections

/-!
# Nodes in use are not deleted

A reference keeps a node allocated, and so do the fifteen minutes after it leaves `vNodes` for a
thread that `FindNode` gave it to.
-/

namespace FooCoin

open Function KeyedTotal

namespace NodeState

/-- How often the copies of the threads hold a node. -/
def held (state : NodeState) (pnode : NodePtr) : Int :=
  total (fun vNodesCopy : List NodePtr => (vNodesCopy.count pnode : Int)) state.copies

/-- The weight of a call that references a node. -/
def opensTo (pnode : NodePtr) (opening : Opening) : Int :=
  if opening.reference = some pnode then 1 else 0

/-- How many calls of `OpenNetworkConnection` hold a node. -/
def pending (state : NodeState) (pnode : NodePtr) : Int := total (opensTo pnode) state.openers

/-- The threads hold no node that may be deleted. -/
structure Referenced (state : NodeState) : Prop where
  nodup : (state.vNodes ++ state.vNodesDisconnected).Nodup
  allocated : ∀ pnode, pnode ∈ state.vNodes ++ state.vNodesDisconnected ↔
    (state.nodes pnode).isSome = true
  counted : ∀ pnode node, state.nodes pnode = some node →
    state.held pnode + state.pending pnode + state.owned pnode node ≤ node.nRefCount
  unused : ∀ pnode, state.nodes pnode = none → state.held pnode = 0 ∧ state.pending pnode = 0
  found : ∀ thread fHaveGrant pnode nTime,
    state.openers thread = some (.found fHaveGrant pnode nTime) →
      nTime ≤ state.nTime ∧ (nTime + 15 * 60 ≤ state.nTime ∨ ∃ node,
        state.nodes pnode = some node ∧
          (pnode ∈ state.vNodes ∨ nTime + 15 * 60 ≤ node.nReleaseTime))

variable {options : NetworkOptions} {state after : NodeState} {pnode : NodePtr}

/-! ## Counts -/

private theorem count_nonneg (pnode : NodePtr) (vNodesCopy : List NodePtr) :
    (0 : Int) ≤ vNodesCopy.count pnode := Int.natCast_nonneg _

private theorem opensTo_nonneg (pnode : NodePtr) (opening : Opening) :
    0 ≤ opensTo pnode opening := by
  unfold opensTo
  split <;> decide

theorem held_nonneg (state : NodeState) (pnode : NodePtr) : 0 ≤ state.held pnode :=
  total_nonneg (count_nonneg pnode) state.copies

theorem pending_nonneg (state : NodeState) (pnode : NodePtr) : 0 ≤ state.pending pnode :=
  total_nonneg (opensTo_nonneg pnode) state.openers

theorem owned_nonneg (state : NodeState) (pnode : NodePtr) (node : CNode) :
    0 ≤ state.owned pnode node := by
  unfold owned
  split <;> decide

private theorem held_pos {thread : NodeHandler} {vNodesCopy : List NodePtr}
    (copied : state.copies thread = some vNodesCopy) (member : pnode ∈ vNodesCopy) :
    0 < state.held pnode := by
  have one := weightOf_le_total (count_nonneg pnode) state.copies thread
  rw [copied, weightOf_some] at one
  exact (Int.natCast_pos.mpr (List.count_pos_iff.mpr member)).trans_le one

private theorem pending_pos {thread : Opener} {opening : Opening}
    (opened : state.openers thread = some opening) (refers : opening.reference = some pnode) :
    0 < state.pending pnode := by
  have one := weightOf_le_total (opensTo_nonneg pnode) state.openers thread
  rw [opened, weightOf_some, opensTo, if_pos refers] at one
  exact one

theorem isSome_of_held (referenced : state.Referenced) {thread : NodeHandler}
    {vNodesCopy : List NodePtr} (copied : state.copies thread = some vNodesCopy)
    (member : pnode ∈ vNodesCopy) : (state.nodes pnode).isSome = true := by
  rw [Option.isSome_iff_ne_none]
  intro deleted
  have positive := held_pos copied member
  rw [(referenced.unused pnode deleted).1] at positive
  exact lt_irrefl 0 positive

theorem isSome_of_pending (referenced : state.Referenced) {thread : Opener}
    {opening : Opening} (opened : state.openers thread = some opening)
    (refers : opening.reference = some pnode) : (state.nodes pnode).isSome = true := by
  rw [Option.isSome_iff_ne_none]
  intro deleted
  have positive := pending_pos opened refers
  rw [(referenced.unused pnode deleted).2] at positive
  exact lt_irrefl 0 positive

/-- What the threads use is allocated. -/
theorem isSome_of_uses (referenced : state.Referenced) (uses : state.Uses pnode) :
    (state.nodes pnode).isSome = true := by
  rcases uses with listed | ⟨thread, copied⟩ | ⟨thread, opened⟩
  · exact (referenced.allocated pnode).mp (List.mem_append_left _ listed)
  · cases copies : state.copies thread with
    | none => simp [copies] at copied
    | some vNodesCopy =>
        rw [copies, Option.getD_some] at copied
        exact isSome_of_held referenced copies copied
  · cases openers : state.openers thread with
    | none => simp [openers] at opened
    | some opening =>
        rw [openers, Option.bind_some] at opened
        exact isSome_of_pending referenced openers opened

/-! ## Changing nodes -/

theorem modify_eq_ok {change : CNode → CNode} :
    state.modify pnode change = .ok after ↔ ∃ node, state.nodes pnode = some node ∧
      { state with nodes := update state.nodes pnode (some (change node)) } = after := by
  unfold modify deref
  cases state.nodes pnode <;> simp

private theorem modify_ne_dangling {change : CNode → CNode}
    (allocated : (state.nodes pnode).isSome = true) :
    state.modify pnode change ≠ .error .dangling := by
  obtain ⟨node, found⟩ := Option.isSome_iff_exists.mp allocated
  simp [modify, deref, found]

/-- A node with no fewer references and other fields that nothing counts. -/
private structure Alike (node changed : CNode) : Prop where
  nRefCount : node.nRefCount ≤ changed.nRefCount
  nReleaseTime : node.nReleaseTime = changed.nReleaseTime
  kept : (node.fNetworkNode || node.fInbound) = (changed.fNetworkNode || changed.fInbound)

private theorem Referenced.of_alike (referenced : state.Referenced) {node changed : CNode}
    (found : state.nodes pnode = some node) (alike : Alike node changed) :
    Referenced { state with nodes := update state.nodes pnode (some changed) } where
  nodup := referenced.nodup
  allocated other := by
    rw [referenced.allocated other]
    by_cases same : other = pnode
    · subst same
      simp [found]
    · simp [update_of_ne same]
  counted other node' present := by
    by_cases same : other = pnode
    · subst same
      simp only [update_self, Option.some.injEq] at present
      subst present
      have count := referenced.counted other node found
      simp only [held, pending, owned, alike.kept] at count ⊢
      exact count.trans alike.nRefCount
    · simp only [update_of_ne same] at present
      exact referenced.counted other node' present
  unused other absent := by
    by_cases same : other = pnode
    · subst same
      simp at absent
    · simp only [update_of_ne same] at absent
      exact referenced.unused other absent
  found thread fHaveGrant other nTime opened := by
    obtain ⟨earlier, late | ⟨node', present, kept⟩⟩ :=
      referenced.found thread fHaveGrant other nTime opened
    · exact ⟨earlier, .inl late⟩
    · refine ⟨earlier, .inr ?_⟩
      by_cases same : other = pnode
      · subst same
        rw [found, Option.some.injEq] at present
        subst present
        exact ⟨changed, by simp, alike.nReleaseTime ▸ kept⟩
      · exact ⟨node', by simpa [update_of_ne same] using present, kept⟩

theorem modifyAll_eq {change : CNode → CNode} {pnodes : List NodePtr}
    (allocated : ∀ pnode ∈ pnodes, (state.nodes pnode).isSome = true) :
    modifyAll change pnodes state = .ok { state with
      nodes := fun pnode => (state.nodes pnode).map change^[pnodes.count pnode] } := by
  induction pnodes generalizing state with
  | nil => simp [modifyAll]
  | cons pnode pnodes induction =>
      obtain ⟨here, others⟩ := List.forall_mem_cons.mp allocated
      obtain ⟨node, found⟩ := Option.isSome_iff_exists.mp here
      rw [modifyAll, modify_eq_ok.mpr ⟨node, found, rfl⟩]
      refine (induction fun other member => ?_).trans ?_
      · by_cases same : other = pnode
        · simp [same]
        · simpa [update_of_ne same] using others other member
      · congr 2
        funext other
        by_cases same : other = pnode
        · subst same
          simp [found, List.count_cons_self]
        · simp [update_of_ne same, List.count_cons_of_ne (Ne.symm same)]

theorem addRef_iterate (count : Nat) (node : CNode) :
    CNode.addRef^[count] node = { node with nRefCount := node.nRefCount + count } := by
  induction count generalizing node with
  | zero => simp
  | succ count induction =>
      rw [iterate_succ_apply, induction, CNode.addRef]
      simp only [CNode.mk.injEq, true_and, and_true]
      omega

theorem release_iterate (count : Nat) (node : CNode) :
    CNode.release^[count] node = { node with nRefCount := node.nRefCount - count } := by
  induction count generalizing node with
  | zero => simp
  | succ count induction =>
      rw [iterate_succ_apply, induction, CNode.release]
      simp only [CNode.mk.injEq, true_and, and_true]
      omega

/-! ## Events -/

/-- Changing the copy of a thread changes the references by what it holds. -/
private theorem Referenced.of_copies (referenced : state.Referenced) (thread : NodeHandler)
    (vNodesCopy : Option (List NodePtr)) {change : NodePtr → CNode → CNode}
    (taken : ∀ pnodes ∈ vNodesCopy, ∀ pnode ∈ pnodes, (state.nodes pnode).isSome = true)
    (changed : ∀ pnode node, change pnode node = { node with
      nRefCount := node.nRefCount -
        weightOf (fun pnodes : List NodePtr => (pnodes.count pnode : Int)) (state.copies thread) +
        weightOf (fun pnodes : List NodePtr => (pnodes.count pnode : Int)) vNodesCopy }) :
    Referenced { state with
      nodes := fun pnode => (state.nodes pnode).map (change pnode)
      copies := update state.copies thread vNodesCopy } where
  nodup := referenced.nodup
  allocated other := by
    rw [referenced.allocated other]
    simp
  counted other node' present := by
    simp only [Option.map_eq_some_iff] at present
    obtain ⟨node, found, rfl⟩ := present
    have count := referenced.counted other node found
    rw [changed]
    simp only [held, pending, owned, total_update] at count ⊢
    omega
  unused other absent := by
    simp only [Option.map_eq_none_iff] at absent
    obtain ⟨unheld, unopened⟩ := referenced.unused other absent
    refine ⟨?_, unopened⟩
    have before := weightOf_le_total (count_nonneg other) state.copies thread
    have own := zero_le_weightOf (count_nonneg other) (state.copies thread)
    simp only [held] at unheld
    simp only [held, total_update]
    cases vNodesCopy with
    | none =>
        rw [weightOf_none]
        omega
    | some pnodes =>
        have untaken : other ∉ pnodes := fun member => by
          simpa [absent] using taken pnodes rfl other member
        rw [weightOf_some, List.count_eq_zero_of_not_mem untaken]
        omega
  found pthread fHaveGrant other nTime opened := by
    obtain ⟨earlier, late | ⟨node, present, kept⟩⟩ :=
      referenced.found pthread fHaveGrant other nTime opened
    · exact ⟨earlier, .inl late⟩
    · exact ⟨earlier, .inr ⟨change other node, by simp [present], by simpa [changed] using kept⟩⟩

/-- Changing a call of `OpenNetworkConnection` that references no other node than before. -/
private theorem Referenced.of_openers (referenced : state.Referenced) (thread : Opener)
    (opening : Option Opening) (semOutbound : Int)
    (fewer : ∀ pnode, weightOf (opensTo pnode) opening ≤
      weightOf (opensTo pnode) (state.openers thread))
    (finds : ∀ fHaveGrant pnode nTime, opening = some (.found fHaveGrant pnode nTime) →
      pnode ∈ state.vNodes ∧ nTime = state.nTime) :
    Referenced { state with semOutbound, openers := update state.openers thread opening } where
  nodup := referenced.nodup
  allocated := referenced.allocated
  counted other node present := by
    have count := referenced.counted other node present
    have less := fewer other
    simp only [held, pending, owned, total_update] at count ⊢
    omega
  unused other absent := by
    obtain ⟨unheld, unopened⟩ := referenced.unused other absent
    refine ⟨unheld, ?_⟩
    have less := fewer other
    have own := weightOf_le_total (opensTo_nonneg other) state.openers thread
    have kept := zero_le_weightOf (opensTo_nonneg other) opening
    simp only [pending] at unopened
    simp only [pending, total_update]
    omega
  found pthread fHaveGrant other nTime opened := by
    by_cases same : pthread = thread
    · subst same
      simp only [update_self] at opened
      obtain ⟨listed, rfl⟩ := finds fHaveGrant other nTime opened
      obtain ⟨node, present⟩ := Option.isSome_iff_exists.mp
        ((referenced.allocated other).mp (List.mem_append_left _ listed))
      exact ⟨le_rfl, .inr ⟨node, present, .inl listed⟩⟩
    · simp only [update_of_ne same] at opened
      exact referenced.found pthread fHaveGrant other nTime opened

/-- A call of `OpenNetworkConnection` takes a reference that nothing else holds. -/
private theorem Referenced.of_reference (referenced : state.Referenced) (thread : Opener)
    (fHaveGrant : Bool) {node : CNode} (present : state.nodes pnode = some node)
    (spare : state.held pnode + state.pending pnode + state.owned pnode node < node.nRefCount)
    (none_before : ∀ other, weightOf (opensTo other) (state.openers thread) = 0) :
    Referenced { state with
      openers := update state.openers thread (some (.connected fHaveGrant pnode)) } where
  nodup := referenced.nodup
  allocated := referenced.allocated
  counted other node' present' := by
    by_cases same : other = pnode
    · subst same
      rw [present, Option.some.injEq] at present'
      subst present'
      change state.held other + _ + state.owned other node ≤ node.nRefCount
      simp only [pending, total_update, none_before, weightOf_some, opensTo, Opening.reference,
        if_true] at spare ⊢
      omega
    · have count := referenced.counted other node' present'
      change state.held other + _ + state.owned other node' ≤ node'.nRefCount
      simp only [pending, total_update, none_before, weightOf_some, opensTo, Opening.reference,
        Option.some.injEq, Ne.symm same, if_false] at count ⊢
      omega
  unused other absent := by
    have same : other ≠ pnode := by
      rintro rfl
      simp [present] at absent
    obtain ⟨unheld, unopened⟩ := referenced.unused other absent
    refine ⟨unheld, ?_⟩
    simp only [pending] at unopened
    simp [pending, total_update, none_before, opensTo, Opening.reference, Ne.symm same, unopened]
  found pthread fHaveGrant' other nTime' opened' := by
    by_cases same : pthread = thread
    · subst same
      simp at opened'
    · simp only [update_of_ne same] at opened'
      exact referenced.found pthread fHaveGrant' other nTime' opened'

/-- A new node in `vNodes`. -/
private theorem Referenced.of_insertNode (referenced : state.Referenced)
    (fresh : state.nodes pnode = none) {node : CNode}
    (counted : (if node.fNetworkNode || node.fInbound then 1 else 0) ≤ node.nRefCount) :
    (state.insertNode pnode node).Referenced where
  nodup := by
    have unlisted : pnode ∉ state.vNodes ++ state.vNodesDisconnected := fun listed => by
      have present := (referenced.allocated pnode).mp listed
      simp [fresh] at present
    have reordered : (pnode :: (state.vNodes ++ state.vNodesDisconnected)).Perm
        (state.vNodes ++ [pnode] ++ state.vNodesDisconnected) := by
      rw [List.append_assoc, List.singleton_append]
      exact List.perm_middle.symm
    exact reordered.nodup_iff.mp (List.nodup_cons.mpr ⟨unlisted, referenced.nodup⟩)
  allocated other := by
    have before := referenced.allocated other
    by_cases same : other = pnode
    · simp [insertNode, same]
    · simpa [insertNode, update_of_ne same, same, or_assoc, or_comm, or_left_comm] using before
  counted other node' present := by
    by_cases same : other = pnode
    · subst same
      simp only [insertNode, update_self, Option.some.injEq] at present
      subst present
      obtain ⟨unheld, unopened⟩ := referenced.unused other fresh
      change state.held other + state.pending other + _ ≤ node.nRefCount
      rw [unheld, unopened, zero_add, zero_add]
      refine le_trans ?_ counted
      unfold owned
      split_ifs with flags flagged flagged
      · exact le_rfl
      · exact absurd flags.2 flagged
      · decide
      · exact le_rfl
    · simp only [insertNode, update_of_ne same] at present
      have count := referenced.counted other node' present
      have owns : (state.insertNode pnode node).owned other node' = state.owned other node' := by
        simp [owned, insertNode, same]
      rw [owns]
      exact count
  unused other absent := by
    have same : other ≠ pnode := by
      rintro rfl
      simp [insertNode] at absent
    simp only [insertNode, update_of_ne same] at absent
    exact referenced.unused other absent
  found thread fHaveGrant other nTime opened := by
    obtain ⟨earlier, late | ⟨node', present, kept⟩⟩ :=
      referenced.found thread fHaveGrant other nTime opened
    · exact ⟨earlier, .inl late⟩
    · have same : other ≠ pnode := by
        rintro rfl
        simp [fresh] at present
      refine ⟨earlier, .inr ⟨node', by simpa [insertNode, update_of_ne same] using present, ?_⟩⟩
      exact kept.imp_left fun listed => List.mem_append_left _ listed

/-- `OpenNetworkConnection` leaves its reference to `vNodes`. -/
private theorem Referenced.of_finish (referenced : state.Referenced) {thread : Opener}
    {fHaveGrant : Bool} (opened : state.openers thread = some (.connected fHaveGrant pnode))
    {node : CNode} (present : state.nodes pnode = some node) (semOutbound : Int)
    (grantOutbound : Bool) :
    Referenced { state with
      semOutbound
      nodes := update state.nodes pnode (some { node with grantOutbound, fNetworkNode := true })
      openers := update state.openers thread none } where
  nodup := referenced.nodup
  allocated other := by
    rw [referenced.allocated other]
    by_cases same : other = pnode
    · subst same
      simp [present]
    · simp [update_of_ne same]
  counted other node' present' := by
    by_cases same : other = pnode
    · subst same
      simp only [update_self, Option.some.injEq] at present'
      subst present'
      have count := referenced.counted other node present
      have own := owned_nonneg state other node
      change state.held other + _ + _ ≤ node.nRefCount
      have owns (state : NodeState) (node : CNode) : state.owned other node ≤ 1 := by
        unfold owned
        split <;> decide
      refine (add_le_add_right (owns _ _) _).trans ?_
      simp only [pending, total_update, opened, weightOf_some, weightOf_none, opensTo,
        Opening.reference, if_true] at count ⊢
      omega
    · simp only [update_of_ne same] at present'
      have count := referenced.counted other node' present'
      change state.held other + _ + state.owned other node' ≤ node'.nRefCount
      simp only [pending, total_update, opened, weightOf_some, weightOf_none, opensTo,
        Opening.reference, Option.some.injEq, Ne.symm same, if_false] at count ⊢
      omega
  unused other absent := by
    have same : other ≠ pnode := by
      rintro rfl
      simp at absent
    simp only [update_of_ne same] at absent
    obtain ⟨unheld, unopened⟩ := referenced.unused other absent
    refine ⟨unheld, ?_⟩
    simp only [pending] at unopened
    simp [pending, total_update, opened, opensTo, Opening.reference, Ne.symm same, unopened]
  found pthread fHaveGrant' other nTime opened' := by
    by_cases same_thread : pthread = thread
    · subst same_thread
      simp at opened'
    · simp only [update_of_ne same_thread] at opened'
      obtain ⟨earlier, late | ⟨node', present', kept⟩⟩ :=
        referenced.found pthread fHaveGrant' other nTime opened'
      · exact ⟨earlier, .inl late⟩
      · refine ⟨earlier, .inr ?_⟩
        by_cases same : other = pnode
        · subst same
          rw [present, Option.some.injEq] at present'
          subst present'
          exact ⟨_, update_self .., kept⟩
        · exact ⟨node', by simpa [update_of_ne same] using present', kept⟩

/-- The references of a node that leaves `vNodes` still count, and it stays for fifteen minutes. -/
private theorem Referenced.of_disconnect (referenced : state.Referenced)
    (listed : pnode ∈ state.vNodes) {node final : CNode}
    (present : state.nodes pnode = some node) (semOutbound : Int)
    (released : final.nRefCount =
      node.nRefCount - if node.fNetworkNode || node.fInbound then 1 else 0)
    (kept : state.nTime + 15 * 60 ≤ final.nReleaseTime) :
    Referenced { state with
      semOutbound
      nodes := update state.nodes pnode (some final)
      vNodes := state.vNodes.filter (· ≠ pnode)
      vNodesDisconnected := state.vNodesDisconnected ++ [pnode] } where
  nodup := by
    have apart := List.nodup_append.mp referenced.nodup
    refine List.nodup_append.mpr ⟨apart.1.filter _, ?_, ?_⟩
    · exact apart.2.1.append (List.nodup_singleton pnode)
        (List.disjoint_singleton.mpr fun member => apart.2.2 pnode listed pnode member rfl)
    · intro other member other' member' same
      subst same
      simp only [List.mem_filter, decide_eq_true_eq] at member
      rcases List.mem_append.mp member' with earlier | new
      · exact apart.2.2 other member.1 other earlier rfl
      · exact member.2 (List.mem_singleton.mp new)
  allocated other := by
    have before := referenced.allocated other
    by_cases same : other = pnode
    · simp [same]
    · simpa [update_of_ne same, same] using before
  counted other node' present' := by
    by_cases same : other = pnode
    · subst same
      simp only [update_self, Option.some.injEq] at present'
      subst present'
      have count := referenced.counted other node present
      have gone (state' : NodeState) (unlisted : other ∉ state'.vNodes) :
          state'.owned other final = 0 := if_neg fun both => unlisted both.1
      change state.held other + state.pending other + _ ≤ final.nRefCount
      rw [gone _ (by simp), released]
      simp only [owned, listed, true_and] at count
      omega
    · simp only [update_of_ne same] at present'
      have count := referenced.counted other node' present'
      simp only [owned, List.mem_filter, decide_eq_true_eq, ne_eq, same, not_false_eq_true,
        and_true] at count ⊢
      exact count
  unused other absent := by
    have same : other ≠ pnode := by
      rintro rfl
      simp at absent
    simp only [update_of_ne same] at absent
    exact referenced.unused other absent
  found thread fHaveGrant other nTime opened := by
    obtain ⟨earlier, late | ⟨node', present', held⟩⟩ :=
      referenced.found thread fHaveGrant other nTime opened
    · exact ⟨earlier, .inl late⟩
    · refine ⟨earlier, .inr ?_⟩
      by_cases same : other = pnode
      · subst same
        refine ⟨final, update_self .., .inr ?_⟩
        omega
      · exact ⟨node', by simpa [update_of_ne same] using present', by simpa [same] using held⟩

/-- A node without references is not used any more. -/
private theorem Referenced.of_delete (referenced : state.Referenced)
    (listed : pnode ∈ state.vNodesDisconnected) {node : CNode}
    (present : state.nodes pnode = some node) (semOutbound : Int)
    (unreferenced : node.getRefCount state.nTime ≤ 0) :
    Referenced { state with
      semOutbound
      nodes := update state.nodes pnode none
      vNodesDisconnected := state.vNodesDisconnected.filter (· ≠ pnode) } where
  nodup := referenced.nodup.sublist
    (List.Sublist.append (List.Sublist.refl _) List.filter_sublist)
  allocated other := by
    have before := referenced.allocated other
    by_cases same : other = pnode
    · subst same
      have unlisted : other ∉ state.vNodes := fun member =>
        (List.nodup_append.mp referenced.nodup).2.2 other member other listed rfl
      simp [unlisted]
    · simpa [update_of_ne same, same] using before
  counted other node' present' := by
    have same : other ≠ pnode := by
      rintro rfl
      simp at present'
    simp only [update_of_ne same] at present'
    exact referenced.counted other node' present'
  unused other absent := by
    by_cases same : other = pnode
    · subst same
      have count := referenced.counted other node present
      have own := owned_nonneg state other node
      have unheld := held_nonneg state other
      have unopened := pending_nonneg state other
      have none_left : node.nRefCount ≤ 0 := by
        unfold CNode.getRefCount at unreferenced
        split_ifs at unreferenced <;> omega
      change state.held other = 0 ∧ state.pending other = 0
      omega
    · simp only [update_of_ne same] at absent
      exact referenced.unused other absent
  found thread fHaveGrant other nTime opened := by
    obtain ⟨earlier, late | ⟨node', present', held⟩⟩ :=
      referenced.found thread fHaveGrant other nTime opened
    · exact ⟨earlier, .inl late⟩
    · by_cases same : other = pnode
      · subst same
        rw [present, Option.some.injEq] at present'
        subst present'
        have unlisted : other ∉ state.vNodes := fun member =>
          (List.nodup_append.mp referenced.nodup).2.2 other member other listed rfl
        have expired : node.nReleaseTime ≤ state.nTime := by
          unfold CNode.getRefCount at unreferenced
          split_ifs at unreferenced <;> omega
        have waited := held.resolve_left unlisted
        exact ⟨earlier, .inl (waited.trans expired)⟩
      · exact ⟨earlier, .inr ⟨node', by simpa [update_of_ne same] using present', held⟩⟩

theorem whenever_eq_ok {condition : Prop} [Decidable condition] {result : StepResult} :
    whenever condition result = .ok after ↔ condition ∧ result = .ok after := by
  unfold whenever
  split_ifs with holds <;> simp [holds]

private theorem whenever_eq_dangling {condition : Prop} [Decidable condition]
    {result : StepResult} :
    whenever condition result = .error .dangling ↔ condition ∧ result = .error .dangling := by
  unfold whenever
  split_ifs with holds <;> simp [holds]

private theorem Referenced.of_modify (referenced : state.Referenced) {change : CNode → CNode}
    (alike : ∀ node, Alike node (change node)) (modified : state.modify pnode change = .ok after) :
    after.Referenced := by
  obtain ⟨node, present, rfl⟩ := modify_eq_ok.mp modified
  exact referenced.of_alike present (alike node)

private theorem alike_closeSocketDisconnect (node : CNode) :
    Alike node node.closeSocketDisconnect := by
  constructor <;> simp

private theorem Referenced.of_disconnectNode (referenced : state.Referenced)
    (listed : pnode ∈ state.vNodes) (disconnected : state.disconnectNode pnode = .ok after) :
    after.Referenced := by
  obtain ⟨node, present⟩ := Option.isSome_iff_exists.mp
    ((referenced.allocated pnode).mp (List.mem_append_left _ listed))
  simp only [disconnectNode, deref, present, Option.elim_some, whenever_eq_ok,
    Except.ok.injEq] at disconnected
  obtain ⟨-, rfl⟩ := disconnected
  refine referenced.of_disconnect listed present _ ?_ ?_
  · simp only [CNode.closeSocketDisconnect_fNetworkNode, CNode.closeSocketDisconnect_fInbound]
    split_ifs <;> simp [CNode.release]
  · split_ifs <;> exact le_max_right _ _

private theorem Referenced.of_deleteNode (referenced : state.Referenced)
    (listed : pnode ∈ state.vNodesDisconnected) (deleted : state.deleteNode pnode = .ok after) :
    after.Referenced := by
  obtain ⟨node, present⟩ := Option.isSome_iff_exists.mp
    ((referenced.allocated pnode).mp (List.mem_append_right _ listed))
  simp only [deleteNode, deref, present, Option.elim_some, whenever_eq_ok,
    Except.ok.injEq] at deleted
  obtain ⟨unreferenced, rfl⟩ := deleted
  exact referenced.of_delete listed present _ unreferenced

private theorem Referenced.of_tick (referenced : state.Referenced) {nTime : Int}
    (later : state.nTime ≤ nTime) : Referenced { state with nTime } where
  nodup := referenced.nodup
  allocated := referenced.allocated
  counted := referenced.counted
  unused := referenced.unused
  found thread fHaveGrant pnode earlier opened := by
    obtain ⟨before, late | kept⟩ := referenced.found thread fHaveGrant pnode earlier opened
    · exact ⟨before.trans later, .inl (late.trans later)⟩
    · exact ⟨before.trans later, .inr kept⟩

private theorem mem_of_findNode {addr : CService} (found : state.findNode addr = some pnode) :
    pnode ∈ state.vNodes := List.mem_of_find?_eq_some found

/-- Every event keeps the references right. -/
theorem Referenced.step (referenced : state.Referenced) {event : ThreadEvent}
    (stepped : state.step options event = .ok after) : after.Referenced := by
  cases event with
  | tick nTime =>
      obtain ⟨later, ended⟩ := whenever_eq_ok.mp stepped
      cases ended
      exact referenced.of_tick later
  | close pnode =>
      exact referenced.of_modify alike_closeSocketDisconnect (whenever_eq_ok.mp stepped).2
  | inactive pnode =>
      refine referenced.of_modify ?_ (whenever_eq_ok.mp stepped).2
      exact fun node => ⟨le_rfl, rfl, rfl⟩
  | transfer pnode vSend vRecv =>
      refine referenced.of_modify ?_ (whenever_eq_ok.mp stepped).2
      exact fun node => ⟨le_rfl, rfl, rfl⟩
  | accept pnode addr =>
      obtain ⟨⟨-, fresh⟩, ended⟩ := whenever_eq_ok.mp stepped
      cases ended
      exact referenced.of_insertNode fresh (by simp [CNode.addRef])
  | disconnect pnode =>
      obtain ⟨listed, disconnected⟩ := whenever_eq_ok.mp stepped
      exact referenced.of_disconnectNode listed disconnected
  | delete pnode =>
      obtain ⟨listed, deleted⟩ := whenever_eq_ok.mp stepped
      exact referenced.of_deleteNode listed deleted
  | copy thread =>
      obtain ⟨idle, copied⟩ := whenever_eq_ok.mp stepped
      have allocated : ∀ pnode ∈ state.vNodes, (state.nodes pnode).isSome = true :=
        fun pnode listed => (referenced.allocated pnode).mp (List.mem_append_left _ listed)
      cases copied.symm.trans (modifyAll_eq allocated)
      refine referenced.of_copies thread (some state.vNodes) ?_ fun pnode node => ?_
      · rintro _ ⟨⟩
        exact allocated
      · rw [addRef_iterate, idle, weightOf_none, weightOf_some, sub_zero]
  | releaseCopy thread =>
      cases copies : state.copies thread with
      | none => simp [NodeState.step, copies] at stepped
      | some vNodesCopy =>
          simp only [NodeState.step, copies, Option.elim_some] at stepped
          have allocated : ∀ pnode ∈ vNodesCopy, (state.nodes pnode).isSome = true :=
            fun pnode listed => isSome_of_held referenced copies listed
          cases stepped.symm.trans (modifyAll_eq allocated)
          refine referenced.of_copies thread none (by simp) fun pnode node => ?_
          rw [release_iterate, copies, weightOf_none, weightOf_some, add_zero]
  | acquire thread =>
      obtain ⟨⟨idle, -⟩, ended⟩ := whenever_eq_ok.mp stepped
      cases ended
      exact referenced.of_openers thread _ _ (by simp [idle, opensTo, Opening.reference]) (by simp)
  | withoutGrant thread =>
      obtain ⟨⟨idle, -⟩, ended⟩ := whenever_eq_ok.mp stepped
      cases ended
      exact referenced.of_openers thread _ _ (by simp [idle, opensTo, Opening.reference]) (by simp)
  | giveUp thread =>
      simp only [NodeState.step] at stepped
      split at stepped
      · rename_i fHaveGrant opened
        cases stepped
        exact referenced.of_openers thread _ _ (by simp [opened, opensTo, Opening.reference])
          (by simp)
      · cases stepped
  | find thread addr =>
      simp only [NodeState.step] at stepped
      split at stepped
      · rename_i fHaveGrant pnode opened found
        cases stepped
        refine referenced.of_openers thread _ _
          (by simp [opened, opensTo, Opening.reference]) ?_
        rintro _ _ _ ⟨⟩
        exact ⟨mem_of_findNode found, rfl⟩
      · cases stepped
  | addRef thread =>
      simp only [NodeState.step] at stepped
      split at stepped
      · rename_i fHaveGrant pnode nTime opened
        obtain ⟨node, present, rfl⟩ := modify_eq_ok.mp stepped
        have more := referenced.of_alike present
          (show Alike node node.addRef from ⟨(lt_add_one _).le, rfl, rfl⟩)
        refine more.of_reference thread fHaveGrant (update_self ..) ?_
          (by simp [opened, opensTo, Opening.reference])
        exact Int.lt_add_one_of_le (referenced.counted pnode node present)
      · cases stepped
  | connect thread pnode addr vSend =>
      simp only [NodeState.step] at stepped
      split at stepped
      · rename_i fHaveGrant opened
        obtain ⟨fresh, ended⟩ := whenever_eq_ok.mp stepped
        cases ended
        obtain ⟨unheld, unopened⟩ := referenced.unused pnode fresh
        have inserted := @referenced.of_insertNode _ _ fresh
          (CNode.addRef { hSocket := true, addr, vSend, vRecv := [], fInbound := false })
          (by simp [CNode.addRef])
        refine inserted.of_reference thread fHaveGrant (update_self ..) ?_
          (by simp [insertNode, opened, opensTo, Opening.reference])
        change state.held pnode + state.pending pnode + _ < 1
        rw [unheld, unopened, owned, if_neg (by simp [CNode.addRef])]
        decide
      · cases stepped
  | finish thread =>
      simp only [NodeState.step] at stepped
      split at stepped
      · rename_i fHaveGrant pnode opened
        obtain ⟨node, present⟩ := Option.isSome_iff_exists.mp
          (isSome_of_pending referenced opened rfl)
        simp only [finishOpening, deref, present, Option.elim_some, Except.ok.injEq] at stepped
        subst stepped
        exact referenced.of_finish opened present _ _
      · cases stepped

private theorem referenced_start (nTime : Int) : (start options nTime).Referenced where
  nodup := List.nodup_nil
  allocated pnode := by simp [start]
  counted pnode node present := by simp [start] at present
  unused pnode _ := by simp [held, pending, start, total]
  found thread fHaveGrant pnode nTime opened := by simp [start] at opened

theorem Reachable.referenced (reachable : Reachable options state) : state.Referenced := by
  induction reachable with
  | start nTime => exact referenced_start nTime
  | step event _ stepped induction => exact induction.step stepped

private theorem modifyAll_ne_dangling {change : CNode → CNode} {pnodes : List NodePtr}
    (allocated : ∀ pnode ∈ pnodes, (state.nodes pnode).isSome = true) :
    modifyAll change pnodes state ≠ .error .dangling := by
  simp [modifyAll_eq allocated]

/-- Only `ConnectNode` may use a deleted node. -/
private theorem Referenced.dangling (referenced : state.Referenced) {event : ThreadEvent}
    (dangles : state.step options event = .error .dangling) :
    ∃ thread fHaveGrant pnode nTime, event = .addRef thread ∧
      state.openers thread = some (.found fHaveGrant pnode nTime) ∧
      nTime + 15 * 60 ≤ state.nTime := by
  have connected : ∀ pnode ∈ state.vNodes, (state.nodes pnode).isSome = true :=
    fun pnode listed => (referenced.allocated pnode).mp (List.mem_append_left _ listed)
  cases event with
  | tick nTime => cases (whenever_eq_dangling.mp dangles).2
  | close pnode =>
      obtain ⟨uses, dangles⟩ := whenever_eq_dangling.mp dangles
      exact absurd dangles (modify_ne_dangling (isSome_of_uses referenced uses))
  | inactive pnode =>
      obtain ⟨uses, dangles⟩ := whenever_eq_dangling.mp dangles
      exact absurd dangles (modify_ne_dangling (isSome_of_uses referenced uses))
  | transfer pnode vSend vRecv =>
      obtain ⟨uses, dangles⟩ := whenever_eq_dangling.mp dangles
      exact absurd dangles (modify_ne_dangling (isSome_of_uses referenced uses))
  | accept pnode addr => cases (whenever_eq_dangling.mp dangles).2
  | disconnect pnode =>
      obtain ⟨listed, dangles⟩ := whenever_eq_dangling.mp dangles
      obtain ⟨node, present⟩ := Option.isSome_iff_exists.mp (connected pnode listed)
      simp only [disconnectNode, deref, present, Option.elim_some] at dangles
      cases (whenever_eq_dangling.mp dangles).2
  | delete pnode =>
      obtain ⟨listed, dangles⟩ := whenever_eq_dangling.mp dangles
      obtain ⟨node, present⟩ := Option.isSome_iff_exists.mp
        ((referenced.allocated pnode).mp (List.mem_append_right _ listed))
      simp only [deleteNode, deref, present, Option.elim_some] at dangles
      cases (whenever_eq_dangling.mp dangles).2
  | copy thread =>
      exact absurd (whenever_eq_dangling.mp dangles).2 (modifyAll_ne_dangling connected)
  | releaseCopy thread =>
      cases copies : state.copies thread with
      | none => simp [NodeState.step, copies] at dangles
      | some vNodesCopy =>
          have allocated : ∀ pnode ∈ vNodesCopy, (state.nodes pnode).isSome = true :=
            fun pnode listed => isSome_of_held referenced copies listed
          simp only [NodeState.step, copies, Option.elim_some] at dangles
          exact absurd dangles (modifyAll_ne_dangling allocated)
  | acquire thread => cases (whenever_eq_dangling.mp dangles).2
  | withoutGrant thread => cases (whenever_eq_dangling.mp dangles).2
  | giveUp thread =>
      simp only [NodeState.step] at dangles
      split at dangles <;> cases dangles
  | find thread addr =>
      simp only [NodeState.step] at dangles
      split at dangles <;> cases dangles
  | addRef thread =>
      simp only [NodeState.step] at dangles
      split at dangles
      · rename_i fHaveGrant pnode nTime opened
        refine ⟨thread, fHaveGrant, pnode, nTime, rfl, opened, ?_⟩
        obtain ⟨-, late | ⟨node, present, -⟩⟩ := referenced.found _ _ _ _ opened
        · exact late
        · exact absurd dangles (modify_ne_dangling (Option.isSome_iff_exists.mpr ⟨node, present⟩))
      · cases dangles
  | connect thread pnode addr vSend =>
      simp only [NodeState.step] at dangles
      split at dangles
      · cases (whenever_eq_dangling.mp dangles).2
      · cases dangles
  | finish thread =>
      simp only [NodeState.step] at dangles
      split at dangles
      · rename_i fHaveGrant pnode opened
        obtain ⟨node, present⟩ := Option.isSome_iff_exists.mp
          (isSome_of_pending referenced opened rfl)
        simp [finishOpening, deref, present] at dangles
      · cases dangles

/-- The options of a node with default values. -/
def defaultOptions : NetworkOptions where
  maxConnections := 125
  fConnect := false

/-- The address of a peer. -/
def peerAddress : CAddress where
  ip := Vector.replicate 16 1
  port := 9333
  nServices := 1
  nTime := 0
  nLastTry := 0

private theorem exists_disconnected_copy : ∃ state, Reachable defaultOptions state ∧
    state.vNodesDisconnected = [5] ∧ state.copies .messageHandler = some [5] :=
  ⟨_, .step (.disconnect 5) (.step (.close 5) (.step (.copy .messageHandler)
    (.step (.accept 5 peerAddress) (.start 0) rfl) rfl) rfl) rfl, rfl, rfl⟩

end NodeState

end FooCoin

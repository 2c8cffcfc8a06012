import FooCoin.BlockOrphans
import FooCoin.SampleChain

/-!
# Runs of `ProcessBlock`

A stored orphan is stranded when its parent gets into `mapBlockIndex` and `AcceptBlock` fails all the
same: no work queue will ask for it again.  In runs where this does not happen both maps hold the
same blocks, each waits for a parent that is not there, and every call offers exactly the blocks
whose parent it accepted.
-/

namespace FooCoin

open Function Stateful

variable {crypto : Crypto}

namespace BlockStore

@[simp]
theorem heap_refile (hashPrev : UInt256) (addresses : List Nat) (store : BlockStore) :
    (store.refile hashPrev addresses).heap = store.heap := rfl

@[simp]
theorem mapBlockIndex_refile (hashPrev : UInt256) (addresses : List Nat) (store : BlockStore) :
    (store.refile hashPrev addresses).mapBlockIndex = store.mapBlockIndex := rfl

/-- Both maps hold the blocks on the heap, one by its hash and the other by its parent. -/
structure Filed (crypto : Crypto) (store : BlockStore) : Prop where
  heap_lt : ∀ address block, store.heap address = some block → address < store.nextAddress
  byHash : ∀ hash address, store.mapOrphanBlocks hash = some address ↔
    ∃ block, store.heap address = some block ∧ block.getHash crypto = hash
  byPrev : ∀ hash address, address ∈ store.mapOrphanBlocksByPrev hash ↔
    ∃ block, store.heap address = some block ∧ block.hashPrevBlock = hash
  nodup : ∀ hash, (store.mapOrphanBlocksByPrev hash).Nodup

variable {store : BlockStore}

theorem Filed.address_eq (filed : store.Filed crypto) {first second : Nat} {block other : CBlock}
    (first_live : store.heap first = some block) (second_live : store.heap second = some other)
    (same : block.getHash crypto = other.getHash crypto) : first = second := by
  have first_filed := (filed.byHash _ first).mpr ⟨block, first_live, rfl⟩
  have second_filed := (filed.byHash _ second).mpr ⟨other, second_live, rfl⟩
  rw [same, second_filed, Option.some.injEq] at first_filed
  exact first_filed.symm

theorem Filed.indexed (filed : store.Filed crypto) (mapBlockIndex : Finset UInt256) :
    ({ store with mapBlockIndex } : BlockStore).Filed crypto :=
  ⟨filed.heap_lt, filed.byHash, filed.byPrev, filed.nodup⟩

/-- A new block is filed where it belongs. -/
theorem Filed.addOrphan (filed : store.Filed crypto) {pblock : CBlock}
    (fresh : store.mapOrphanBlocks (pblock.getHash crypto) = none) :
    (store.addOrphan crypto pblock).Filed crypto := by
  have free : store.heap store.nextAddress = none := by
    cases used : store.heap store.nextAddress with
    | none => rfl
    | some block => exact absurd (filed.heap_lt _ _ used) (lt_irrefl _)
  have heap_of_ne {address : Nat} (other : address ≠ store.nextAddress) :
      (store.addOrphan crypto pblock).heap address = store.heap address := update_of_ne other _ _
  have heap_self : (store.addOrphan crypto pblock).heap store.nextAddress = some pblock :=
    update_self ..
  constructor
  · intro address block live
    by_cases same : address = store.nextAddress
    · exact same ▸ Nat.lt_succ_self _
    · rw [heap_of_ne same] at live
      exact (filed.heap_lt address block live).trans (Nat.lt_succ_self _)
  · intro hash address
    by_cases same : address = store.nextAddress
    · subst same
      simp only [heap_self, Option.some.injEq, exists_eq_left']
      by_cases own : hash = pblock.getHash crypto
      · simp [BlockStore.addOrphan, own]
      · have absent : store.mapOrphanBlocks hash ≠ some store.nextAddress := by
          rw [ne_eq, filed.byHash]
          simp [free]
        simp [BlockStore.addOrphan, own, absent, Ne.symm own]
    · rw [heap_of_ne same, ← filed.byHash]
      by_cases own : hash = pblock.getHash crypto
      · subst own
        simp [BlockStore.addOrphan, fresh, Ne.symm same]
      · simp [BlockStore.addOrphan, own]
  · intro hash address
    by_cases same : address = store.nextAddress
    · subst same
      simp only [heap_self, Option.some.injEq, exists_eq_left']
      by_cases own : hash = pblock.hashPrevBlock
      · simp [BlockStore.addOrphan, own]
      · have absent : store.nextAddress ∉ store.mapOrphanBlocksByPrev hash := by
          rw [filed.byPrev]
          simp [free]
        simp [BlockStore.addOrphan, own, absent, Ne.symm own]
    · rw [heap_of_ne same, ← filed.byPrev]
      by_cases own : hash = pblock.hashPrevBlock
      · simp [BlockStore.addOrphan, own, same]
      · simp [BlockStore.addOrphan, own]
  · intro hash
    by_cases own : hash = pblock.hashPrevBlock
    · have absent : store.nextAddress ∉ store.mapOrphanBlocksByPrev pblock.hashPrevBlock := by
        rw [filed.byPrev]
        simp [free]
      simp only [BlockStore.addOrphan, own, update_self, List.nodup_append]
      refine ⟨filed.nodup _, List.nodup_singleton _, ?_⟩
      rintro address member _ new rfl
      exact absent (List.mem_singleton.mp new ▸ member)
    · simpa [BlockStore.addOrphan, own] using filed.nodup hash

/-- A block that was offered leaves both maps and the heap. -/
theorem Filed.deleteOrphan {hashPrev : UInt256} {address : Nat} {rest : List Nat}
    (filed : (store.refile hashPrev (address :: rest)).Filed crypto) {block : CBlock}
    (live : store.heap address = some block) (waits : block.hashPrevBlock = hashPrev) :
    ((store.deleteOrphan crypto address block).refile hashPrev rest).Filed crypto := by
  have heap_eq (other : Nat) (found : CBlock) :
      update store.heap address none other = some found ↔
        other ≠ address ∧ store.heap other = some found := by
    by_cases same : other = address
    · simp [same]
    · simp [same]
  have own_nodup := filed.nodup hashPrev
  simp only [refile, update_self, List.nodup_cons] at own_nodup
  constructor
  · intro other found found_live
    exact filed.heap_lt other found ((heap_eq other found).mp found_live).2
  · intro hash other
    simp only [BlockStore.deleteOrphan, refile, heap_eq]
    by_cases own : hash = block.getHash crypto
    · subst own
      simp only [update_self, reduceCtorEq, false_iff, not_exists, not_and]
      rintro found ⟨different, found_live⟩ same
      exact different (filed.address_eq found_live live same)
    · rw [update_of_ne own]
      refine (filed.byHash hash other).trans ?_
      constructor
      · rintro ⟨found, found_live, rfl⟩
        refine ⟨found, ⟨?_, found_live⟩, rfl⟩
        rintro rfl
        exact own (by rw [Option.some.inj (found_live.symm.trans live)])
      · rintro ⟨found, ⟨_, found_live⟩, same⟩
        exact ⟨found, found_live, same⟩
  · intro hash other
    have before := filed.byPrev hash other
    simp only [BlockStore.deleteOrphan, refile, heap_eq] at before ⊢
    by_cases own : hash = hashPrev
    · subst own
      simp only [update_self, List.mem_cons] at before ⊢
      constructor
      · intro member
        obtain ⟨found, found_live, same⟩ := before.mp (.inr member)
        refine ⟨found, ⟨?_, found_live⟩, same⟩
        rintro rfl
        exact own_nodup.1 member
      · rintro ⟨found, ⟨different, found_live⟩, same⟩
        exact (before.mpr ⟨found, found_live, same⟩).resolve_left different
    · rw [update_of_ne own] at before ⊢
      refine before.trans ?_
      constructor
      · rintro ⟨found, found_live, rfl⟩
        refine ⟨found, ⟨?_, found_live⟩, rfl⟩
        rintro rfl
        exact own (by rw [Option.some.inj (found_live.symm.trans live), waits])
      · rintro ⟨found, ⟨_, found_live⟩, same⟩
        exact ⟨found, found_live, same⟩
  · intro hash
    have before := filed.nodup hash
    simp only [refile] at before ⊢
    by_cases own : hash = hashPrev
    · subst own
      simpa using own_nodup.2
    · rw [update_of_ne own] at before ⊢
      exact before

/-- The invariant of the runs. -/
structure Sound (crypto : Crypto) (store : BlockStore) : Prop where
  filed : store.Filed crypto
  fresh : ∀ address block, store.heap address = some block →
    block.getHash crypto ∉ store.mapBlockIndex
  waiting : ∀ address block, store.heap address = some block →
    block.hashPrevBlock ∉ store.mapBlockIndex

end BlockStore

/-! ## The work queue -/

/-- A block on the heap waits for the block with a hash. -/
def Awaited (heap : Nat → Option CBlock) (hash : UInt256) : Prop :=
  ∃ address block, heap address = some block ∧ block.hashPrevBlock = hash

/-- The blocks that a work queue accepts, by their hashes: the one at its front and the orphans that
wait for accepted ones and are accepted. -/
inductive Reached (crypto : Crypto) (acceptance : UInt256 → Acceptance)
    (heap : Nat → Option CBlock) (hash : UInt256) : UInt256 → Prop
  | block : Reached crypto acceptance heap hash hash
  | orphan {address : Nat} {orphan : CBlock} : heap address = some orphan →
      Reached crypto acceptance heap hash orphan.hashPrevBlock →
      acceptance (orphan.getHash crypto) = .entered (.ok ()) →
        Reached crypto acceptance heap hash (orphan.getHash crypto)

/-- `AcceptBlock` of an orphan does not throw, and does not return `false` for one that it has put
into `mapBlockIndex` while another orphan waits for it. -/
structure Unstranding (heap : Nat → Option CBlock) (hash : UInt256) (acceptance : Acceptance) :
    Prop where
  refused : ∀ failure, acceptance = .refused failure → failure = .rejected
  entered : ∀ failure, acceptance = .entered (.error failure) →
    failure = .rejected ∧ ¬Awaited heap hash

/-- A store in which the block at the front of a work queue has been accepted. -/
structure Front (crypto : Crypto) (context : ProcessContext) (hash : UInt256) (base : BlockStore) :
    Prop where
  filed : base.Filed crypto
  fresh : ∀ address block, base.heap address = some block →
    block.getHash crypto ∉ base.mapBlockIndex
  clean : ∀ address orphan, base.heap address = some orphan →
    Reached crypto context.acceptance base.heap hash orphan.hashPrevBlock →
      Unstranding base.heap (orphan.getHash crypto) (context.acceptance (orphan.getHash crypto))

/-- What a work queue keeps.  The store `base` is the one in which the block at its front has been
accepted. -/
structure Passing (crypto : Crypto) (context : ProcessContext) (hash : UInt256) (base : BlockStore)
    (pass : QueuePass) : Prop where
  filed : pass.store.Filed crypto
  live_iff : ∀ address block, pass.store.heap address = some block ↔
    address ∉ pass.offered ∧ base.heap address = some block
  nodup : pass.offered.Nodup
  offered : ∀ address ∈ pass.offered, ∃ block, base.heap address = some block ∧
    block.hashPrevBlock ∈ pass.vWorkQueue ∧
    (context.acceptance (block.getHash crypto) = .entered (.ok ()) →
      block.getHash crypto ∈ pass.vWorkQueue)
  length_le : pass.vWorkQueue.length ≤ 1 + pass.offered.length
  reached : ∀ accepted ∈ pass.vWorkQueue, accepted ∈ pass.store.mapBlockIndex ∧
    Reached crypto context.acceptance base.heap hash accepted
  index : ∀ known ∈ pass.store.mapBlockIndex, known ∈ base.mapBlockIndex ∨
    ∃ address ∈ pass.offered, ∃ block, base.heap address = some block ∧
      block.getHash crypto = known ∧ ∃ outcome, context.acceptance known = .entered outcome

/-- The pass with what is left to offer under a hash. -/
def QueuePass.refile (hashPrev : UInt256) (addresses : List Nat) (pass : QueuePass) : QueuePass :=
  { pass with store := pass.store.refile hashPrev addresses }

@[simp]
theorem QueuePass.store_refile (hashPrev : UInt256) (addresses : List Nat) (pass : QueuePass) :
    (pass.refile hashPrev addresses).store = pass.store.refile hashPrev addresses := rfl

@[simp]
theorem QueuePass.offered_refile (hashPrev : UInt256) (addresses : List Nat) (pass : QueuePass) :
    (pass.refile hashPrev addresses).offered = pass.offered := rfl

@[simp]
theorem QueuePass.vWorkQueue_refile (hashPrev : UInt256) (addresses : List Nat)
    (pass : QueuePass) : (pass.refile hashPrev addresses).vWorkQueue = pass.vWorkQueue := rfl

section Queue

variable {context : ProcessContext} {hash hashPrev : UInt256} {base : BlockStore}
  {pass : QueuePass} {address : Nat} {rest : List Nat}

/-- The pass after a block was offered and deleted. -/
theorem Passing.delete
    (passing : Passing crypto context hash base (pass.refile hashPrev (address :: rest)))
    {block : CBlock} (live : pass.store.heap address = some block)
    (waits : block.hashPrevBlock = hashPrev) (queued : hashPrev ∈ pass.vWorkQueue)
    {mapBlockIndex : Finset UInt256} {vWorkQueue : List UInt256}
    (longer : pass.vWorkQueue <+: vWorkQueue)
    (length_le : vWorkQueue.length ≤ pass.vWorkQueue.length + 1)
    (pushed : ∀ accepted ∈ vWorkQueue, accepted ∈ pass.vWorkQueue ∨
      (accepted ∈ mapBlockIndex ∧
        Reached crypto context.acceptance base.heap hash accepted))
    (accepted : context.acceptance (block.getHash crypto) = .entered (.ok ()) →
      block.getHash crypto ∈ vWorkQueue)
    (larger : pass.store.mapBlockIndex ⊆ mapBlockIndex)
    (entered : ∀ known ∈ mapBlockIndex, known ∈ pass.store.mapBlockIndex ∨
      (known = block.getHash crypto ∧
        ∃ outcome, context.acceptance known = .entered outcome)) :
    Passing crypto context hash base
      (QueuePass.refile hashPrev rest
        { vWorkQueue
          offered := pass.offered ++ [address]
          store := BlockStore.deleteOrphan crypto address block
            { pass.store with mapBlockIndex } }) := by
  obtain ⟨unoffered, base_live⟩ := (passing.live_iff address block).mp live
  constructor
  · exact (passing.filed.deleteOrphan live waits).indexed mapBlockIndex
  · intro other found
    have before := passing.live_iff other found
    simp only [QueuePass.store_refile, BlockStore.heap_refile, QueuePass.offered_refile,
      BlockStore.deleteOrphan, List.mem_append, List.mem_singleton, not_or] at before ⊢
    by_cases same : other = address
    · simp [same]
    · simpa [same] using before
  · refine List.nodup_append.mpr ⟨passing.nodup, List.nodup_singleton _, ?_⟩
    rintro other member _ last rfl
    exact unoffered (List.mem_singleton.mp last ▸ member)
  · intro other member
    rcases List.mem_append.mp member with before | last
    · obtain ⟨found, found_live, found_waits, found_accepted⟩ := passing.offered other before
      exact ⟨found, found_live, longer.subset found_waits,
        fun enters => longer.subset (found_accepted enters)⟩
    · obtain rfl := List.mem_singleton.mp last
      exact ⟨block, base_live, longer.subset (waits ▸ queued), accepted⟩
  · have before := passing.length_le
    simp only [QueuePass.refile, List.length_append, List.length_singleton] at before ⊢
    omega
  · intro known member
    rcases pushed known member with before | new
    · have reached := passing.reached known before
      exact ⟨larger reached.1, reached.2⟩
    · exact new
  · intro known member
    rcases entered known member with before | ⟨rfl, outcome⟩
    · rcases passing.index known before with base_known | ⟨other, other_offered, found⟩
      · exact .inl base_known
      · exact .inr ⟨other, List.mem_append_left _ other_offered, found⟩
    · exact .inr ⟨address, by simp [QueuePass.refile], block, base_live, rfl, outcome⟩

/-- One orphan is offered. -/
theorem Passing.offerOrphan
    (passing : Passing crypto context hash base (pass.refile hashPrev (address :: rest)))
    (front : Front crypto context hash base) (queued : hashPrev ∈ pass.vWorkQueue) :
    ∃ after, offerOrphan crypto context address pass = (.ok (), after) ∧
      Passing crypto context hash base (after.refile hashPrev rest) ∧
      pass.vWorkQueue <+: after.vWorkQueue ∧ after.offered = pass.offered ++ [address] := by
  obtain ⟨block, live, waits⟩ := (passing.filed.byPrev hashPrev address).mp (by
    simp [QueuePass.refile, BlockStore.refile])
  obtain ⟨known_prev, reached_prev⟩ := passing.reached hashPrev queued
  obtain ⟨unoffered, base_live⟩ := (passing.live_iff address block).mp live
  have new : block.getHash crypto ∉ pass.store.mapBlockIndex := by
    intro known
    rcases passing.index _ known with base_known | ⟨other, offered, found, found_live, same, _⟩
    · exact front.fresh address block base_live base_known
    · exact unoffered (front.filed.address_eq base_live found_live same.symm ▸ offered)
  have offered_eq := front.clean address block base_live (waits ▸ reached_prev)
  have prev_known : block.hashPrevBlock ∈ pass.store.mapBlockIndex := waits ▸ known_prev
  have heap_live : pass.store.heap address = some block := live
  simp only [FooCoin.offerOrphan, heap_live]
  cases acceptance : context.acceptance (block.getHash crypto) with
  | refused failure =>
      have accept_eq : pass.store.acceptBlock crypto context.acceptance block =
          (.error failure, pass.store) := by
        simp only [BlockStore.acceptBlock, new, prev_known, acceptance, not_true, if_false]
      simp only [accept_eq]
      obtain rfl := offered_eq.refused failure acceptance
      refine ⟨_, rfl, passing.delete live waits queued (List.prefix_refl _) (Nat.le_succ _)
        (fun _ member => .inl member) (by simp [acceptance]) (Finset.Subset.refl _)
        (fun _ member => .inl member), List.prefix_refl _, rfl⟩
  | entered outcome =>
      have accept_eq : pass.store.acceptBlock crypto context.acceptance block =
          (outcome, { pass.store with
            mapBlockIndex := insert (block.getHash crypto) pass.store.mapBlockIndex }) := by
        simp only [BlockStore.acceptBlock, new, prev_known, acceptance, not_true, if_false]
      simp only [accept_eq]
      have entered : ∀ known ∈ insert (block.getHash crypto) pass.store.mapBlockIndex,
          known ∈ pass.store.mapBlockIndex ∨ (known = block.getHash crypto ∧
            ∃ outcome, context.acceptance known = .entered outcome) := by
        intro known member
        rcases Finset.mem_insert.mp member with rfl | before
        · exact .inr ⟨rfl, outcome, acceptance⟩
        · exact .inl before
      cases outcome with
      | error failure =>
          obtain ⟨rfl, -⟩ := offered_eq.entered failure acceptance
          refine ⟨_, rfl, passing.delete live waits queued (List.prefix_refl _) (Nat.le_succ _)
            (fun _ member => .inl member) (by simp [acceptance]) (Finset.subset_insert _ _) entered,
            List.prefix_refl _, rfl⟩
      | ok value =>
          have reached := Reached.orphan base_live (waits ▸ reached_prev) acceptance
          refine ⟨_, rfl, passing.delete live waits queued (List.prefix_append _ _) (by simp)
            (fun accepted member => ?_) (by simp) (Finset.subset_insert _ _) entered,
            List.prefix_append _ _, rfl⟩
          rcases List.mem_append.mp member with before | last
          · exact .inl before
          · obtain rfl := List.mem_singleton.mp last
            exact .inr ⟨Finset.mem_insert_self _ _, reached⟩

/-- All orphans under a hash are offered. -/
private theorem Passing.offerOrphans
    (passing : Passing crypto context hash base (pass.refile hashPrev rest))
    (front : Front crypto context hash base) (queued : hashPrev ∈ pass.vWorkQueue) :
    ∃ after, sequence (FooCoin.offerOrphan crypto context) rest pass = (.ok (), after) ∧
      Passing crypto context hash base (after.refile hashPrev []) ∧
      pass.vWorkQueue <+: after.vWorkQueue ∧ after.offered = pass.offered ++ rest := by
  induction rest generalizing pass with
  | nil => exact ⟨pass, rfl, passing, List.prefix_refl _, (List.append_nil _).symm⟩
  | cons address rest induction =>
      obtain ⟨middle, first, middle_passing, middle_longer, middle_offered⟩ :=
        passing.offerOrphan front queued
      obtain ⟨after, others, after_passing, after_longer, after_offered⟩ :=
        induction middle_passing (middle_longer.subset queued)
      have offered : after.offered = pass.offered ++ address :: rest := by
        rw [after_offered, middle_offered, List.append_assoc, List.singleton_append]
      exact ⟨after, sequence_cons_eq_ok.mpr ⟨middle, first, others⟩, after_passing,
        middle_longer.trans after_longer, offered⟩

/-- No more blocks are offered than there are addresses. -/
private theorem Passing.length_offered_le (passing : Passing crypto context hash base pass)
    (base_filed : base.Filed crypto) : pass.offered.length ≤ base.nextAddress := by
  have used : pass.offered ⊆ List.range base.nextAddress := by
    intro address member
    obtain ⟨block, live, -⟩ := passing.offered address member
    exact List.mem_range.mpr (base_filed.heap_lt address block live)
  simpa using (passing.nodup.subperm used).length_le

/-- All orphans that wait for one of the hashes were offered. -/
def OfferedUnder (base : BlockStore) (hashes : List UInt256) (offered : List Nat) : Prop :=
  ∀ address block, base.heap address = some block → block.hashPrevBlock ∈ hashes →
    address ∈ offered

/-- The work queue ends, and has offered the orphans under all its hashes. -/
private theorem Passing.workQueueLoop {fuel i : Nat}
    (passing : Passing crypto context hash base pass) (front : Front crypto context hash base)
    (done : OfferedUnder base (pass.vWorkQueue.take i) pass.offered)
    (within : i ≤ pass.vWorkQueue.length) (enough : base.nextAddress + 2 ≤ fuel + i) :
    ∃ after, FooCoin.workQueueLoop crypto context fuel i pass = some (.ok (), after) ∧
      Passing crypto context hash base after ∧ pass.vWorkQueue <+: after.vWorkQueue ∧
      OfferedUnder base after.vWorkQueue after.offered := by
  induction fuel generalizing i pass with
  | zero =>
      have queue_le := passing.length_le
      have offered_le := passing.length_offered_le front.filed
      omega
  | succ fuel induction =>
      rw [FooCoin.workQueueLoop]
      cases entry : pass.vWorkQueue[i]? with
      | none =>
          have ended := List.getElem?_eq_none_iff.mp entry
          rw [List.take_of_length_le ended] at done
          exact ⟨pass, rfl, passing, List.prefix_refl _, done⟩
      | some hashPrev =>
          obtain ⟨small, entry_eq⟩ := List.getElem?_eq_some_iff.mp entry
          have queued : hashPrev ∈ pass.vWorkQueue := List.mem_of_getElem? entry
          have unchanged :
              pass.refile hashPrev (pass.store.mapOrphanBlocksByPrev hashPrev) = pass := by
            simp [QueuePass.refile, BlockStore.refile]
          obtain ⟨after, offers, after_passing, longer, offered⟩ :=
            Passing.offerOrphans (unchanged.symm ▸ passing) front queued
          have next_done : OfferedUnder base (after.vWorkQueue.take (i + 1)) after.offered := by
            intro address block live waits
            obtain ⟨new, grown⟩ := longer
            rw [← grown, List.take_append_of_le_length small, List.take_add_one, entry] at waits
            rw [offered]
            rcases List.mem_append.mp waits with earlier | last
            · exact List.mem_append_left _ (done address block live earlier)
            · obtain rfl : block.hashPrevBlock = hashPrev := by simpa using last
              by_cases before : address ∈ pass.offered
              · exact List.mem_append_left _ before
              · have stored := (passing.live_iff address block).mpr ⟨before, live⟩
                exact List.mem_append_right _
                  ((passing.filed.byPrev _ address).mpr ⟨block, stored, rfl⟩)
          obtain ⟨last, loop, last_passing, last_longer, last_done⟩ :=
            induction after_passing next_done (small.trans_le longer.length_le) (by omega)
          simp only [offers]
          exact ⟨last, loop, last_passing, longer.trans last_longer, last_done⟩

/-- A queue that has ended has offered the orphans whose parents it reached. -/
private theorem Passing.mem_offered_iff (passing : Passing crypto context hash base pass)
    (front : hash ∈ pass.vWorkQueue)
    (done : OfferedUnder base pass.vWorkQueue pass.offered) (address : Nat) :
    address ∈ pass.offered ↔ ∃ block, base.heap address = some block ∧
      Reached crypto context.acceptance base.heap hash block.hashPrevBlock := by
  constructor
  · intro member
    obtain ⟨block, live, waits, -⟩ := passing.offered address member
    exact ⟨block, live, (passing.reached _ waits).2⟩
  · rintro ⟨block, live, reached⟩
    have queued : ∀ accepted, Reached crypto context.acceptance base.heap hash accepted →
        accepted ∈ pass.vWorkQueue := by
      intro accepted reached
      induction reached with
      | block => exact front
      | orphan orphan_live _ accepts induction =>
          have offered := done _ _ orphan_live induction
          obtain ⟨found, found_live, -, pushed⟩ := passing.offered _ offered
          obtain rfl := Option.some.inj (found_live.symm.trans orphan_live)
          exact pushed accepts
    exact done address block live (queued _ reached)

/-- A queue that has ended leaves no orphan whose parent is in `mapBlockIndex`. -/
private theorem Passing.sound {store : BlockStore}
    (passing : Passing crypto context hash
      { store with mapBlockIndex := insert hash store.mapBlockIndex } pass)
    (front : Front crypto context hash
      { store with mapBlockIndex := insert hash store.mapBlockIndex })
    (queued : hash ∈ pass.vWorkQueue)
    (done : OfferedUnder { store with mapBlockIndex := insert hash store.mapBlockIndex }
      pass.vWorkQueue pass.offered)
    (sound : store.Sound crypto) : pass.store.Sound crypto := by
  constructor
  · exact passing.filed
  · intro address block live known
    obtain ⟨unoffered, base_live⟩ := (passing.live_iff address block).mp live
    rcases passing.index _ known with base_known | ⟨other, offered, found, found_live, same, -⟩
    · exact front.fresh address block base_live base_known
    · exact unoffered (front.filed.address_eq base_live found_live same.symm ▸ offered)
  · intro address block live known
    obtain ⟨unoffered, base_live⟩ := (passing.live_iff address block).mp live
    have unqueued : block.hashPrevBlock ∉ pass.vWorkQueue := fun waits =>
      unoffered (done address block base_live waits)
    rcases passing.index _ known with base_known | ⟨other, offered, found, found_live, same, entered⟩
    · rcases Finset.mem_insert.mp base_known with same | known
      · exact unqueued (same ▸ queued)
      · exact sound.waiting address block base_live known
    · obtain ⟨found', found_live', waits, pushed⟩ := passing.offered other offered
      obtain rfl := Option.some.inj (found_live'.symm.trans found_live)
      obtain ⟨outcome, accepts⟩ := entered
      cases outcome with
      | ok value => exact unqueued (same ▸ pushed (same ▸ accepts))
      | error failure =>
          have clean := front.clean other found' found_live (passing.reached _ waits).2
          exact (clean.entered failure (same ▸ accepts)).2 ⟨address, block, base_live, same.symm⟩

end Queue

/-! ## Calls and runs -/

/-- No call of `AcceptBlock` throws while orphans are offered, or fails for a block that it has put
into `mapBlockIndex` while a stored orphan waits for it. -/
def Unstranded (crypto : Crypto) (context : ProcessContext) (pblock : CBlock)
    (store : BlockStore) : Prop :=
  preliminaryChecks crypto context pblock store = .ok () →
  pblock.hashPrevBlock ∈ store.mapBlockIndex →
    (∀ failure, context.acceptance (pblock.getHash crypto) = .entered (.error failure) →
      ¬Awaited store.heap (pblock.getHash crypto)) ∧
    (context.acceptance (pblock.getHash crypto) = .entered (.ok ()) →
      ∀ address orphan, store.heap address = some orphan →
        Reached crypto context.acceptance store.heap (pblock.getHash crypto)
          orphan.hashPrevBlock →
        Unstranding store.heap (orphan.getHash crypto)
          (context.acceptance (orphan.getHash crypto)))

/-- `ProcessBlock` accepts the block. -/
structure Accepts (crypto : Crypto) (context : ProcessContext) (pblock : CBlock)
    (store : BlockStore) : Prop where
  checked : preliminaryChecks crypto context pblock store = .ok ()
  known : pblock.hashPrevBlock ∈ store.mapBlockIndex
  accepted : context.acceptance (pblock.getHash crypto) = .entered (.ok ())

section Call

variable {context : ProcessContext} {pblock : CBlock} {store : BlockStore}

/-- The checks pass only for a block that is in neither map. -/
private theorem preliminaryChecks_new
    (checked : preliminaryChecks crypto context pblock store = .ok ()) :
    pblock.getHash crypto ∉ store.mapBlockIndex ∧
      store.mapOrphanBlocks (pblock.getHash crypto) = none := by
  simp only [preliminaryChecks, except_bind_eq_ok, require_eq_ok, exists_const] at checked
  exact ⟨checked.1, checked.2.1⟩

/-- A block whose parent is missing becomes an orphan. -/
theorem processBlock_orphan (checked : preliminaryChecks crypto context pblock store = .ok ())
    (missing : pblock.hashPrevBlock ∉ store.mapBlockIndex) :
    processBlock crypto context pblock store = some (.ok (),
      { vWorkQueue := [], offered := [], store := store.addOrphan crypto pblock }) := by
  simp only [processBlock, checked, missing, not_false_eq_true, if_true]

/-- A block whose parent is known goes to `AcceptBlock`. -/
theorem processBlock_known (checked : preliminaryChecks crypto context pblock store = .ok ())
    (known : pblock.hashPrevBlock ∈ store.mapBlockIndex) :
    processBlock crypto context pblock store =
      match context.acceptance (pblock.getHash crypto) with
      | .refused failure => some (.error failure, { vWorkQueue := [], offered := [], store })
      | .entered outcome =>
          let store : BlockStore := { store with
            mapBlockIndex := insert (pblock.getHash crypto) store.mapBlockIndex }
          match outcome with
          | .error failure => some (.error failure, { vWorkQueue := [], offered := [], store })
          | .ok () =>
              workQueueLoop crypto context (store.nextAddress + 2) 0
                { vWorkQueue := [pblock.getHash crypto], offered := [], store } := by
  have new := (preliminaryChecks_new checked).1
  simp only [processBlock, checked, BlockStore.acceptBlock, known, new, not_true_eq_false, if_false]
  cases context.acceptance (pblock.getHash crypto) with
  | refused failure => rfl
  | entered outcome => cases outcome <;> rfl

/-- A block that enters `mapBlockIndex` and fails strands the orphans that wait for it. -/
theorem processBlock_strands {failure : Failure} {address : Nat}
    (checked : preliminaryChecks crypto context pblock store = .ok ())
    (known : pblock.hashPrevBlock ∈ store.mapBlockIndex)
    (fails : context.acceptance (pblock.getHash crypto) = .entered (.error failure))
    (filed : address ∈ store.mapOrphanBlocksByPrev (pblock.getHash crypto)) :
    ∃ pass, processBlock crypto context pblock store = some (.error failure, pass) ∧
      address ∈ pass.store.mapOrphanBlocksByPrev (pblock.getHash crypto) ∧
      pblock.getHash crypto ∈ pass.store.mapBlockIndex := by
  rw [processBlock_known checked known, fails]
  exact ⟨_, rfl, filed, Finset.mem_insert_self _ _⟩

/-- A stored orphan is another block than one that passes the checks. -/
private theorem BlockStore.Filed.getHash_ne (filed : store.Filed crypto)
    (checked : preliminaryChecks crypto context pblock store = .ok ()) {address : Nat}
    {orphan : CBlock} (live : store.heap address = some orphan) :
    orphan.getHash crypto ≠ pblock.getHash crypto := by
  intro same
  have stored := (filed.byHash _ address).mpr ⟨orphan, live, same⟩
  simp [(preliminaryChecks_new checked).2] at stored

/-- A block may enter `mapBlockIndex` where no orphan waits for it. -/
private theorem BlockStore.Sound.entered (sound : store.Sound crypto)
    (checked : preliminaryChecks crypto context pblock store = .ok ())
    (unawaited : ¬Awaited store.heap (pblock.getHash crypto)) :
    ({ store with mapBlockIndex := insert (pblock.getHash crypto) store.mapBlockIndex } :
      BlockStore).Sound crypto := by
  constructor
  · exact sound.filed.indexed _
  · intro address orphan live entered
    rcases Finset.mem_insert.mp entered with same | before
    · exact sound.filed.getHash_ne checked live same
    · exact sound.fresh address orphan live before
  · intro address orphan live entered
    rcases Finset.mem_insert.mp entered with same | before
    · exact unawaited ⟨address, orphan, live, same⟩
    · exact sound.waiting address orphan live before

/-- A block whose parent is missing may wait. -/
private theorem BlockStore.Sound.addOrphan (sound : store.Sound crypto)
    (checked : preliminaryChecks crypto context pblock store = .ok ())
    (missing : pblock.hashPrevBlock ∉ store.mapBlockIndex) :
    (store.addOrphan crypto pblock).Sound crypto := by
  obtain ⟨new, unstored⟩ := preliminaryChecks_new checked
  constructor
  · exact sound.filed.addOrphan unstored
  · intro address orphan live
    rcases eq_or_ne address store.nextAddress with rfl | other
    · obtain rfl : pblock = orphan := by simpa [BlockStore.addOrphan] using live
      exact new
    · exact sound.fresh address orphan (by simpa [BlockStore.addOrphan, other] using live)
  · intro address orphan live
    rcases eq_or_ne address store.nextAddress with rfl | other
    · obtain rfl : pblock = orphan := by simpa [BlockStore.addOrphan] using live
      exact missing
    · exact sound.waiting address orphan (by simpa [BlockStore.addOrphan, other] using live)

/-- A call that accepts its block. -/
private theorem BlockStore.Sound.accepts (sound : store.Sound crypto)
    (accepts : Accepts crypto context pblock store)
    (unstranded : Unstranded crypto context pblock store) :
    ∃ pass, processBlock crypto context pblock store = some (.ok (), pass) ∧
      pass.store.Sound crypto ∧ pass.offered.Nodup ∧
      ∀ address, address ∈ pass.offered ↔ ∃ orphan, store.heap address = some orphan ∧
        Reached crypto context.acceptance store.heap (pblock.getHash crypto)
          orphan.hashPrevBlock := by
  obtain ⟨checked, known, accepted⟩ := accepts
  have front : Front crypto context (pblock.getHash crypto)
      { store with
        mapBlockIndex := insert (pblock.getHash crypto) store.mapBlockIndex } := by
    constructor
    · exact sound.filed.indexed _
    · intro address orphan live entered
      rcases Finset.mem_insert.mp entered with same | before
      · exact sound.filed.getHash_ne checked live same
      · exact sound.fresh address orphan live before
    · exact (unstranded checked known).2 accepted
  have start : Passing crypto context (pblock.getHash crypto)
      { store with mapBlockIndex := insert (pblock.getHash crypto) store.mapBlockIndex }
      { vWorkQueue := [pblock.getHash crypto]
        offered := []
        store := { store with
          mapBlockIndex := insert (pblock.getHash crypto) store.mapBlockIndex } } := by
    constructor
    · exact front.filed
    · simp
    · exact List.nodup_nil
    · simp
    · simp
    · intro accepted member
      obtain rfl := List.mem_singleton.mp member
      exact ⟨Finset.mem_insert_self _ _, .block⟩
    · intro known member
      exact .inl member
  have ends := start.workQueueLoop front (by simp [OfferedUnder]) (Nat.zero_le _)
    (le_refl (store.nextAddress + 2))
  obtain ⟨pass, loop, passing, longer, done⟩ := ends
  have queued : pblock.getHash crypto ∈ pass.vWorkQueue := longer.subset List.mem_cons_self
  refine ⟨pass, ?_, passing.sound front queued done sound, passing.nodup,
    passing.mem_offered_iff queued done⟩
  rw [processBlock_known checked known, accepted]
  exact loop

/-- A call from a sound store ends in a sound store.  It offers exactly the orphans whose parents it
accepted, each once. -/
theorem BlockStore.Sound.processBlock (sound : store.Sound crypto)
    (unstranded : Unstranded crypto context pblock store) :
    ∃ outcome pass, processBlock crypto context pblock store = some (outcome, pass) ∧
      pass.store.Sound crypto ∧ pass.offered.Nodup ∧
      ∀ address, address ∈ pass.offered ↔ Accepts crypto context pblock store ∧
        ∃ orphan, store.heap address = some orphan ∧
          Reached crypto context.acceptance store.heap (pblock.getHash crypto)
            orphan.hashPrevBlock := by
  cases checks : preliminaryChecks crypto context pblock store with
  | error failure =>
      have refused : ¬Accepts crypto context pblock store := by
        rintro ⟨checked, -, -⟩
        simp [checks] at checked
      refine ⟨.error failure, ⟨[], [], store⟩, ?_, sound, List.nodup_nil, by simp [refused]⟩
      simp only [FooCoin.processBlock, checks]
  | ok value =>
      by_cases known : pblock.hashPrevBlock ∈ store.mapBlockIndex
      · cases acceptance : context.acceptance (pblock.getHash crypto) with
        | refused failure =>
            have refused : ¬Accepts crypto context pblock store := by
              rintro ⟨-, -, accepted⟩
              simp [acceptance] at accepted
            refine ⟨.error failure, ⟨[], [], store⟩, ?_, sound, List.nodup_nil, by simp [refused]⟩
            rw [processBlock_known checks known, acceptance]
        | entered outcome =>
            cases outcome with
            | error failure =>
                have refused : ¬Accepts crypto context pblock store := by
                  rintro ⟨-, -, accepted⟩
                  simp [acceptance] at accepted
                refine ⟨.error failure, ⟨[], [], _⟩, ?_,
                  sound.entered checks ((unstranded checks known).1 failure acceptance),
                  List.nodup_nil, by simp [refused]⟩
                rw [processBlock_known checks known, acceptance]
            | ok value =>
                have accepts : Accepts crypto context pblock store := ⟨checks, known, acceptance⟩
                obtain ⟨pass, call, after, nodup, offered⟩ := sound.accepts accepts unstranded
                exact ⟨_, pass, call, after, nodup, by simpa [accepts] using offered⟩
      · have refused : ¬Accepts crypto context pblock store := fun accepts => known accepts.known
        exact ⟨.ok (), ⟨[], [], store.addOrphan crypto pblock⟩, processBlock_orphan checks known,
          sound.addOrphan checks known, List.nodup_nil, by simp [refused]⟩

end Call

/-- A store without orphans. -/
def BlockStore.start (mapBlockIndex : Finset UInt256) : BlockStore where
  mapBlockIndex
  mapOrphanBlocks _ := none
  mapOrphanBlocksByPrev _ := []
  heap _ := none
  nextAddress := 0

/-- Runs of `ProcessBlock`, by the calls that are allowed. -/
inductive ProcessRun (crypto : Crypto) (allowed : ProcessContext → CBlock → BlockStore → Prop) :
    BlockStore → Prop
  | start (mapBlockIndex : Finset UInt256) : ProcessRun crypto allowed (.start mapBlockIndex)
  | step {store : BlockStore} {context : ProcessContext} {pblock : CBlock} {outcome : Outcome Unit}
      {pass : QueuePass} : ProcessRun crypto allowed store → allowed context pblock store →
      processBlock crypto context pblock store = some (outcome, pass) →
        ProcessRun crypto allowed pass.store

/-- Every store of the runs is sound. -/
theorem ProcessRun.sound {store : BlockStore} (run : ProcessRun crypto (Unstranded crypto) store) :
    store.Sound crypto := by
  induction run with
  | start mapBlockIndex =>
      constructor
      · constructor <;> simp [BlockStore.start]
      · simp [BlockStore.start]
      · simp [BlockStore.start]
  | step _ unstranded call induction =>
      obtain ⟨outcome, pass, result, after, -⟩ := induction.processBlock unstranded
      rw [call] at result
      cases result
      exact after

/-- The orphan store of the source: both maps hold the same blocks, each once and under its own
hash and the hash of its parent, and no parent is in `mapBlockIndex`. -/
structure BlockStore.Consistent (crypto : Crypto) (store : BlockStore) : Prop where
  same : ∀ address, (∃ hash, store.mapOrphanBlocks hash = some address) ↔
    ∃ hash, address ∈ store.mapOrphanBlocksByPrev hash
  byHash : ∀ hash address, store.mapOrphanBlocks hash = some address →
    ∃ block, store.heap address = some block ∧ block.getHash crypto = hash
  byPrev : ∀ hash address, address ∈ store.mapOrphanBlocksByPrev hash →
    ∃ block, store.heap address = some block ∧ block.hashPrevBlock = hash
  once : ∀ hash, (store.mapOrphanBlocksByPrev hash).Nodup
  waiting : ∀ hash address, address ∈ store.mapOrphanBlocksByPrev hash → hash ∉ store.mapBlockIndex

/-- A sound store is consistent. -/
theorem BlockStore.Sound.consistent {store : BlockStore} (sound : store.Sound crypto) :
    store.Consistent crypto := by
  constructor
  · intro address
    simp only [sound.filed.byHash, sound.filed.byPrev]
    constructor
    · rintro ⟨_, block, live, -⟩
      exact ⟨_, block, live, rfl⟩
    · rintro ⟨_, block, live, -⟩
      exact ⟨_, block, live, rfl⟩
  · exact fun hash address => (sound.filed.byHash hash address).mp
  · exact fun hash address => (sound.filed.byPrev hash address).mp
  · exact sound.filed.nodup
  · intro hash address filed
    obtain ⟨block, live, rfl⟩ := (sound.filed.byPrev hash address).mp filed
    exact sound.waiting address block live

/-- In runs that strand no orphan the orphan store is consistent, and the next call ends and offers
exactly the orphans whose parents it accepted, each once. -/
theorem orphanBlocks_of_run {store : BlockStore}
    (run : ProcessRun crypto (Unstranded crypto) store) :
    store.Consistent crypto ∧
      ∀ context pblock, Unstranded crypto context pblock store →
        ∃ outcome pass, processBlock crypto context pblock store = some (outcome, pass) ∧
          pass.offered.Nodup ∧
          ∀ address, address ∈ pass.offered ↔ Accepts crypto context pblock store ∧
            ∃ orphan, store.heap address = some orphan ∧
              Reached crypto context.acceptance store.heap (pblock.getHash crypto)
                orphan.hashPrevBlock := by
  refine ⟨run.sound.consistent, fun context pblock unstranded => ?_⟩
  obtain ⟨outcome, pass, call, -, nodup, offered⟩ := run.sound.processBlock unstranded
  exact ⟨outcome, pass, call, nodup, offered⟩

/-! ## A stranded orphan -/

/-- A block on a known one. -/
def sampleParentBlock : CBlock := sampleBlock 7 1400000000 [sampleCoinBase 0 [50]]

/-- The block after it. -/
def sampleChild : CBlock :=
  sampleBlock (sampleParentBlock.getHash sampleCrypto) 1400000120 [sampleCoinBase 1 [50]]

/-- A call to which `AcceptBlock` answers the same for every block. -/
def sampleCall (acceptance : Acceptance) : ProcessContext where
  fTestNet := true
  nAdjustedTime := 2000000000
  hashBestChain := 7
  pcheckpoint := none
  acceptance _ := acceptance

/-- The child waits for its parent. -/
def sampleWaiting : BlockStore := (BlockStore.start {7}).addOrphan sampleCrypto sampleChild

private theorem sampleChild_call (acceptance : Acceptance) :
    processBlock sampleCrypto (sampleCall acceptance) sampleChild (.start {7}) =
      some (.ok (), ⟨[], [], sampleWaiting⟩) := by
  refine processBlock_orphan ?_ (by decide +kernel)
  have passes : (preliminaryChecks sampleCrypto (sampleCall (.entered (.ok ()))) sampleChild
      (.start {7})).isOk = true := by decide +kernel
  obtain ⟨_, checked⟩ := exists_of_isOk passes
  exact checked

/-- A new orphan is filed under its parent. -/
private theorem BlockStore.mem_addOrphan (store : BlockStore) (pblock : CBlock) :
    store.nextAddress ∈
      (store.addOrphan crypto pblock).mapOrphanBlocksByPrev pblock.hashPrevBlock := by
  simp [BlockStore.addOrphan]

/-- The run in which the child came first. -/
private theorem sampleWaiting_run : ProcessRun sampleCrypto (Unstranded sampleCrypto)
    sampleWaiting := by
  refine .step (.start {7}) ?_ (sampleChild_call (.entered (.ok ())))
  intro _ known
  exact absurd known (by decide +kernel)

theorem orphanBlocks_of_run_sample : sampleWaiting.Consistent sampleCrypto ∧
    ∃ outcome pass, processBlock sampleCrypto (sampleCall (.entered (.ok ()))) sampleParentBlock
      sampleWaiting = some (outcome, pass) ∧ pass.offered.Nodup := by
  obtain ⟨consistent, calls⟩ := orphanBlocks_of_run sampleWaiting_run
  have unstranded : Unstranded sampleCrypto (sampleCall (.entered (.ok ()))) sampleParentBlock
      sampleWaiting := by
    intro _ _
    constructor
    · simp [sampleCall]
    · intro _ _ _ _ _
      constructor <;> simp [sampleCall]
  obtain ⟨outcome, pass, call, nodup, -⟩ := calls _ _ unstranded
  exact ⟨consistent, outcome, pass, call, nodup⟩

/-- `SetBestChain` fails for the parent of an orphan: the orphan stays behind, with its parent in
`mapBlockIndex`. -/
theorem not_orphanBlocks_of_run : ¬∀ store, ProcessRun sampleCrypto (fun _ _ _ => True) store →
    ∀ hash address, address ∈ store.mapOrphanBlocksByPrev hash → hash ∉ store.mapBlockIndex := by
  intro all
  have passes : (preliminaryChecks sampleCrypto (sampleCall (.entered (.error .rejected)))
      sampleParentBlock sampleWaiting).isOk = true := by decide +kernel
  obtain ⟨_, checked⟩ := exists_of_isOk passes
  have known : sampleParentBlock.hashPrevBlock ∈ sampleWaiting.mapBlockIndex := by decide +kernel
  have waiting : ProcessRun sampleCrypto (fun _ _ _ => True) sampleWaiting :=
    .step (.start {7}) trivial (sampleChild_call (.entered (.ok ())))
  have filed : 0 ∈ sampleWaiting.mapOrphanBlocksByPrev (sampleParentBlock.getHash sampleCrypto) :=
    @BlockStore.mem_addOrphan sampleCrypto (.start {7}) sampleChild
  obtain ⟨pass, fails, stays, entered⟩ := processBlock_strands checked known rfl filed
  exact all pass.store (.step waiting trivial fails) _ 0 stays entered

end FooCoin

import FooCoin.Library.SortedSet
import FooCoin.Library.Window

/-!
# The set of the most recent elements

`mruset` keeps a set and, in a queue, the order in which its elements came.  A node remembers with
it what it has announced to a peer.  Whatever calls are made, the queue is a window on all elements
that were new when they were inserted.
-/

namespace FooCoin

open Window

variable {α κ : Type} [LinearOrder κ] {key : α → κ}

/-- `mruset`, whose elements `key` orders. -/
structure MruSet (key : α → κ) where
  set : SortedSet key
  /-- The elements as they came, the earliest in front. -/
  queue : List α
  /-- Zero is no limit. -/
  nMaxSize : Nat

namespace MruSet

/-- The constructor. -/
def init (nMaxSizeIn : Nat) : MruSet key := ⟨.empty, [], nMaxSizeIn⟩

/-- `size`. -/
def size (m : MruSet key) : Nat := m.set.size

/-- `set.erase(queue.front())` and `queue.pop_front()`.  No caller has an empty queue. -/
def popFront (set : SortedSet key) : List α → SortedSet key × List α
  | [] => (set, [])
  | front :: queue => (set.erase front, queue)

/-- `insert`, with the element that the iterator points to. -/
def insert (x : α) (m : MruSet key) : (α × Bool) × MruSet key :=
  match m.set.lookup (key x) with
  | some present => ((present, false), m)
  | none =>
      let set := m.set.insert x
      let (set, queue) :=
        if m.nMaxSize ≠ 0 ∧ m.queue.length = m.nMaxSize then popFront set m.queue
        else (set, m.queue)
      ((x, true), { m with set, queue := queue ++ [x] })

/-- The loop of `max_size`. -/
def popWhile (s : Nat) (set : SortedSet key) : List α → SortedSet key × List α
  | [] => (set, [])
  | front :: queue =>
      if s < (front :: queue).length then popWhile s (set.erase front) queue
      else (set, front :: queue)

/-- `max_size` with a new limit. -/
def maxSize (s : Nat) (m : MruSet key) : Nat × MruSet key :=
  let (set, queue) := if s ≠ 0 then popWhile s m.set m.queue else (m.set, m.queue)
  (s, { set, queue, nMaxSize := s })

end MruSet

/-- The calls that change an `mruset`. -/
inductive MruCall (α : Type)
  | insert (x : α)
  | maxSize (s : Nat)

/-- The state after a call. -/
def MruCall.run (m : MruSet key) : MruCall α → MruSet key
  | .insert x => (m.insert x).2
  | .maxSize s => (m.maxSize s).2

/-- The element that a call inserts, if it is new. -/
def MruCall.inserted (m : MruSet key) : MruCall α → List α
  | .insert x => if (m.insert x).1.2 then [x] else []
  | .maxSize _ => []

namespace MruSet

/-- The state after some calls. -/
def run (key : α → κ) (nMaxSizeIn : Nat) (calls : List (MruCall α)) : MruSet key :=
  calls.foldl MruCall.run (init nMaxSizeIn)

/-- The elements that were new when some calls inserted them. -/
def newlyInserted (m : MruSet key) : List (MruCall α) → List α
  | [] => []
  | call :: calls => call.inserted m ++ newlyInserted (call.run m) calls

/-- How many of the newly inserted elements exceed the limit, at each moment of some calls. -/
def surpluses (key : α → κ) (nMaxSizeIn : Nat) (calls : List (MruCall α)) : Set Nat :=
  {lost | ∃ before, before <+: calls ∧ lost = surplus (run key nMaxSizeIn before).nMaxSize
    (newlyInserted (init nMaxSizeIn : MruSet key) before).length}

/-- Set and queue hold the same elements, as many as the limit allows. -/
structure Sound (m : MruSet key) : Prop where
  same : m.set.elements.Perm m.queue
  limited : m.nMaxSize ≠ 0 → m.queue.length ≤ m.nMaxSize

variable {m : MruSet key} {x : α}

/-! ## One call -/

theorem sound_init (nMaxSizeIn : Nat) : (init nMaxSizeIn : MruSet key).Sound where
  same := .refl _
  limited _ := Nat.zero_le _

/-- No two elements of the queue are equivalent. -/
theorem Sound.nodup (sound : m.Sound) : (m.queue.map key).Nodup :=
  (sound.same.map key).nodup_iff.mp m.set.nodup_keys

theorem Sound.size_eq (sound : m.Sound) : m.size = m.queue.length :=
  sound.same.length_eq

/-- An element that is present is found, and nothing changes. -/
theorem Sound.insert_present (sound : m.Sound) {present : α} (listed : present ∈ m.queue)
    (same : key x = key present) : m.insert x = ((present, false), m) := by
  have found : m.set.lookup (key x) = some present :=
    SortedSet.lookup_eq_some.mpr ⟨sound.same.mem_iff.mpr listed, same.symm⟩
  rw [insert, found]

/-- A new element comes to the end of the queue, whose front leaves if the limit is reached. -/
theorem Sound.insert_new (sound : m.Sound) (absent : m.set.lookup (key x) = none) :
    (m.insert x).1 = (x, true) ∧ (m.insert x).2.nMaxSize = m.nMaxSize ∧
      (m.insert x).2.set.elements.Perm (m.insert x).2.queue ∧
      (m.insert x).2.queue = latest m.nMaxSize (m.queue ++ [x]) := by
  have joined : (m.set.insert x).elements.Perm (x :: m.queue) :=
    (SortedSet.perm_insert (SortedSet.lookup_eq_none.mp absent)).trans (sound.same.cons x)
  have limited := sound.limited
  by_cases full : m.nMaxSize ≠ 0 ∧ m.queue.length = m.nMaxSize
  · cases listed : m.queue with
    | nil =>
        rw [listed, List.length_nil] at full
        exact absurd full.2.symm full.1
    | cons front queue =>
        rw [listed] at joined full
        have length : queue.length + 1 = m.nMaxSize := full.2
        have room : m.nMaxSize = 0 ∨ (queue ++ [x]).length ≤ m.nMaxSize := by
          rw [List.length_append, List.length_singleton]
          exact .inr length.le
        have left : ((m.set.insert x).erase front).elements.Perm (x :: queue) :=
          SortedSet.perm_erase (joined.trans (.swap front x queue))
        have result : m.insert x = ((x, true), { m with
            set := (m.set.insert x).erase front
            queue := queue ++ [x] }) := by
          simp only [insert, absent, listed, if_pos full, popFront]
        rw [result]
        refine ⟨rfl, rfl, left.trans (List.perm_append_singleton x queue).symm, ?_⟩
        have long : m.nMaxSize ≤ (queue ++ [x]).length := by
          rw [List.length_append, List.length_singleton]
          exact length.ge
        rw [List.cons_append, latest_cons full.1 long, latest_of_le room]
  · have room : m.nMaxSize = 0 ∨ (m.queue ++ [x]).length ≤ m.nMaxSize := by
      rw [List.length_append, List.length_singleton]
      omega
    have result : m.insert x =
        ((x, true), { m with set := m.set.insert x, queue := m.queue ++ [x] }) := by
      simp only [insert, absent, if_neg full]
    rw [result]
    refine ⟨rfl, rfl, joined.trans (List.perm_append_singleton x m.queue).symm, ?_⟩
    rw [latest_of_le room]

theorem Sound.nMaxSize_insert (sound : m.Sound) (x : α) :
    (m.insert x).2.nMaxSize = m.nMaxSize := by
  cases found : m.set.lookup (key x) with
  | none => exact (sound.insert_new found).2.1
  | some present => rw [insert, found]

private theorem popWhile_eq {s : Nat} (limited : s ≠ 0) {set : SortedSet key} {queue : List α}
    (same : set.elements.Perm queue) :
    (popWhile s set queue).1.elements.Perm (popWhile s set queue).2 ∧
      (popWhile s set queue).2 = latest s queue := by
  induction queue generalizing set with
  | nil => exact ⟨same, (latest_of_le (.inr (Nat.zero_le s))).symm⟩
  | cons front queue induction =>
      rw [popWhile]
      split_ifs with long
      · rw [latest_cons limited (Nat.le_of_lt_succ long)]
        exact induction (SortedSet.perm_erase same)
      · exact ⟨same, (latest_of_le (.inr (not_lt.mp long))).symm⟩

/-- A new limit makes the earliest elements leave. -/
theorem Sound.maxSize (sound : m.Sound) (s : Nat) :
    (m.maxSize s).2.nMaxSize = s ∧ (m.maxSize s).2.set.elements.Perm (m.maxSize s).2.queue ∧
      (m.maxSize s).2.queue = latest s m.queue := by
  rw [MruSet.maxSize]
  split_ifs with limited
  · exact ⟨rfl, popWhile_eq limited sound.same⟩
  · refine ⟨rfl, sound.same, (latest_of_le (.inl ?_)).symm⟩
    exact not_not.mp limited

/-- What a call does: the new element comes, and what then exceeds the limit leaves. -/
theorem Sound.run (sound : m.Sound) (call : MruCall α) :
    (call.run m).set.elements.Perm (call.run m).queue ∧
      (call.run m).queue = latest (call.run m).nMaxSize (m.queue ++ call.inserted m) := by
  cases call with
  | insert x =>
      cases found : m.set.lookup (key x) with
      | none =>
          obtain ⟨result, limit, same, queue⟩ := sound.insert_new found
          rw [MruCall.run, MruCall.inserted, result, if_pos rfl, limit]
          exact ⟨same, queue⟩
      | some present =>
          obtain ⟨listed, equal⟩ := SortedSet.lookup_eq_some.mp found
          have unchanged := sound.insert_present (sound.same.mem_iff.mp listed) equal.symm
          rw [MruCall.run, MruCall.inserted, unchanged, if_neg Bool.false_ne_true, List.append_nil]
          refine ⟨sound.same, (latest_of_le ?_).symm⟩
          exact or_iff_not_imp_left.mpr sound.limited
  | maxSize s =>
      obtain ⟨limit, same, queue⟩ := sound.maxSize s
      rw [MruCall.run, MruCall.inserted, List.append_nil, limit]
      exact ⟨same, queue⟩

theorem Sound.step (sound : m.Sound) (call : MruCall α) : (call.run m).Sound := by
  obtain ⟨same, queue⟩ := sound.run call
  refine ⟨same, fun limited => ?_⟩
  rw [queue]
  exact length_latest_le limited

/-! ## All calls -/

private theorem run_concat (nMaxSizeIn : Nat) (calls : List (MruCall α)) (call : MruCall α) :
    run key nMaxSizeIn (calls ++ [call]) = call.run (run key nMaxSizeIn calls) := by
  rw [run, List.foldl_append]
  rfl

theorem newlyInserted_append (m : MruSet key) (calls more : List (MruCall α)) :
    newlyInserted m (calls ++ more) =
      newlyInserted m calls ++ newlyInserted (calls.foldl MruCall.run m) more := by
  induction calls generalizing m with
  | nil => rfl
  | cons call calls induction =>
      rw [List.cons_append, newlyInserted, newlyInserted, induction, List.append_assoc,
        List.foldl_cons]

private theorem newlyInserted_concat (nMaxSizeIn : Nat) (calls : List (MruCall α))
    (call : MruCall α) :
    newlyInserted (init nMaxSizeIn : MruSet key) (calls ++ [call]) =
      newlyInserted (init nMaxSizeIn : MruSet key) calls ++
        call.inserted (run key nMaxSizeIn calls) := by
  rw [newlyInserted_append, newlyInserted, newlyInserted, List.append_nil]
  rfl

/-- No more elements leave than were inserted. -/
private theorem le_of_mem_surpluses {nMaxSizeIn lost : Nat} {calls : List (MruCall α)}
    (moment : lost ∈ surpluses key nMaxSizeIn calls) :
    lost ≤ (newlyInserted (init nMaxSizeIn : MruSet key) calls).length := by
  obtain ⟨before, ⟨more, rfl⟩, rfl⟩ := moment
  rw [newlyInserted_append, List.length_append]
  exact (surplus_le _ _).trans (Nat.le_add_right _ _)

private theorem surpluses_concat (nMaxSizeIn : Nat) (calls : List (MruCall α)) (call : MruCall α) :
    surpluses key nMaxSizeIn (calls ++ [call]) =
      Insert.insert (surplus (run key nMaxSizeIn (calls ++ [call])).nMaxSize
        (newlyInserted (init nMaxSizeIn : MruSet key) (calls ++ [call])).length)
        (surpluses key nMaxSizeIn calls) := by
  ext lost
  rw [Set.mem_insert_iff]
  constructor
  · rintro ⟨before, earlier, rfl⟩
    rcases List.prefix_concat_iff.mp earlier with rfl | earlier
    · exact .inl rfl
    · exact .inr ⟨before, earlier, rfl⟩
  · rintro (rfl | ⟨before, earlier, rfl⟩)
    · exact ⟨_, List.prefix_rfl, rfl⟩
    · exact ⟨before, earlier.trans (List.prefix_append calls [call]), rfl⟩

/-- While the limit stays, the queue holds the latest elements. -/
theorem Sound.inserts (sound : m.Sound) (xs : List α) :
    ((xs.map MruCall.insert).foldl MruCall.run m).queue =
      latest m.nMaxSize (m.queue ++ newlyInserted m (xs.map MruCall.insert)) := by
  induction xs generalizing m with
  | nil =>
      rw [List.map_nil, newlyInserted, List.append_nil, latest_of_le]
      · rfl
      · exact or_iff_not_imp_left.mpr sound.limited
  | cons x xs induction =>
      obtain ⟨-, queue⟩ := sound.run (.insert x)
      have limit : (MruCall.run m (.insert x)).nMaxSize = m.nMaxSize := sound.nMaxSize_insert x
      rw [List.map_cons, List.foldl_cons, induction (sound.step (.insert x)), queue, limit,
        latest_latest_append, newlyInserted, List.append_assoc]

theorem run_sound (key : α → κ) (nMaxSizeIn : Nat) (calls : List (MruCall α)) :
    (run key nMaxSizeIn calls).Sound := by
  induction calls using List.reverseRecOn with
  | nil => exact sound_init nMaxSizeIn
  | append_singleton calls call induction =>
      rw [run_concat]
      exact induction.step call

/-- The queue shows the end of the newly inserted elements. -/
theorem run_shows (key : α → κ) (nMaxSizeIn : Nat) (calls : List (MruCall α)) :
    Shows (surpluses key nMaxSizeIn calls)
      (newlyInserted (init nMaxSizeIn : MruSet key) calls) (run key nMaxSizeIn calls).queue := by
  induction calls using List.reverseRecOn with
  | nil =>
      have start : surpluses key nMaxSizeIn [] = {surplus nMaxSizeIn 0} := by
        ext lost
        simp [surpluses, List.prefix_nil, run, init, newlyInserted]
      rw [start]
      exact shows_nil nMaxSizeIn
  | append_singleton calls call induction =>
      obtain ⟨-, queue⟩ := (run_sound key nMaxSizeIn calls).run call
      rw [surpluses_concat, run_concat, queue, newlyInserted_concat]
      exact (induction.append (fun _ => le_of_mem_surpluses) _).latest _

/-- After any calls the set and the queue hold the same elements, none twice and no more than a
limit; they are the latest of the newly inserted ones, of which only those are gone that were too
many at some moment; and to insert one of them again changes nothing. -/
theorem recent_exact (key : α → κ) (nMaxSizeIn : Nat) (calls : List (MruCall α)) :
    let m := run key nMaxSizeIn calls
    (m.set.elements.Perm m.queue ∧ (m.queue.map key).Nodup) ∧
    (m.nMaxSize ≠ 0 → m.size ≤ m.nMaxSize) ∧
    Shows (surpluses key nMaxSizeIn calls)
      (newlyInserted (init nMaxSizeIn : MruSet key) calls) m.queue ∧
    ∀ present ∈ m.queue, ∀ x, key x = key present → m.insert x = ((present, false), m) := by
  have sound := run_sound key nMaxSizeIn calls
  refine ⟨⟨sound.same, sound.nodup⟩, fun limited => ?_, run_shows key nMaxSizeIn calls, ?_⟩
  · rw [sound.size_eq]
    exact sound.limited limited
  · exact fun present listed x same => sound.insert_present listed same

end MruSet

end FooCoin

import Mathlib.Data.List.TakeWhile
import Mathlib.Logic.Function.Basic
import Mathlib.Tactic

/-!
# Early deadlock detection

With `DEBUG_LOCKORDER`, threads record which locks they take while they hold which others.  Two
threads that wait for each other have taken two locks in both orders, and this has been reported
before they wait.
-/

namespace FooCoin

open Function

/-- `CLockLocation`. -/
structure CLockLocation where
  mutexName : String
  sourceFile : String
  sourceLine : Int

/-- `LockStack`: the locks of a thread, oldest first. -/
abbrev LockStack (Lock : Type) := List (Lock × CLockLocation)

/-- What `potential_deadlock_detected` prints. -/
structure DeadlockReport (Lock : Type) where
  mismatch : Lock × Lock
  s1 : LockStack Lock
  s2 : LockStack Lock

/-- The pairs of locks that were taken one before the other, and the reports. -/
structure LockOrders (Lock : Type) where
  lockorders : Lock × Lock → Option (LockStack Lock)
  reports : List (DeadlockReport Lock)

/-- The threads and their locks. -/
structure LockingState (Thread Lock : Type) where
  orders : LockOrders Lock
  lockstack : Thread → LockStack Lock
  /-- The thread waits for the last lock of its stack. -/
  waiting : Thread → Bool
  /-- The thread that owns a recursive mutex, and how many times. -/
  owner : Lock → Option (Thread × Nat)

/-- What a thread does. -/
inductive CriticalEvent (Thread Lock : Type)
  /-- `EnterCritical` in `CMutexLock::Enter`. -/
  | enter (thread : Thread) (cs : Lock) (location : CLockLocation)
  /-- `lock.lock()` returns. -/
  | acquire (thread : Thread)
  /-- `CMutexLock::TryEnter`. -/
  | tryEnter (thread : Thread) (cs : Lock) (location : CLockLocation)
  /-- The block of the lock that was taken last ends. -/
  | leave (thread : Thread)

variable {Thread Lock : Type} [DecidableEq Thread] [DecidableEq Lock]

namespace LockOrders

/-- `lockorders[pair] = *lockstack`. -/
def record (orders : LockOrders Lock) (pair : Lock × Lock) (lockstack : LockStack Lock) :
    LockOrders Lock :=
  { orders with lockorders := update orders.lockorders pair (some lockstack) }

/-- `potential_deadlock_detected`. -/
def report (orders : LockOrders Lock) (mismatch : Lock × Lock) (s1 s2 : LockStack Lock) :
    LockOrders Lock :=
  { orders with reports := orders.reports ++ [{ mismatch, s1, s2 }] }

/-- The loop of `push_lock`. -/
def push (c : Lock) (lockstack : LockStack Lock) :
    LockStack Lock → LockOrders Lock → LockOrders Lock
  | [], orders => orders
  | i :: rest, orders =>
      if i.1 = c then orders
      else if (orders.lockorders (i.1, c)).isSome then push c lockstack rest orders
      else
        let orders := orders.record (i.1, c) lockstack
        match orders.lockorders (c, i.1) with
        | some previous => orders.report (i.1, c) previous lockstack
        | none => push c lockstack rest orders

end LockOrders

namespace LockingState

/-- The mutex can be locked by a thread. -/
def available (state : LockingState Thread Lock) (thread : Thread) (cs : Lock) : Bool :=
  (state.owner cs).all fun owner => owner.1 = thread

/-- Lock a mutex once more. -/
def lock (state : LockingState Thread Lock) (thread : Thread) (cs : Lock) :
    LockingState Thread Lock :=
  { state with
    owner := update state.owner cs (some (thread, (state.owner cs).elim 0 Prod.snd + 1)) }

/-- Unlock a mutex once. -/
def unlock (state : LockingState Thread Lock) (cs : Lock) : LockingState Thread Lock :=
  { state with
    owner := update state.owner cs ((state.owner cs).bind fun owner =>
      if owner.2 = 1 then none else some (owner.1, owner.2 - 1)) }

/-- One event, if the thread can do it. -/
def step (state : LockingState Thread Lock) :
    CriticalEvent Thread Lock → Option (LockingState Thread Lock)
  | .enter thread cs location =>
      if state.waiting thread then none
      else
        let lockstack := state.lockstack thread ++ [(cs, location)]
        some { state with
          orders := state.orders.push cs lockstack lockstack
          lockstack := update state.lockstack thread lockstack
          waiting := update state.waiting thread true }
  | .acquire thread =>
      match (state.lockstack thread).getLast? with
      | none => none
      | some (cs, _) =>
          if state.waiting thread ∧ state.available thread cs then
            some { state.lock thread cs with waiting := update state.waiting thread false }
          else none
  | .tryEnter thread cs location =>
      if state.waiting thread then none
      else if state.available thread cs then
        some { state.lock thread cs with
          lockstack := update state.lockstack thread (state.lockstack thread ++ [(cs, location)]) }
      -- `EnterCritical` pushes the lock and `LeaveCritical` pops it.
      else some state
  | .leave thread =>
      match (state.lockstack thread).getLast? with
      | none => none
      | some (cs, _) =>
          if state.waiting thread then none
          else some { state.unlock cs with
            lockstack := update state.lockstack thread (state.lockstack thread).dropLast }

/-- No lock is taken. -/
def initial : LockingState Thread Lock where
  orders := { lockorders _ := none, reports := [] }
  lockstack _ := []
  waiting _ := false
  owner _ := none

/-- The states that the threads get to. -/
inductive Reachable : LockingState Thread Lock → Prop
  | initial : Reachable initial
  | step {state after : LockingState Thread Lock} (event : CriticalEvent Thread Lock)
      (earlier : Reachable state) (stepped : state.step event = some after) : Reachable after

/-- A thread waits for a lock. -/
def WaitsFor (state : LockingState Thread Lock) (thread : Thread) (cs : Lock) : Prop :=
  state.waiting thread = true ∧ ∃ location, (state.lockstack thread).getLast? = some (cs, location)

/-- A thread owns a lock. -/
def Owns (state : LockingState Thread Lock) (thread : Thread) (cs : Lock) : Prop :=
  ∃ count, state.owner cs = some (thread, count)

end LockingState

/-! ## The recorded orders -/

/-- The stack holds one lock before it takes the other one. -/
def TakenBefore (first second : Lock) (lockstack : LockStack Lock) : Prop :=
  ∃ earlier later, lockstack = earlier ++ later ∧ first ∈ earlier.map Prod.fst ∧
    second ∉ earlier.map Prod.fst ∧ second ∈ later.map Prod.fst

/-- What is recorded and reported happened. -/
structure LockOrders.Justified (orders : LockOrders Lock) : Prop where
  taken : ∀ first second lockstack, orders.lockorders (first, second) = some lockstack →
    TakenBefore first second lockstack
  reported : ∀ report ∈ orders.reports,
    orders.lockorders report.mismatch = some report.s2 ∧
      orders.lockorders report.mismatch.swap = some report.s1

/-- No two locks are recorded in both orders. -/
def LockOrders.Consistent (orders : LockOrders Lock) : Prop :=
  ∀ first second, (orders.lockorders (first, second)).isSome = true →
    orders.lockorders (second, first) = none

section Push

variable {c first : Lock} {pair : Lock × Lock} {lockstack value : LockStack Lock}
  {orders : LockOrders Lock}

private theorem record_self :
    (orders.record pair lockstack).lockorders pair = some lockstack := update_self ..

private theorem record_of_ne {other : Lock × Lock} (differs : other ≠ pair) :
    (orders.record pair lockstack).lockorders other = orders.lockorders other :=
  update_of_ne differs ..

private theorem record_kept {other : Lock × Lock} (new : (orders.lockorders pair).isSome = false)
    (recorded : orders.lockorders other = some value) :
    (orders.record pair lockstack).lockorders other = some value := by
  have differs : other ≠ pair := by
    rintro rfl
    simp [recorded] at new
  rw [record_of_ne differs, recorded]

/-- One turn of the loop. -/
private theorem push_cons {i : Lock × CLockLocation} {rest : LockStack Lock}
    {motive : LockOrders Lock → Prop} (own : i.1 = c → motive orders)
    (known : i.1 ≠ c → (orders.lockorders (i.1, c)).isSome = true →
      motive (orders.push c lockstack rest))
    (opposite : i.1 ≠ c → (orders.lockorders (i.1, c)).isSome = false → ∀ previous,
      orders.lockorders (c, i.1) = some previous →
        motive ((orders.record (i.1, c) lockstack).report (i.1, c) previous lockstack))
    (new : i.1 ≠ c → (orders.lockorders (i.1, c)).isSome = false →
      orders.lockorders (c, i.1) = none →
        motive ((orders.record (i.1, c) lockstack).push c lockstack rest)) :
    motive (orders.push c lockstack (i :: rest)) := by
  rw [LockOrders.push]
  split_ifs with same recorded
  · exact own same
  · exact known same recorded
  · rw [Bool.not_eq_true] at recorded
    have differs : (c, i.1) ≠ (i.1, c) := fun equal => same (Prod.mk.inj equal).2
    dsimp only
    cases reversed : orders.lockorders (c, i.1) with
    | none =>
        rw [record_of_ne differs, reversed]
        exact new same recorded reversed
    | some previous =>
        rw [record_of_ne differs, reversed]
        exact opposite same recorded previous reversed

private theorem push_kept (rest : LockStack Lock)
    (recorded : orders.lockorders pair = some value) :
    (orders.push c lockstack rest).lockorders pair = some value := by
  induction rest generalizing orders with
  | nil => exact recorded
  | cons i rest induction =>
      refine push_cons (motive := fun after => after.lockorders pair = some value)
        (fun _ => recorded) (fun _ _ => induction recorded) ?_ ?_
      · exact fun _ new _ _ => record_kept new recorded
      · exact fun _ new _ => induction (record_kept new recorded)

/-- Reports are never taken back. -/
private theorem reports_of_push (rest : LockStack Lock) :
    (orders.push c lockstack rest).reports = [] → orders.reports = [] := by
  induction rest generalizing orders with
  | nil => exact id
  | cons i rest induction =>
      refine push_cons (motive := fun after => after.reports = [] → orders.reports = [])
        (fun _ => id) (fun _ _ => induction) ?_ fun _ _ _ => induction
      intro _ _ previous _ quiet
      simp [LockOrders.report] at quiet

/-- Without a report, the locks in front of the first occurrence of a lock are recorded with it. -/
private theorem recorded_of_push (rest : LockStack Lock) :
    (orders.push c lockstack rest).reports = [] → ∀ i ∈ rest.takeWhile fun i => i.1 ≠ c,
      ((orders.push c lockstack rest).lockorders (i.1, c)).isSome = true := by
  induction rest generalizing orders with
  | nil => simp
  | cons first rest induction =>
      refine push_cons (motive := fun after => after.reports = [] →
        ∀ i ∈ (first :: rest).takeWhile fun i => i.1 ≠ c,
          (after.lockorders (i.1, c)).isSome = true) ?_ ?_ ?_ ?_
      · intro own _ i member
        simp [own] at member
      · intro differs known quiet i member
        rw [List.takeWhile_cons_of_pos (by simpa using differs), List.mem_cons] at member
        rcases member with rfl | later
        · obtain ⟨value, recorded⟩ := Option.isSome_iff_exists.mp known
          rw [push_kept rest recorded]
          rfl
        · exact induction quiet i later
      · intro _ _ previous _ quiet
        simp [LockOrders.report] at quiet
      · intro differs _ _ quiet i member
        rw [List.takeWhile_cons_of_pos (by simpa using differs), List.mem_cons] at member
        rcases member with rfl | later
        · rw [push_kept rest record_self]
          rfl
        · exact induction quiet i later

/-- Without a report, no two locks are recorded in both orders. -/
private theorem consistent_of_push (rest : LockStack Lock) (consistent : orders.Consistent) :
    (orders.push c lockstack rest).reports = [] →
      (orders.push c lockstack rest).Consistent := by
  induction rest generalizing orders with
  | nil => exact fun _ => consistent
  | cons i rest induction =>
      refine push_cons (motive := fun after => after.reports = [] → after.Consistent)
        (fun _ _ => consistent) (fun _ _ => induction consistent) ?_ ?_
      · intro _ _ previous _ quiet
        simp [LockOrders.report] at quiet
      · intro differs new single
        refine induction fun x y recorded => ?_
        by_cases same : (x, y) = (i.1, c)
        · obtain ⟨rfl, rfl⟩ := Prod.mk.inj same
          rwa [record_of_ne fun equal => differs (Prod.mk.inj equal).2]
        · rw [record_of_ne same] at recorded
          have reversed : (y, x) ≠ (i.1, c) := by
            rintro equal
            obtain ⟨rfl, rfl⟩ := Prod.mk.inj equal
            simp [single] at recorded
          rw [record_of_ne reversed]
          exact consistent x y recorded

private theorem LockOrders.Justified.record (justified : orders.Justified)
    (new : (orders.lockorders (first, c)).isSome = false)
    (taken : TakenBefore first c lockstack) : (orders.record (first, c) lockstack).Justified where
  taken x y value recorded := by
    by_cases same : (x, y) = (first, c)
    · obtain ⟨rfl, rfl⟩ := Prod.mk.inj same
      rw [record_self, Option.some.injEq] at recorded
      exact recorded ▸ taken
    · rw [record_of_ne same] at recorded
      exact justified.taken x y value recorded
  reported report listed :=
    have both := justified.reported report listed
    ⟨record_kept new both.1, record_kept new both.2⟩

/-- What a thread records and reports happened. -/
private theorem justified_of_push {done rest : LockStack Lock} (justified : orders.Justified)
    (whole : lockstack = done ++ rest) (passed : c ∉ done.map Prod.fst)
    (last : c ∈ rest.map Prod.fst) : (orders.push c lockstack rest).Justified := by
  induction rest generalizing orders done with
  | nil => exact justified
  | cons i rest induction =>
      have whole' : lockstack = (done ++ [i]) ++ rest := by simpa using whole
      have later (differs : i.1 ≠ c) : c ∉ (done ++ [i]).map Prod.fst ∧ c ∈ rest.map Prod.fst := by
        rw [List.map_cons, List.mem_cons] at last
        rw [List.map_append, List.mem_append, not_or]
        exact ⟨⟨passed, by simpa using Ne.symm differs⟩, last.resolve_left (Ne.symm differs)⟩
      have taken (differs : i.1 ≠ c) : TakenBefore i.1 c lockstack :=
        ⟨done ++ [i], rest, whole', by simp, later differs⟩
      refine push_cons (motive := LockOrders.Justified) (fun _ => justified) ?_ ?_ ?_
      · exact fun differs _ => induction justified whole' (later differs).1 (later differs).2
      · intro differs new previous reversed
        have recorded := justified.record new (taken differs)
        refine ⟨recorded.taken, fun report listed => ?_⟩
        rcases List.mem_append.mp listed with earlier | own
        · exact recorded.reported report earlier
        · obtain rfl := List.mem_singleton.mp own
          exact ⟨record_self, record_kept new reversed⟩
      · exact fun differs new _ => induction (justified.record new (taken differs)) whole'
          (later differs).1 (later differs).2

end Push

/-! ## The threads -/

namespace LockingState

/-- The locks that a thread has, oldest first. -/
def acquired (state : LockingState Thread Lock) (thread : Thread) : List Lock :=
  (if state.waiting thread then (state.lockstack thread).dropLast
    else state.lockstack thread).map Prod.fst

/-- How many times a thread owns a mutex. -/
def ownedBy (thread : Thread) (owner : Option (Thread × Nat)) : Nat :=
  owner.elim 0 fun owner => if owner.1 = thread then owner.2 else 0

/-- The orders of the locks that threads wait for are recorded. -/
structure Tracked (state : LockingState Thread Lock) : Prop where
  justified : state.orders.Justified
  consistent : state.orders.reports = [] → state.orders.Consistent
  waits : state.orders.reports = [] → ∀ thread c, state.WaitsFor thread c →
    c ∉ state.acquired thread → ∀ x ∈ state.acquired thread,
      (state.orders.lockorders (x, c)).isSome = true
  owned : ∀ thread c, (state.acquired thread).count c = ownedBy thread (state.owner c)
  positive : ∀ c thread count, state.owner c = some (thread, count) → 0 < count

variable {state after : LockingState Thread Lock} {thread : Thread} {cs : Lock}
  {location : CLockLocation}

omit [DecidableEq Lock] in
private theorem eq_append_of_getLast? {lockstack : LockStack Lock} {last : Lock × CLockLocation}
    (top : lockstack.getLast? = some last) : lockstack = lockstack.dropLast ++ [last] := by
  obtain ⟨earlier, rfl⟩ := List.getLast?_eq_some_iff.mp top
  rw [List.dropLast_concat]

private theorem count_one (c cs : Lock) : [cs].count c = if c = cs then 1 else 0 := by
  by_cases same : c = cs
  · simp [same]
  · simp [same, Ne.symm same]

private theorem ownedBy_lock (other : Thread) (c : Lock)
    (available : state.available thread cs = true) :
    ownedBy other ((state.lock thread cs).owner c) =
      ownedBy other (state.owner c) + if other = thread ∧ c = cs then 1 else 0 := by
  unfold LockingState.available at available
  by_cases same : c = cs
  · subst same
    simp only [lock, update_self]
    cases owner : state.owner c with
    | none => by_cases mine : other = thread <;> simp [ownedBy, mine, eq_comm]
    | some owner' =>
        obtain ⟨holder, count⟩ := owner'
        simp only [owner, Option.all_some, decide_eq_true_eq] at available
        subst available
        by_cases mine : other = holder <;> simp [ownedBy, mine, eq_comm]
  · simp [lock, same]

private theorem ownedBy_unlock (other : Thread) (c : Lock) {count : Nat}
    (owner : state.owner cs = some (thread, count)) :
    ownedBy other ((state.unlock cs).owner c) =
      ownedBy other (state.owner c) - if other = thread ∧ c = cs then 1 else 0 := by
  by_cases same : c = cs
  · subst same
    simp only [unlock, update_self, owner, Option.bind_some]
    by_cases mine : other = thread <;> by_cases last : count = 1 <;>
      simp [ownedBy, mine, last, eq_comm]
  · simp [unlock, same]

omit [DecidableEq Thread] in
private theorem positive_lock (positive : ∀ c thread count,
      state.owner c = some (thread, count) → 0 < count) (c : Lock) (other : Thread) (count : Nat)
    (owner : (state.lock thread cs).owner c = some (other, count)) : 0 < count := by
  by_cases same : c = cs
  · subst same
    simp only [lock, update_self, Option.some.injEq, Prod.mk.injEq] at owner
    omega
  · simp only [lock, update_of_ne same] at owner
    exact positive c other count owner

omit [DecidableEq Thread] in
private theorem positive_unlock (positive : ∀ c thread count,
      state.owner c = some (thread, count) → 0 < count) (c : Lock) (other : Thread) (count : Nat)
    (owner : (state.unlock cs).owner c = some (other, count)) : 0 < count := by
  by_cases same : c = cs
  · subst same
    simp only [unlock, update_self, Option.bind_eq_some_iff] at owner
    obtain ⟨⟨holder, before⟩, owner, left⟩ := owner
    have more := positive c holder before owner
    split_ifs at left with last
    simp only [Option.some.injEq, Prod.mk.injEq] at left
    omega
  · simp only [unlock, update_of_ne same] at owner
    exact positive c other count owner

private theorem Tracked.enter (tracked : state.Tracked) (idle : state.waiting thread = false) :
    Tracked { state with
      orders := state.orders.push cs (state.lockstack thread ++ [(cs, location)])
        (state.lockstack thread ++ [(cs, location)])
      lockstack := update state.lockstack thread (state.lockstack thread ++ [(cs, location)])
      waiting := update state.waiting thread true } := by
  have kept (other : Thread) : acquired { state with
      orders := state.orders.push cs (state.lockstack thread ++ [(cs, location)])
        (state.lockstack thread ++ [(cs, location)])
      lockstack := update state.lockstack thread (state.lockstack thread ++ [(cs, location)])
      waiting := update state.waiting thread true } other = state.acquired other := by
    by_cases same : other = thread
    · subst same
      simp [acquired, idle]
    · simp [acquired, same]
  constructor
  · exact justified_of_push tracked.justified (List.nil_append _).symm (by simp) (by simp)
  · exact fun quiet => consistent_of_push _ (tracked.consistent (reports_of_push _ quiet)) quiet
  · rintro quiet other c ⟨waits, location', top⟩ untaken x member
    rw [kept] at untaken member
    by_cases same : other = thread
    · subst same
      simp only [update_self, List.getLast?_concat, Option.some.injEq, Prod.mk.injEq] at top
      obtain ⟨rfl, rfl⟩ := top
      simp only [acquired, idle, Bool.false_eq_true, if_false] at untaken member
      obtain ⟨i, listed, rfl⟩ := List.mem_map.mp member
      refine recorded_of_push _ quiet i ?_
      have all : ∀ i ∈ state.lockstack other, decide (i.1 ≠ cs) = true := by
        intro i listed
        rw [decide_eq_true_eq]
        rintro rfl
        exact untaken (List.mem_map_of_mem listed)
      rw [List.takeWhile_append_of_pos all]
      exact List.mem_append_left _ listed
    · simp only [update_of_ne same] at waits top
      obtain ⟨value, recorded⟩ := Option.isSome_iff_exists.mp
        (tracked.waits (reports_of_push _ quiet) other c ⟨waits, location', top⟩ untaken x member)
      rw [push_kept _ recorded]
      rfl
  · exact fun other c => (kept other).symm ▸ tracked.owned other c
  · exact tracked.positive

/-- A thread that waits takes the lock. -/
private theorem Tracked.acquire (tracked : state.Tracked) (waits : state.waiting thread = true)
    (top : (state.lockstack thread).getLast? = some (cs, location))
    (available : state.available thread cs = true) :
    Tracked { state.lock thread cs with waiting := update state.waiting thread false } where
  justified := tracked.justified
  consistent := tracked.consistent
  waits quiet other c waiting untaken x member := by
    have same : other ≠ thread := by
      rintro rfl
      simp [WaitsFor] at waiting
    simp only [WaitsFor, acquired, lock, update_of_ne same] at waiting untaken member
    exact tracked.waits quiet other c waiting untaken x member
  owned other c := by
    rw [ownedBy_lock other c available, ← tracked.owned]
    by_cases same : other = thread
    · subst same
      have split := eq_append_of_getLast? top
      simp only [acquired, lock, update_self, waits, Bool.false_eq_true, if_false, if_true]
      rw [split, List.dropLast_concat, List.map_append, List.count_append, List.map_singleton,
        count_one]
      simp
    · simp [acquired, lock, same]
  positive := positive_lock tracked.positive

private theorem Tracked.tryEnter (tracked : state.Tracked) (idle : state.waiting thread = false)
    (available : state.available thread cs = true) :
    Tracked { state.lock thread cs with
      lockstack := update state.lockstack thread (state.lockstack thread ++ [(cs, location)]) }
    where
  justified := tracked.justified
  consistent := tracked.consistent
  waits quiet other c waiting untaken x member := by
    have same : other ≠ thread := by
      rintro rfl
      simp [WaitsFor, lock, idle] at waiting
    simp only [WaitsFor, acquired, lock, update_of_ne same] at waiting untaken member
    exact tracked.waits quiet other c waiting untaken x member
  owned other c := by
    rw [ownedBy_lock other c available, ← tracked.owned]
    by_cases same : other = thread
    · subst same
      simp [acquired, lock, idle, List.count_append, count_one]
    · simp [acquired, lock, same]
  positive := positive_lock tracked.positive

private theorem Tracked.leave (tracked : state.Tracked) (idle : state.waiting thread = false)
    (top : (state.lockstack thread).getLast? = some (cs, location)) :
    Tracked { state.unlock cs with
      lockstack := update state.lockstack thread (state.lockstack thread).dropLast } where
  justified := tracked.justified
  consistent := tracked.consistent
  waits quiet other c waiting untaken x member := by
    have same : other ≠ thread := by
      rintro rfl
      simp [WaitsFor, unlock, idle] at waiting
    simp only [WaitsFor, acquired, unlock, update_of_ne same] at waiting untaken member
    exact tracked.waits quiet other c waiting untaken x member
  owned other c := by
    have split := eq_append_of_getLast? top
    have own := tracked.owned thread cs
    have has : 0 < ownedBy thread (state.owner cs) := by
      rw [← own]
      refine List.count_pos_iff.mpr ?_
      rw [acquired, idle, split]
      simp
    obtain ⟨count, owner⟩ : ∃ count, state.owner cs = some (thread, count) := by
      cases owner : state.owner cs with
      | none => simp [owner, ownedBy] at has
      | some owner' =>
          obtain ⟨holder, count⟩ := owner'
          by_cases mine : holder = thread
          · exact ⟨count, by rw [mine]⟩
          · simp [owner, ownedBy, mine] at has
    rw [ownedBy_unlock other c owner, ← tracked.owned]
    by_cases same : other = thread
    · subst same
      simp only [acquired, unlock, update_self, idle, Bool.false_eq_true, if_false, true_and]
      conv_rhs => rw [split]
      rw [List.map_append, List.count_append, List.map_singleton, count_one]
      simp
    · simp [acquired, unlock, same]
  positive := positive_unlock tracked.positive

private theorem Tracked.step (tracked : state.Tracked) {event : CriticalEvent Thread Lock}
    (stepped : state.step event = some after) : after.Tracked := by
  cases event with
  | enter thread cs location =>
      simp only [LockingState.step] at stepped
      split_ifs at stepped with idle
      cases stepped
      exact tracked.enter (Bool.not_eq_true _ ▸ idle)
  | acquire thread =>
      simp only [LockingState.step] at stepped
      split at stepped
      · cases stepped
      · rename_i cs location top
        split_ifs at stepped with can
        cases stepped
        exact tracked.acquire can.1 top can.2
  | tryEnter thread cs location =>
      simp only [LockingState.step] at stepped
      split_ifs at stepped with idle available
      · cases stepped
        exact tracked.tryEnter (Bool.not_eq_true _ ▸ idle) available
      · cases stepped
        exact tracked
  | leave thread =>
      simp only [LockingState.step] at stepped
      split at stepped
      · cases stepped
      · rename_i cs location top
        split_ifs at stepped with idle
        cases stepped
        exact tracked.leave (Bool.not_eq_true _ ▸ idle) top

theorem Reachable.tracked (reachable : Reachable state) : state.Tracked := by
  induction reachable with
  | initial =>
      exact {
        justified := ⟨nofun, nofun⟩
        consistent := fun _ => nofun
        waits := fun _ _ _ waits => nomatch waits.1
        owned := fun _ _ => rfl
        positive := nofun }
  | step event _ stepped induction => exact induction.step stepped

/-- A thread that waits for a lock of another thread while it owns one. -/
private theorem Tracked.recorded (tracked : state.Tracked) (quiet : state.orders.reports = [])
    {other : Thread} {a b : Lock} (differ : other ≠ thread) (waits : state.WaitsFor thread b)
    (owned : state.Owns other b) (owns : state.Owns thread a) :
    (state.orders.lockorders (a, b)).isSome = true := by
  obtain ⟨count, owner⟩ := owned
  have untaken : b ∉ state.acquired thread := by
    have none_taken := tracked.owned thread b
    rw [owner, ownedBy, Option.elim_some, if_neg differ] at none_taken
    exact List.count_eq_zero.mp none_taken
  obtain ⟨count', owner'⟩ := owns
  have taken : a ∈ state.acquired thread := by
    have some_taken := tracked.owned thread a
    rw [owner', ownedBy, Option.elim_some, if_pos rfl] at some_taken
    exact List.count_pos_iff.mp (some_taken ▸ tracked.positive a thread count' owner')
  exact tracked.waits quiet thread b waits untaken a taken

/-- Two threads wait for each other only after a report, and every report shows two stacks that
take its locks in opposite orders. -/
theorem Reachable.deadlock_reported (reachable : Reachable state) :
    (∀ thread other a b, thread ≠ other → state.WaitsFor thread b → state.Owns other b →
      state.WaitsFor other a → state.Owns thread a → state.orders.reports ≠ []) ∧
    ∀ report ∈ state.orders.reports,
      TakenBefore report.mismatch.1 report.mismatch.2 report.s2 ∧
        TakenBefore report.mismatch.2 report.mismatch.1 report.s1 := by
  have tracked := reachable.tracked
  constructor
  · intro thread other a b differ waits_b owns_b waits_a owns_a quiet
    have forward := tracked.recorded quiet (Ne.symm differ) waits_b owns_b owns_a
    have backward := tracked.recorded quiet differ waits_a owns_a owns_b
    rw [tracked.consistent quiet a b forward] at backward
    cases backward
  · intro report listed
    obtain ⟨current, previous⟩ := tracked.justified.reported report listed
    exact ⟨tracked.justified.taken _ _ _ current, tracked.justified.taken _ _ _ previous⟩

/-- The place of a lock. -/
def nowhere : CLockLocation where
  mutexName := ""
  sourceFile := ""
  sourceLine := 0

private theorem exists_deadlock : ∃ state : LockingState Bool Bool, Reachable state ∧
    state.WaitsFor true false ∧ state.Owns false false ∧ state.WaitsFor false true ∧
      state.Owns true true :=
  ⟨_, .step (.enter false true nowhere) (.step (.enter true false nowhere)
    (.step (.acquire false) (.step (.enter false false nowhere) (.step (.acquire true)
      (.step (.enter true true nowhere) .initial rfl) rfl) rfl) rfl) rfl) rfl,
    ⟨rfl, nowhere, rfl⟩, ⟨1, rfl⟩, ⟨rfl, nowhere, rfl⟩, ⟨1, rfl⟩⟩

/-- Two threads that take two locks in opposite orders. -/
theorem deadlock_reported_pair : ∃ state : LockingState Bool Bool,
    state.WaitsFor true false ∧ state.WaitsFor false true ∧ state.orders.reports ≠ [] := by
  obtain ⟨state, reachable, waits, owned, waits', owned'⟩ := exists_deadlock
  exact ⟨state, waits, waits', reachable.deadlock_reported.1 true false true false (by decide)
    waits owned waits' owned'⟩

end LockingState

end FooCoin

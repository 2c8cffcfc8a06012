import Mathlib.Tactic

/-!
# Journalled machines

A journalled machine applies entries to a state and takes the newest one back.  A `Run` carries
the journal of the entries applied and not yet taken back; a `Replay` applies them without ever
going back.  Two rules relate the two.  If taking an entry back is exact, every run ends in the
replay of its journal.  If taking back only lands *below* the state the entry was applied to, a
potential that grows by at most a fixed gain with every entry is bounded by the journal's length.
-/

namespace Journal

/-- A machine with entries that are applied over a journal and taken back from its top. -/
structure Machine (State Entry : Type*) where
  /-- `apply journal entry before after`: the entry is applied over the journal. -/
  apply : List Entry → Entry → State → State → Prop
  /-- `undo journal entry before after`: the entry on top of the journal is taken back. -/
  undo : List Entry → Entry → State → State → Prop

variable {State Entry : Type*}

/-- States reached from `start` with the given journal, newest entry first. -/
inductive Run (machine : Machine State Entry) (start : State) : List Entry → State → Prop
  | start : Run machine start [] start
  | push {journal : List Entry} {entry : Entry} {before after : State} :
      Run machine start journal before → machine.apply journal entry before after →
      Run machine start (entry :: journal) after
  | pop {journal : List Entry} {entry : Entry} {before after : State} :
      Run machine start (entry :: journal) before → machine.undo journal entry before after →
      Run machine start journal after

/-- The states that applying a journal from `start`, oldest entry first, can produce. -/
inductive Replay (machine : Machine State Entry) (start : State) : List Entry → State → Prop
  | start : Replay machine start [] start
  | push {journal : List Entry} {entry : Entry} {before after : State} :
      Replay machine start journal before → machine.apply journal entry before after →
      Replay machine start (entry :: journal) after

/-- A property of journal and state kept by applying and by taking back holds along every run. -/
theorem Run.induct {machine : Machine State Entry} {start : State}
    {invariant : List Entry → State → Prop} (initial : invariant [] start)
    (push : ∀ {journal entry before after}, invariant journal before →
      machine.apply journal entry before after → invariant (entry :: journal) after)
    (pop : ∀ {journal entry before after}, invariant (entry :: journal) before →
      machine.undo journal entry before after → invariant journal after)
    {journal : List Entry} {state : State} (run : Run machine start journal state) :
    invariant journal state := by
  induction run with
  | start => exact initial
  | push _ applied induction => exact push induction applied
  | pop _ undone induction => exact pop induction undone

/-- Replays are runs. -/
theorem Replay.run {machine : Machine State Entry} {start : State} {journal : List Entry}
    {state : State} (replay : Replay machine start journal state) :
    Run machine start journal state := by
  induction replay with
  | start => exact .start
  | push _ applied induction => exact .push induction applied

/-- If taking back is exact on replayed states, a run ends in the replay of its journal. -/
theorem Run.replay {machine : Machine State Entry} {start : State}
    (exact_undo : ∀ {journal entry before after undone},
      Replay machine start journal before → machine.apply journal entry before after →
      machine.undo journal entry after undone → undone = before)
    {journal : List Entry} {state : State} (run : Run machine start journal state) :
    Replay machine start journal state := by
  induction run with
  | start => exact .start
  | push _ applied induction => exact .push induction applied
  | pop _ undone induction =>
      cases induction with
      | push earlier applied => exact exact_undo earlier applied undone ▸ earlier

/-- Taking back is only required to land below the state that the entry was applied to. -/
structure Retractable (machine : Machine State Entry) (Good : State → Prop)
    (Below : State → State → Prop) : Prop where
  refl : ∀ state, Below state state
  trans : ∀ {low middle high}, Below low middle → Below middle high → Below low high
  good_below : ∀ {low high}, Below low high → Good high → Good low
  good_apply : ∀ {journal entry before after}, machine.apply journal entry before after →
    Good before → Good after
  retract : ∀ {journal entry before after low undone},
    machine.apply journal entry before after → Below low after →
    machine.undo journal entry low undone → Below undone before

/-- A state that bounds a run from above: every entry was applied somewhere below the last
bound. -/
inductive Cover (machine : Machine State Entry) (Below : State → State → Prop) (start : State) :
    List Entry → State → Prop
  | start : Cover machine Below start [] start
  | push {journal : List Entry} {entry : Entry} {bound before after : State} :
      Cover machine Below start journal bound → Below before bound →
      machine.apply journal entry before after → Cover machine Below start (entry :: journal) after

section Retractable

variable {machine : Machine State Entry} {Good : State → Prop} {Below : State → State → Prop}
  {start : State}

theorem Run.covered (retractable : Retractable machine Good Below) {journal : List Entry}
    {state : State} (run : Run machine start journal state) :
    ∃ bound, Cover machine Below start journal bound ∧ Below state bound := by
  induction run with
  | start => exact ⟨start, .start, retractable.refl start⟩
  | @push _ _ _ after _ applied induction =>
      obtain ⟨bound, cover, before_below⟩ := induction
      exact ⟨after, .push cover before_below applied, retractable.refl after⟩
  | pop _ undone induction =>
      obtain ⟨top, cover, before_below⟩ := induction
      cases cover with
      | @push _ _ bound before _ cover below_bound applied =>
          have undone_below := retractable.retract applied before_below undone
          exact ⟨bound, cover, retractable.trans undone_below below_bound⟩

theorem Cover.good (retractable : Retractable machine Good Below) (good_start : Good start)
    {journal : List Entry} {bound : State} (cover : Cover machine Below start journal bound) :
    Good bound := by
  induction cover with
  | start => exact good_start
  | push _ before_below applied induction =>
      exact retractable.good_apply applied (retractable.good_below before_below induction)

/-- Every state of a run is good. -/
theorem Run.good (retractable : Retractable machine Good Below) (good_start : Good start)
    {journal : List Entry} {state : State} (run : Run machine start journal state) :
    Good state := by
  obtain ⟨bound, cover, state_below⟩ := run.covered retractable
  exact retractable.good_below state_below (cover.good retractable good_start)

/-- A potential that is monotone and gains at most `gain` with every entry stays within the
journal's length times the gain. -/
theorem Run.potential_le (potential : State → Int) (gain : Int)
    (retractable : Retractable machine Good Below) (good_start : Good start)
    (monotone : ∀ {low high}, Good high → Below low high → potential low ≤ potential high)
    (gains : ∀ {journal entry before after}, Good before →
      machine.apply journal entry before after → potential after ≤ potential before + gain)
    {journal : List Entry} {state : State} (run : Run machine start journal state) :
    potential state ≤ potential start + journal.length * gain := by
  obtain ⟨bound, cover, state_below⟩ := run.covered retractable
  have bounded : potential bound ≤ potential start + journal.length * gain := by
    clear run state_below
    induction cover with
    | start => simp
    | @push journal entry bound before after cover before_below applied induction =>
        have good_bound := cover.good retractable good_start
        have good_before := retractable.good_below before_below good_bound
        calc
          potential after ≤ potential before + gain := gains good_before applied
          _ ≤ potential bound + gain := by
            have := monotone good_bound before_below
            omega
          _ ≤ potential start + journal.length * gain + gain := by omega
          _ = potential start + (entry :: journal).length * gain := by
            push_cast [List.length_cons]
            ring
  exact (monotone (cover.good retractable good_start) state_below).trans bounded

end Retractable

end Journal

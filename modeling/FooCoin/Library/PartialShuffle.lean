import Mathlib.Logic.Equiv.Basic
import Mathlib.Order.Basic
import Mathlib.Tactic

/-!
# Shuffles of the first places

Each round exchanges its own place with a drawn place, none of them in front of it.  What a round has
brought to its place stays there, so the first places keep the drawn elements in order.
-/

namespace PartialShuffle

/-- Where the elements at the places come from after some rounds. -/
def source (draw : Nat → Nat) : Nat → Equiv.Perm Nat
  | 0 => 1
  | round + 1 => source draw round * Equiv.swap round (draw round)

variable {α : Type*} {draw : Nat → Nat}

theorem source_succ_apply (draw : Nat → Nat) (round place : Nat) :
    source draw (round + 1) place = source draw round (Equiv.swap round (draw round) place) := rfl

/-- The element that a round draws stays at the place of the round. -/
theorem source_of_lt (later : ∀ round, round ≤ draw round) {round rounds : Nat}
    (earlier : round < rounds) :
    source draw rounds round = source draw round (draw round) := by
  induction rounds with
  | zero => omega
  | succ rounds induction =>
      rw [source_succ_apply]
      rcases Nat.lt_or_eq_of_le (Nat.le_of_lt_succ earlier) with before | rfl
      · have drawn := later rounds
        rw [Equiv.swap_apply_of_ne_of_ne (by omega) (by omega), induction before]
      · rw [Equiv.swap_apply_left]

/-- The exchange of two elements of a list. -/
theorem getElem?_exchange {values : List α} {i j : Nat} (i_lt : i < values.length)
    (j_lt : j < values.length) (place : Nat) :
    ((values.set j values[i]).set i values[j])[place]? = values[Equiv.swap i j place]? := by
  rw [List.getElem?_set, List.getElem?_set, List.length_set]
  by_cases first : i = place
  · subst first
    rw [if_pos rfl, if_pos i_lt, Equiv.swap_apply_left, List.getElem?_eq_getElem j_lt]
  · rw [if_neg first]
    by_cases second : j = place
    · subst second
      rw [if_pos rfl, if_pos j_lt, Equiv.swap_apply_right, List.getElem?_eq_getElem i_lt]
    · rw [if_neg second, Equiv.swap_apply_of_ne_of_ne (Ne.symm first) (Ne.symm second)]

/-! ## The first least element -/

section FirstLeast

variable [LinearOrder α] {time : Nat → α} {rounds round other : Nat}

/-- A round whose time is the least, the first one where several are equal. -/
structure FirstLeast (time : Nat → α) (rounds round : Nat) : Prop where
  lt : round < rounds
  least : ∀ other < rounds, time round ≤ time other
  first : ∀ other < round, time round < time other

theorem firstLeast_one (time : Nat → α) : FirstLeast time 1 0 where
  lt := Nat.one_pos
  least other below := by rw [Nat.lt_one_iff.mp below]
  first other below := absurd below (Nat.not_lt_zero other)

/-- One more round is the first least only if its time is earlier. -/
theorem FirstLeast.succ (best : FirstLeast time rounds round) :
    FirstLeast time (rounds + 1) (if time rounds < time round then rounds else round) := by
  by_cases earlier : time rounds < time round
  · rw [if_pos earlier]
    constructor
    · exact Nat.lt_succ_self rounds
    · intro other below
      rcases Nat.lt_or_eq_of_le (Nat.le_of_lt_succ below) with before | rfl
      · exact earlier.le.trans (best.least other before)
      · exact le_rfl
    · exact fun other before => earlier.trans_le (best.least other before)
  · rw [if_neg earlier]
    constructor
    · exact Nat.lt_succ_of_lt best.lt
    · intro other below
      rcases Nat.lt_or_eq_of_le (Nat.le_of_lt_succ below) with before | rfl
      · exact best.least other before
      · exact not_lt.mp earlier
    · exact best.first

theorem FirstLeast.unique (best : FirstLeast time rounds round)
    (best' : FirstLeast time rounds other) : round = other := by
  rcases Nat.lt_trichotomy round other with less | equal | greater
  · exact absurd (best'.first round less) (not_lt.mpr (best.least other best'.lt))
  · exact equal
  · exact absurd (best.first other greater) (not_lt.mpr (best'.least round best.lt))

end FirstLeast

end PartialShuffle

import FooCoin.Library.Histories
import Mathlib.Order.Bounds.Basic
import Mathlib.Tactic

/-!
# Windows on a growing list

A window shows the end of a list that grows at the end.  It loses elements at its front when they
are more than a limit, and the limit may change.  What it has lost at a moment is the largest
surplus of any moment before, so it shows the latest elements, and none leaves without need.
-/

namespace Window

variable {α : Type*}

/-- How many of so many elements exceed a limit, where zero is no limit. -/
def surplus (limit count : Nat) : Nat := if limit = 0 then 0 else count - limit

/-- The latest elements within a limit. -/
def latest (limit : Nat) (elements : List α) : List α :=
  elements.drop (surplus limit elements.length)

variable {limit count cut : Nat} {elements log contents : List α}

theorem surplus_of_le (fits : limit = 0 ∨ count ≤ limit) : surplus limit count = 0 := by
  unfold surplus
  split_ifs with unlimited
  · rfl
  · exact Nat.sub_eq_zero_of_le (fits.resolve_left unlimited)

theorem surplus_le (limit count : Nat) : surplus limit count ≤ count := by
  unfold surplus
  split_ifs
  · exact Nat.zero_le count
  · exact Nat.sub_le count limit

theorem surplus_mono {smaller larger : Nat} (le : smaller ≤ larger) :
    surplus limit smaller ≤ surplus limit larger := by
  unfold surplus
  split_ifs
  · exact le_rfl
  · exact Nat.sub_le_sub_right le limit

theorem latest_of_le (fits : limit = 0 ∨ elements.length ≤ limit) :
    latest limit elements = elements := by
  rw [latest, surplus_of_le fits, List.drop_zero]

/-- One element too many leaves at the front. -/
theorem latest_cons {first : α} (limited : limit ≠ 0) (full : limit ≤ elements.length) :
    latest limit (first :: elements) = latest limit elements := by
  have one_more : elements.length + 1 - limit = elements.length - limit + 1 := by omega
  rw [latest, latest, List.length_cons, surplus, surplus, if_neg limited, if_neg limited, one_more,
    List.drop_succ_cons]

theorem length_latest_le (limited : limit ≠ 0) : (latest limit elements).length ≤ limit := by
  rw [latest, List.length_drop, surplus, if_neg limited]
  omega

/-- Two losses at the front are the larger one of them. -/
theorem latest_drop (limit cut : Nat) (log : List α) :
    latest limit (log.drop cut) = log.drop (max (surplus limit log.length) cut) := by
  have lost : cut + surplus limit (log.length - cut) = max (surplus limit log.length) cut := by
    unfold surplus
    split_ifs <;> omega
  rw [latest, List.drop_drop, List.length_drop, lost]

/-- What leaves early is not missed later. -/
theorem latest_latest_append (limit : Nat) (earlier later : List α) :
    latest limit (latest limit earlier ++ later) = latest limit (earlier ++ later) := by
  have length : (earlier ++ later).length = earlier.length + later.length := List.length_append
  have more : surplus limit earlier.length ≤ surplus limit (earlier ++ later).length :=
    surplus_mono (length.symm ▸ Nat.le_add_right _ _)
  have joined : latest limit earlier ++ later =
      (earlier ++ later).drop (surplus limit earlier.length) := by
    rw [List.drop_append_of_le_length (surplus_le limit earlier.length), latest]
  rw [joined, latest_drop, max_eq_left more, latest]

/-- What is among the latest elements of a longer list was so before, or came since. -/
theorem mem_latest_append {element : α} {earlier later : List α}
    (recent : element ∈ latest limit (earlier ++ later)) :
    element ∈ latest limit earlier ∨ element ∈ later := by
  rw [← latest_latest_append] at recent
  exact List.mem_append.mp (List.mem_of_mem_drop recent)

/-! ## Elements that come again -/

/-- An element comes again only when it is no longer among the latest. -/
def Spaced (limit : Nat) (log : List α) : Prop :=
  ∀ earlier element later, log = earlier ++ element :: later → element ∉ latest limit earlier

theorem spaced_nil : Spaced limit ([] : List α) := by
  intro earlier element later split
  simp at split

/-- One more element. -/
theorem Spaced.concat (spaced : Spaced limit log) {element : α} (old : element ∉ latest limit log) :
    Spaced limit (log ++ [element]) := by
  intro earlier other later split
  rcases Histories.concat_eq_append_cons.mp split with ⟨rfl, rfl, -⟩ | ⟨rest, before, -⟩
  · exact old
  · exact spaced earlier other rest before

/-- Between two occurrences of an element there are as many others as the limit says. -/
theorem Spaced.gap (spaced : Spaced limit log) {earlier between later : List α} {element : α}
    (twice : log = earlier ++ element :: between ++ element :: later) :
    limit ≠ 0 ∧ limit ≤ between.length := by
  by_contra near
  refine spaced (earlier ++ element :: between) element later twice ?_
  have cut : surplus limit (earlier ++ element :: between).length ≤ earlier.length := by
    rw [List.length_append, List.length_cons, surplus]
    split_ifs with unlimited
    · exact Nat.zero_le _
    · have few := not_le.mp fun far => near ⟨unlimited, far⟩
      omega
  rw [latest, List.drop_append_of_le_length cut]
  exact List.mem_append_right _ List.mem_cons_self

/-! ## What a window shows -/

/-- The rest of a list behind the largest one of some losses. -/
def Shows (losses : Set Nat) (log contents : List α) : Prop :=
  ∃ lost, IsGreatest losses lost ∧ contents = log.drop lost

variable {losses : Set Nat}

theorem Shows.suffix (shows_end : Shows losses log contents) : contents <:+ log := by
  obtain ⟨lost, -, rfl⟩ := shows_end
  exact List.drop_suffix lost log

/-- The window loses what exceeds a limit. -/
theorem Shows.latest (shows_end : Shows losses log contents) (limit : Nat) :
    Shows (insert (surplus limit log.length) losses) log (latest limit contents) := by
  obtain ⟨lost, greatest, rfl⟩ := shows_end
  exact ⟨_, greatest.insert _, latest_drop limit lost log⟩

/-- The list grows in front of the end of the window. -/
theorem Shows.append (shows_end : Shows losses log contents)
    (within : ∀ lost ∈ losses, lost ≤ log.length) (more : List α) :
    Shows losses (log ++ more) (contents ++ more) := by
  obtain ⟨lost, greatest, rfl⟩ := shows_end
  refine ⟨lost, greatest, ?_⟩
  rw [List.drop_append_of_le_length (within lost greatest.1)]

/-- A window on an empty list. -/
theorem shows_nil (limit : Nat) : Shows {surplus limit 0} ([] : List α) [] :=
  ⟨surplus limit 0, isGreatest_singleton, List.drop_nil.symm⟩

end Window

import Mathlib.Tactic

/-!
# Framing a stream

`search` finds the first occurrence of a marker.  A scanner takes frames off the front of a buffer
until it has to wait for more.  A resumable scanner takes the same frames from a stream however the
stream is cut.
-/

namespace Framing

/-! ## The first occurrence of a marker -/

section Search

variable {α : Type} [DecidableEq α]

/-- The buffer from the first occurrence of the marker on, empty if there is none. -/
def search (marker : List α) : List α → List α
  | [] => []
  | symbol :: buffer =>
      if marker <+: symbol :: buffer then symbol :: buffer else search marker buffer

theorem search_cons (marker : List α) (symbol : α) (buffer : List α) :
    search marker (symbol :: buffer) =
      if marker <+: symbol :: buffer then symbol :: buffer else search marker buffer := rfl

theorem search_suffix (marker buffer : List α) : search marker buffer <:+ buffer := by
  induction buffer with
  | nil => exact List.suffix_refl []
  | cons symbol buffer induction =>
      rw [search_cons]
      split_ifs
      · exact List.suffix_refl _
      · exact induction.trans (List.suffix_cons symbol buffer)

/-- What is found starts with the marker. -/
theorem prefix_search {marker buffer : List α} (found : search marker buffer ≠ []) :
    marker <+: search marker buffer := by
  induction buffer with
  | nil => exact absurd rfl found
  | cons symbol buffer induction =>
      rw [search_cons] at found ⊢
      split_ifs at found ⊢ with here
      · exact here
      · exact induction found

/-- A buffer that starts with the marker is found whole. -/
theorem search_eq_self {marker buffer : List α} (here : marker <+: buffer) :
    search marker buffer = buffer := by
  cases buffer with
  | nil => rfl
  | cons symbol buffer => rw [search_cons, if_pos here]

/-- What is found stays found when more arrives. -/
theorem search_append {marker buffer : List α} (found : search marker buffer ≠ [])
    (more : List α) : search marker (buffer ++ more) = search marker buffer ++ more := by
  induction buffer with
  | nil => exact absurd rfl found
  | cons symbol buffer induction =>
      rw [List.cons_append, search_cons]
      rw [search_cons] at found ⊢
      by_cases here : marker <+: symbol :: buffer
      · rw [if_pos here, ← List.cons_append, if_pos (here.trans (List.prefix_append _ _))]
      · rw [if_neg here] at found ⊢
        have absent : ¬marker <+: symbol :: (buffer ++ more) := by
          intro later
          have inside : marker.length ≤ (symbol :: buffer).length := by
            have long := (prefix_search found).length_le
            have short := (search_suffix marker buffer).length_le
            simp only [List.length_cons]
            omega
          exact here (List.prefix_of_prefix_length_le later (List.prefix_append _ more) inside)
        rw [if_neg absent]
        exact induction found

/-- What is found can only be found earlier when more arrives if it was not there in full. -/
theorem length_search_append_lt {marker buffer : List α} {count : Nat}
    (few : (search marker buffer).length < count) (fits : marker.length ≤ count) (more : List α) :
    (search marker (buffer ++ more)).length < count + more.length := by
  induction buffer with
  | nil =>
      have short := (search_suffix marker more).length_le
      rw [List.nil_append]
      omega
  | cons symbol buffer induction =>
      rw [search_cons] at few
      rw [List.cons_append, search_cons]
      by_cases here : marker <+: symbol :: (buffer ++ more)
      · rw [if_pos here]
        by_cases early : marker <+: symbol :: buffer
        · rw [if_pos early] at few
          simp only [List.length_cons, List.length_append] at few ⊢
          omega
        · have long : (symbol :: buffer).length < marker.length := by
            by_contra inside
            exact early (List.prefix_of_prefix_length_le here (List.prefix_append _ more)
              (Nat.not_lt.mp inside))
          simp only [List.length_cons, List.length_append] at long ⊢
          omega
      · have early : ¬marker <+: symbol :: buffer := fun early =>
          here (early.trans (List.prefix_append (symbol :: buffer) more))
        rw [if_neg early] at few
        rw [if_neg here]
        exact induction few

/-- Dropping symbols before the first occurrence does not change what is found. -/
theorem search_drop {marker : List α} {count : Nat} {buffer : List α}
    (after : (search marker buffer).length ≤ buffer.length - count) :
    search marker (buffer.drop count) = search marker buffer := by
  induction count generalizing buffer with
  | zero => rw [List.drop_zero]
  | succ count induction =>
      cases buffer with
      | nil => rfl
      | cons symbol buffer =>
          rw [search_cons] at after
          rw [List.drop_succ_cons, search_cons]
          by_cases here : marker <+: symbol :: buffer
          · rw [if_pos here, List.length_cons] at after
            omega
          · rw [if_neg here] at after ⊢
            exact induction (by simpa using after)

end Search

/-! ## Scanners -/

variable {α β : Type}

/-- What a scanner does with a buffer. -/
inductive Step (α β : Type)
  /-- Keep this of it until more arrives. -/
  | wait (left : List α)
  /-- Take something off its front, perhaps a frame. -/
  | take (frame : Option β) (rest : List α)
  deriving DecidableEq

/-- A scanner, which takes something off a buffer or waits. -/
structure Scanner (α β : Type) where
  step : List α → Step α β
  /-- Taking something leaves less. -/
  shrinks : ∀ {buffer frame rest}, step buffer = .take frame rest → rest.length < buffer.length
  /-- Waiting leaves no more. -/
  keeps : ∀ {buffer left}, step buffer = .wait left → left.length ≤ buffer.length

/-- Take frames until the scanner waits: the frames and what is kept. -/
def Scanner.scan (scanner : Scanner α β) (buffer : List α) : List β × List α :=
  match _taken : scanner.step buffer with
  | .wait left => ([], left)
  | .take frame rest => (frame.toList ++ (scanner.scan rest).1, (scanner.scan rest).2)
termination_by buffer.length
decreasing_by all_goals exact scanner.shrinks _taken

theorem Scanner.scan_of_wait {scanner : Scanner α β} {buffer left : List α}
    (waits : scanner.step buffer = .wait left) : scanner.scan buffer = ([], left) := by
  rw [scan]
  split
  · rename_i same
    cases waits.symm.trans same
    rfl
  · rename_i same
    cases waits.symm.trans same

theorem Scanner.scan_of_take {scanner : Scanner α β} {buffer rest : List α} {frame : Option β}
    (takes : scanner.step buffer = .take frame rest) :
    scanner.scan buffer = (frame.toList ++ (scanner.scan rest).1, (scanner.scan rest).2) := by
  rw [scan]
  split
  · rename_i same
    cases takes.symm.trans same
  · rename_i same
    cases takes.symm.trans same
    rfl

/-- What arrives later does not change what a scanner takes, and it may forget what it does not
keep. -/
structure Scanner.Resumable (scanner : Scanner α β) : Prop where
  take_append : ∀ {buffer frame rest}, scanner.step buffer = .take frame rest →
    ∀ more, scanner.step (buffer ++ more) = .take frame (rest ++ more)
  wait_append : ∀ {buffer left}, scanner.step buffer = .wait left →
    ∀ more, scanner.step (left ++ more) = scanner.step (buffer ++ more)

/-- Induction on the frames a scanner takes off a buffer. -/
theorem Scanner.induction {scanner : Scanner α β} {motive : List α → Prop}
    (wait : ∀ {buffer left}, scanner.step buffer = .wait left → motive buffer)
    (take : ∀ {buffer frame rest}, scanner.step buffer = .take frame rest → motive rest →
      motive buffer) (buffer : List α) : motive buffer := by
  induction size : buffer.length using Nat.strongRecOn generalizing buffer with
  | ind size induction =>
      cases step : scanner.step buffer with
      | wait left => exact wait step
      | take frame rest =>
          have shorter := scanner.shrinks step
          exact take step (induction rest.length (by omega) rest rfl)

theorem Scanner.length_scan_le (scanner : Scanner α β) (buffer : List α) :
    (scanner.scan buffer).2.length ≤ buffer.length := by
  induction buffer using scanner.induction with
  | wait waits =>
      rw [scan_of_wait waits]
      exact scanner.keeps waits
  | take takes induction =>
      rw [scan_of_take takes]
      exact induction.trans (scanner.shrinks takes).le

private theorem scan_congr {scanner : Scanner α β} {left right : List α}
    (same : scanner.step left = scanner.step right) : scanner.scan left = scanner.scan right := by
  cases step : scanner.step right with
  | wait kept => rw [Scanner.scan_of_wait step, Scanner.scan_of_wait (same.trans step)]
  | take frame rest => rw [Scanner.scan_of_take step, Scanner.scan_of_take (same.trans step)]

/-- A resumable scanner can be stopped and resumed with what it kept. -/
theorem Scanner.Resumable.scan_append {scanner : Scanner α β} (resumable : scanner.Resumable)
    (buffer more : List α) :
    scanner.scan (buffer ++ more) =
      ((scanner.scan buffer).1 ++ (scanner.scan ((scanner.scan buffer).2 ++ more)).1,
        (scanner.scan ((scanner.scan buffer).2 ++ more)).2) := by
  induction buffer using scanner.induction with
  | wait waits =>
      rw [Scanner.scan_of_wait waits, scan_congr (resumable.wait_append waits more)]
      rfl
  | take takes induction =>
      rw [Scanner.scan_of_take takes, Scanner.scan_of_take (resumable.take_append takes more),
        induction, List.append_assoc]

/-- There is nothing to take off what is kept. -/
theorem Scanner.Resumable.scan_left {scanner : Scanner α β} (resumable : scanner.Resumable)
    (buffer : List α) :
    scanner.scan (scanner.scan buffer).2 = ([], (scanner.scan buffer).2) := by
  have again := resumable.scan_append buffer []
  rw [List.append_nil, List.append_nil] at again
  have frames := congrArg Prod.fst again
  have left := congrArg Prod.snd again
  exact Prod.ext (List.self_eq_append_right.mp frames) left.symm

/-- What a scanner took off a stream, and the buffer that has the rest of it. -/
def Scanner.Taken (scanner : Scanner α β) (stream : List α) (frames : List β) (buffer : List α) :
    Prop :=
  scanner.scan stream = (frames ++ (scanner.scan buffer).1, (scanner.scan buffer).2)

theorem Scanner.taken_nil (scanner : Scanner α β) (stream : List α) :
    scanner.Taken stream [] stream := rfl

/-- More can arrive. -/
theorem Scanner.Taken.append {scanner : Scanner α β} (resumable : scanner.Resumable)
    {stream buffer : List α} {frames : List β} (taken : scanner.Taken stream frames buffer)
    (more : List α) : scanner.Taken (stream ++ more) frames (buffer ++ more) := by
  rw [Taken] at taken ⊢
  rw [resumable.scan_append stream, taken, resumable.scan_append buffer, List.append_assoc]

/-- Frames can be taken. -/
theorem Scanner.Taken.scan {scanner : Scanner α β} (resumable : scanner.Resumable)
    {stream buffer : List α} {frames : List β} (taken : scanner.Taken stream frames buffer) :
    scanner.Taken stream (frames ++ (scanner.scan buffer).1) (scanner.scan buffer).2 := by
  rw [Taken] at taken ⊢
  rw [resumable.scan_left, taken, List.append_nil]

end Framing

import FooCoin.Protocol
import FooCoin.Serialize

/-!
# Importing an external block file

`LoadExternalBlockFile` searches for the message start in windows of 64 KiB and reads a size and a
block behind it.  A block that is accepted is skipped, otherwise the search goes on behind the
message start.  An exception ends the import.  The position is a 32-bit word.
-/

namespace FooCoin

open LittleEndian Codec

/-- `sizeof(pchData)`. -/
def windowSize : Nat := 65536

/-- The position that ends the import, `(unsigned int)-1`. -/
def endPos : Nat := 2 ^ 32 - 1

/-- A block that was passed to `ProcessBlock`, with the position of its message start. -/
structure Attempt where
  pos : Nat
  nSize : Nat
  block : CBlock
  /-- `ProcessBlock` returned `true`. -/
  accepted : Bool

/-- The position behind the record. -/
def Attempt.stop (attempt : Attempt) : Nat := attempt.pos + 8 + attempt.nSize

/-- What an import did. -/
structure Import (σ : Type) where
  attempts : List Attempt
  /-- The message start behind which an exception ended the import. -/
  thrown : Option Nat
  node : σ

/-- The result of `LoadExternalBlockFile`, `nLoaded > 0`. -/
def Import.loaded {σ : Type} (loaded : Import σ) : Bool := loaded.attempts.any Attempt.accepted

section Loops

variable {σ : Type} (fTestNet : Bool) (layout : Layout)

/-- The search loop, `none` if it takes more rounds. -/
def searchLoop (file : List UInt8) : Nat → Nat → Option Nat
  | 0, _ => none
  | rounds + 1, nPos =>
      let pchData := (file.drop nPos).take windowSize
      if pchData.length ≤ 8 then some endPos
      else
        match (pchData.take (pchData.length + 1 - 4)).findIdx?
          fun byte => some byte = (pchMessageStart fTestNet).head? with
        | some nFind =>
            if (pchData.drop nFind).take 4 = pchMessageStart fTestNet then
              some ((nPos + nFind + 4) % 2 ^ 32)
            else searchLoop file rounds ((nPos + nFind + 1) % 2 ^ 32)
        | none => searchLoop file rounds ((nPos + (windowSize - 4 + 1)) % 2 ^ 32)

/-- The import loop, `none` if it takes more rounds; `process` is `ProcessBlock`, `none` if an
exception leaves it. -/
def importLoop (process : σ → CBlock → Option (Bool × σ)) (file : List UInt8) :
    Nat → Nat → σ → Option (Import σ)
  | 0, _, _ => none
  | rounds + 1, nPos, node =>
      if nPos = endPos then some ⟨[], none, node⟩
      else
        match searchLoop fTestNet file (rounds + 1) nPos with
        | none => none
        | some nPos =>
            if nPos = endPos then some ⟨[], none, node⟩
            else
              match readLE 4 (file.drop nPos) with
              | none => some ⟨[], some (nPos - 4), node⟩
              | some (nSize, content) =>
                  if 0 < nSize ∧ nSize ≤ maxBlockSize then
                    match CBlock.unserialize layout serDisk content with
                    | none => some ⟨[], some (nPos - 4), node⟩
                    | some (block, _) =>
                        match process node block with
                        | none => some ⟨[⟨nPos - 4, nSize, block, false⟩], some (nPos - 4), node⟩
                        | some (accepted, node) =>
                            let next := if accepted then (nPos + (4 + nSize)) % 2 ^ 32 else nPos
                            (importLoop process file rounds next node).map fun later =>
                              { later with attempts :=
                                  ⟨nPos - 4, nSize, block, accepted⟩ :: later.attempts }
                  else importLoop process file rounds nPos node

/-- `LoadExternalBlockFile`. -/
def loadExternalBlockFile (process : σ → CBlock → Option (Bool × σ)) (file : List UInt8)
    (rounds : Nat) (node : σ) : Option (Import σ) :=
  importLoop fTestNet layout process file rounds 0 node

/-- The message start stands here. -/
def MarkerAt (file : List UInt8) (pos : Nat) : Prop := pchMessageStart fTestNet <+: file.drop pos

/-- A well-formed record: the message start, a size in range and the serialization of a block of
exactly that size. -/
structure RecordAt (file : List UInt8) (pos nSize : Nat) (block : CBlock) : Prop where
  marker : MarkerAt fTestNet file pos
  size : (file.drop (pos + 4)).take 4 = leBytes 4 nSize
  positive : 0 < nSize
  small : nSize ≤ maxBlockSize
  complete : pos + 8 + nSize ≤ file.length
  content : Reads (CBlock.unserialize layout serDisk) ((file.drop (pos + 8)).take nSize) block

/-- The size or the block behind a message start cannot be read. -/
def Unreadable (file : List UInt8) (pos : Nat) : Prop :=
  match readLE 4 (file.drop (pos + 4)) with
  | none => True
  | some (nSize, content) =>
      (0 < nSize ∧ nSize ≤ maxBlockSize) ∧ CBlock.unserialize layout serDisk content = none

/-- The block of an attempt is read behind a message start. -/
def Attempt.ReadFrom (file : List UInt8) (attempt : Attempt) : Prop :=
  MarkerAt fTestNet file attempt.pos ∧
    ∃ content rest, readLE 4 (file.drop (attempt.pos + 4)) = some (attempt.nSize, content) ∧
      CBlock.unserialize layout serDisk content = some (attempt.block, rest)

/-- The node after the attempts. -/
def replay (process : σ → CBlock → Option (Bool × σ)) : σ → List Attempt → σ
  | node, [] => node
  | node, attempt :: attempts =>
      match process node attempt.block with
      | none => node
      | some (_, node) => replay process node attempts

/-- The import from a position on skips damage: it passes blocks in file order, never one that
overlaps an accepted record, ends early only where an exception is thrown, and misses no well-formed
record in front of that place that overlaps no record accepted before it. -/
structure Import.Skips (process : σ → CBlock → Option (Bool × σ)) (file : List UInt8) (start : Nat)
    (node : σ) (result : Import σ) : Prop where
  ordered : result.attempts.Pairwise fun earlier later =>
    earlier.pos < later.pos ∧ (earlier.accepted = true → earlier.stop ≤ later.pos)
  behind : ∀ attempt ∈ result.attempts, start ≤ attempt.pos
  read : ∀ attempt ∈ result.attempts, attempt.ReadFrom fTestNet layout file
  replayed : result.node = replay process node result.attempts
  thrown : ∀ pos, result.thrown = some pos → start ≤ pos ∧ MarkerAt fTestNet file pos ∧
    (∀ attempt ∈ result.attempts, attempt.accepted = true → attempt.stop ≤ pos) ∧
    (Unreadable layout file pos ∨ ∃ attempt ∈ result.attempts, attempt.pos = pos)
  complete : ∀ pos nSize block, RecordAt fTestNet layout file pos nSize block → start ≤ pos →
    (∀ attempt ∈ result.attempts, attempt.accepted = true → attempt.pos < pos →
      attempt.stop ≤ pos) →
    (∀ place, result.thrown = some place → pos ≤ place) →
    ∃ attempt ∈ result.attempts,
      attempt.pos = pos ∧ attempt.nSize = nSize ∧ attempt.block = block

end Loops

section Search

variable {fTestNet : Bool} {file : List UInt8}

private theorem markerAt_length {pos : Nat} (marker : MarkerAt fTestNet file pos) :
    pos + 4 ≤ file.length := by
  have inside := marker.length_le
  rw [length_pchMessageStart, List.length_drop] at inside
  omega

private theorem take_of_markerAt {pos : Nat} :
    MarkerAt fTestNet file pos ↔ (file.drop pos).take 4 = pchMessageStart fTestNet := by
  rw [MarkerAt, List.prefix_iff_eq_take, length_pchMessageStart]
  exact eq_comm

private theorem first_of_markerAt {pos : Nat} (marker : MarkerAt fTestNet file pos) :
    file[pos]? = (pchMessageStart fTestNet).head? := by
  obtain ⟨rest, split⟩ := marker
  rw [← List.head?_drop, ← split]
  cases fTestNet <;> rfl

/-- No message start overlaps another one. -/
private theorem markerAt_apart {first second : Nat} (first_marker : MarkerAt fTestNet file first)
    (second_marker : MarkerAt fTestNet file second) (before : first < second) :
    first + 4 ≤ second := by
  by_contra near
  obtain ⟨distance, rfl⟩ := Nat.exists_eq_add_of_lt before
  have marker := take_of_markerAt.mp second_marker
  obtain ⟨rest, split⟩ := first_marker
  rw [add_assoc, ← List.drop_drop, ← split] at marker
  have cases : distance = 0 ∨ distance = 1 ∨ distance = 2 := by omega
  have head := congrArg List.head? marker
  cases fTestNet
  all_goals
    rcases cases with rfl | rfl | rfl <;> simp [pchMessageStart] at head

private theorem window_get {nPos offset : Nat}
    (inside : offset < ((file.drop nPos).take windowSize).length) :
    ((file.drop nPos).take windowSize)[offset]? = file[nPos + offset]? := by
  rw [List.length_take] at inside
  rw [List.getElem?_take_of_lt (by omega), List.getElem?_drop]

private theorem window_marker {nPos offset : Nat}
    (inside : offset + 4 ≤ ((file.drop nPos).take windowSize).length) :
    (((file.drop nPos).take windowSize).drop offset).take 4 =
      (file.drop (nPos + offset)).take 4 := by
  rw [List.length_take] at inside
  rw [List.drop_take, List.take_take, List.drop_drop, min_eq_left (by omega)]

/-- The search finds the first message start from a position on, unless at most eight bytes of a
header are left. -/
theorem searchLoop_spec {rounds nPos : Nat}
    (small : file.length + maxBlockSize + windowSize < 2 ^ 32)
    (enough : file.length < nPos + rounds) (positive : 0 < rounds) :
    (searchLoop fTestNet file rounds nPos = some endPos ∧
        ∀ pos, nPos ≤ pos → MarkerAt fTestNet file pos → file.length ≤ pos + 8) ∨
      ∃ pos, nPos ≤ pos ∧ searchLoop fTestNet file rounds nPos = some (pos + 4) ∧
        MarkerAt fTestNet file pos ∧
        ∀ earlier, nPos ≤ earlier → earlier < pos → ¬MarkerAt fTestNet file earlier := by
  induction rounds generalizing nPos with
  | zero => exact absurd positive (lt_irrefl 0)
  | succ rounds induction =>
      have nRead_eq : ((file.drop nPos).take windowSize).length =
          min windowSize (file.length - nPos) := by
        rw [List.length_take, List.length_drop]
      simp only [searchLoop]
      by_cases few : ((file.drop nPos).take windowSize).length ≤ 8
      · rw [if_pos few]
        refine .inl ⟨rfl, fun pos behind marker => ?_⟩
        have inside := markerAt_length marker
        rw [nRead_eq, windowSize] at few
        omega
      rw [if_neg few]
      rw [nRead_eq, windowSize] at few
      have next_small : file.length + maxBlockSize + 65536 < 2 ^ 32 := small
      have continue_at {next : Nat} (first : nPos < next) (last : next ≤ nPos + 65533)
          (none_skipped : ∀ pos, nPos ≤ pos → pos < next → ¬MarkerAt fTestNet file pos) :
          (searchLoop fTestNet file rounds (next % 2 ^ 32) = some endPos ∧
              ∀ pos, nPos ≤ pos → MarkerAt fTestNet file pos → file.length ≤ pos + 8) ∨
            ∃ pos, nPos ≤ pos ∧ searchLoop fTestNet file rounds (next % 2 ^ 32) = some (pos + 4) ∧
              MarkerAt fTestNet file pos ∧
              ∀ earlier, nPos ≤ earlier → earlier < pos → ¬MarkerAt fTestNet file earlier := by
        rw [Nat.mod_eq_of_lt (by omega)]
        rcases @induction next (by omega) (by omega) with
          ⟨ended, rest⟩ | ⟨pos, behind, found, marker, first_found⟩
        · refine .inl ⟨ended, fun pos behind marker => ?_⟩
          by_cases skipped : pos < next
          · exact absurd marker (none_skipped pos behind skipped)
          · exact rest pos (Nat.not_lt.mp skipped) marker
        · refine .inr ⟨pos, by omega, found, marker, fun earlier behind_start before => ?_⟩
          by_cases skipped : earlier < next
          · exact none_skipped earlier behind_start skipped
          · exact first_found earlier (Nat.not_lt.mp skipped) before
      have absent {offset : Nat}
          (inside : offset < (((file.drop nPos).take windowSize).take
            (((file.drop nPos).take windowSize).length + 1 - 4)).length)
          (differs : ¬some (((file.drop nPos).take windowSize).take
            (((file.drop nPos).take windowSize).length + 1 - 4))[offset] =
              (pchMessageStart fTestNet).head?) :
          ¬MarkerAt fTestNet file (nPos + offset) := by
        intro marker
        rw [List.length_take] at inside
        rw [← List.getElem?_eq_getElem, List.getElem?_take_of_lt (by omega),
          window_get (by omega)] at differs
        exact differs (first_of_markerAt marker)
      cases found : (((file.drop nPos).take windowSize).take
          (((file.drop nPos).take windowSize).length + 1 - 4)).findIdx?
            (fun byte => decide (some byte = (pchMessageStart fTestNet).head?)) with
      | none =>
          have others := List.findIdx?_eq_none_iff.mp found
          refine continue_at (by rw [windowSize]; omega) (by rw [windowSize]) ?_
          intro pos behind before marker
          obtain ⟨offset, rfl⟩ := Nat.exists_eq_add_of_le behind
          have inside := markerAt_length marker
          rw [windowSize] at before
          refine @absent offset ?_ ?_ marker
          · rw [List.length_take, nRead_eq, windowSize]
            omega
          · exact of_decide_eq_false (others _ (List.getElem_mem _))
      | some nFind =>
          obtain ⟨inside, -, earlier⟩ := List.findIdx?_eq_some_iff_getElem.mp found
          have room := inside
          rw [List.length_take, nRead_eq, windowSize] at room
          have skipped : ∀ pos, nPos ≤ pos → pos < nPos + nFind → ¬MarkerAt fTestNet file pos := by
            intro pos behind before
            obtain ⟨offset, rfl⟩ := Nat.exists_eq_add_of_le behind
            have offset_lt : offset < nFind := by omega
            exact @absent offset (offset_lt.trans inside)
              fun same => earlier offset offset_lt (decide_eq_true same)
          simp only
          rw [window_marker (by rw [nRead_eq, windowSize]; omega)]
          by_cases here : (file.drop (nPos + nFind)).take 4 = pchMessageStart fTestNet
          · rw [if_pos here, Nat.mod_eq_of_lt (by omega)]
            exact .inr ⟨nPos + nFind, by omega, rfl, take_of_markerAt.mpr here, skipped⟩
          · rw [if_neg here]
            refine continue_at (by omega) (by omega) fun pos behind before marker => ?_
            rcases Nat.lt_or_ge pos (nPos + nFind) with earlier | at_least
            · exact skipped pos behind earlier marker
            · obtain rfl : pos = nPos + nFind := by omega
              exact here (take_of_markerAt.mp marker)

end Search

section Import

variable {σ : Type} {fTestNet : Bool} {layout : Layout}
  {process : σ → CBlock → Option (Bool × σ)} {file : List UInt8}

private theorem readLE_eq (width : Nat) (input : List UInt8) :
    readLE width input =
      if input.length < width then none else some (ofLE (input.take width), input.drop width) := by
  change ((readBytes width input).bind fun bytes => some (ofLE bytes.1, bytes.2)) = _
  rw [readBytes]
  split_ifs <;> rfl

/-- A well-formed record is read. -/
private theorem RecordAt.reads {pos nSize : Nat} {block : CBlock}
    (record : RecordAt fTestNet layout file pos nSize block) :
    readLE 4 (file.drop (pos + 4)) = some (nSize, file.drop (pos + 8)) ∧
      ∃ rest, CBlock.unserialize layout serDisk (file.drop (pos + 8)) = some (block, rest) := by
  have complete := record.complete
  have small : nSize < 256 ^ 4 := record.small.trans_lt (by norm_num [maxBlockSize])
  constructor
  · rw [readLE_eq, if_neg (by rw [List.length_drop]; omega), record.size,
      ofLE_leBytes_of_lt small, List.drop_drop]
  · refine ⟨(file.drop (pos + 8)).drop nSize, ?_⟩
    have read := record.content ((file.drop (pos + 8)).drop nSize)
    rwa [List.take_append_drop] at read

private theorem RecordAt.not_unreadable {pos nSize : Nat} {block : CBlock}
    (record : RecordAt fTestNet layout file pos nSize block) : ¬Unreadable layout file pos := by
  obtain ⟨size, rest, content⟩ := record.reads
  simp [Unreadable, size, content]

private theorem Import.Skips.done {nPos : Nat} {node : σ}
    (ended : ∀ pos, nPos ≤ pos → MarkerAt fTestNet file pos → file.length ≤ pos + 8) :
    Import.Skips fTestNet layout process file nPos node ⟨[], none, node⟩ where
  ordered := .nil
  behind := by simp
  read := by simp
  replayed := rfl
  thrown := by simp
  complete pos nSize block record behind _ _ := by
    have inside := record.complete
    have positive := record.positive
    have outside := ended pos behind record.marker
    omega

private theorem Import.Skips.failed {nPos pos : Nat} {node : σ} (behind : nPos ≤ pos)
    (marker : MarkerAt fTestNet file pos)
    (first : ∀ earlier, nPos ≤ earlier → earlier < pos → ¬MarkerAt fTestNet file earlier)
    (unreadable : Unreadable layout file pos) :
    Import.Skips fTestNet layout process file nPos node ⟨[], some pos, node⟩ where
  ordered := .nil
  behind := by simp
  read := by simp
  replayed := rfl
  thrown place thrown := by
    obtain rfl := Option.some.inj thrown
    exact ⟨behind, marker, by simp, .inl unreadable⟩
  complete place nSize block record behind_start _ before := by
    have at_most := before pos rfl
    rcases at_most.lt_or_eq with earlier | rfl
    · exact absurd record.marker (first place behind_start earlier)
    · exact absurd unreadable record.not_unreadable

/-- What is read at a well-formed record is the record. -/
private theorem Attempt.eq_of_recordAt {attempt : Attempt} {nSize : Nat} {block : CBlock}
    (read : attempt.ReadFrom fTestNet layout file)
    (record : RecordAt fTestNet layout file attempt.pos nSize block) :
    attempt.nSize = nSize ∧ attempt.block = block := by
  obtain ⟨-, content, rest, size, unserialized⟩ := read
  obtain ⟨size', rest', unserialized'⟩ := record.reads
  rw [size', Option.some.injEq, Prod.mk.injEq] at size
  obtain ⟨rfl, rfl⟩ := size
  rw [unserialized', Option.some.injEq, Prod.mk.injEq] at unserialized
  exact ⟨rfl, unserialized.1.symm⟩

private theorem Import.Skips.processThrows {nPos : Nat} {node : σ} {attempt : Attempt}
    (behind : nPos ≤ attempt.pos) (read : attempt.ReadFrom fTestNet layout file)
    (first : ∀ earlier, nPos ≤ earlier → earlier < attempt.pos → ¬MarkerAt fTestNet file earlier)
    (refused : attempt.accepted = false) (throws : process node attempt.block = none) :
    Import.Skips fTestNet layout process file nPos node ⟨[attempt], some attempt.pos, node⟩ where
  ordered := List.pairwise_singleton _ _
  behind := by simpa using behind
  read := by simpa using read
  replayed := by simp [replay, throws]
  thrown place thrown := by
    obtain rfl := Option.some.inj thrown
    exact ⟨behind, read.1, by simp [refused], .inr ⟨attempt, by simp, rfl⟩⟩
  complete place nSize block record behind_start _ before := by
    have at_most := before attempt.pos rfl
    rcases at_most.lt_or_eq with earlier | rfl
    · exact absurd record.marker (first place behind_start earlier)
    · obtain ⟨size, same⟩ := Attempt.eq_of_recordAt read record
      exact ⟨attempt, by simp, rfl, size, same⟩

/-- A message start without a size in range is passed over. -/
private theorem Import.Skips.passOver {nPos pos : Nat} {node : σ} {result : Import σ}
    (later : result.Skips fTestNet layout process file (pos + 4) node) (behind : nPos ≤ pos)
    (marker : MarkerAt fTestNet file pos)
    (first : ∀ earlier, nPos ≤ earlier → earlier < pos → ¬MarkerAt fTestNet file earlier)
    (noRecord : ∀ nSize block, ¬RecordAt fTestNet layout file pos nSize block) :
    result.Skips fTestNet layout process file nPos node where
  ordered := later.ordered
  behind attempt member := by
    have after := later.behind attempt member
    omega
  read := later.read
  replayed := later.replayed
  thrown place thrown := by
    obtain ⟨after, rest⟩ := later.thrown place thrown
    exact ⟨by omega, rest⟩
  complete place nSize block record behind_start untouched before := by
    rcases lt_trichotomy place pos with earlier | rfl | after
    · exact absurd record.marker (first place behind_start earlier)
    · exact absurd record (noRecord nSize block)
    · exact later.complete place nSize block record
        (markerAt_apart marker record.marker after) untouched before

/-- A block is passed to `ProcessBlock` and the import goes on behind it or behind its message
start. -/
private theorem Import.Skips.pass {nPos next : Nat} {node node' : σ} {attempt : Attempt}
    {result : Import σ} (later : result.Skips fTestNet layout process file next node')
    (behind : nPos ≤ attempt.pos) (read : attempt.ReadFrom fTestNet layout file)
    (first : ∀ earlier, nPos ≤ earlier → earlier < attempt.pos → ¬MarkerAt fTestNet file earlier)
    (passed : process node attempt.block = some (attempt.accepted, node'))
    (next_eq : next = if attempt.accepted then attempt.stop else attempt.pos + 4) :
    Import.Skips fTestNet layout process file nPos node
      { result with attempts := attempt :: result.attempts } where
  ordered := by
    refine List.pairwise_cons.mpr ⟨fun other member => ?_, later.ordered⟩
    have after := later.behind other member
    rw [next_eq] at after
    cases accepted : attempt.accepted with
    | false =>
        rw [accepted, if_neg Bool.false_ne_true] at after
        exact ⟨by omega, by simp⟩
    | true =>
        rw [accepted, if_pos rfl] at after
        have inside : attempt.pos < attempt.stop := by
          rw [Attempt.stop]
          omega
        exact ⟨by omega, fun _ => after⟩
  behind other member := by
    rcases List.mem_cons.mp member with rfl | member
    · exact behind
    · have after := later.behind other member
      have onward : attempt.pos ≤ next := by
        rw [next_eq, Attempt.stop]
        split <;> omega
      omega
  read other member := by
    rcases List.mem_cons.mp member with rfl | member
    · exact read
    · exact later.read other member
  replayed := by
    simp only [replay, passed]
    exact later.replayed
  thrown place thrown := by
    obtain ⟨after, marker, accepted_before, cause⟩ := later.thrown place thrown
    have onward : attempt.pos ≤ next := by
      rw [next_eq, Attempt.stop]
      split <;> omega
    refine ⟨by omega, marker, fun other member accepted => ?_, ?_⟩
    · rcases List.mem_cons.mp member with rfl | member
      · rwa [next_eq, if_pos accepted] at after
      · exact accepted_before other member accepted
    · rcases cause with unreadable | ⟨other, member, same⟩
      · exact .inl unreadable
      · exact .inr ⟨other, List.mem_cons_of_mem _ member, same⟩
  complete place nSize block record behind_start untouched before := by
    rcases lt_trichotomy place attempt.pos with earlier | rfl | after
    · exact absurd record.marker (first place behind_start earlier)
    · obtain ⟨size, same⟩ := Attempt.eq_of_recordAt read record
      exact ⟨attempt, List.mem_cons_self, rfl, size, same⟩
    · have reached : next ≤ place := by
        rw [next_eq]
        cases accepted : attempt.accepted with
        | false => exact markerAt_apart read.1 record.marker after
        | true => exact untouched attempt List.mem_cons_self accepted after
      obtain ⟨found, member, same⟩ := later.complete place nSize block record reached
        (fun other member => untouched other (List.mem_cons_of_mem _ member)) before
      exact ⟨found, List.mem_cons_of_mem _ member, same⟩

private theorem importLoop_skips {rounds nPos : Nat} {node : σ}
    (small : file.length + maxBlockSize + windowSize < 2 ^ 32)
    (enough : file.length < nPos + rounds) (positive : 0 < rounds) :
    ∃ result, importLoop fTestNet layout process file rounds nPos node = some result ∧
      result.Skips fTestNet layout process file nPos node := by
  induction rounds generalizing nPos node with
  | zero => exact absurd positive (lt_irrefl 0)
  | succ rounds induction =>
      have file_small : file.length + 1000000 + 65536 < 2 ^ 32 := small
      by_cases at_end : nPos = endPos
      · refine ⟨⟨[], none, node⟩, by rw [importLoop, if_pos at_end], .done fun pos behind _ => ?_⟩
        rw [at_end, endPos] at behind
        omega
      rcases searchLoop_spec small enough positive with
        ⟨ended, rest⟩ | ⟨pos, behind, found, marker, first⟩
      · refine ⟨⟨[], none, node⟩, ?_, .done rest⟩
        simp only [importLoop, if_neg at_end, ended, if_true]
      have inside := markerAt_length marker
      have pos_small : ¬pos + 4 = endPos := by
        rw [endPos]
        omega
      simp only [importLoop, if_neg at_end, found, if_neg pos_small]
      cases size : readLE 4 (file.drop (pos + 4)) with
      | none => exact ⟨_, rfl, .failed behind marker first (by simp [Unreadable, size])⟩
      | some header =>
          obtain ⟨nSize, content⟩ := header
          by_cases range : 0 < nSize ∧ nSize ≤ maxBlockSize
          · simp only [if_pos range]
            cases unserialized : CBlock.unserialize layout serDisk content with
            | none =>
                exact ⟨_, rfl, .failed behind marker first
                  (by simp [Unreadable, size, range, unserialized])⟩
            | some value =>
                obtain ⟨block, left⟩ := value
                have read (accepted : Bool) :
                    Attempt.ReadFrom fTestNet layout file ⟨pos, nSize, block, accepted⟩ :=
                  ⟨marker, content, left, size, unserialized⟩
                simp only [Nat.add_sub_cancel]
                cases passed : process node block with
                | none =>
                    exact ⟨_, rfl, .processThrows behind (read false) first rfl passed⟩
                | some answer =>
                    obtain ⟨accepted, node'⟩ := answer
                    have upper : nSize ≤ 1000000 := range.2
                    have next_eq :
                        (if accepted then (pos + 4 + (4 + nSize)) % 2 ^ 32 else pos + 4) =
                          if accepted then pos + 8 + nSize else pos + 4 := by
                      rw [Nat.mod_eq_of_lt (by omega)]
                      split <;> omega
                    simp only [next_eq]
                    obtain ⟨result, imported, later⟩ := @induction
                      (if accepted then pos + 8 + nSize else pos + 4) node'
                      (by split <;> omega) (by omega)
                    have passes := @Import.Skips.pass σ fTestNet layout process file nPos _ node
                      node' ⟨pos, nSize, block, accepted⟩ result later behind (read accepted) first
                      passed rfl
                    exact ⟨_, by rw [imported]; rfl, passes⟩
          · simp only [if_neg range]
            obtain ⟨result, imported, later⟩ := @induction (pos + 4) node (by omega) (by omega)
            refine ⟨result, imported, later.passOver behind marker first
              fun nSize' block record => ?_⟩
            have header := record.reads.1
            rw [size, Option.some.injEq, Prod.mk.injEq] at header
            exact range ⟨header.1 ▸ record.positive, header.1 ▸ record.small⟩

/-- The import of a file below 4 GiB ends and skips damage. -/
theorem loadExternalBlockFile_skips {rounds : Nat} (node : σ)
    (small : file.length + maxBlockSize + windowSize < 2 ^ 32) (enough : file.length < rounds) :
    ∃ result, loadExternalBlockFile fTestNet layout process file rounds node = some result ∧
      result.Skips fTestNet layout process file 0 node :=
  importLoop_skips small (by omega) (by omega)

end Import

/-! ## A damaged file -/

/-- A block without transactions. -/
def emptyBlock : CBlock where
  nVersion := 1
  hashPrevBlock := 0
  hashMerkleRoot := 0
  nTime := 0
  nBits := 0
  nNonce := 0
  vtx := []

/-- Objects of one byte. -/
def byteLayout : Layout where
  txIn := { bytes := 1, positive := by decide, small := by decide }
  txOut := { bytes := 1, positive := by decide, small := by decide }
  transaction := { bytes := 1, positive := by decide, small := by decide }

/-- The record of a block. -/
def blockRecord (block : CBlock) : List UInt8 :=
  pchMessageStart false ++ (leBytes 4 (block.serialize serDisk).length ++ block.serialize serDisk)

/-- A block whose number of transactions is damaged, and a good one behind it. -/
def damagedFile : List UInt8 :=
  pchMessageStart false ++ (leBytes 4 85 ++ (emptyBlock.writeHeader ++
    [0xfe, 0xff, 0xff, 0xff, 0xff])) ++ blockRecord emptyBlock

/-- `ProcessBlock` that accepts every block. -/
def acceptAll (node : Unit) (_block : CBlock) : Option (Bool × Unit) := some (true, node)

private theorem damagedFile_record :
    RecordAt false byteLayout damagedFile 93 81 emptyBlock where
  marker := by
    rw [take_of_markerAt]
    decide
  size := by decide
  positive := by decide
  small := by decide
  complete := by decide
  content := by
    have bytes : (damagedFile.drop (93 + 8)).take 81 = emptyBlock.serialize serDisk := by decide
    have sized : emptyBlock.Sized := ⟨by simp [emptyBlock], by simp [emptyBlock]⟩
    rw [bytes]
    exact CBlock.reads_unserialize byteLayout serDisk sized

theorem loadExternalBlockFile_skips_damagedFile :
    ∃ result, loadExternalBlockFile false byteLayout acceptAll (blockRecord emptyBlock) 100 () =
        some result ∧
      result.Skips false byteLayout acceptAll (blockRecord emptyBlock) 0 () :=
  loadExternalBlockFile_skips () (by decide) (by decide)

/-- The good record is never passed on. -/
theorem damagedFile_loses_record :
    RecordAt false byteLayout damagedFile 93 81 emptyBlock ∧
      loadExternalBlockFile false byteLayout acceptAll damagedFile 200 () =
        some ⟨[], some 0, ()⟩ := by
  refine ⟨damagedFile_record, ?_⟩
  have found : searchLoop false damagedFile 200 0 = some 4 := by decide +kernel
  have size : readLE 4 (damagedFile.drop 4) = some (85, damagedFile.drop 8) := by decide +kernel
  have damaged : CBlock.unserialize byteLayout serDisk (damagedFile.drop 8) = none :=
    Option.isNone_iff_eq_none.mp (by decide +kernel)
  have start : ¬0 = endPos ∧ ¬4 = endPos := by decide +kernel
  have range : 0 < 85 ∧ 85 ≤ maxBlockSize := by decide +kernel
  rw [loadExternalBlockFile, importLoop, if_neg start.1, found]
  simp only [if_neg start.2, size, if_pos range, damaged]

end FooCoin

import FooCoin.Script.Evaluate

/-!
# Deleting an instruction

`GetOp2` compares the size of a push with the number of bytes that are left, cast to 32 bits.
`FindAndDelete` compares and erases bytes.  Where the instruction at a position can be read, it is
erased exactly if it is the pattern; so the loop deletes the instructions that are the pattern,
unless the bytes that cannot be read start with the pattern.
-/

namespace FooCoin

open LittleEndian Op

/-- `CScript::GetOp2` with the 32-bit comparison of the bytes that are left. -/
def getOp2 : CScript → Option (Nat × Valtype × CScript)
  | [] => none
  | byte :: pc =>
      let opcode := byte.toNat
      if opcode ≤ OP_PUSHDATA4 then
        match operandSize opcode pc with
        | none => none
        | some (nSize, pc) =>
            if pc.length % 2 ^ 32 < nSize then none
            else some (opcode, pc.take nSize, pc.drop nSize)
      else some (opcode, [], pc)

/-- The loop of `CScript::FindAndDelete` over `getOp2`. -/
def findAndDeleteLoop2 (pattern : CScript) : Nat → CScript → CScript × Nat
  | 0, pc => (pc, 0)
  | fuel + 1, pc =>
      let (pc, nFound) := dropPattern pattern pc.length pc
      match getOp2 pc with
      | none => (pc, nFound)
      | some (_, _, rest) =>
          let (tail, nMore) := findAndDeleteLoop2 pattern fuel rest
          (pc.take (pc.length - rest.length) ++ tail, nFound + nMore)

/-- `CScript::FindAndDelete` over `getOp2`. -/
def findAndDelete2 (script pattern : CScript) : CScript × Nat :=
  if pattern = [] then (script, 0)
  else findAndDeleteLoop2 pattern (script.length + 1) script

/-- The loop of `CScript::Find`. -/
def findLoop (op : Nat) : Nat → CScript → Nat
  | 0, _ => 0
  | fuel + 1, pc =>
      if pc = [] then 0
      else
        match getOp2 pc with
        | none => 0
        | some (opcode, _, rest) => (if opcode = op then 1 else 0) + findLoop op fuel rest

/-- `CScript::Find`. -/
def find (script : CScript) (op : Nat) : Nat := findLoop op script.length script

/-- The bytes of the instructions that `GetOp` reads, and those it cannot read. -/
def splitScript : Nat → CScript → List CScript × CScript
  | 0, pc => ([], pc)
  | fuel + 1, pc =>
      match getOp2 pc with
      | none => ([], pc)
      | some (_, _, rest) =>
          let (pieces, tail) := splitScript fuel rest
          (pc.take (pc.length - rest.length) :: pieces, tail)

/-- The bytes of the instructions of a script. -/
def instructions (script : CScript) : List CScript := (splitScript script.length script).1

/-- The bytes behind the last instruction, where `GetOp` fails. -/
def unparsedTail (script : CScript) : CScript := (splitScript script.length script).2

/-- The bytes encode one instruction. -/
def IsInstruction (piece : CScript) : Prop := ∃ opcode vch, getOp2 piece = some (opcode, vch, [])

/-! ## One instruction -/

private theorem exists_sizeField {opcode nSize : Nat} {pc operand : CScript}
    (sized : operandSize opcode pc = some (nSize, operand)) :
    ∃ field, pc = field ++ operand ∧
      ∀ others, operandSize opcode (field ++ others) = some (nSize, others) := by
  by_cases direct : opcode < OP_PUSHDATA1
  · simp only [operandSize, direct, if_true, Option.some.injEq, Prod.mk.injEq] at sized
    obtain ⟨rfl, rfl⟩ := sized
    exact ⟨[], rfl, fun others => by simp [operandSize, direct]⟩
  · simp only [operandSize, direct, if_false] at sized
    generalize width_eq : (if opcode = OP_PUSHDATA1 then 1 else if opcode = OP_PUSHDATA2 then 2
      else 4) = width at sized
    simp only [Option.ite_none_left_eq_some, Option.some.injEq, Prod.mk.injEq, Nat.not_lt] at sized
    obtain ⟨enough, rfl, rfl⟩ := sized
    have length : (pc.take width).length = width := List.length_take_of_le enough
    refine ⟨pc.take width, (List.take_append_drop _ _).symm, fun others => ?_⟩
    simp only [operandSize, direct, if_false, width_eq]
    rw [if_neg (by rw [List.length_append]; omega), List.take_left' length,
      List.drop_left' length]

/-- An instruction is read from its own bytes. -/
theorem exists_piece {pc rest : CScript} {opcode : Nat} {vch : Valtype}
    (parsed : getOp pc = some (opcode, vch, rest)) :
    ∃ piece, pc = piece ++ rest ∧
      ∀ others, getOp (piece ++ others) = some (opcode, vch, others) := by
  cases pc with
  | nil => simp [getOp] at parsed
  | cons byte pc =>
      simp only [getOp] at parsed
      by_cases push : byte.toNat ≤ OP_PUSHDATA4
      · rw [if_pos push] at parsed
        cases sized : operandSize byte.toNat pc with
        | none => simp [sized] at parsed
        | some field =>
            obtain ⟨nSize, operand⟩ := field
            simp only [sized, Option.ite_none_left_eq_some, Option.some.injEq, Prod.mk.injEq,
              Nat.not_lt] at parsed
            obtain ⟨enough, rfl, rfl, rfl⟩ := parsed
            obtain ⟨field, rfl, anywhere⟩ := exists_sizeField sized
            have length : (operand.take nSize).length = nSize := List.length_take_of_le enough
            refine ⟨byte :: field ++ operand.take nSize, by simp, fun others => ?_⟩
            rw [List.cons_append, List.cons_append, List.append_assoc]
            simp only [getOp, push, if_true, anywhere]
            rw [if_neg (by rw [List.length_append]; omega), List.take_left' length,
              List.drop_left' length]
      · rw [if_neg push, Option.some.injEq, Prod.mk.injEq, Prod.mk.injEq] at parsed
        obtain ⟨rfl, rfl, rfl⟩ := parsed
        exact ⟨[byte], rfl, fun others => by simp [getOp, push]⟩

/-! ## The 32-bit comparison -/

/-- What `GetOp2` reads, it also reads without the cast. -/
theorem getOp_of_getOp2 {pc : CScript} {instruction : Nat × Valtype × CScript}
    (parsed : getOp2 pc = some instruction) : getOp pc = some instruction := by
  cases pc with
  | nil => simp [getOp2] at parsed
  | cons byte pc =>
      simp only [getOp2, getOp] at parsed ⊢
      split
      · rename_i push
        rw [if_pos push] at parsed
        cases sized : operandSize byte.toNat pc with
        | none => simp [sized] at parsed
        | some field =>
            simp only [sized, Option.ite_none_left_eq_some, Nat.not_lt] at parsed
            obtain ⟨enough, same⟩ := parsed
            exact (if_neg (Nat.not_lt.mpr (enough.trans (Nat.mod_le _ _)))).trans same
      · rename_i operator
        rwa [if_neg operator] at parsed

/-- The cast changes nothing in scripts that are not longer than 4 GiB. -/
theorem getOp2_eq {pc : CScript} (small : pc.length ≤ 2 ^ 32) : getOp2 pc = getOp pc := by
  cases pc with
  | nil => rfl
  | cons byte pc =>
      simp only [getOp2, getOp]
      cases sized : operandSize byte.toNat pc with
      | none => rfl
      | some field =>
          obtain ⟨nSize, operand⟩ := field
          obtain ⟨front, rfl, -⟩ := exists_sizeField sized
          rw [List.length_cons, List.length_append] at small
          have fits : operand.length % 2 ^ 32 = operand.length := Nat.mod_eq_of_lt (by omega)
          simp only [fits]

theorem IsInstruction.ne_nil {piece : CScript} (single : IsInstruction piece) : piece ≠ [] := by
  rintro rfl
  obtain ⟨opcode, vch, parsed⟩ := single
  simp [getOp2] at parsed

/-- An instruction that starts a script is the one that is read there. -/
theorem IsInstruction.eq_of_append {pattern piece left rest : CScript} {opcode : Nat}
    {vch : Valtype} (single : IsInstruction pattern)
    (parsed : getOp2 (piece ++ rest) = some (opcode, vch, rest))
    (same : pattern ++ left = piece ++ rest) : pattern = piece := by
  obtain ⟨_, _, own⟩ := single
  obtain ⟨own_piece, own_eq, anywhere⟩ := exists_piece (getOp_of_getOp2 own)
  rw [List.append_nil] at own_eq
  have read := anywhere left
  rw [← own_eq, same, getOp_of_getOp2 parsed, Option.some.injEq, Prod.mk.injEq, Prod.mk.injEq]
    at read
  obtain ⟨-, -, rfl⟩ := read
  exact List.append_cancel_right same

/-! ## The instructions of a script -/

/-- The script is instructions, each read where it stands, and a tail that cannot be read. -/
inductive Splits : CScript → List CScript → CScript → Prop
  | tail {tail : CScript} (ends : getOp2 tail = none) : Splits tail [] tail
  | cons {piece rest tail : CScript} {pieces : List CScript} {opcode : Nat} {vch : Valtype}
      (first : getOp2 (piece ++ rest) = some (opcode, vch, rest))
      (later : Splits rest pieces tail) : Splits (piece ++ rest) (piece :: pieces) tail

private theorem splits_splitScript {fuel : Nat} {pc : CScript} (enough : pc.length ≤ fuel) :
    Splits pc (splitScript fuel pc).1 (splitScript fuel pc).2 := by
  induction fuel generalizing pc with
  | zero =>
      obtain rfl := List.length_eq_zero_iff.mp (Nat.le_zero.mp enough)
      exact .tail rfl
  | succ fuel induction =>
      cases parsed : getOp2 pc with
      | none =>
          simp only [splitScript, parsed]
          exact .tail parsed
      | some instruction =>
          obtain ⟨opcode, vch, rest⟩ := instruction
          obtain ⟨piece, rfl, -⟩ := exists_piece (getOp_of_getOp2 parsed)
          have shorter := getOp_length (getOp_of_getOp2 parsed)
          simp only [splitScript, parsed, List.length_append, Nat.add_sub_cancel, List.take_left]
          exact .cons parsed (induction (by omega))

/-- Every script is its instructions and a tail. -/
theorem splits (script : CScript) : Splits script (instructions script) (unparsedTail script) :=
  splits_splitScript le_rfl

theorem Splits.ends {script tail : CScript} {pieces : List CScript}
    (split : Splits script pieces tail) : getOp2 tail = none := by
  induction split with
  | tail ends => exact ends
  | cons first later induction => exact induction

theorem Splits.parts {script tail : CScript} {pieces : List CScript}
    (split : Splits script pieces tail) : script = pieces.flatten ++ tail := by
  induction split with
  | tail ends => rfl
  | cons first later induction => rw [List.flatten_cons, List.append_assoc, ← induction]

/-! ## Deleting -/

section Delete

variable {pattern script tail : CScript} {pieces : List CScript}

private theorem prefix_of_found {pc : CScript}
    (found : pattern.length ≤ pc.length ∧ pc.take pattern.length = pattern) : pattern <+: pc :=
  ⟨pc.drop pattern.length, by conv_rhs => rw [← List.take_append_drop pattern.length pc, found.2]⟩

private theorem dropPattern_of_absent {pc : CScript} (absent : ¬pattern <+: pc) (fuel : Nat) :
    dropPattern pattern fuel pc = (pc, 0) := by
  cases fuel with
  | zero => rfl
  | succ fuel => rw [dropPattern, if_neg fun found => absent (prefix_of_found found)]

private theorem dropPattern_append (rest : CScript) (fuel : Nat) :
    dropPattern pattern (fuel + 1) (pattern ++ rest) =
      ((dropPattern pattern fuel rest).1, (dropPattern pattern fuel rest).2 + 1) := by
  have found : pattern.length ≤ (pattern ++ rest).length ∧
      (pattern ++ rest).take pattern.length = pattern :=
    ⟨by rw [List.length_append]; omega, List.take_left⟩
  rw [dropPattern, if_pos found, List.drop_left]

/-- Fuel for every byte is enough. -/
private theorem dropPattern_fuel (nonempty : pattern ≠ []) {fuel : Nat} {pc : CScript}
    (enough : pc.length ≤ fuel) :
    dropPattern pattern fuel pc = dropPattern pattern pc.length pc := by
  have positive := List.length_pos_of_ne_nil nonempty
  induction fuel using Nat.strong_induction_on generalizing pc with
  | _ fuel induction =>
      by_cases found : pattern <+: pc
      · obtain ⟨rest, rfl⟩ := found
        rw [List.length_append] at enough ⊢
        obtain ⟨less, rfl⟩ : ∃ less, fuel = less + 1 := ⟨fuel - 1, by omega⟩
        obtain ⟨own, own_eq⟩ : ∃ own, pattern.length + rest.length = own + 1 :=
          ⟨pattern.length + rest.length - 1, by omega⟩
        rw [own_eq, dropPattern_append, dropPattern_append, induction less (by omega) (by omega)]
        rcases Nat.lt_or_ge own (less + 1) with smaller | larger
        · rw [induction own smaller (show rest.length ≤ own by omega)]
        · omega
      · rw [dropPattern_of_absent found, dropPattern_of_absent found]

/-- Deleting an instruction that is the pattern. -/
private theorem findAndDeleteLoop2_same (nonempty : pattern ≠ []) (fuel : Nat) (rest : CScript) :
    findAndDeleteLoop2 pattern (fuel + 1) (pattern ++ rest) =
      ((findAndDeleteLoop2 pattern (fuel + 1) rest).1,
        (findAndDeleteLoop2 pattern (fuel + 1) rest).2 + 1) := by
  have positive := List.length_pos_of_ne_nil nonempty
  obtain ⟨own, own_eq⟩ : ∃ own, (pattern ++ rest).length = own + 1 :=
    ⟨(pattern ++ rest).length - 1, by rw [List.length_append]; omega⟩
  have room : rest.length ≤ own := by
    rw [List.length_append] at own_eq
    omega
  rw [findAndDeleteLoop2, findAndDeleteLoop2, own_eq, dropPattern_append,
    dropPattern_fuel nonempty room]
  dsimp only
  cases getOp2 (dropPattern pattern rest.length rest).1 with
  | none => rfl
  | some instruction => simp only [Nat.add_right_comm]

/-- Keeping an instruction that is not the pattern. -/
private theorem findAndDeleteLoop2_other (single : IsInstruction pattern) {piece rest : CScript}
    {opcode : Nat} {vch : Valtype} (first : getOp2 (piece ++ rest) = some (opcode, vch, rest))
    (other : piece ≠ pattern) (fuel : Nat) :
    findAndDeleteLoop2 pattern (fuel + 1) (piece ++ rest) =
      (piece ++ (findAndDeleteLoop2 pattern fuel rest).1,
        (findAndDeleteLoop2 pattern fuel rest).2) := by
  have absent : ¬pattern <+: piece ++ rest := by
    rintro ⟨left, parts⟩
    exact other (single.eq_of_append first parts).symm
  rw [findAndDeleteLoop2, dropPattern_of_absent absent]
  simp only [first, List.length_append, Nat.add_sub_cancel, List.take_left, Nat.zero_add]

/-- The loop filters the instructions and goes on with the tail. -/
private theorem findAndDeleteLoop2_eq (single : IsInstruction pattern)
    (split : Splits script pieces tail) {fuel : Nat} (enough : script.length < fuel) :
    ∃ fuel', tail.length < fuel' ∧
      findAndDeleteLoop2 pattern fuel script =
        ((pieces.filter (· ≠ pattern)).flatten ++ (findAndDeleteLoop2 pattern fuel' tail).1,
          pieces.count pattern + (findAndDeleteLoop2 pattern fuel' tail).2) := by
  induction split generalizing fuel with
  | tail ends => exact ⟨fuel, enough, by simp⟩
  | @cons piece rest tail pieces opcode vch first later induction =>
      have shorter := getOp_length (getOp_of_getOp2 first)
      obtain ⟨less, rfl⟩ : ∃ less, fuel = less + 1 := ⟨fuel - 1, by omega⟩
      by_cases same : piece = pattern
      · subst same
        obtain ⟨fuel', room, loop⟩ := @induction (less + 1) (by omega)
        refine ⟨fuel', room, ?_⟩
        rw [findAndDeleteLoop2_same single.ne_nil, loop]
        simp only [List.count_cons_self, Nat.add_right_comm]
        simp
      · obtain ⟨fuel', room, loop⟩ := @induction less (by omega)
        refine ⟨fuel', room, ?_⟩
        rw [findAndDeleteLoop2_other single first same, loop]
        simp [same]

/-- The tail stays unless it starts with the pattern. -/
private theorem findAndDeleteLoop2_tail (nonempty : pattern ≠ []) (ends : getOp2 tail = none)
    {fuel : Nat} (enough : tail.length < fuel) :
    if pattern <+: tail then 0 < (findAndDeleteLoop2 pattern fuel tail).2
    else findAndDeleteLoop2 pattern fuel tail = (tail, 0) := by
  obtain ⟨less, rfl⟩ : ∃ less, fuel = less + 1 := ⟨fuel - 1, by omega⟩
  split_ifs with found
  · obtain ⟨rest, rfl⟩ := found
    rw [findAndDeleteLoop2_same nonempty]
    exact Nat.succ_pos _
  · rw [findAndDeleteLoop2, dropPattern_of_absent found]
    simp only [ends]

private theorem dropPattern_suffix (fuel : Nat) (pc : CScript) :
    (dropPattern pattern fuel pc).1 <:+ pc := by
  induction fuel generalizing pc with
  | zero => exact List.suffix_rfl
  | succ fuel induction =>
      by_cases found : pattern <+: pc
      · obtain ⟨rest, rfl⟩ := found
        rw [dropPattern_append]
        exact (induction rest).trans (List.suffix_append _ _)
      · rw [dropPattern_of_absent found]

/-- The loop ends after at most one round for every byte. -/
private theorem findAndDeleteLoop2_fuel {fuel fuel' : Nat} {pc : CScript}
    (enough : pc.length < fuel) (enough' : pc.length < fuel') :
    findAndDeleteLoop2 pattern fuel pc = findAndDeleteLoop2 pattern fuel' pc := by
  induction fuel generalizing pc fuel' with
  | zero => omega
  | succ fuel induction =>
      obtain ⟨less, rfl⟩ : ∃ less, fuel' = less + 1 := ⟨fuel' - 1, by omega⟩
      have dropped := (@dropPattern_suffix pattern pc.length pc).length_le
      rw [findAndDeleteLoop2, findAndDeleteLoop2]
      cases parsed : getOp2 (dropPattern pattern pc.length pc).1 with
      | none => simp only [parsed]
      | some instruction =>
          obtain ⟨opcode, vch, rest⟩ := instruction
          have shorter := getOp_length (getOp_of_getOp2 parsed)
          simp only [parsed, @induction less rest (by omega) (by omega)]

end Delete

/-! ## Finding -/

/-- An instruction with an opcode that is not a push is that opcode. -/
theorem eq_of_operator {pc rest : CScript} {opcode : Nat} {vch : Valtype}
    (parsed : getOp2 pc = some (opcode, vch, rest)) (operator : OP_PUSHDATA4 < opcode) :
    pc = UInt8.ofNat opcode :: rest := by
  cases pc with
  | nil => simp [getOp2] at parsed
  | cons byte pc =>
      simp only [getOp2] at parsed
      by_cases push : byte.toNat ≤ OP_PUSHDATA4
      · rw [if_pos push] at parsed
        split at parsed
        · contradiction
        · simp only [Option.ite_none_left_eq_some, Option.some.injEq, Prod.mk.injEq] at parsed
          omega
      · rw [if_neg push, Option.some.injEq, Prod.mk.injEq, Prod.mk.injEq] at parsed
        obtain ⟨rfl, -, rfl⟩ := parsed
        rw [UInt8.ofNat_toNat]

/-- An opcode that no instruction is, is not found, wherever reading stops. -/
private theorem findLoop_eq_zero {op : Nat} (operator : OP_PUSHDATA4 < op) {pieces : List CScript}
    {tail : CScript} (ends : getOp2 tail = none)
    (single : ∀ piece ∈ pieces, ∃ opcode vch, ∀ rest,
      getOp (piece ++ rest) = some (opcode, vch, rest))
    (absent : ∀ piece ∈ pieces, piece ≠ [UInt8.ofNat op]) (fuel : Nat) :
    findLoop op fuel (pieces.flatten ++ tail) = 0 := by
  induction fuel generalizing pieces with
  | zero => rfl
  | succ fuel induction =>
      rw [findLoop]
      split_ifs with ended
      · rfl
      · cases pieces with
        | nil => simp [ends]
        | cons piece pieces =>
            obtain ⟨⟨opcode, vch, anywhere⟩, later_single⟩ := List.forall_mem_cons.mp single
            obtain ⟨other, later_absent⟩ := List.forall_mem_cons.mp absent
            rw [List.flatten_cons, List.append_assoc]
            cases parsed : getOp2 (piece ++ (pieces.flatten ++ tail)) with
            | none => rfl
            | some instruction =>
                have read := getOp_of_getOp2 parsed
                rw [anywhere, Option.some.injEq] at read
                subst read
                have different : opcode ≠ op := by
                  rintro rfl
                  have own := eq_of_operator parsed operator
                  rw [← List.singleton_append] at own
                  exact other (List.append_cancel_right own)
                simp only [different, if_false, Nat.zero_add]
                exact induction later_single later_absent

/-! ## The whole script -/

/-- What `FindAndDelete` of an instruction is meant to do: delete the instructions of the script
that are the pattern, keep what cannot be read, and leave no instruction with the opcode of a
pattern that is not a push. -/
structure DeletesInstruction (pattern script : CScript) : Prop where
  filters : findAndDelete2 script pattern =
    (((instructions script).filter (· ≠ pattern)).flatten ++ unparsedTail script,
      (instructions script).count pattern)
  absent : ∀ op, OP_PUSHDATA4 < op → pattern = [UInt8.ofNat op] →
    find (findAndDelete2 script pattern).1 op = 0

section Whole

variable {pattern script tail : CScript} {pieces : List CScript}

private theorem Splits.single (split : Splits script pieces tail) :
    ∀ piece ∈ pieces, ∃ opcode vch, ∀ rest,
      getOp (piece ++ rest) = some (opcode, vch, rest) := by
  induction split with
  | tail ends => simp
  | cons first later induction =>
      refine List.forall_mem_cons.mpr ⟨?_, induction⟩
      obtain ⟨own, parts, anywhere⟩ := exists_piece (getOp_of_getOp2 first)
      rw [List.append_cancel_right parts]
      exact ⟨_, _, anywhere⟩

private theorem deletesInstruction_iff (single : IsInstruction pattern) (script : CScript) :
    DeletesInstruction pattern script ↔ ¬pattern <+: unparsedTail script := by
  have split := splits script
  obtain ⟨fuel, room, loop⟩ := findAndDeleteLoop2_eq single split (Nat.lt_succ_self _)
  have whole : findAndDelete2 script pattern = _ := (if_neg single.ne_nil).trans loop
  have behind := findAndDeleteLoop2_tail single.ne_nil split.ends room
  constructor
  · intro deletes found
    rw [if_pos found] at behind
    have count := congrArg Prod.snd (whole.symm.trans deletes.filters)
    dsimp only at count
    omega
  · intro absent
    rw [if_neg absent] at behind
    rw [behind] at whole
    refine ⟨whole, ?_⟩
    rintro op operator rfl
    rw [whole, find]
    refine findLoop_eq_zero operator split.ends (fun piece kept => ?_) (fun piece kept => ?_) _
    · exact split.single piece (List.mem_filter.mp kept).1
    · simpa using (List.mem_filter.mp kept).2

/-- The unread bytes of a script of at most 4 GiB do not start with an instruction. -/
private theorem not_prefix_unparsedTail (single : IsInstruction pattern)
    (small : script.length ≤ 2 ^ 32) : ¬pattern <+: unparsedTail script := by
  rintro ⟨rest, parts⟩
  have split := splits script
  obtain ⟨_, _, own⟩ := single
  obtain ⟨own_piece, own_eq, anywhere⟩ := exists_piece (getOp_of_getOp2 own)
  rw [List.append_nil] at own_eq
  have lengths := congrArg List.length split.parts
  rw [List.length_append] at lengths
  have ends := split.ends
  rw [getOp2_eq (by omega), ← parts, own_eq, anywhere rest] at ends
  contradiction

private theorem findAndDeleteLoop2_small (fuel : Nat) {pc : CScript} (small : pc.length ≤ 2 ^ 32) :
    findAndDeleteLoop2 pattern fuel pc = findAndDeleteLoop pattern fuel pc := by
  induction fuel generalizing pc with
  | zero => rfl
  | succ fuel induction =>
      have dropped := (@dropPattern_suffix pattern pc.length pc).length_le
      rw [findAndDeleteLoop2, findAndDeleteLoop]
      simp only [getOp2_eq (dropped.trans small)]
      cases parsed : getOp (dropPattern pattern pc.length pc).1 with
      | none => rfl
      | some instruction =>
          obtain ⟨opcode, vch, rest⟩ := instruction
          have shorter := getOp_length parsed
          simp only [@induction rest (by omega)]

/-- Without the cast, `findAndDelete` is the same filter on scripts of at most 4 GiB. -/
theorem findAndDelete_eq_filter (single : IsInstruction pattern) (small : script.length ≤ 2 ^ 32) :
    findAndDelete script pattern =
      (((instructions script).filter (· ≠ pattern)).flatten ++ unparsedTail script,
        (instructions script).count pattern) := by
  have same : findAndDelete script pattern = findAndDelete2 script pattern := by
    rw [findAndDelete, findAndDelete2, findAndDeleteLoop2_small _ small]
  rw [same]
  exact ((deletesInstruction_iff single script).mpr (not_prefix_unparsedTail single small)).filters

end Whole

/-! ## A script of more than 4 GiB -/

/-- A push of one byte, followed by so many bytes that their number is 0 as a 32-bit word. -/
def hugeScript : CScript := 0x01 :: 0x00 :: List.replicate (2 ^ 32 - 1) 0x61

private theorem unparsedTail_of_none {pc : CScript} (ends : getOp2 pc = none) :
    unparsedTail pc = pc := by
  rw [unparsedTail]
  cases pc.length with
  | zero => rfl
  | succ fuel => simp only [splitScript, ends]

private theorem getOp2_cut {pc : CScript} (left : pc.length % 2 ^ 32 = 0) :
    getOp2 (0x01 :: pc) = none := by
  have push : (0x01 : UInt8).toNat = 1 := rfl
  have size : operandSize 1 pc = some (1, pc) := rfl
  simp only [getOp2, push, size]
  rw [if_pos (by decide), if_pos (by rw [left]; decide)]

end FooCoin

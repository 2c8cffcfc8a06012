import FooCoin.Library.Meets
import FooCoin.Script.Interpreter

/-!
# Bounds of the script machine

At every instruction boundary of `EvalScript` the two stacks hold at most 1000 elements of at most
520 bytes and at most 201 operations have been counted.  No operator leaves the stack: each guard
covers the accesses behind it, so an evaluation never fails with `EvalFailure.outOfRange`.
-/

namespace FooCoin

open LittleEndian Op Counted Outcomes

/-! ## Numbers -/

private theorem natAbs_setvch_lt (vch : Valtype) : (setvch vch).natAbs < 256 ^ vch.length := by
  have value_lt := ofLE_lt vch
  simp only [setvch]
  split
  · omega
  · omega

private theorem length_magnitudeBytes_le {width fuel value : Nat} (fits : value < 256 ^ width) :
    (magnitudeBytes fuel value).length ≤ width := by
  induction fuel generalizing width value with
  | zero => simp [magnitudeBytes]
  | succ fuel induction =>
      simp only [magnitudeBytes]
      split
      · simp
      · rename_i nonzero
        cases width with
        | zero => simp at fits; omega
        | succ width =>
            have shifted : value / 256 < 256 ^ width :=
              Nat.div_lt_of_lt_mul (by rwa [mul_comm, ← pow_succ])
            simpa using induction shifted

/-- A number below `256 ^ width` takes at most one byte more for its sign. -/
theorem length_getvch_le {width : Nat} {bn : Int} (fits : bn.natAbs < 256 ^ width) :
    (getvch bn).length ≤ width + 1 := by
  have bytes_le := @length_magnitudeBytes_le width bn.natAbs _ fits
  simp only [getvch]
  split
  · simp
  · rename_i top last
    split
    · simpa using bytes_le
    · simp only [List.length_append, List.length_dropLast, List.length_singleton]
      omega

/-- A number of the script machine, and the results of one operator on such numbers. -/
private theorem natAbs_castToBigNum_lt {vch : Valtype} {bn : Int}
    (cast : castToBigNum vch = some bn) : bn.natAbs < 256 ^ 5 := by
  by_cases long : nMaxNumSize < vch.length
  · simp [castToBigNum, long] at cast
  · simp only [castToBigNum, long, if_false, Option.some.injEq] at cast
    have fits : (setvch vch).natAbs < 256 ^ 4 :=
      (natAbs_setvch_lt vch).trans_le (Nat.pow_le_pow_right (by norm_num) (Nat.not_lt.mp long))
    rw [← cast]
    exact (natAbs_setvch_lt _).trans_le
      (Nat.pow_le_pow_right (by norm_num) (length_getvch_le fits))

private theorem natAbs_bnBool_le (fValue : Bool) : (bnBool fValue).natAbs ≤ 1 := by
  cases fValue <;> decide

private theorem natAbs_ite_le {condition : Prop} [Decidable condition] {first second : Int}
    {bound : Nat} (first_le : first.natAbs ≤ bound) (second_le : second.natAbs ≤ bound) :
    (if condition then first else second).natAbs ≤ bound := by
  split
  · exact first_le
  · exact second_le

private theorem natAbs_unaryNumber_le (opcode : Nat) (bn : Int) :
    (unaryNumber opcode bn).natAbs ≤ bn.natAbs + 1 := by
  have truth fValue : (bnBool fValue).natAbs ≤ bn.natAbs + 1 :=
    (natAbs_bnBool_le fValue).trans (Nat.le_add_left _ _)
  simp only [unaryNumber]
  repeat' apply natAbs_ite_le
  all_goals first | exact truth _ | omega

private theorem natAbs_binaryNumber_le (opcode : Nat) (bn1 bn2 : Int) :
    (binaryNumber opcode bn1 bn2).natAbs ≤ bn1.natAbs + bn2.natAbs + 1 := by
  have truth fValue : (bnBool fValue).natAbs ≤ bn1.natAbs + bn2.natAbs + 1 :=
    (natAbs_bnBool_le fValue).trans (Nat.le_add_left _ _)
  simp only [binaryNumber]
  repeat' apply natAbs_ite_le
  all_goals first | exact truth _ | omega

/-! ## Elements -/

/-- A stack element of at most 520 bytes. -/
def ShortElement (vch : Valtype) : Prop := vch.length ≤ 520

/-- A stack of such elements. -/
def ShortElements (stack : Stack) : Prop := ∀ vch ∈ stack, ShortElement vch

/-- The operator stays within the stacks. -/
abbrev Inside {α : Type} (post : α → Prop) : EvalResult α → Prop :=
  Meets (· ≠ EvalFailure.outOfRange) post

private theorem shortElement_getvch {bn : Int} (fits : bn.natAbs < 256 ^ 6) :
    ShortElement (getvch bn) :=
  (length_getvch_le fits).trans (by norm_num)

private theorem shortElement_vchBool (fValue : Bool) : ShortElement (vchBool fValue) := by
  cases fValue <;> simp [ShortElement, vchBool, vchTrue, vchFalse]

private theorem shortElements_cons {vch : Valtype} {stack : Stack} (vch_short : ShortElement vch)
    (short : ShortElements stack) : ShortElements (vch :: stack) := by
  simpa [ShortElements] using ⟨vch_short, short⟩

private theorem shortElements_append {first second : Stack} (first_short : ShortElements first)
    (second_short : ShortElements second) : ShortElements (first ++ second) := by
  intro vch mem
  rcases List.mem_append.mp mem with mem | mem
  · exact first_short vch mem
  · exact second_short vch mem

private theorem shortElements_set {stack : Stack} {index : Nat} {vch : Valtype}
    (vch_short : ShortElement vch) (short : ShortElements stack) :
    ShortElements (stack.set index vch) := by
  intro other mem
  rcases List.mem_or_eq_of_mem_set mem with mem | rfl
  · exact short other mem
  · exact vch_short

/-! ## Accesses -/

private theorem demand_inside {condition : Prop} [Decidable condition] :
    Inside (fun _ => condition) (demand condition) := by
  simp only [demand]
  apply Meets.ite
  · exact fun holds => Meets.pure holds
  · exact fun _ => Meets.throw (by decide)

private theorem refuse_inside {α : Type} {post : α → Prop} :
    Inside post (.error .returnedFalse : EvalResult α) :=
  Meets.throw (by decide)

section Accesses

variable {stack : Stack} (short : ShortElements stack)
include short

private theorem stacktop_inside {i : Nat} (positive : 1 ≤ i) (enough : i ≤ stack.length) :
    Inside ShortElement (stacktop stack i) := by
  cases i with
  | zero => omega
  | succ i =>
      simp only [stacktop, List.getElem?_eq_getElem enough]
      exact short _ (List.getElem_mem enough)

private theorem popstack_inside (enough : 1 ≤ stack.length) :
    Inside (fun popped => popped.length + 1 = stack.length ∧ ShortElements popped)
      (popstack stack) := by
  cases stack with
  | nil => simp at enough
  | cons vch stack => exact ⟨rfl, fun other mem => short other (List.mem_cons_of_mem _ mem)⟩

private theorem eraseRange_inside {first last : Nat} (ordered : last ≤ first)
    (enough : first ≤ stack.length) : Inside ShortElements (eraseRange stack first last) := by
  simp only [eraseRange]
  apply Meets.ite
  · intro _
    apply Meets.pure
    apply shortElements_append
    · exact fun vch mem => short vch (List.mem_of_mem_take mem)
    · exact fun vch mem => short vch (List.mem_of_mem_drop mem)
  · exact fun outside => absurd ⟨ordered, enough⟩ outside

private theorem eraseAt_inside {i : Nat} (positive : 1 ≤ i) (enough : i ≤ stack.length) :
    Inside ShortElements (eraseAt stack i) := by
  simp only [eraseAt, positive, if_true]
  exact eraseRange_inside short (Nat.sub_le i 1) enough

private theorem insertBefore_inside {i : Nat} {vch : Valtype} (vch_short : ShortElement vch)
    (enough : i ≤ stack.length) : Inside ShortElements (insertBefore stack i vch) := by
  simp only [insertBefore, enough, if_true]
  apply Meets.pure
  apply shortElements_append
  · exact fun other mem => short other (List.mem_of_mem_take mem)
  · exact shortElements_cons vch_short fun other mem => short other (List.mem_of_mem_drop mem)

private theorem swapTops_inside {i j : Nat} (i_positive : 1 ≤ i) (j_positive : 1 ≤ j)
    (i_enough : i ≤ stack.length) (j_enough : j ≤ stack.length) :
    Inside (fun swapped => swapped.length = stack.length ∧ ShortElements swapped)
      (swapTops stack i j) := by
  apply (stacktop_inside short i_positive i_enough).bind
  intro left _ left_short
  apply (stacktop_inside short j_positive j_enough).bind
  intro right _ right_short
  apply Meets.pure
  constructor
  · simp
  · exact shortElements_set left_short (shortElements_set right_short short)

private theorem bigNumTop_inside {i : Nat} (positive : 1 ≤ i) (enough : i ≤ stack.length) :
    Inside (fun bn => bn.natAbs < 256 ^ 5) (bigNumTop stack i) := by
  apply (stacktop_inside short positive enough).bind
  intro vch _ _
  cases cast : castToBigNum vch with
  | none => exact Meets.throw (by decide)
  | some bn => exact Meets.pure (natAbs_castToBigNum_lt cast)

private theorem popstacks_inside {count : Nat} (enough : count ≤ stack.length) :
    Inside ShortElements (popstacks count stack) := by
  induction count generalizing stack with
  | zero => exact Meets.pure short
  | succ count induction =>
      apply (popstack_inside short (by omega)).bind
      intro popped _ ⟨shorter, popped_short⟩
      exact induction popped_short (by omega)

end Accesses

/-! ## Operators -/

/-- Both stacks hold short elements only. -/
def ShortStacks (both : Stack × Stack) : Prop :=
  ShortElements both.1 ∧ ShortElements both.2

section Operators

variable {stack altstack : Stack} (short : ShortElements stack)
  (alt_short : ShortElements altstack)
include short

include alt_short in
private theorem stackOp_inside (sized : stack.length ≤ 1000) (opcode : Nat) :
    Inside ShortStacks (stackOp opcode stack altstack) := by
  simp only [stackOp]
  -- OP_TOALTSTACK
  refine .ite (fun _ => demand_inside.bind fun _ _ enough => ?_) fun _ => ?_
  · apply (stacktop_inside short le_rfl enough).bind
    intro vch _ vch_short
    apply (popstack_inside short enough).bind
    rintro popped _ ⟨_, popped_short⟩
    exact .pure ⟨popped_short, shortElements_cons vch_short alt_short⟩
  -- OP_FROMALTSTACK
  refine .ite (fun _ => demand_inside.bind fun _ _ enough => ?_) fun _ => ?_
  · apply (stacktop_inside alt_short le_rfl enough).bind
    intro vch _ vch_short
    apply (popstack_inside alt_short enough).bind
    rintro popped _ ⟨_, popped_short⟩
    exact .pure ⟨shortElements_cons vch_short short, popped_short⟩
  -- OP_2DROP
  refine .ite (fun _ => demand_inside.bind fun _ _ enough => ?_) fun _ => ?_
  · apply (popstack_inside short (by omega)).bind
    rintro once _ ⟨once_length, once_short⟩
    apply (popstack_inside once_short (by omega)).bind
    rintro twice _ ⟨_, twice_short⟩
    exact .pure ⟨twice_short, alt_short⟩
  -- OP_2DUP
  refine .ite (fun _ => demand_inside.bind fun _ _ enough => ?_) fun _ => ?_
  · apply (stacktop_inside short (by omega) enough).bind
    intro vch1 _ vch1_short
    apply (stacktop_inside short le_rfl (by omega)).bind
    intro vch2 _ vch2_short
    exact .pure
      ⟨shortElements_cons vch2_short (shortElements_cons vch1_short short), alt_short⟩
  -- OP_3DUP
  refine .ite (fun _ => demand_inside.bind fun _ _ enough => ?_) fun _ => ?_
  · apply (stacktop_inside short (by omega) enough).bind
    intro vch1 _ vch1_short
    apply (stacktop_inside short (by omega) (by omega)).bind
    intro vch2 _ vch2_short
    apply (stacktop_inside short le_rfl (by omega)).bind
    intro vch3 _ vch3_short
    exact .pure
      ⟨shortElements_cons vch3_short
        (shortElements_cons vch2_short (shortElements_cons vch1_short short)), alt_short⟩
  -- OP_2OVER
  refine .ite (fun _ => demand_inside.bind fun _ _ enough => ?_) fun _ => ?_
  · apply (stacktop_inside short (by omega) enough).bind
    intro vch1 _ vch1_short
    apply (stacktop_inside short (by omega) (by omega)).bind
    intro vch2 _ vch2_short
    exact .pure
      ⟨shortElements_cons vch2_short (shortElements_cons vch1_short short), alt_short⟩
  -- OP_2ROT
  refine .ite (fun _ => demand_inside.bind fun _ _ enough => ?_) fun _ => ?_
  · apply (stacktop_inside short (by omega) enough).bind
    intro vch1 _ vch1_short
    apply (stacktop_inside short (by omega) (by omega)).bind
    intro vch2 _ vch2_short
    apply (eraseRange_inside short (by omega) enough).bind
    intro erased _ erased_short
    exact .pure
      ⟨shortElements_cons vch2_short (shortElements_cons vch1_short erased_short), alt_short⟩
  -- OP_2SWAP
  refine .ite (fun _ => demand_inside.bind fun _ _ enough => ?_) fun _ => ?_
  · apply (swapTops_inside short (by omega) (by omega) enough (by omega)).bind
    rintro once _ ⟨same_length, once_short⟩
    apply (swapTops_inside once_short (by omega) (by omega) (by omega) (by omega)).bind
    rintro twice _ ⟨_, twice_short⟩
    exact .pure ⟨twice_short, alt_short⟩
  -- OP_IFDUP
  refine .ite (fun _ => demand_inside.bind fun _ _ enough => ?_) fun _ => ?_
  · apply (stacktop_inside short le_rfl enough).bind
    intro vch _ vch_short
    refine .pure ⟨?_, alt_short⟩
    split
    · exact shortElements_cons vch_short short
    · exact short
  -- OP_DEPTH
  refine .ite (fun _ => ?_) fun _ => ?_
  · have fits : (stack.length : Int).natAbs < 256 ^ 6 := by
      rw [Int.natAbs_natCast]
      omega
    exact .pure ⟨shortElements_cons (shortElement_getvch fits) short, alt_short⟩
  -- OP_DROP
  refine .ite (fun _ => demand_inside.bind fun _ _ enough => ?_) fun _ => ?_
  · apply (popstack_inside short enough).bind
    rintro popped _ ⟨_, popped_short⟩
    exact .pure ⟨popped_short, alt_short⟩
  -- OP_DUP
  refine .ite (fun _ => demand_inside.bind fun _ _ enough => ?_) fun _ => ?_
  · apply (stacktop_inside short le_rfl enough).bind
    intro vch _ vch_short
    exact .pure ⟨shortElements_cons vch_short short, alt_short⟩
  -- OP_NIP
  refine .ite (fun _ => demand_inside.bind fun _ _ enough => ?_) fun _ => ?_
  · apply (eraseAt_inside short (by omega) enough).bind
    intro erased _ erased_short
    exact .pure ⟨erased_short, alt_short⟩
  -- OP_OVER
  refine .ite (fun _ => demand_inside.bind fun _ _ enough => ?_) fun _ => ?_
  · apply (stacktop_inside short (by omega) enough).bind
    intro vch _ vch_short
    exact .pure ⟨shortElements_cons vch_short short, alt_short⟩
  -- OP_PICK and OP_ROLL
  refine .ite (fun _ => demand_inside.bind fun _ _ enough => ?_) fun _ => ?_
  · apply (bigNumTop_inside short le_rfl (by omega)).bind
    intro bn _ _
    apply (popstack_inside short (by omega)).bind
    rintro popped _ ⟨_, popped_short⟩
    apply demand_inside.bind
    rintro _ _ ⟨nonneg, within⟩
    apply (stacktop_inside popped_short (by omega) (by omega)).bind
    intro vch _ vch_short
    split
    · apply (eraseAt_inside popped_short (by omega) (by omega)).bind
      intro erased _ erased_short
      exact .pure ⟨shortElements_cons vch_short erased_short, alt_short⟩
    · exact .pure ⟨shortElements_cons vch_short popped_short, alt_short⟩
  -- OP_ROT
  refine .ite (fun _ => demand_inside.bind fun _ _ enough => ?_) fun _ => ?_
  · apply (swapTops_inside short (by omega) (by omega) enough (by omega)).bind
    rintro once _ ⟨same_length, once_short⟩
    apply (swapTops_inside once_short (by omega) (by omega) (by omega) (by omega)).bind
    rintro twice _ ⟨_, twice_short⟩
    exact .pure ⟨twice_short, alt_short⟩
  -- OP_SWAP
  refine .ite (fun _ => demand_inside.bind fun _ _ enough => ?_) fun _ => ?_
  · apply (swapTops_inside short (by omega) (by omega) enough (by omega)).bind
    rintro swapped _ ⟨_, swapped_short⟩
    exact .pure ⟨swapped_short, alt_short⟩
  -- OP_TUCK
  refine .ite (fun _ => demand_inside.bind fun _ _ enough => ?_) fun _ => refuse_inside
  apply (stacktop_inside short le_rfl (by omega)).bind
  intro vch _ vch_short
  apply (insertBefore_inside short vch_short enough).bind
  intro inserted _ inserted_short
  exact .pure ⟨inserted_short, alt_short⟩

/-- Pushing a flag and popping it again where the operator verifies it. -/
private theorem verify_inside {verifies : Prop} [Decidable verifies] {vch : Valtype} {fValue : Bool}
    (vch_short : ShortElement vch) :
    Inside ShortElements
      (if verifies then if fValue then popstack (vch :: stack) else .error .returnedFalse
        else pure (vch :: stack)) := by
  have pushed_short := shortElements_cons vch_short short
  refine .ite (fun _ => .ite (fun _ => ?_) fun _ => refuse_inside) fun _ => .pure pushed_short
  exact (popstack_inside pushed_short (by simp)).mono fun _ popped => popped.2

private theorem compareOp_inside (opcode : Nat) :
    Inside ShortElements (compareOp opcode stack) := by
  simp only [compareOp]
  refine .ite (fun _ => demand_inside.bind fun _ _ enough => ?_)
    fun _ => demand_inside.bind fun _ _ enough => ?_
  · apply (stacktop_inside short le_rfl enough).bind
    intro vch _ vch_short
    have fits : (vch.length : Int).natAbs < 256 ^ 6 := by
      rw [Int.natAbs_natCast]
      exact vch_short.trans_lt (by norm_num)
    exact .pure (shortElements_cons (shortElement_getvch fits) short)
  · apply (stacktop_inside short (by omega) enough).bind
    intro vch1 _ _
    apply (stacktop_inside short le_rfl (by omega)).bind
    intro vch2 _ _
    apply (popstack_inside short (by omega)).bind
    rintro once _ ⟨once_length, once_short⟩
    apply (popstack_inside once_short (by omega)).bind
    rintro twice _ ⟨_, twice_short⟩
    exact verify_inside twice_short (shortElement_vchBool _)

private theorem numericOp_inside {opcode : Nat} :
    Inside ShortElements (numericOp opcode stack) := by
  simp only [numericOp]
  refine .ite (fun _ => demand_inside.bind fun _ _ enough => ?_) fun _ =>
    .ite (fun _ => demand_inside.bind fun _ _ enough => ?_)
      fun _ => demand_inside.bind fun _ _ enough => ?_
  · apply (bigNumTop_inside short le_rfl enough).bind
    intro bn _ bn_lt
    apply (popstack_inside short enough).bind
    rintro popped _ ⟨_, popped_short⟩
    have fits := natAbs_unaryNumber_le opcode bn
    exact .pure (shortElements_cons (shortElement_getvch (by omega)) popped_short)
  · apply (bigNumTop_inside short (by omega) enough).bind
    intro bn1 _ bn1_lt
    apply (bigNumTop_inside short le_rfl (by omega)).bind
    intro bn2 _ bn2_lt
    apply (popstack_inside short (by omega)).bind
    rintro once _ ⟨once_length, once_short⟩
    apply (popstack_inside once_short (by omega)).bind
    rintro twice _ ⟨_, twice_short⟩
    have fits := natAbs_binaryNumber_le opcode bn1 bn2
    exact verify_inside twice_short (shortElement_getvch (by omega))
  · apply (bigNumTop_inside short (by omega) enough).bind
    intro bn1 _ _
    apply (bigNumTop_inside short (by omega) (by omega)).bind
    intro bn2 _ _
    apply (bigNumTop_inside short le_rfl (by omega)).bind
    intro bn3 _ _
    apply (popstack_inside short (by omega)).bind
    rintro once _ ⟨once_length, once_short⟩
    apply (popstack_inside once_short (by omega)).bind
    rintro twice _ ⟨twice_length, twice_short⟩
    apply (popstack_inside twice_short (by omega)).bind
    rintro thrice _ ⟨_, thrice_short⟩
    exact .pure (shortElements_cons (shortElement_vchBool _) thrice_short)

private theorem hashOp_inside (crypto : Crypto) (opcode : Nat) :
    Inside ShortElements (hashOp crypto opcode stack) := by
  simp only [hashOp]
  apply demand_inside.bind
  intro _ _ enough
  apply (stacktop_inside short le_rfl enough).bind
  intro vch _ _
  apply (popstack_inside short enough).bind
  rintro popped _ ⟨_, popped_short⟩
  refine .pure (shortElements_cons ?_ popped_short)
  split_ifs
  all_goals simp [ShortElement]

include alt_short in
private theorem plainOp_inside (sized : stack.length ≤ 1000) (crypto : Crypto) (opcode : Nat) :
    Inside ShortStacks (plainOp crypto opcode stack altstack) := by
  simp only [plainOp]
  refine .ite (fun number => ?_) fun _ => ?_
  · have fits : ((opcode : Int) - ((OP_1 : Int) - 1)).natAbs < 256 ^ 6 := by
      simp only [OP_1NEGATE, OP_1, OP_16] at number ⊢
      omega
    exact .pure ⟨shortElements_cons (shortElement_getvch fits) short, alt_short⟩
  refine .ite (fun _ => .pure ⟨short, alt_short⟩) fun _ => ?_
  refine .ite (fun _ => demand_inside.bind fun _ _ enough => ?_) fun _ => ?_
  · apply (stacktop_inside short le_rfl enough).bind
    intro vch _ _
    refine .ite (fun _ => ?_) fun _ => refuse_inside
    apply (popstack_inside short enough).bind
    rintro popped _ ⟨_, popped_short⟩
    exact .pure ⟨popped_short, alt_short⟩
  refine .ite (fun _ => stackOp_inside short alt_short sized opcode) fun _ => ?_
  refine .ite (fun _ => ?_) fun _ => ?_
  · exact (compareOp_inside short opcode).bind fun _ _ left_short => .pure ⟨left_short, alt_short⟩
  refine .ite (fun _ => ?_) fun _ => ?_
  · exact (numericOp_inside short).bind fun _ _ left_short => .pure ⟨left_short, alt_short⟩
  refine .ite (fun _ => ?_) fun _ => refuse_inside
  exact (hashOp_inside short crypto opcode).bind fun _ _ left_short =>
    .pure ⟨left_short, alt_short⟩

private theorem leaveResult_inside (verifies fSuccess : Bool) :
    Inside ShortElements (leaveResult verifies fSuccess stack) :=
  verify_inside short (shortElement_vchBool fSuccess)

private theorem dropSignatures_inside {isig count : Nat} {scriptCode : CScript}
    (positive : 1 ≤ isig) (enough : isig + count ≤ stack.length + 1) :
    Inside (fun _ => True) (dropSignatures stack isig count scriptCode) := by
  induction count generalizing isig scriptCode with
  | zero => exact .pure trivial
  | succ count induction =>
      apply (stacktop_inside short positive (by omega)).bind
      intro vchSig _ _
      exact induction (by omega) (by omega)

private theorem multisigLoop_inside {check : SignatureCheck} {scriptCode : CScript}
    {nKeysCount nSigsCount isig ikey : Nat} (isig_positive : 1 ≤ isig) (ikey_positive : 1 ≤ ikey)
    (sigs_enough : isig + nSigsCount ≤ stack.length + 1)
    (keys_enough : ikey + nKeysCount ≤ stack.length + 1) :
    Inside (fun _ => True)
      (multisigLoop check stack scriptCode nKeysCount nSigsCount isig ikey).outcome := by
  induction nKeysCount generalizing nSigsCount isig ikey with
  | zero => cases nSigsCount <;> exact .pure trivial
  | succ nKeysCount induction =>
      cases nSigsCount with
      | zero => exact .pure trivial
      | succ nSigsCount =>
          simp only [multisigLoop, outcome_bind, outcome_free]
          apply (stacktop_inside short isig_positive (by omega)).bind
          intro vchSig _ _
          apply (stacktop_inside short ikey_positive (by omega)).bind
          intro vchPubKey _ _
          have answered : Inside (fun _ => True) (.ok (check vchSig vchPubKey scriptCode)) :=
            .pure trivial
          apply answered.bind
          intro matched _ _
          cases matched
          all_goals
            simp only [Bool.false_eq_true, if_true, if_false]
            split
            · exact .pure trivial
            · exact induction (by omega) (by omega) (by omega) (by omega)

end Operators

/-! ## Instructions -/

/-- What holds at every instruction boundary. -/
structure EvalState.Bounded (state : EvalState) : Prop where
  /-- The stacks hold at most 1000 elements. -/
  size : state.stack.length + state.altstack.length ≤ 1000
  /-- The elements of the stack have at most 520 bytes. -/
  stack_short : ShortElements state.stack
  /-- The elements of the alternative stack have at most 520 bytes. -/
  altstack_short : ShortElements state.altstack
  /-- At most 201 operations have been counted. -/
  operations : state.nOpCount ≤ 201

/-- What one case of the switch keeps of the bounds. -/
structure EvalState.Stepped (before after : EvalState) : Prop where
  /-- The elements of the stack have at most 520 bytes. -/
  stack_short : ShortElements after.stack
  /-- The elements of the alternative stack have at most 520 bytes. -/
  altstack_short : ShortElements after.altstack
  /-- Operations are only added to the count. -/
  counted : before.nOpCount ≤ after.nOpCount
  /-- At most 201 operations have been counted. -/
  operations : after.nOpCount ≤ 201

section Instructions

variable {state : EvalState} (bounded : state.Bounded)
include bounded

private theorem stepped_stacks {stack altstack : Stack} {vfExec : List Bool} {codehash : CScript}
    (stack_short : ShortElements stack) (altstack_short : ShortElements altstack) :
    state.Stepped { state with stack, altstack, vfExec, codehash } :=
  ⟨stack_short, altstack_short, le_rfl, bounded.operations⟩

private theorem checkSigOp_inside (check : SignatureCheck) (opcode : Nat) :
    Inside state.Stepped (checkSigOp check opcode state).outcome := by
  simp only [checkSigOp, outcome_bind, outcome_free, outcome_pure]
  apply demand_inside.bind
  intro _ _ enough
  apply (stacktop_inside bounded.stack_short (by omega) enough).bind
  intro vchSig _ _
  apply (stacktop_inside bounded.stack_short le_rfl (by omega)).bind
  intro vchPubKey _ _
  apply (popstacks_inside bounded.stack_short enough).bind
  intro popped _ popped_short
  apply (leaveResult_inside popped_short _ _).bind
  intro left _ left_short
  exact .pure (stepped_stacks bounded left_short bounded.altstack_short)

private theorem checkMultisigOp_inside (check : SignatureCheck) (opcode : Nat) :
    Inside state.Stepped (checkMultisigOp check opcode state).outcome := by
  have short := bounded.stack_short
  simp only [checkMultisigOp, outcome_bind, outcome_free, outcome_pure]
  apply demand_inside.bind
  intro _ _ enough
  apply (bigNumTop_inside short le_rfl enough).bind
  intro keys _ _
  apply demand_inside.bind
  rintro _ _ ⟨keys_nonneg, keys_le⟩
  apply demand_inside.bind
  intro _ _ operations
  apply demand_inside.bind
  intro _ _ keys_enough
  apply (bigNumTop_inside short (by omega) keys_enough).bind
  intro sigs _ _
  apply demand_inside.bind
  rintro _ _ ⟨sigs_nonneg, sigs_le⟩
  apply demand_inside.bind
  intro _ _ sigs_enough
  apply (dropSignatures_inside short (by omega) (by omega)).bind
  intro scriptCode _ _
  apply (multisigLoop_inside short (by omega) (by omega) (by omega) (by omega)).bind
  intro fSuccess _ _
  apply (popstacks_inside short sigs_enough).bind
  intro popped _ popped_short
  apply (leaveResult_inside popped_short _ _).bind
  intro left _ left_short
  exact .pure ⟨left_short, bounded.altstack_short, Nat.le_add_right _ _, operations⟩

private theorem branchOp_inside (opcode : Nat) :
    Inside state.Stepped (branchOp opcode state) := by
  have kept vfExec : state.Stepped { state with vfExec } :=
    stepped_stacks bounded bounded.stack_short bounded.altstack_short
  simp only [branchOp]
  refine .ite (fun _ => .ite (fun _ => demand_inside.bind fun _ _ enough => ?_)
    fun _ => .pure (kept _)) fun _ => .ite (fun _ => ?_) fun _ => .ite (fun _ => ?_)
      fun _ => refuse_inside
  · apply (stacktop_inside bounded.stack_short le_rfl enough).bind
    intro vch _ _
    apply (popstack_inside bounded.stack_short enough).bind
    rintro popped _ ⟨_, popped_short⟩
    exact .pure (stepped_stacks bounded popped_short bounded.altstack_short)
  · cases state.vfExec with
    | nil => exact refuse_inside
    | cons fValue vfExec => exact .pure (kept _)
  · cases state.vfExec with
    | nil => exact refuse_inside
    | cons fValue vfExec => exact .pure (kept _)

private theorem evalOp_inside (crypto : Crypto) (check : SignatureCheck) (opcode : Nat)
    (rest : CScript) : Inside state.Stepped (evalOp crypto check opcode rest state).outcome := by
  have short := bounded.stack_short
  have alt_short := bounded.altstack_short
  have sized := bounded.size
  simp only [evalOp]
  split_ifs
  · exact branchOp_inside bounded opcode
  · exact .pure (stepped_stacks bounded short alt_short)
  · exact checkSigOp_inside bounded check opcode
  · exact checkMultisigOp_inside bounded check opcode
  · simp only [outcome_bind, outcome_free, outcome_pure]
    apply (plainOp_inside short alt_short (by omega) crypto opcode).bind
    rintro ⟨stack, altstack⟩ _ ⟨stack_short, altstack_short⟩
    exact .pure (stepped_stacks bounded stack_short altstack_short)

private theorem evalExecuted_inside (crypto : Crypto) (check : SignatureCheck) (opcode : Nat)
    {vchPushValue : Valtype} (push_short : ShortElement vchPushValue) (rest : CScript) :
    Inside state.Stepped
      (evalExecuted crypto check opcode vchPushValue rest state).outcome := by
  have short := bounded.stack_short
  have alt_short := bounded.altstack_short
  simp only [evalExecuted]
  split_ifs
  · exact .pure (stepped_stacks bounded (shortElements_cons push_short short) alt_short)
  · exact evalOp_inside bounded crypto check opcode rest
  · exact .pure (stepped_stacks bounded short alt_short)

/-- An instruction keeps the bounds, counts itself where it is above `OP_16`, and stays within the
stacks. -/
theorem evalInstruction_inside (crypto : Crypto) (check : SignatureCheck) (opcode : Nat)
    (vchPushValue : Valtype) (rest : CScript) :
    Inside
      (fun after => after.Bounded ∧
        state.nOpCount + (if OP_16 < opcode then 1 else 0) ≤ after.nOpCount)
      (evalInstruction crypto check opcode vchPushValue rest state).outcome := by
  simp only [evalInstruction, outcome_bind, outcome_free, outcome_pure]
  apply demand_inside.bind
  intro _ _ push_short
  apply demand_inside.bind
  intro _ _ operations
  apply demand_inside.bind
  intro _ _ _
  set nOpCount := if OP_16 < opcode then state.nOpCount + 1 else state.nOpCount with count
  have count_le : nOpCount ≤ 201 := by
    have before_le := bounded.operations
    by_cases above : OP_16 < opcode
    · exact operations above
    · rwa [count, if_neg above]
  have entered : EvalState.Bounded { state with nOpCount } :=
    ⟨bounded.size, bounded.stack_short, bounded.altstack_short, count_le⟩
  apply (evalExecuted_inside entered crypto check opcode push_short rest).bind
  intro after _ stepped
  apply demand_inside.bind
  intro _ _ size
  apply Meets.pure
  constructor
  · exact ⟨size, stepped.stack_short, stepped.altstack_short, stepped.operations⟩
  · calc
      state.nOpCount + (if OP_16 < opcode then 1 else 0) = nOpCount := by
        rw [count]
        split
        · rfl
        · rfl
      _ ≤ after.nOpCount := stepped.counted

end Instructions

/-! ## Runs -/

/-- The instruction boundaries that `EvalScript` reaches: the script left, the variables, and how
many instructions above `OP_16` have been executed. -/
inductive Boundary (crypto : Crypto) (check : SignatureCheck) (stack : Stack) (script : CScript) :
    CScript → EvalState → Nat → Prop
  /-- Before the first instruction. -/
  | start : Boundary crypto check stack script script (.initial stack script) 0
  /-- After one more instruction. -/
  | step {pc rest : CScript} {opcode : Nat} {vchPushValue : Valtype} {state after : EvalState}
      {executed : Nat} (reached : Boundary crypto check stack script pc state executed)
      (parsed : getOp pc = some (opcode, vchPushValue, rest))
      (evaluated : (evalInstruction crypto check opcode vchPushValue rest state).outcome =
        .ok after) :
      Boundary crypto check stack script rest after
        (executed + if OP_16 < opcode then 1 else 0)

section Runs

variable {crypto : Crypto} {check : SignatureCheck} {stack : Stack} {script : CScript}

private theorem bounded_initial (sized : stack.length ≤ 1000) (short : ShortElements stack) :
    (EvalState.initial stack script).Bounded :=
  ⟨by simpa [EvalState.initial] using sized, short, by simp [EvalState.initial, ShortElements],
    by simp [EvalState.initial]⟩

/-- Every boundary keeps the bounds, and every executed instruction above `OP_16` is counted. -/
theorem Boundary.bounded (sized : stack.length ≤ 1000) (short : ShortElements stack)
    {pc : CScript} {state : EvalState} {executed : Nat}
    (reached : Boundary crypto check stack script pc state executed) :
    state.Bounded ∧ executed ≤ state.nOpCount := by
  induction reached with
  | start => exact ⟨bounded_initial sized short, Nat.zero_le _⟩
  | step reached parsed evaluated induction =>
      obtain ⟨bounded, counted⟩ := induction
      have stepped :=
        (evalInstruction_inside bounded crypto check _ _ _).of_ok evaluated
      exact ⟨stepped.1, (Nat.add_le_add_right counted _).trans stepped.2⟩

/-- The loop of `EvalScript` goes from boundary to boundary. -/
private theorem evalLoop_boundary {fuel : Nat} {pc : CScript} {state : EvalState} {executed : Nat}
    (sized : stack.length ≤ 1000) (short : ShortElements stack) (fueled : pc.length ≤ fuel)
    (reached : Boundary crypto check stack script pc state executed) :
    Inside (fun after => ∃ total, Boundary crypto check stack script [] after total)
      (evalLoop crypto check fuel pc state).outcome := by
  induction fuel generalizing pc state executed with
  | zero =>
      cases pc with
      | nil => exact .pure ⟨executed, reached⟩
      | cons byte pc => simp at fueled
  | succ fuel induction =>
      cases pc with
      | nil => exact .pure ⟨executed, reached⟩
      | cons byte pc =>
          cases parsed : getOp (byte :: pc) with
          | none =>
              simp only [evalLoop, parsed, outcome_free]
              exact refuse_inside
          | some instruction =>
              obtain ⟨opcode, vchPushValue, rest⟩ := instruction
              have bounded := (reached.bounded sized short).1
              have shorter := getOp_length parsed
              simp only [evalLoop, parsed, outcome_bind]
              apply (evalInstruction_inside bounded crypto check opcode vchPushValue rest).bind
              intro after evaluated _
              exact induction (by omega) (reached.step parsed evaluated)

/-- An evaluation stays within the stacks and leaves a stack within the bounds. -/
theorem evalScript_inside (sized : stack.length ≤ 1000) (short : ShortElements stack) :
    Inside (fun after => after.length ≤ 1000 ∧ ShortElements after)
      (evalScript crypto check stack script).outcome := by
  simp only [evalScript, outcome_bind, outcome_free, outcome_pure]
  apply demand_inside.bind
  intro _ _ _
  apply (evalLoop_boundary sized short le_rfl .start).bind
  rintro after _ ⟨executed, reached⟩
  apply demand_inside.bind
  intro _ _ _
  have bounded := (reached.bounded sized short).1
  have size := bounded.size
  exact .pure ⟨by omega, bounded.stack_short⟩

end Runs

section PayToScriptHash

variable {crypto : Crypto} {check : SignatureCheck} {scriptSig scriptPubKey : CScript}
  {stackCopy stack : Stack}

private theorem shortElements_nil : ShortElements [] := by
  simp [ShortElements]

/-- A script that starts with `OP_HASH160` fails on the empty stack. -/
private theorem evalScript_hash160_nil (rest : CScript) :
    (evalScript crypto check [] (UInt8.ofNat OP_HASH160 :: rest)).outcome =
      .error .returnedFalse := by
  have parsed : getOp (UInt8.ofNat OP_HASH160 :: rest) = some (OP_HASH160, [], rest) := rfl
  have refused : (evalInstruction crypto check OP_HASH160 [] rest
      (.initial [] (UInt8.ofNat OP_HASH160 :: rest))).outcome = .error .returnedFalse := rfl
  simp only [evalScript, evalLoop, parsed, outcome_bind, refused, List.length_cons]
  by_cases short : rest.length + 1 ≤ 10000
  · simp only [demand, short, if_true]
    rfl
  · simp only [demand, short, if_false]
    rfl

/-- The copy of the stack that a pay-to-script-hash verification takes the script from. -/
private theorem stackCopy_ne_nil (payToScriptHash : isPayToScriptHash scriptPubKey)
    (evaluated : (evalScript crypto check stackCopy scriptPubKey).outcome = .ok stack) :
    stackCopy ≠ [] := by
  rintro rfl
  simp only [isPayToScriptHash, Bool.decide_and, Bool.and_eq_true, decide_eq_true_eq]
    at payToScriptHash
  cases scriptPubKey with
  | nil => simp at payToScriptHash
  | cons byte rest =>
      obtain rfl : byte = UInt8.ofNat OP_HASH160 := by simpa using payToScriptHash.2.1
      simp [evalScript_hash160_nil] at evaluated

private theorem verifyScript_inside (fValidatePayToScriptHash : Bool) :
    Inside (fun _ => True)
      (verifyScript crypto check scriptSig scriptPubKey fValidatePayToScriptHash).outcome := by
  simp only [verifyScript, outcome_bind, outcome_free]
  apply (evalScript_inside (Nat.zero_le _) shortElements_nil).bind
  rintro stackCopy _ ⟨copy_sized, copy_short⟩
  apply (evalScript_inside copy_sized copy_short).bind
  rintro stack evaluated ⟨_, stack_short⟩
  apply demand_inside.bind
  intro _ _ nonempty
  apply (stacktop_inside stack_short le_rfl (List.length_pos_of_ne_nil nonempty)).bind
  intro vch _ _
  apply demand_inside.bind
  intro _ _ _
  split
  · rename_i enters
    have copy_nonempty := List.length_pos_of_ne_nil (stackCopy_ne_nil enters.2 evaluated)
    simp only [outcome_bind, outcome_free]
    apply demand_inside.bind
    intro _ _ _
    apply (stacktop_inside copy_short le_rfl copy_nonempty).bind
    intro pubKey2 _ _
    apply (popstack_inside copy_short copy_nonempty).bind
    rintro popped _ ⟨shorter, popped_short⟩
    apply (evalScript_inside (by omega) popped_short).bind
    rintro last _ ⟨_, last_short⟩
    apply demand_inside.bind
    intro _ _ last_nonempty
    apply (stacktop_inside last_short le_rfl (List.length_pos_of_ne_nil last_nonempty)).bind
    intro top _ _
    exact demand_inside.mono fun _ _ => trivial
  · exact .pure trivial

end PayToScriptHash

/-- Every boundary that an evaluation reaches is within the limits and no operator leaves the stacks;
the stack that a pay-to-script-hash verification takes its script from is not empty. -/
theorem scriptMachine_bounded (crypto : Crypto) (check : SignatureCheck) :
    (∀ (stack : Stack) (script : CScript), stack.length ≤ 1000 → (∀ vch ∈ stack, vch.length ≤ 520) →
      (∀ pc state executed, Boundary crypto check stack script pc state executed →
        state.stack.length + state.altstack.length ≤ 1000 ∧
        (∀ vch ∈ state.stack ++ state.altstack, vch.length ≤ 520) ∧ executed ≤ 201 ∧
        ∀ opcode vchPushValue rest,
          (evalInstruction crypto check opcode vchPushValue rest state).outcome ≠
            .error .outOfRange) ∧
      (evalScript crypto check stack script).outcome ≠ .error .outOfRange) ∧
    ∀ (scriptSig scriptPubKey : CScript) (fValidatePayToScriptHash : Bool),
      (verifyScript crypto check scriptSig scriptPubKey fValidatePayToScriptHash).outcome ≠
        .error .outOfRange ∧
      ∀ stackCopy stack, (evalScript crypto check [] scriptSig).outcome = .ok stackCopy →
        (evalScript crypto check stackCopy scriptPubKey).outcome = .ok stack →
        isPayToScriptHash scriptPubKey → stackCopy ≠ [] := by
  constructor
  · intro stack script sized short
    constructor
    · intro pc state executed reached
      obtain ⟨bounded, counted⟩ := reached.bounded sized short
      refine ⟨bounded.size, ?_, counted.trans bounded.operations, ?_⟩
      · exact shortElements_append bounded.stack_short bounded.altstack_short
      · intro opcode vchPushValue rest
        exact (evalInstruction_inside bounded crypto check opcode vchPushValue rest).ne_error
          (by simp)
    · exact (evalScript_inside sized short).ne_error (by simp)
  · intro scriptSig scriptPubKey fValidatePayToScriptHash
    constructor
    · exact (verifyScript_inside fValidatePayToScriptHash).ne_error (by simp)
    · intro stackCopy stack _ evaluated payToScriptHash
      exact stackCopy_ne_nil payToScriptHash evaluated

end FooCoin

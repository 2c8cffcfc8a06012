import FooCoin.Library.OrderedMatching
import FooCoin.Script.Interpreter

/-!
# What `OP_CHECKMULTISIG` accepts

The loop tries the keys from the top of the stack and gives each signature the first key that it is
valid for.  So it succeeds exactly when signatures and keys can be matched in their order.
-/

namespace FooCoin

open Counted OrderedMatching

/-- The operands of `OP_CHECKMULTISIG` on a stack: an unused element, the signatures, their number,
the keys and their number, each pushed in this order. -/
def multisigOperands (unused : Valtype) (sigs : List Valtype) (nSigs : Valtype)
    (keys : List Valtype) (nKeys : Valtype) (stack : Stack) : Stack :=
  nKeys :: (keys.reverse ++ nSigs :: (sigs.reverse ++ unused :: stack))

/-- The script code without the signatures. -/
def withoutSignatures (sigs : List Valtype) (scriptCode : CScript) : CScript :=
  sigs.foldl (fun scriptCode vchSig => (findAndDelete scriptCode (pushData vchSig)).1) scriptCode

section Stack

variable {stack below : Stack} {vch : Valtype} {sigs keys : List Valtype}

private theorem stacktop_of_drop {i : Nat} (dropped : stack.drop i = vch :: below) :
    stacktop stack (i + 1) = .ok vch := by
  have at_i : stack[i]? = some vch := by
    rw [← List.head?_drop, dropped, List.head?_cons]
  rw [stacktop, at_i]

private theorem bigNumTop_of_drop {i : Nat} {bn : Int} (dropped : stack.drop i = vch :: below)
    (value : castToBigNum vch = some bn) : bigNumTop stack (i + 1) = .ok bn :=
  bigNumTop_of_stacktop (stacktop_of_drop dropped) value

private theorem getint_natCast {n : Nat} (small : n ≤ 20) : getint n = n := by
  rw [getint, if_neg (by omega), if_neg (by omega)]

private theorem demand_of {condition : Prop} [Decidable condition] (holds : condition) :
    demand condition = .ok () := if_pos holds

private theorem evalOk_bind {α β : Type} (value : α) (next : α → EvalResult β) :
    (Except.ok value >>= next) = next value := rfl

private theorem drop_succ_of_drop {i : Nat} (dropped : stack.drop i = vch :: below) :
    stack.drop (i + 1) = below := by
  rw [← List.tail_drop, dropped, List.tail_cons]

private theorem popstacks_eq {count : Nat} (enough : count ≤ stack.length) :
    popstacks count stack = .ok (stack.drop count) := by
  induction count generalizing stack with
  | zero => rfl
  | succ count induction =>
      cases stack with
      | nil => simp at enough
      | cons vch stack =>
          rw [List.length_cons, Nat.add_le_add_iff_right] at enough
          exact induction enough

/-- The signatures are dropped from the script code. -/
private theorem dropSignatures_eq {i : Nat} (scriptCode : CScript)
    (dropped : stack.drop i = sigs ++ below) :
    dropSignatures stack (i + 1) sigs.length scriptCode =
      .ok (withoutSignatures sigs scriptCode) := by
  induction sigs generalizing i scriptCode with
  | nil => rfl
  | cons vchSig sigs induction =>
      rw [List.length_cons, dropSignatures, stacktop_of_drop dropped]
      exact induction _ (drop_succ_of_drop dropped)

/-- The loop matches the signatures with the keys greedily. -/
private theorem multisigLoop_eq (check : SignatureCheck) (scriptCode : CScript) {i j : Nat}
    {under : Stack} (sigs_dropped : stack.drop i = sigs ++ below)
    (keys_dropped : stack.drop j = keys ++ under) :
    (multisigLoop check stack scriptCode keys.length sigs.length (i + 1) (j + 1)).outcome =
      .ok (greedy (fun vchSig vchPubKey => check vchSig vchPubKey scriptCode) sigs keys) := by
  induction keys generalizing sigs i j with
  | nil => cases sigs <;> rfl
  | cons vchPubKey keys induction =>
      cases sigs with
      | nil => rfl
      | cons vchSig sigs =>
          have keys_left := drop_succ_of_drop keys_dropped
          rw [List.length_cons, List.length_cons, multisigLoop, greedy]
          simp only [outcome_bind, outcome_free, stacktop_of_drop sigs_dropped,
            stacktop_of_drop keys_dropped]
          change Counted.outcome (if keys.length <
            (if check vchSig vchPubKey scriptCode = true then _ else _) then _ else _) = _
          cases fit : check vchSig vchPubKey scriptCode with
          | true =>
              have later := induction (drop_succ_of_drop sigs_dropped) keys_left
              simp only [if_true]
              split
              · rename_i few
                rw [greedy_of_lt few]
                rfl
              · exact later
          | false =>
              have later := @induction (vchSig :: sigs) _ _ sigs_dropped keys_left
              simp only [Bool.false_eq_true, if_false]
              split
              · rename_i few
                rw [greedy_of_lt few]
                rfl
              · exact later

end Stack

/-- `OP_CHECKMULTISIG` removes its operands and pushes whether the signatures find their keys. -/
theorem checkMultisigOp_greedy (check : SignatureCheck) (state : EvalState) (stack : Stack)
    (unused nSigs nKeys : Valtype) (sigs keys : List Valtype)
    (operands : state.stack = multisigOperands unused sigs nSigs keys nKeys stack)
    (nKeys_eq : castToBigNum nKeys = some (keys.length : Int))
    (nSigs_eq : castToBigNum nSigs = some (sigs.length : Int)) (keys_le : keys.length ≤ 20)
    (sigs_le : sigs.length ≤ keys.length) (operations : state.nOpCount + keys.length ≤ 201) :
    state.stack.drop (keys.length + sigs.length + 3) = stack ∧
      (checkMultisigOp check Op.OP_CHECKMULTISIG state).outcome = .ok { state with
        stack := vchBool (greedy (fun vchSig vchPubKey => check vchSig vchPubKey
          (withoutSignatures sigs.reverse state.codehash)) sigs.reverse keys.reverse) :: stack
        nOpCount := state.nOpCount + keys.length } := by
  have keys_at : state.stack.drop 1 =
      keys.reverse ++ nSigs :: (sigs.reverse ++ unused :: stack) := by
    rw [operands]
    rfl
  have count_at : state.stack.drop (keys.length + 1) =
      nSigs :: (sigs.reverse ++ unused :: stack) := by
    rw [Nat.add_comm, ← List.drop_drop, keys_at]
    exact List.drop_left' List.length_reverse
  have sigs_at : state.stack.drop (keys.length + 2) = sigs.reverse ++ unused :: stack :=
    drop_succ_of_drop count_at
  have unused_at : state.stack.drop (keys.length + 2 + sigs.length) = unused :: stack := by
    rw [← List.drop_drop, sigs_at]
    exact List.drop_left' List.length_reverse
  have rest_at : state.stack.drop (keys.length + sigs.length + 3) = stack := by
    have dropped := drop_succ_of_drop unused_at
    rwa [show keys.length + 2 + sigs.length + 1 = keys.length + sigs.length + 3 by omega] at dropped
  have size : keys.length + sigs.length + 3 ≤ state.stack.length := by
    rw [operands]
    simp only [multisigOperands, List.length_cons, List.length_append, List.length_reverse]
    omega
  have nKeys_top : bigNumTop state.stack 1 = .ok (keys.length : Int) :=
    bigNumTop_of_drop (by rw [operands]; rfl) nKeys_eq
  have nSigs_top : bigNumTop state.stack (2 + keys.length) = .ok (sigs.length : Int) := by
    rw [show 2 + keys.length = keys.length + 1 + 1 by omega]
    exact bigNumTop_of_drop count_at nSigs_eq
  have code := dropSignatures_eq state.codehash sigs_at
  have loop := multisigLoop_eq check (withoutSignatures sigs.reverse state.codehash) sigs_at keys_at
  rw [List.length_reverse] at code loop
  rw [List.length_reverse] at loop
  refine ⟨rest_at, ?_⟩
  have isig : 3 + keys.length = keys.length + 2 + 1 := by omega
  have total : 3 + keys.length + sigs.length = keys.length + sigs.length + 3 := by omega
  have sigs_le' : sigs.length ≤ 20 := sigs_le.trans keys_le
  simp only [checkMultisigOp, outcome_bind, outcome_free, outcome_pure]
  rw [nKeys_top, demand_of (by omega), evalOk_bind, evalOk_bind, getint_natCast keys_le,
    demand_of (by omega), evalOk_bind, Int.toNat_natCast, demand_of operations, evalOk_bind,
    demand_of (by omega), evalOk_bind, nSigs_top, evalOk_bind, getint_natCast sigs_le',
    demand_of (by omega), evalOk_bind, Int.toNat_natCast, demand_of (by omega), evalOk_bind, isig,
    code, evalOk_bind, loop, evalOk_bind, ← isig, total, popstacks_eq size, evalOk_bind, rest_at]
  rfl

/-- `OP_CHECKMULTISIG` removes its operands and pushes whether each signature can be assigned a key
for which it is valid, later keys to later signatures. -/
theorem checkMultisigOp_matches (check : SignatureCheck) (state : EvalState) (stack : Stack)
    (unused nSigs nKeys : Valtype) (sigs keys : List Valtype)
    (operands : state.stack = multisigOperands unused sigs nSigs keys nKeys stack)
    (nKeys_eq : castToBigNum nKeys = some (keys.length : Int))
    (nSigs_eq : castToBigNum nSigs = some (sigs.length : Int)) (keys_le : keys.length ≤ 20)
    (sigs_le : sigs.length ≤ keys.length) (operations : state.nOpCount + keys.length ≤ 201) :
    ∃ fSuccess,
      (checkMultisigOp check Op.OP_CHECKMULTISIG state).outcome = .ok { state with
        stack := vchBool fSuccess :: state.stack.drop (keys.length + sigs.length + 3)
        nOpCount := state.nOpCount + keys.length } ∧
      state.stack.drop (keys.length + sigs.length + 3) = stack ∧
      (fSuccess = true ↔ ∃ assignment : Fin sigs.length → Fin keys.length,
        StrictMono assignment ∧ ∀ i, check (sigs.get i) (keys.get (assignment i))
          (withoutSignatures sigs.reverse state.codehash) = true) := by
  obtain ⟨rest_at, outcome⟩ := checkMultisigOp_greedy check state stack unused nSigs nKeys sigs keys
    operands nKeys_eq nSigs_eq keys_le sigs_le operations
  refine ⟨_, by rw [rest_at]; exact outcome, rest_at, ?_⟩
  rw [greedy_iff_matched, matched_reverse, matched_iff_assignment]

/-- One signature for the second of two keys. -/
def oneOfTwoState : EvalState :=
  .initial (multisigOperands [] [[7]] [1] [[5], [7]] [2] []) []

theorem checkMultisigOp_matches_oneOfTwo :
    (checkMultisigOp (fun vchSig vchPubKey _ => vchSig = vchPubKey) Op.OP_CHECKMULTISIG
      oneOfTwoState).outcome =
        .ok { oneOfTwoState with stack := [vchTrue], nOpCount := 2 } := by
  obtain ⟨fSuccess, outcome, -, accepts⟩ := checkMultisigOp_matches
    (fun vchSig vchPubKey _ => vchSig = vchPubKey) oneOfTwoState [] [] [1] [2] [[7]] [[5], [7]] rfl
    (by decide) (by decide) (by decide) (by decide) (by decide)
  have increasing : StrictMono fun _ : Fin 1 => (1 : Fin 2) := Subsingleton.strictMono _
  obtain rfl : fSuccess = true := accepts.mpr ⟨_, increasing, by decide⟩
  exact outcome

end FooCoin

import FooCoin.Library.Threshold
import FooCoin.Script.Bounds
import FooCoin.Script.Spendable

/-!
# Merging partial multisig signatures

`combineSignatures` files the signatures of both scripts under the public keys they are valid for
and pushes the first of them in the order of the keys.  What it leaves out is more than the output
asks for, so a merge verifies exactly when the merged scripts together have enough signatures.
-/

namespace FooCoin

open LittleEndian Op Counted OrderedMatching Threshold Outcomes

/-! ## The stack a script leaves -/

section Left

variable {crypto : Crypto} {check : SignatureCheck}

private theorem demand_ok {condition : Prop} [Decidable condition] {value : Unit}
    (demanded : demand condition = .ok value) : condition := by
  unfold demand at demanded
  split_ifs at demanded with holds
  exact holds

private theorem evalInstruction_ok {opcode : Nat} {vch : Valtype} {rest : CScript}
    {state after : EvalState}
    (evaluated : (evalInstruction crypto check opcode vch rest state).outcome = .ok after) :
    let nOpCount := if OP_16 < opcode then state.nOpCount + 1 else state.nOpCount
    (vch.length ≤ 520 ∧ (OP_16 < opcode → nOpCount ≤ 201) ∧ opcode ∉ disabledOpcodes) ∧
      (evalExecuted crypto check opcode vch rest { state with nOpCount }).outcome = .ok after ∧
        after.stack.length + after.altstack.length ≤ 1000 := by
  simp only [evalInstruction, outcome_bind, outcome_free, outcome_pure, except_bind_eq_ok,
    Except.ok.injEq] at evaluated
  obtain ⟨_, short, _, count, _, enabled, _, executed, _, room, rfl⟩ := evaluated
  exact ⟨⟨demand_ok short, demand_ok count, demand_ok enabled⟩, executed, demand_ok room⟩

private theorem evalLoopLeft_eq {fuel : Nat} {pc : CScript} {state after : EvalState}
    (evaluated : (evalLoop crypto check fuel pc state).outcome = .ok after) :
    evalLoopLeft crypto check fuel pc state = after.stack := by
  induction fuel generalizing pc state with
  | zero =>
      cases pc with
      | nil =>
          cases evaluated
          rfl
      | cons byte pc => simp [evalLoop] at evaluated
  | succ fuel induction =>
      cases pc with
      | nil =>
          cases evaluated
          rfl
      | cons byte pc =>
          simp only [evalLoop, evalLoopLeft] at evaluated ⊢
          cases parsed : getOp (byte :: pc) with
          | none => simp [parsed] at evaluated
          | some instruction =>
              obtain ⟨opcode, vch, rest⟩ := instruction
              simp only [parsed, outcome_bind, except_bind_eq_ok] at evaluated ⊢
              obtain ⟨next, instruction, later⟩ := evaluated
              obtain ⟨⟨short, count, enabled⟩, executed, room⟩ := evalInstruction_ok instruction
              rw [if_neg (by push Not; exact ⟨short, count, enabled⟩), executed]
              exact (if_neg (Nat.not_lt.mpr room)).trans (induction later)

/-- A script that is evaluated leaves the stack that the evaluation returns. -/
theorem evalScriptLeft_eq {stack after : Stack} {script : CScript}
    (evaluated : (evalScript crypto check stack script).outcome = .ok after) :
    evalScriptLeft crypto check stack script = after := by
  rw [evalScript_eq] at evaluated
  split_ifs at evaluated with small
  obtain ⟨state, run, ended⟩ := except_bind_eq_ok.mp evaluated
  split_ifs at ended
  cases ended
  rw [evalScriptLeft, if_neg (Nat.not_lt.mpr small)]
  exact evalLoopLeft_eq run

end Left

/-! ## Partial signatures -/

/-- The public keys of a multisig script's solutions. -/
def multisigKeys (vSolutions : List Valtype) : List Valtype := vSolutions.tail.dropLast

/-- The number of signatures that a multisig script's solutions ask for. -/
def multisigRequired (vSolutions : List Valtype) : Nat := solutionByte vSolutions.head?

/-- An output that pays to a multisig script, bare or by its hash. -/
structure MultisigOutput (crypto : Crypto) (scriptPubKey script : CScript) (p2sh : Bool)
    (vSolutions : List Valtype) : Prop where
  solved : solver script = some (.TX_MULTISIG, vSolutions)
  distinct : (multisigKeys vSolutions).Nodup
  bare : p2sh = false → scriptPubKey = script
  scriptHash : p2sh = true → isPayToScriptHash scriptPubKey = true ∧
    uint160Bytes (crypto.Hash160 script) = (scriptPubKey.drop 2).take 20 ∧ script.length ≤ 520

/-- The elements that a script for the output pushes, without the redeem script. -/
def partialSigs (crypto : Crypto) (p2sh : Bool) (scriptSig : CScript) : List Valtype :=
  if p2sh then (scriptValues crypto scriptSig).dropLast else scriptValues crypto scriptSig

/-- A script of placeholders and signatures: each is valid under at most one of the keys, and none
is one of the keys. -/
structure PartialScript (crypto : Crypto) (txTo : CTransaction) (nIn : Nat) (script : CScript)
    (p2sh : Bool) (vSolutions : List Valtype) (scriptSig : CScript) : Prop where
  pushOnly : isPushOnly scriptSig = true
  evaluated : (evalScript crypto (checkSig crypto .null 0 0) [] scriptSig).outcome.isOk = true
  redeemScript : p2sh = true → (scriptValues crypto scriptSig).getLast? = some script
  unlisted : ∀ sig ∈ partialSigs crypto p2sh scriptSig, sig ∉ multisigKeys vSolutions
  single : ∀ sig ∈ partialSigs crypto p2sh scriptSig, ∀ key ∈ multisigKeys vSolutions,
    ∀ other ∈ multisigKeys vSolutions, checkSig crypto txTo nIn 0 sig key script = true →
      checkSig crypto txTo nIn 0 sig other script = true → key = other

/-- A key has a valid signature among the elements. -/
def signedBy (crypto : Crypto) (txTo : CTransaction) (nIn : Nat) (script : CScript)
    (sigs : List Valtype) (key : Valtype) : Bool :=
  sigs.any fun sig => checkSig crypto txTo nIn 0 sig key script

/-! ## Filing signatures -/

section Filing

variable {check : Valtype → Valtype → Bool} {keys all : List Valtype}

/-- A signature is valid under at most one of the keys. -/
def Single (check : Valtype → Valtype → Bool) (keys : List Valtype) (sig : Valtype) : Prop :=
  ∀ key ∈ keys, ∀ other ∈ keys, check sig key = true → check sig other = true → key = other

private theorem fileSignature_apply {sig : Valtype} (single : Single check keys sig)
    (sigs : Valtype → Option Valtype) (key : Valtype) :
    fileSignature check sig keys sigs key =
      if key ∈ keys ∧ check sig key = true ∧ sigs key = none then some sig else sigs key := by
  induction keys with
  | nil => simp [fileSignature]
  | cons pubkey pubkeys induction =>
      have later : Single check pubkeys sig := fun key listed other listed_other =>
        single key (List.mem_cons_of_mem _ listed) other (List.mem_cons_of_mem _ listed_other)
      rw [fileSignature]
      by_cases known : (sigs pubkey).isSome = true
      · rw [if_pos known, induction later]
        by_cases here : key = pubkey
        · obtain ⟨filed, known⟩ := Option.isSome_iff_exists.mp known
          simp [here, known]
        · simp [here]
      · rw [if_neg known]
        rw [Option.not_isSome_iff_eq_none] at known
        by_cases valid : check sig pubkey = true
        · rw [if_pos valid]
          by_cases here : key = pubkey
          · simp [here, valid, known]
          · have unlisted : ¬(key ∈ pubkey :: pubkeys ∧ check sig key = true ∧ sigs key = none) :=
              fun ⟨listed, also_valid, _⟩ =>
                here (single key listed pubkey List.mem_cons_self also_valid valid)
            rw [if_neg unlisted, Function.update_of_ne here]
        · rw [if_neg valid, induction later]
          by_cases here : key = pubkey
          · simp [here, valid]
          · simp [here]

/-- Every key gets the first signature that is valid for it. -/
private theorem foldl_fileSignature (single : ∀ sig ∈ all, Single check keys sig)
    (sigs : Valtype → Option Valtype) {key : Valtype} (listed : key ∈ keys) :
    all.foldl (fun sigs sig => fileSignature check sig keys sigs) sigs key =
      (sigs key).or (all.find? fun sig => check sig key) := by
  induction all generalizing sigs with
  | nil => simp
  | cons sig all induction =>
      obtain ⟨here, others⟩ := List.forall_mem_cons.mp single
      rw [List.foldl_cons, induction others, fileSignature_apply here]
      cases known : sigs key with
      | some filed => simp
      | none =>
          by_cases valid : check sig key = true
          · simp [listed, valid]
          · simp [valid]

private theorem mem_allSigs {sigs1 sigs2 : List Valtype} {sig : Valtype} :
    sig ∈ allSigs sigs1 sigs2 ↔ sig ∈ sigs1 ++ sigs2 ∧ sig ≠ [] := by
  rw [allSigs, List.mem_mergeSort, List.mem_dedup, List.mem_filter, decide_eq_true_eq]

/-- A partial choice pairs its values with the elements it is made for. -/
private theorem forall₂_filterMap {α β : Type} (choose : α → Option β) (elements : List α) :
    List.Forall₂ (fun value element => choose element = some value) (elements.filterMap choose)
      (elements.filter fun element => (choose element).isSome) := by
  induction elements with
  | nil => exact .nil
  | cons element elements induction =>
      cases chosen : choose element with
      | none => simpa [chosen] using induction
      | some value => simpa [chosen] using induction

private theorem exists_right {α β : Type} {related : α → β → Prop} {left : List α}
    {right : List β} (pairs : List.Forall₂ related left right) {value : α} (member : value ∈ left) :
    ∃ element ∈ right, related value element := by
  induction pairs with
  | nil => simp at member
  | @cons first partner left right here later induction =>
      rcases List.mem_cons.mp member with rfl | member
      · exact ⟨partner, List.mem_cons_self, here⟩
      · obtain ⟨element, listed, pair⟩ := induction member
        exact ⟨element, List.mem_cons_of_mem _ listed, pair⟩

private theorem exists_left {α β : Type} {related : α → β → Prop} {left : List α}
    {right : List β} (pairs : List.Forall₂ related left right) {element : β}
    (member : element ∈ right) : ∃ value ∈ left, related value element :=
  exists_right pairs.flip member

end Filing

/-! ## The merged script -/

section Merge

variable {crypto : Crypto} {txTo : CTransaction} {nIn : Nat} {script : CScript}
  {vSolutions sigs1 sigs2 : List Valtype}

/-- The signatures that a merge keeps. -/
def mergedSigs (crypto : Crypto) (txTo : CTransaction) (nIn : Nat) (script : CScript)
    (vSolutions sigs1 sigs2 : List Valtype) : List Valtype :=
  ((multisigKeys vSolutions).filterMap fun key =>
    (allSigs sigs1 sigs2).find? fun sig => checkSig crypto txTo nIn 0 sig key script).take
      (multisigRequired vSolutions)

/-- The elements that a merge pushes. -/
def mergedValues (crypto : Crypto) (txTo : CTransaction) (nIn : Nat) (script : CScript)
    (vSolutions sigs1 sigs2 : List Valtype) : List Valtype :=
  let merged := mergedSigs crypto txTo nIn script vSolutions sigs1 sigs2
  merged ++ List.replicate (multisigRequired vSolutions - merged.length) []

private theorem pushAll_replicate_nil (count : Nat) :
    pushAll (List.replicate count []) = List.replicate count (UInt8.ofNat OP_0) := by
  induction count with
  | zero => rfl
  | succ count induction =>
      rw [List.replicate_succ, List.replicate_succ, ← induction]
      rfl

private theorem pushAll_append (left right : List Valtype) :
    pushAll (left ++ right) = pushAll left ++ pushAll right := List.flatMap_append

private theorem combineMultisig_eq
    (single : ∀ sig ∈ sigs1 ++ sigs2, Single (fun sig key => checkSig crypto txTo nIn 0 sig key
      script) (multisigKeys vSolutions) sig) :
    combineMultisig crypto script txTo nIn vSolutions sigs1 sigs2 =
      pushAll ([] :: mergedValues crypto txTo nIn script vSolutions sigs1 sigs2) := by
  have chosen : vSolutions.tail.dropLast.filterMap ((allSigs sigs1 sigs2).foldl (fun sigs sig =>
      fileSignature (fun sig pubkey => checkSig crypto txTo nIn 0 sig pubkey script) sig
        vSolutions.tail.dropLast sigs) fun _ => none) =
      (multisigKeys vSolutions).filterMap fun key =>
        (allSigs sigs1 sigs2).find? fun sig => checkSig crypto txTo nIn 0 sig key script := by
    refine List.filterMap_congr fun key listed => ?_
    exact foldl_fileSignature (fun sig member => single sig (mem_allSigs.mp member).1) _ listed
  unfold combineMultisig
  dsimp only
  rw [chosen, ← pushAll_replicate_nil, ← pushAll_append]
  rfl

/-- The merged signatures belong to the first keys that are signed for. -/
private theorem mergedSigs_forall₂ :
    List.Forall₂ (fun sig key => sig ∈ allSigs sigs1 sigs2 ∧
        checkSig crypto txTo nIn 0 sig key script = true)
      (mergedSigs crypto txTo nIn script vSolutions sigs1 sigs2)
      (firstMarked (multisigKeys vSolutions) (multisigRequired vSolutions)
        (signedBy crypto txTo nIn script (allSigs sigs1 sigs2))) := by
  have pairs := forall₂_filterMap (fun key => (allSigs sigs1 sigs2).find? fun sig =>
    checkSig crypto txTo nIn 0 sig key script) (multisigKeys vSolutions)
  have marked : (fun key => ((allSigs sigs1 sigs2).find? fun sig =>
      checkSig crypto txTo nIn 0 sig key script).isSome) =
        signedBy crypto txTo nIn script (allSigs sigs1 sigs2) := by
    funext key
    rw [List.isSome_find?, signedBy]
  rw [marked] at pairs
  refine (List.forall₂_take _ pairs).imp fun sig key found => ?_
  have valid := List.find?_some found
  exact ⟨List.mem_of_find?_eq_some found, valid⟩

private theorem checkSig_nil (key : Valtype) (code : CScript) :
    checkSig crypto txTo nIn 0 [] key code = false := rfl

private theorem signedBy_allSigs :
    signedBy crypto txTo nIn script (allSigs sigs1 sigs2) =
      signedBy crypto txTo nIn script (sigs1 ++ sigs2) := by
  funext key
  rw [signedBy, signedBy, Bool.eq_iff_iff, List.any_eq_true, List.any_eq_true]
  constructor
  · rintro ⟨sig, member, valid⟩
    exact ⟨sig, (mem_allSigs.mp member).1, valid⟩
  · rintro ⟨sig, member, valid⟩
    refine ⟨sig, mem_allSigs.mpr ⟨member, ?_⟩, valid⟩
    rintro rfl
    rw [checkSig_nil] at valid
    contradiction

private theorem length_mergedSigs_le :
    (mergedSigs crypto txTo nIn script vSolutions sigs1 sigs2).length ≤
      multisigRequired vSolutions := by
  rw [mergedSigs, List.length_take]
  exact Nat.min_le_left _ _

private theorem length_mergedValues :
    (mergedValues crypto txTo nIn script vSolutions sigs1 sigs2).length =
      multisigRequired vSolutions := by
  have kept := @length_mergedSigs_le crypto txTo nIn script vSolutions sigs1 sigs2
  rw [mergedValues, List.length_append, List.length_replicate]
  omega

/-- A merged element is a placeholder or a signature of one of the two scripts. -/
private theorem mem_mergedValues {sig : Valtype}
    (member : sig ∈ mergedValues crypto txTo nIn script vSolutions sigs1 sigs2) :
    sig = [] ∨ sig ∈ mergedSigs crypto txTo nIn script vSolutions sigs1 sigs2 ∧
      sig ∈ sigs1 ++ sigs2 ∧ sig ≠ [] := by
  rcases List.mem_append.mp member with kept | filler
  · obtain ⟨key, -, listed, -⟩ := exists_right mergedSigs_forall₂ kept
    exact .inr ⟨kept, mem_allSigs.mp listed⟩
  · exact .inl (List.eq_of_mem_replicate filler)

/-- The merge is as good as its two parts together. -/
private theorem merge_alike :
    Alike (multisigKeys vSolutions) (multisigRequired vSolutions)
      (signedBy crypto txTo nIn script
        ([] :: mergedValues crypto txTo nIn script vSolutions sigs1 sigs2))
      (signedBy crypto txTo nIn script (sigs1 ++ sigs2)) := by
  refine alike_of_firstMarked (fun key _ signed => ?_) fun key first => ?_
  · obtain ⟨sig, member, valid⟩ := List.any_eq_true.mp signed
    rcases List.mem_cons.mp member with rfl | member
    · rw [checkSig_nil] at valid
      contradiction
    · rcases mem_mergedValues member with rfl | ⟨-, listed, -⟩
      · rw [checkSig_nil] at valid
        contradiction
      · exact List.any_eq_true.mpr ⟨sig, listed, valid⟩
  · rw [← signedBy_allSigs] at first
    obtain ⟨sig, member, -, valid⟩ := exists_left mergedSigs_forall₂ first
    exact List.any_eq_true.mpr
      ⟨sig, List.mem_cons_of_mem _ (List.mem_append_left _ member), valid⟩

/-- A multisig script accepts the merge when both parts together have enough signatures. -/
private theorem evalScript_merged {m : Nat} {keys : List Instr}
    (m_pos : 1 ≤ m) (m_le : m ≤ keys.length) (few : keys.length ≤ 16)
    (pushes : ∀ key ∈ keys, IsPubKeyPush key) (parses : Parses script (multisigInstrs m keys))
    (keys_eq : multisigKeys vSolutions = keys.map Prod.snd)
    (required : multisigRequired vSolutions = m)
    (short : ∀ sig ∈ sigs1 ++ sigs2, sig.length ≤ 520)
    (unlisted : ∀ sig ∈ sigs1 ++ sigs2, sig ∉ multisigKeys vSolutions) :
    ∃ fValue below, (evalScript crypto (checkSig crypto txTo nIn 0)
        ([] :: mergedValues crypto txTo nIn script vSolutions sigs1 sigs2).reverse script).outcome =
          .ok (vchBool fValue :: below) ∧
      (fValue = true ↔ Reached (multisigKeys vSolutions) (multisigRequired vSolutions)
        (signedBy crypto txTo nIn script (sigs1 ++ sigs2))) := by
  have length := @length_mergedValues crypto txTo nIn script vSolutions sigs1 sigs2
  have run := @evalScript_multisig crypto (checkSig crypto txTo nIn 0) [] script m keys
    (mergedValues crypto txTo nIn script vSolutions sigs1 sigs2) [] pushes few
    (length.trans_le (required.trans_le m_le)) (length.trans required) m_pos parses (by simp)
  rw [List.reverse_cons]
  refine ⟨_, [], run, ?_⟩
  rw [greedy_iff_matched, matched_reverse, ← keys_eq]
  constructor
  · rintro ⟨chosen, listed, pairs⟩
    by_contra few_signed
    have fewer : (mergedSigs crypto txTo nIn script vSolutions sigs1 sigs2).length ≠
        multisigRequired vSolutions := by
      rw [mergedSigs_forall₂.length_eq, ne_eq, length_firstMarked_eq_iff, signedBy_allSigs]
      exact few_signed
    have kept := @length_mergedSigs_le crypto txTo nIn script vSolutions sigs1 sigs2
    have filler : [] ∈ mergedValues crypto txTo nIn script vSolutions sigs1 sigs2 := by
      refine List.mem_append_right _ (List.mem_replicate.mpr ⟨?_, rfl⟩)
      omega
    obtain ⟨key, -, valid⟩ := exists_right pairs filler
    change checkSig crypto txTo nIn 0 [] key _ = true at valid
    rw [checkSig_nil] at valid
    contradiction
  · intro reached
    rw [← signedBy_allSigs, ← length_firstMarked_eq_iff, ← mergedSigs_forall₂.length_eq] at reached
    have values : mergedValues crypto txTo nIn script vSolutions sigs1 sigs2 =
        mergedSigs crypto txTo nIn script vSolutions sigs1 sigs2 := by
      rw [mergedValues, reached, Nat.sub_self, List.replicate_zero, List.append_nil]
    have kept : withoutSignatures
        (mergedValues crypto txTo nIn script vSolutions sigs1 sigs2).reverse script = script := by
      refine withoutSignatures_eq parses fun sig member => ?_
      rw [List.mem_reverse, values] at member
      obtain ⟨key, -, listed, -⟩ := exists_right mergedSigs_forall₂ member
      obtain ⟨listed, nonempty⟩ := mem_allSigs.mp listed
      refine ⟨(short sig listed).trans_lt (by norm_num), fun instr pushed same => ?_⟩
      simp only [multisigInstrs, List.mem_cons, List.mem_append, List.not_mem_nil, or_false]
        at pushed
      rcases pushed with rfl | key | rfl | rfl
      · exact nonempty same.symm
      · exact unlisted sig listed (keys_eq ▸ same ▸ List.mem_map_of_mem key)
      · exact nonempty same.symm
      · exact nonempty same.symm
    rw [kept, values]
    exact ⟨_, firstMarked_sublist, mergedSigs_forall₂.imp fun sig key pair => pair.2⟩

end Merge

/-! ## The result of a merge -/

section Partial

variable {crypto : Crypto} {txTo : CTransaction} {nIn : Nat} {scriptPubKey script : CScript}
  {p2sh : Bool} {vSolutions : List Valtype}

private theorem scriptValues_eq {scriptSig : CScript} {after : Stack}
    (evaluated : (evalScript crypto (checkSig crypto .null 0 0) [] scriptSig).outcome = .ok after) :
    scriptValues crypto scriptSig = after.reverse := by
  rw [scriptValues, evalScriptLeft_eq evaluated]

private theorem scriptValues_pushAll {values : List Valtype} (few : values.length ≤ 18)
    (short : ∀ vch ∈ values, vch.length ≤ 520) :
    scriptValues crypto (pushAll values) = values := by
  rw [scriptValues_eq (evalScript_pushAll few short), List.reverse_reverse]

/-- The elements of a script with the redeem script behind them. -/
def withRedeemScript (p2sh : Bool) (script : CScript) (sigs : List Valtype) : List Valtype :=
  sigs ++ if p2sh then [script] else []

private theorem scriptValues_unfinished {scriptSig : CScript}
    (part : PartialScript crypto txTo nIn script p2sh vSolutions scriptSig) :
    scriptValues crypto scriptSig =
      withRedeemScript p2sh script (partialSigs crypto p2sh scriptSig) := by
  cases hashed : p2sh with
  | false => simp [withRedeemScript, partialSigs]
  | true =>
      rw [withRedeemScript, partialSigs, if_pos rfl, if_pos rfl]
      exact (List.dropLast_append_getLast? script (part.redeemScript hashed)).symm

private theorem partialSigs_short {scriptSig : CScript}
    (part : PartialScript crypto txTo nIn script p2sh vSolutions scriptSig) :
    ∀ sig ∈ partialSigs crypto p2sh scriptSig, sig.length ≤ 520 := by
  intro sig member
  obtain ⟨after, evaluated⟩ := exists_of_isOk part.evaluated
  have inside := @evalScript_inside crypto (checkSig crypto .null 0 0) [] scriptSig (by simp)
    (by simp [ShortElements])
  rw [evaluated] at inside
  have listed : sig ∈ scriptValues crypto scriptSig := by
    rw [scriptValues_unfinished part]
    exact List.mem_append_left _ member
  rw [scriptValues_eq evaluated, List.mem_reverse] at listed
  exact inside.2 sig listed

private theorem bare_of_multisig
    (output : MultisigOutput crypto scriptPubKey script p2sh vSolutions) :
    ¬isPayToScriptHash script = true := by
  intro scriptHash
  have hashed := solver_scripthash.mpr ⟨scriptHash, rfl⟩
  rw [output.solved] at hashed
  simp at hashed

private theorem ne_nil_of_multisig
    (output : MultisigOutput crypto scriptPubKey script p2sh vSolutions) : script ≠ [] := by
  rintro rfl
  obtain ⟨m, keys, -, -, -, -, -, parses⟩ := solver_multisig output.solved
  cases parses with
  | cons first later => simp [getOp] at first

/-- A merge pushes a placeholder, the merged elements and the redeem script. -/
private theorem combineSignatures_eq
    (output : MultisigOutput crypto scriptPubKey script p2sh vSolutions)
    {scriptSig1 scriptSig2 : CScript}
    (part1 : PartialScript crypto txTo nIn script p2sh vSolutions scriptSig1)
    (part2 : PartialScript crypto txTo nIn script p2sh vSolutions scriptSig2) :
    combineSignatures crypto scriptPubKey txTo nIn scriptSig1 scriptSig2 =
      pushAll (withRedeemScript p2sh script ([] :: mergedValues crypto txTo nIn script vSolutions
        (partialSigs crypto p2sh scriptSig1) (partialSigs crypto p2sh scriptSig2))) := by
  have merged := @combineMultisig_eq crypto txTo nIn script vSolutions
    (partialSigs crypto p2sh scriptSig1) (partialSigs crypto p2sh scriptSig2) fun sig member =>
      (List.mem_append.mp member).elim (part1.single sig) (part2.single sig)
  have solved (fuel : Nat) (sigs1 sigs2 : List Valtype) :
      combineStacks crypto txTo nIn fuel script sigs1 sigs2 =
        combineMultisig crypto script txTo nIn vSolutions sigs1 sigs2 := by
    rw [combineStacks.eq_def]
    simp only [solverLeft, output.solved]
  rw [withRedeemScript, pushAll_append, ← merged]
  rw [combineSignatures, scriptValues_unfinished part1, scriptValues_unfinished part2]
  cases hashed : p2sh with
  | false =>
      rw [output.bare hashed, solved]
      simp [withRedeemScript, pushAll]
  | true =>
      have nonempty := ne_nil_of_multisig output
      simp only [withRedeemScript, if_true, List.length_append, List.length_singleton]
      rw [combineStacks.eq_def]
      simp only [solverLeft, solver_scripthash.mpr ⟨(output.scriptHash hashed).1, rfl⟩,
        List.getLast?_concat, Option.getD_some, if_neg nonempty, List.dropLast_concat, solved]
      simp [pushAll]

/-- The keys and the number of signatures of a multisig script. -/
private theorem multisig_solutions (solved : solver script = some (.TX_MULTISIG, vSolutions)) :
    ∃ m keys, 1 ≤ m ∧ m ≤ keys.length ∧ keys.length ≤ 16 ∧
      (∀ key ∈ keys, IsPubKeyPush key) ∧ Parses script (multisigInstrs m keys) ∧
        multisigKeys vSolutions = keys.map Prod.snd ∧ multisigRequired vSolutions = m := by
  obtain ⟨m, keys, m_pos, m_le, few, pushes, rfl, parses⟩ := solver_multisig solved
  refine ⟨m, keys, m_pos, m_le, few, pushes, parses, ?_, ?_⟩
  · rw [multisigKeys, List.tail_cons, List.dropLast_concat]
  · have small : m % 256 = m := Nat.mod_eq_of_lt (by omega)
    simp [multisigRequired, solutionByte, small]

variable {scriptSig1 scriptSig2 : CScript}

/-- What a merge pushes fits on the stack. -/
private theorem merged_fits
    (output : MultisigOutput crypto scriptPubKey script p2sh vSolutions)
    (part1 : PartialScript crypto txTo nIn script p2sh vSolutions scriptSig1)
    (part2 : PartialScript crypto txTo nIn script p2sh vSolutions scriptSig2) :
    let values := withRedeemScript p2sh script ([] :: mergedValues crypto txTo nIn script vSolutions
      (partialSigs crypto p2sh scriptSig1) (partialSigs crypto p2sh scriptSig2))
    values.length ≤ 18 ∧ ∀ vch ∈ values, vch.length ≤ 520 := by
  obtain ⟨m, keys, m_pos, m_le, few, -, -, -, required⟩ := multisig_solutions output.solved
  have length := @length_mergedValues crypto txTo nIn script vSolutions
    (partialSigs crypto p2sh scriptSig1) (partialSigs crypto p2sh scriptSig2)
  have behind : (if p2sh = true then [script] else []).length ≤ 1 := by split_ifs <;> simp
  constructor
  · simp only [withRedeemScript, List.length_append, List.length_cons, length, required]
    omega
  · intro vch member
    rcases List.mem_append.mp member with merged | redeemScript
    · rcases List.mem_cons.mp merged with rfl | merged
      · simp
      · rcases mem_mergedValues merged with rfl | ⟨-, listed, -⟩
        · simp
        · exact (List.mem_append.mp listed).elim (partialSigs_short part1 vch)
            (partialSigs_short part2 vch)
    · cases hashed : p2sh with
      | false => simp [hashed] at redeemScript
      | true =>
          rw [hashed, if_pos rfl, List.mem_singleton] at redeemScript
          exact redeemScript ▸ (output.scriptHash hashed).2.2

/-- The elements of a merge. -/
private theorem partialSigs_combine
    (output : MultisigOutput crypto scriptPubKey script p2sh vSolutions)
    (part1 : PartialScript crypto txTo nIn script p2sh vSolutions scriptSig1)
    (part2 : PartialScript crypto txTo nIn script p2sh vSolutions scriptSig2) :
    partialSigs crypto p2sh
        (combineSignatures crypto scriptPubKey txTo nIn scriptSig1 scriptSig2) =
      [] :: mergedValues crypto txTo nIn script vSolutions
        (partialSigs crypto p2sh scriptSig1) (partialSigs crypto p2sh scriptSig2) := by
  obtain ⟨few, short⟩ := merged_fits output part1 part2
  rw [partialSigs, combineSignatures_eq output part1 part2, scriptValues_pushAll few short]
  cases p2sh with
  | false => simp [withRedeemScript]
  | true => rw [if_pos rfl, withRedeemScript, if_pos rfl, List.dropLast_concat]

/-- A merge of partial scripts is a partial script. -/
theorem PartialScript.combine
    (output : MultisigOutput crypto scriptPubKey script p2sh vSolutions)
    (part1 : PartialScript crypto txTo nIn script p2sh vSolutions scriptSig1)
    (part2 : PartialScript crypto txTo nIn script p2sh vSolutions scriptSig2) :
    PartialScript crypto txTo nIn script p2sh vSolutions
      (combineSignatures crypto scriptPubKey txTo nIn scriptSig1 scriptSig2) := by
  obtain ⟨few, short⟩ := merged_fits output part1 part2
  have combined := combineSignatures_eq output part1 part2
  obtain ⟨m, keys, -, -, -, pushes, -, keys_eq, -⟩ := multisig_solutions output.solved
  have origin {sig : Valtype} (member : sig ∈ partialSigs crypto p2sh
      (combineSignatures crypto scriptPubKey txTo nIn scriptSig1 scriptSig2)) :
      sig = [] ∨
        sig ∈ partialSigs crypto p2sh scriptSig1 ++ partialSigs crypto p2sh scriptSig2 := by
    rw [partialSigs_combine output part1 part2] at member
    rcases List.mem_cons.mp member with rfl | merged
    · exact .inl rfl
    · exact (mem_mergedValues merged).imp_right fun kept => kept.2.1
  constructor
  · obtain ⟨instrs, -, sizes, parses⟩ := parses_pushAll fun vch member =>
      (short vch member).trans_lt (show 520 < 2 ^ 32 by norm_num)
    exact combined ▸ isPushOnly_of_parses parses sizes
  · rw [combined, evalScript_pushAll few short]
    rfl
  · rintro rfl
    rw [combined, scriptValues_pushAll few short, withRedeemScript, if_pos rfl,
      List.getLast?_concat]
  · intro sig member
    rcases origin member with rfl | listed
    · rw [keys_eq]
      intro key
      obtain ⟨instr, pushed, empty⟩ := List.mem_map.mp key
      have size := (pushes instr pushed).2.1
      simp [empty] at size
    · exact (List.mem_append.mp listed).elim (part1.unlisted sig) (part2.unlisted sig)
  · intro sig member
    rcases origin member with rfl | listed
    · intro key _ other _ valid
      rw [checkSig_nil] at valid
      contradiction
    · exact (List.mem_append.mp listed).elim (part1.single sig) (part2.single sig)

/-- An input with the script verifies for the output. -/
def verifiesInput (crypto : Crypto) (txTo : CTransaction) (nIn : Nat) (scriptPubKey : CScript)
    (scriptSig : CScript) : Bool :=
  (verifyScript crypto (checkSig crypto txTo nIn 0) scriptSig scriptPubKey true).outcome.isOk

/-- The elements of the script are valid for at least as many keys as the output asks for. -/
def EnoughSigned (crypto : Crypto) (txTo : CTransaction) (nIn : Nat) (script : CScript)
    (vSolutions sigs : List Valtype) : Prop :=
  Reached (multisigKeys vSolutions) (multisigRequired vSolutions)
    (signedBy crypto txTo nIn script sigs)

/-- A merge of two scripts verifies when both have enough signatures together. -/
private theorem verifies_combine
    (output : MultisigOutput crypto scriptPubKey script p2sh vSolutions)
    (part1 : PartialScript crypto txTo nIn script p2sh vSolutions scriptSig1)
    (part2 : PartialScript crypto txTo nIn script p2sh vSolutions scriptSig2) :
    verifiesInput crypto txTo nIn scriptPubKey
        (combineSignatures crypto scriptPubKey txTo nIn scriptSig1 scriptSig2) = true ↔
      EnoughSigned crypto txTo nIn script vSolutions
        (partialSigs crypto p2sh scriptSig1 ++ partialSigs crypto p2sh scriptSig2) := by
  obtain ⟨m, keys, m_pos, m_le, keys_few, pushes, parses, keys_eq, required⟩ :=
    multisig_solutions output.solved
  obtain ⟨few, short⟩ := merged_fits output part1 part2
  obtain ⟨fValue, below, run, value⟩ := @evalScript_merged crypto txTo nIn script vSolutions
    (partialSigs crypto p2sh scriptSig1) (partialSigs crypto p2sh scriptSig2) m keys m_pos m_le
    keys_few pushes parses keys_eq required
    (fun sig member => (List.mem_append.mp member).elim (partialSigs_short part1 sig)
      (partialSigs_short part2 sig))
    fun sig member => (List.mem_append.mp member).elim (part1.unlisted sig) (part2.unlisted sig)
  have inputs := @evalScript_pushAll crypto (checkSig crypto txTo nIn 0) _ few short
  have pushOnly := (part1.combine output part2).pushOnly
  rw [combineSignatures_eq output part1 part2] at pushOnly ⊢
  suffices verified : verifiesInput crypto txTo nIn scriptPubKey _ = fValue by
    rw [verified]
    exact value
  cases p2sh with
  | false =>
      simp only [withRedeemScript, Bool.false_eq_true, if_false, List.append_nil] at inputs ⊢
      rw [output.bare rfl]
      exact verifyScript_bare (bare_of_multisig output) inputs run
  | true =>
      obtain ⟨scriptHash, named, -⟩ := output.scriptHash rfl
      simp only [withRedeemScript, if_true, List.reverse_append, List.reverse_singleton,
        List.singleton_append, List.length_append, List.length_singleton] at inputs few pushOnly ⊢
      refine verifyScript_scripthash scriptHash pushOnly named ?_ inputs run
      rw [List.length_reverse]
      omega

end Partial

/-! ## Any order of merges -/

/-- Scripts for one output, merged in some order. -/
inductive Merging where
  | script (scriptSig : CScript)
  | combine (left right : Merging)

namespace Merging

/-- The scripts that are merged. -/
def scripts : Merging → List CScript
  | script scriptSig => [scriptSig]
  | combine left right => left.scripts ++ right.scripts

/-- The script that the merges make. -/
def result (crypto : Crypto) (txTo : CTransaction) (nIn : Nat) (scriptPubKey : CScript) :
    Merging → CScript
  | script scriptSig => scriptSig
  | combine left right =>
      combineSignatures crypto scriptPubKey txTo nIn
        (left.result crypto txTo nIn scriptPubKey) (right.result crypto txTo nIn scriptPubKey)

/-- Scripts folded in one after the other. -/
def fold (first : CScript) (rest : List CScript) : Merging :=
  rest.foldl (fun merged scriptSig => combine merged (script scriptSig)) (script first)

theorem result_fold (crypto : Crypto) (txTo : CTransaction) (nIn : Nat)
    (scriptPubKey first : CScript) (rest : List CScript) :
    (fold first rest).result crypto txTo nIn scriptPubKey =
      rest.foldl (combineSignatures crypto scriptPubKey txTo nIn) first :=
  (List.foldl_hom (result crypto txTo nIn scriptPubKey) fun _ _ => rfl).symm

theorem scripts_fold (first : CScript) (rest : List CScript) :
    (fold first rest).scripts = first :: rest := by
  suffices general : ∀ merged : Merging,
      (rest.foldl (fun merged scriptSig => combine merged (script scriptSig)) merged).scripts =
        merged.scripts ++ rest from general (script first)
  induction rest with
  | nil =>
      intro merged
      rw [List.append_nil, List.foldl_nil]
  | cons scriptSig rest induction =>
      intro merged
      rw [List.foldl_cons, induction, scripts, List.append_assoc]
      rfl

theorem scripts_ne_nil (merging : Merging) : merging.scripts ≠ [] := by
  induction merging with
  | script scriptSig => simp [scripts]
  | combine left right left_induction _ => simp [scripts, left_induction]

end Merging

section Orders

variable {crypto : Crypto} {txTo : CTransaction} {nIn : Nat} {scriptPubKey script : CScript}
  {p2sh : Bool} {vSolutions : List Valtype}

private theorem signedBy_append (sigs1 sigs2 : List Valtype) :
    signedBy crypto txTo nIn script (sigs1 ++ sigs2) = fun key =>
      signedBy crypto txTo nIn script sigs1 key || signedBy crypto txTo nIn script sigs2 key := by
  funext key
  exact List.any_append

private theorem signedBy_perm {sigs sigs' : List Valtype} (same : sigs.Perm sigs') :
    signedBy crypto txTo nIn script sigs = signedBy crypto txTo nIn script sigs' := by
  funext key
  exact same.any_eq

private theorem alike_append {left left' right right' : List Valtype}
    (lefts : Alike (multisigKeys vSolutions) (multisigRequired vSolutions)
      (signedBy crypto txTo nIn script left) (signedBy crypto txTo nIn script left'))
    (rights : Alike (multisigKeys vSolutions) (multisigRequired vSolutions)
      (signedBy crypto txTo nIn script right) (signedBy crypto txTo nIn script right')) :
    Alike (multisigKeys vSolutions) (multisigRequired vSolutions)
      (signedBy crypto txTo nIn script (left ++ right))
      (signedBy crypto txTo nIn script (left' ++ right')) := by
  rw [signedBy_append, signedBy_append]
  refine (lefts.or _).trans ?_
  simpa only [Bool.or_comm] using rights.or (signedBy crypto txTo nIn script left')

/-- Merges in any order keep what all the scripts are good for. -/
private theorem merging_alike
    (output : MultisigOutput crypto scriptPubKey script p2sh vSolutions) {merging : Merging}
    (parts : ∀ scriptSig ∈ merging.scripts,
      PartialScript crypto txTo nIn script p2sh vSolutions scriptSig) :
    PartialScript crypto txTo nIn script p2sh vSolutions
        (merging.result crypto txTo nIn scriptPubKey) ∧
      Alike (multisigKeys vSolutions) (multisigRequired vSolutions)
        (signedBy crypto txTo nIn script
          (partialSigs crypto p2sh (merging.result crypto txTo nIn scriptPubKey)))
        (signedBy crypto txTo nIn script (merging.scripts.flatMap (partialSigs crypto p2sh))) := by
  induction merging with
  | script scriptSig =>
      refine ⟨parts _ (List.mem_singleton.mpr rfl), ?_⟩
      simp only [Merging.scripts, Merging.result, List.flatMap_singleton]
      exact .refl
  | combine left right left_induction right_induction =>
      obtain ⟨left_part, left_alike⟩ := left_induction fun scriptSig member =>
        parts scriptSig (List.mem_append_left _ member)
      obtain ⟨right_part, right_alike⟩ := right_induction fun scriptSig member =>
        parts scriptSig (List.mem_append_right _ member)
      refine ⟨left_part.combine output right_part, ?_⟩
      rw [Merging.result, partialSigs_combine output left_part right_part, Merging.scripts,
        List.flatMap_append]
      exact merge_alike.trans (alike_append left_alike right_alike)

private theorem verifies_merging
    (output : MultisigOutput crypto scriptPubKey script p2sh vSolutions) {left right : Merging}
    (parts : ∀ scriptSig ∈ (left.combine right).scripts,
      PartialScript crypto txTo nIn script p2sh vSolutions scriptSig) :
    verifiesInput crypto txTo nIn scriptPubKey
        ((left.combine right).result crypto txTo nIn scriptPubKey) = true ↔
      EnoughSigned crypto txTo nIn script vSolutions
        ((left.combine right).scripts.flatMap (partialSigs crypto p2sh)) := by
  obtain ⟨left_part, left_alike⟩ := merging_alike output fun scriptSig member =>
    parts scriptSig (List.mem_append_left _ member)
  obtain ⟨right_part, right_alike⟩ := merging_alike output fun scriptSig member =>
    parts scriptSig (List.mem_append_right _ member)
  rw [Merging.result, verifies_combine output left_part right_part, Merging.scripts,
    List.flatMap_append]
  exact (alike_append left_alike right_alike).reached_iff

private theorem verifies_perm
    (output : MultisigOutput crypto scriptPubKey script p2sh vSolutions) {left right : Merging}
    (same : left.scripts.Perm right.scripts)
    (parts : ∀ scriptSig ∈ left.scripts,
      PartialScript crypto txTo nIn script p2sh vSolutions scriptSig) :
    verifiesInput crypto txTo nIn scriptPubKey (left.result crypto txTo nIn scriptPubKey) =
      verifiesInput crypto txTo nIn scriptPubKey (right.result crypto txTo nIn scriptPubKey) := by
  have lengths := same.length_eq
  have longer (first second : Merging) : 2 ≤ (first.combine second).scripts.length := by
    have first_pos := List.length_pos_of_ne_nil first.scripts_ne_nil
    have second_pos := List.length_pos_of_ne_nil second.scripts_ne_nil
    rw [Merging.scripts, List.length_append]
    omega
  cases left with
  | script scriptSig =>
      cases right with
      | script other =>
          have equal : scriptSig = other := List.singleton_perm_singleton.mp same
          rw [equal]
      | combine first second =>
          have several := longer first second
          rw [← lengths] at several
          simp [Merging.scripts] at several
  | combine first second =>
      cases right with
      | script other =>
          have several := longer first second
          rw [lengths] at several
          simp [Merging.scripts] at several
      | combine first' second' =>
          rw [Bool.eq_iff_iff, verifies_merging output parts,
            verifies_merging output fun scriptSig member =>
              parts scriptSig (same.mem_iff.mpr member)]
          rw [EnoughSigned, signedBy_perm (same.flatMap_right _), ← EnoughSigned]

private theorem verifies_fold
    (output : MultisigOutput crypto scriptPubKey script p2sh vSolutions)
    {first first' : CScript} {rest rest' : List CScript}
    (same : (first :: rest).Perm (first' :: rest'))
    (parts : ∀ scriptSig ∈ first :: rest,
      PartialScript crypto txTo nIn script p2sh vSolutions scriptSig) :
    verifiesInput crypto txTo nIn scriptPubKey
        (rest.foldl (combineSignatures crypto scriptPubKey txTo nIn) first) =
      verifiesInput crypto txTo nIn scriptPubKey
        (rest'.foldl (combineSignatures crypto scriptPubKey txTo nIn) first') := by
  rw [← Merging.scripts_fold first rest, ← Merging.scripts_fold first' rest'] at same
  rw [← Merging.scripts_fold first rest] at parts
  rw [← Merging.result_fold, ← Merging.result_fold]
  exact verifies_perm output same parts

/-- Merges of partial scripts that are evaluated are complete: two scripts verify when together
they have enough signatures, and the order in which scripts are folded or merged does not matter. -/
theorem combineSignatures_complete
    (output : MultisigOutput crypto scriptPubKey script p2sh vSolutions) :
    (∀ scriptSig1 scriptSig2, PartialScript crypto txTo nIn script p2sh vSolutions scriptSig1 →
      PartialScript crypto txTo nIn script p2sh vSolutions scriptSig2 →
        (verifiesInput crypto txTo nIn scriptPubKey
            (combineSignatures crypto scriptPubKey txTo nIn scriptSig1 scriptSig2) = true ↔
          EnoughSigned crypto txTo nIn script vSolutions
            (partialSigs crypto p2sh scriptSig1 ++ partialSigs crypto p2sh scriptSig2))) ∧
      (∀ first rest first' rest', (first :: rest).Perm (first' :: rest') →
        (∀ scriptSig ∈ first :: rest,
          PartialScript crypto txTo nIn script p2sh vSolutions scriptSig) →
        verifiesInput crypto txTo nIn scriptPubKey
            (rest.foldl (combineSignatures crypto scriptPubKey txTo nIn) first) =
          verifiesInput crypto txTo nIn scriptPubKey
            (rest'.foldl (combineSignatures crypto scriptPubKey txTo nIn) first')) ∧
      ∀ left right : Merging, left.scripts.Perm right.scripts →
        (∀ scriptSig ∈ left.scripts,
          PartialScript crypto txTo nIn script p2sh vSolutions scriptSig) →
        verifiesInput crypto txTo nIn scriptPubKey (left.result crypto txTo nIn scriptPubKey) =
          verifiesInput crypto txTo nIn scriptPubKey
            (right.result crypto txTo nIn scriptPubKey) :=
  ⟨fun _ _ part1 part2 => verifies_combine output part1 part2,
    fun _ _ _ _ same parts => verifies_fold output same parts,
    fun _ _ same parts => verifies_perm output same parts⟩

end Orders

/-! ## A script with one key -/

/-- A multisig script that asks for the signature of the sample key. -/
def tagMultisig : CScript :=
  UInt8.ofNat OP_1 :: (pushData tagPubKey ++ [UInt8.ofNat OP_1, UInt8.ofNat OP_CHECKMULTISIG])

/-- The signature of the sample transaction. -/
def tagSignature : Valtype :=
  (0x30 :: uint256Bytes (signatureHash tagCrypto tagMultisig oneInput 0 1)) ++ [1]

private theorem tagMultisig_output :
    MultisigOutput tagCrypto (payToScript tagMultisig) tagMultisig true [[1], tagPubKey, [1]] where
  solved := by decide +kernel
  distinct := by decide
  bare := by simp
  scriptHash _ := by decide +kernel

private theorem tagMultisig_bare :
    MultisigOutput tagCrypto tagMultisig tagMultisig false [[1], tagPubKey, [1]] where
  solved := by decide +kernel
  distinct := by decide
  bare _ := rfl
  scriptHash := by simp

private theorem tagMultisig_single {sig key other : Valtype}
    (listed : key ∈ multisigKeys [[1], tagPubKey, [1]])
    (listed_other : other ∈ multisigKeys [[1], tagPubKey, [1]]) :
    checkSig tagCrypto oneInput 0 0 sig key tagMultisig = true →
      checkSig tagCrypto oneInput 0 0 sig other tagMultisig = true → key = other := by
  intro _ _
  exact (List.mem_singleton.mp listed).trans (List.mem_singleton.mp listed_other).symm

private theorem tagMultisig_unfinished {sigs : List Valtype}
    (pushOnly : isPushOnly (pushAll (withRedeemScript true tagMultisig sigs)) = true)
    (evaluated : (evalScript tagCrypto (checkSig tagCrypto .null 0 0) []
      (pushAll (withRedeemScript true tagMultisig sigs))).outcome.isOk = true)
    (values : scriptValues tagCrypto (pushAll (withRedeemScript true tagMultisig sigs)) =
      withRedeemScript true tagMultisig sigs)
    (unlisted : tagPubKey ∉ sigs) :
    PartialScript tagCrypto oneInput 0 tagMultisig true [[1], tagPubKey, [1]]
      (pushAll (withRedeemScript true tagMultisig sigs)) where
  pushOnly := pushOnly
  evaluated := evaluated
  redeemScript _ := by rw [values, withRedeemScript, if_pos rfl, List.getLast?_concat]
  unlisted sig member listed := by
    rw [partialSigs, if_pos rfl, values, withRedeemScript, if_pos rfl, List.dropLast_concat]
      at member
    exact unlisted (List.mem_singleton.mp listed ▸ member)
  single _ _ _ listed _ listed_other := tagMultisig_single listed listed_other

theorem combineSignatures_complete_tagMultisig :
    verifiesInput tagCrypto oneInput 0 (payToScript tagMultisig)
      (combineSignatures tagCrypto (payToScript tagMultisig) oneInput 0
        (pushAll (withRedeemScript true tagMultisig [[], []]))
        (pushAll (withRedeemScript true tagMultisig [[], tagSignature]))) = true :=
  ((combineSignatures_complete tagMultisig_output).1 _ _
    (tagMultisig_unfinished (by decide +kernel) (by decide +kernel) (by decide +kernel)
      (by decide +kernel))
    (tagMultisig_unfinished (by decide +kernel) (by decide +kernel) (by decide +kernel)
      (by decide +kernel))).mpr (by
        unfold EnoughSigned Reached
        decide +kernel)

private theorem scriptValues_of_long {crypto : Crypto} {scriptSig : CScript}
    (long : 10000 < scriptSig.length) : scriptValues crypto scriptSig = [] := by
  rw [scriptValues, evalScriptLeft, if_pos long, List.reverse_nil]

private theorem emptyScript_partial :
    PartialScript tagCrypto oneInput 0 tagMultisig false [[1], tagPubKey, [1]] [] where
  pushOnly := rfl
  evaluated := by decide +kernel
  redeemScript := by simp
  unlisted sig member := by simp [partialSigs, scriptValues, evalScriptLeft, evalLoopLeft,
    EvalState.initial] at member
  single _ _ _ listed _ listed_other := tagMultisig_single listed listed_other

/-- A script of more than 10000 bytes is not evaluated, and its signature is lost. -/
theorem combineSignatures_loses_signature :
    ¬∀ (crypto : Crypto) (txTo : CTransaction) (nIn : Nat) (scriptPubKey script : CScript)
        (p2sh : Bool) (vSolutions : List Valtype),
      MultisigOutput crypto scriptPubKey script p2sh vSolutions →
      ∀ sigs1 sigs2 : List Valtype,
        (∀ sig ∈ sigs1 ++ sigs2, sig ∉ multisigKeys vSolutions ∧
          ∀ key ∈ multisigKeys vSolutions, ∀ other ∈ multisigKeys vSolutions,
            checkSig crypto txTo nIn 0 sig key script = true →
              checkSig crypto txTo nIn 0 sig other script = true → key = other) →
        (verifiesInput crypto txTo nIn scriptPubKey (combineSignatures crypto scriptPubKey txTo nIn
            (pushAll (withRedeemScript p2sh script sigs1))
            (pushAll (withRedeemScript p2sh script sigs2))) = true ↔
          EnoughSigned crypto txTo nIn script vSolutions (sigs1 ++ sigs2)) := by
  intro complete
  have long : 10000 < (pushAll (withRedeemScript false tagMultisig
      (List.replicate 10001 [] ++ [tagSignature]))).length := by
    rw [withRedeemScript, pushAll_append, pushAll_append, pushAll_replicate_nil, List.length_append,
      List.length_append, List.length_replicate]
    omega
  have merged : combineSignatures tagCrypto tagMultisig oneInput 0
      (pushAll (withRedeemScript false tagMultisig (List.replicate 10001 [] ++ [tagSignature])))
      (pushAll (withRedeemScript false tagMultisig [])) =
        combineSignatures tagCrypto tagMultisig oneInput 0 [] [] := by
    rw [combineSignatures, combineSignatures, scriptValues_of_long long]
    rfl
  have promised := complete tagCrypto oneInput 0 tagMultisig tagMultisig false _ tagMultisig_bare
    (List.replicate 10001 [] ++ [tagSignature]) [] fun sig member => by
      refine ⟨fun listed => ?_, fun key listed other listed_other =>
        tagMultisig_single listed listed_other⟩
      rw [List.append_nil] at member
      obtain rfl := List.mem_singleton.mp listed
      rcases List.mem_append.mp member with placeholder | signature
      · exact absurd (List.eq_of_mem_replicate placeholder) (by decide)
      · exact absurd (List.mem_singleton.mp signature) (by decide +kernel)
  have signed : EnoughSigned tagCrypto oneInput 0 tagMultisig [[1], tagPubKey, [1]]
      ((List.replicate 10001 [] ++ [tagSignature]) ++ []) := by
    rw [EnoughSigned, List.append_nil, signedBy_append]
    have alone : Reached (multisigKeys [[1], tagPubKey, [1]]) (multisigRequired
        [[1], tagPubKey, [1]]) (signedBy tagCrypto oneInput 0 tagMultisig [tagSignature]) := by
      unfold Reached
      decide +kernel
    refine alone.mono fun key _ valid => ?_
    rw [valid, Bool.or_true]
  rw [merged, verifies_combine tagMultisig_bare emptyScript_partial emptyScript_partial] at promised
  have unsigned : ¬EnoughSigned tagCrypto oneInput 0 tagMultisig [[1], tagPubKey, [1]]
      (partialSigs tagCrypto false [] ++ partialSigs tagCrypto false []) := by
    unfold EnoughSigned Reached
    decide +kernel
  exact unsigned (promised.mpr signed)

end FooCoin

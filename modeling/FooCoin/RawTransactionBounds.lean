import FooCoin.KeyEncryption
import FooCoin.RawTransaction
import FooCoin.SampleChain

/-!
# The vector accesses of `signrawtransaction`

The command reads out of range in two ways: an input of the first variant names an output that the
entry left by `FetchInputs` does not have, or a known input has no counterpart in another variant.
-/

namespace FooCoin

open Function

variable {lib : OpenSSL}

/-! ## The conditions -/

/-- The previous transactions that `FetchInputs` asks for, up to the first it does not find. -/
def askedFor (fetch : UInt256 → Option (CTxIndex × CTransaction)) : List CTxIn → List UInt256
  | [] => []
  | txin :: vin =>
      txin.prevout.hash :: if (fetch txin.prevout.hash).isSome then askedFor fetch vin else []

namespace SignNode

/-- The previous transactions that are asked for; a coinbase has none. -/
def asked (node : SignNode lib) (mergedTx : CTransaction) : List UInt256 :=
  if mergedTx.isCoinBase then [] else askedFor node.fetch mergedTx.vin

/-- What is filed for a previous transaction that is asked for. -/
def filed (node : SignNode lib) (hash : UInt256) : CTxIndex × CTransaction :=
  (node.fetch hash).getD (leftEntry node.torn node.txdb hash)

/-- Every input with an entry names one of the outputs filed there. -/
def OutputsInRange (node : SignNode lib) (request : SignRequest) : Prop :=
  ∀ txin ∈ request.first.vin, txin.prevout.hash ∈ node.asked request.first →
    txin.prevout.n.toNat < (node.filed txin.prevout.hash).2.vout.length

/-- The script of an input of the first variant, from the filed outputs. -/
def chainScript (node : SignNode lib) (request : SignRequest) : MapPrevOut := fun outpoint =>
  if outpoint ∈ request.first.vin.map CTxIn.prevout ∧ outpoint.hash ∈ node.asked request.first then
    (node.filed outpoint.hash).2.vout[outpoint.n.toNat]?.map CTxOut.scriptPubKey
  else none

end SignNode

/-- The given outputs contradict neither the known scripts nor each other. -/
structure Consistent (known : MapPrevOut) (prevOuts : List (COutPoint × CScript)) : Prop where
  known_eq : ∀ prevOut ∈ prevOuts, ∀ script, known prevOut.1 = some script → script = prevOut.2
  same : prevOuts.Pairwise fun left right => left.1 = right.1 → left.2 = right.2

/-- The command goes on to sign: the other parameters parse and give these previous outputs. -/
structure SignNode.Accepts (node : SignNode lib) (request : SignRequest)
    (prevOuts : List (COutPoint × CScript)) : Prop where
  parsed : request.prevTxs.mapM PrevTxParam.parse = .ok prevOuts
  consistent : Consistent (node.chainScript request) prevOuts
  keys : (node.keystore request.keys).isOk
  hashType : (hashTypeOf request.sigHashType).isOk

/-- Where the command goes on to sign, every variant has a counterpart of every known input. -/
def SignNode.VariantsInRange (node : SignNode lib) (request : SignRequest) : Prop :=
  ∀ prevOuts, node.Accepts request prevOuts → ∀ i txin, request.first.vin[i]? = some txin →
    (node.chainScript request txin.prevout).isSome ∨ txin.prevout ∈ prevOuts.map Prod.fst →
      ∀ txv ∈ request.others, i < txv.vin.length

/-! ## Copying the previous outputs -/

private theorem except_bind_eq_error {ε α β : Type} {first : Except ε α} {next : α → Except ε β}
    {failure : ε} :
    first >>= next = .error failure ↔
      first = .error failure ∨ ∃ value, first = .ok value ∧ next value = .error failure := by
  cases first with
  | error _ => simp [bind, Except.bind]
  | ok _ => simp [bind, Except.bind]

private theorem fetchLoopLeft_apply {fetch : UInt256 → Option (CTxIndex × CTransaction)}
    {left : UInt256 → CTxIndex × CTransaction} {vin : List CTxIn} {inputs : MapPrevTx}
    (found : ∀ hash prev, inputs hash = some prev → fetch hash = some prev) (hash : UInt256) :
    fetchLoopLeft fetch left vin inputs hash =
      if hash ∈ askedFor fetch vin then some ((fetch hash).getD (left hash)) else inputs hash := by
  induction vin generalizing inputs with
  | nil => simp [fetchLoopLeft, askedFor]
  | cons txin vin induction =>
      simp only [fetchLoopLeft, askedFor, List.mem_cons]
      cases known : inputs txin.prevout.hash with
      | some prev =>
          have present := found _ _ known
          simp only [Option.isSome_some, if_true, present, induction found]
          by_cases here : hash = txin.prevout.hash
          · simp [here, known, present]
          · simp [here]
      | none =>
          simp only [Option.isSome_none, Bool.false_eq_true, if_false]
          cases present : fetch txin.prevout.hash with
          | none =>
              by_cases here : hash = txin.prevout.hash
              · simp [here, present]
              · simp [here]
          | some prev =>
              have found' : ∀ hash other,
                  update inputs txin.prevout.hash (some prev) hash = some other →
                    fetch hash = some other := by
                intro hash other same
                by_cases here : hash = txin.prevout.hash
                · rw [here, update_self] at same
                  exact here ▸ present.trans same
                · rw [update_of_ne here] at same
                  exact found _ _ same
              simp only [induction found', Option.isSome_some, if_true]
              by_cases here : hash = txin.prevout.hash
              · simp [here, present]
              · simp [here]

private theorem SignNode.mapPrevTx_apply (node : SignNode lib) (mergedTx : CTransaction)
    (hash : UInt256) :
    node.mapPrevTx mergedTx hash =
      if hash ∈ node.asked mergedTx then some (node.filed hash) else none := by
  unfold mapPrevTx asked filed
  by_cases coinbase : mergedTx.isCoinBase = true
  · simp [coinbase]
  · simp only [coinbase, Bool.false_eq_true, if_false]
    exact fetchLoopLeft_apply (by simp) hash

/-- Every input with an entry names one of its outputs. -/
private def EntriesInRange (mapPrevTx : MapPrevTx) (vin : List CTxIn) : Prop :=
  ∀ txin ∈ vin, ∀ prev, mapPrevTx txin.prevout.hash = some prev →
    txin.prevout.n.toNat < prev.2.vout.length

private theorem copyPrevOuts_error {mapPrevTx : MapPrevTx} {vin : List CTxIn}
    {mapPrevOut : MapPrevOut} (outside : ¬EntriesInRange mapPrevTx vin) :
    copyPrevOuts mapPrevTx vin mapPrevOut = .error .outOfRange := by
  induction vin generalizing mapPrevOut with
  | nil => exact absurd (by simp [EntriesInRange]) outside
  | cons txin vin induction =>
      unfold copyPrevOuts
      cases entry : mapPrevTx txin.prevout.hash with
      | none =>
          refine induction fun inside => outside ?_
          simpa [EntriesInRange, entry] using inside
      | some prev =>
          obtain ⟨txindex, txPrev⟩ := prev
          cases output : txPrev.vout[txin.prevout.n.toNat]? with
          | none => simp [output, throw, throwThe, MonadExceptOf.throw]
          | some txout =>
              simp only [output]
              refine induction fun inside => outside ?_
              have present := (List.getElem?_eq_some_iff.mp output).1
              simpa [EntriesInRange, entry, present] using inside

private theorem copyPrevOuts_ok {mapPrevTx : MapPrevTx} {vin : List CTxIn}
    {mapPrevOut : MapPrevOut} (inside : EntriesInRange mapPrevTx vin) :
    copyPrevOuts mapPrevTx vin mapPrevOut = .ok fun outpoint =>
      if outpoint ∈ vin.map CTxIn.prevout ∧ (mapPrevTx outpoint.hash).isSome then
        (mapPrevTx outpoint.hash).bind fun prev =>
          prev.2.vout[outpoint.n.toNat]?.map CTxOut.scriptPubKey
      else mapPrevOut outpoint := by
  induction vin generalizing mapPrevOut with
  | nil => simp [copyPrevOuts, pure, Except.pure]
  | cons txin vin induction =>
      unfold copyPrevOuts
      have later : EntriesInRange mapPrevTx vin := fun other member =>
        inside other (List.mem_cons_of_mem _ member)
      cases entry : mapPrevTx txin.prevout.hash with
      | none =>
          simp only [induction later, Except.ok.injEq]
          funext outpoint
          by_cases here : outpoint = txin.prevout
          · simp [here, entry]
          · simp [here]
      | some prev =>
          obtain ⟨txindex, txPrev⟩ := prev
          have present := inside txin List.mem_cons_self _ entry
          obtain ⟨txout, output⟩ : ∃ txout, txPrev.vout[txin.prevout.n.toNat]? = some txout :=
            ⟨_, List.getElem?_eq_getElem present⟩
          simp only [output, induction later, Except.ok.injEq]
          funext outpoint
          by_cases here : outpoint = txin.prevout
          · by_cases again : txin.prevout ∈ vin.map CTxIn.prevout
            · simp only [here, entry, again, List.map_cons, List.mem_cons, true_or, true_and,
                Option.isSome_some, if_true]
            · simp only [here, entry, again, List.map_cons, List.mem_cons, true_or, true_and,
                Option.isSome_some, if_true, false_and, if_false, update_self, Option.bind_some,
                output, Option.map_some]
          · simp [here]

private theorem entriesInRange_iff {node : SignNode lib} {request : SignRequest} :
    EntriesInRange (node.mapPrevTx request.first) request.first.vin ↔
      node.OutputsInRange request := by
  simp [EntriesInRange, SignNode.OutputsInRange, SignNode.mapPrevTx_apply]

private theorem copyPrevOuts_chainScript {node : SignNode lib} {request : SignRequest}
    (inside : node.OutputsInRange request) :
    copyPrevOuts (node.mapPrevTx request.first) request.first.vin (fun _ => none) =
      .ok (node.chainScript request) := by
  rw [copyPrevOuts_ok (entriesInRange_iff.mpr inside)]
  congr 1
  funext outpoint
  by_cases filed : outpoint.hash ∈ node.asked request.first
  · simp [SignNode.chainScript, SignNode.mapPrevTx_apply, filed]
  · simp [SignNode.chainScript, SignNode.mapPrevTx_apply, filed]

/-! ## Adding the given outputs -/

/-- The map with a given output added, unless it is known. -/
private def giveOut (mapPrevOut : MapPrevOut) (prevOut : COutPoint × CScript) : MapPrevOut :=
  if (mapPrevOut prevOut.1).isSome then mapPrevOut
  else update mapPrevOut prevOut.1 (some prevOut.2)

/-- The map with the given outputs added. -/
private def withGiven (mapPrevOut : MapPrevOut) (prevOuts : List (COutPoint × CScript)) :
    MapPrevOut :=
  prevOuts.foldl giveOut mapPrevOut

private theorem isSome_withGiven {prevOuts : List (COutPoint × CScript)} {mapPrevOut : MapPrevOut}
    {outpoint : COutPoint} :
    (withGiven mapPrevOut prevOuts outpoint).isSome ↔
      (mapPrevOut outpoint).isSome ∨ outpoint ∈ prevOuts.map Prod.fst := by
  induction prevOuts generalizing mapPrevOut with
  | nil => simp [withGiven]
  | cons prevOut prevOuts induction =>
      change (withGiven (giveOut mapPrevOut prevOut) prevOuts outpoint).isSome ↔ _
      rw [induction, List.map_cons, List.mem_cons]
      unfold giveOut
      by_cases here : outpoint = prevOut.1
      · subst here
        split_ifs with known
        · simp [known]
        · simp
      · split_ifs with known
        · simp [here]
        · simp [here, update_of_ne]

private theorem consistent_cons {known : MapPrevOut} {prevOut : COutPoint × CScript}
    {prevOuts : List (COutPoint × CScript)} :
    Consistent known (prevOut :: prevOuts) ↔
      (∀ script, known prevOut.1 = some script → script = prevOut.2) ∧
        Consistent (giveOut known prevOut) prevOuts := by
  constructor
  · intro consistent
    refine ⟨consistent.known_eq prevOut List.mem_cons_self, ⟨?_, consistent.same.tail⟩⟩
    intro other member script same
    unfold giveOut at same
    split at same
    · exact consistent.known_eq other (List.mem_cons_of_mem _ member) script same
    · by_cases here : other.1 = prevOut.1
      · rw [here, update_self, Option.some.injEq] at same
        exact same ▸ (List.pairwise_cons.mp consistent.same).1 other member here.symm
      · rw [update_of_ne here] at same
        exact consistent.known_eq other (List.mem_cons_of_mem _ member) script same
  · rintro ⟨first, consistent⟩
    have given : giveOut known prevOut prevOut.1 = some prevOut.2 := by
      unfold giveOut
      cases present : known prevOut.1 with
      | none => simp
      | some script => simp [present, first script present]
    constructor
    · intro other member script same
      rcases List.mem_cons.mp member with here | later
      · exact here ▸ first script (here ▸ same)
      · refine consistent.known_eq other later script ?_
        unfold giveOut
        split_ifs with present
        · exact same
        · have elsewhere : other.1 ≠ prevOut.1 := by
            rintro here
            simp [← here, same] at present
          rwa [update_of_ne elsewhere]
    · refine List.pairwise_cons.mpr ⟨fun other member here => ?_, consistent.same⟩
      exact consistent.known_eq other member _ (here ▸ given)

private theorem addPrevOut_ok {mapPrevOut : MapPrevOut} {prevOut : COutPoint × CScript}
    (agrees : ∀ script, mapPrevOut prevOut.1 = some script → script = prevOut.2) :
    addPrevOut mapPrevOut prevOut.1 prevOut.2 = .ok (giveOut mapPrevOut prevOut) := by
  cases known : mapPrevOut prevOut.1 with
  | none => simp [addPrevOut, giveOut, known, pure, Except.pure]
  | some script => simp [addPrevOut, giveOut, known, agrees script known, pure, Except.pure]

private theorem addPrevOut_eq_ok {mapPrevOut result : MapPrevOut} {outpoint : COutPoint}
    {scriptPubKey : CScript}
    (added : addPrevOut mapPrevOut outpoint scriptPubKey = .ok result) :
    ∀ script, mapPrevOut outpoint = some script → script = scriptPubKey := by
  intro script known
  by_contra differs
  simp [addPrevOut, known, differs] at added

/-- The given outputs are added when they parse and contradict nothing. -/
private theorem addPrevOuts_eq_ok {prevTxs : List PrevTxParam} {mapPrevOut result : MapPrevOut} :
    addPrevOuts prevTxs mapPrevOut = .ok result ↔
      ∃ prevOuts, prevTxs.mapM PrevTxParam.parse = .ok prevOuts ∧
        Consistent mapPrevOut prevOuts ∧ result = withGiven mapPrevOut prevOuts := by
  induction prevTxs generalizing mapPrevOut with
  | nil =>
      simp only [addPrevOuts, List.mapM_nil, pure_eq_ok, exists_eq_left']
      constructor
      · rintro rfl
        exact ⟨⟨by simp, .nil⟩, rfl⟩
      · rintro ⟨_, same⟩
        exact same.symm
  | cons p prevTxs induction =>
      simp only [addPrevOuts, List.mapM_cons, except_bind_eq_ok, pure_eq_ok]
      constructor
      · rintro ⟨prevOut, parsed, after, added, rest⟩
        obtain ⟨prevOuts, later, consistent, rfl⟩ := induction.mp rest
        have agrees := addPrevOut_eq_ok added
        have same := added.symm.trans (addPrevOut_ok agrees)
        cases same
        exact ⟨prevOut :: prevOuts, ⟨prevOut, parsed, prevOuts, later, rfl⟩,
          consistent_cons.mpr ⟨agrees, consistent⟩, rfl⟩
      · rintro ⟨_, ⟨prevOut, parsed, prevOuts, later, rfl⟩, consistent, rfl⟩
        obtain ⟨agrees, consistent⟩ := consistent_cons.mp consistent
        exact ⟨prevOut, parsed, _, addPrevOut_ok agrees,
          induction.mpr ⟨prevOuts, later, consistent, rfl⟩⟩

private theorem parse_inRange (p : PrevTxParam) : p.parse ≠ .error .outOfRange := by
  cases p with
  | other => simp [PrevTxParam.parse, throw, throwThe, MonadExceptOf.throw]
  | mistyped message => simp [PrevTxParam.parse, throw, throwThe, MonadExceptOf.throw]
  | object txid vout script =>
      simp only [PrevTxParam.parse]
      split_ifs <;> simp [throw, throwThe, MonadExceptOf.throw, pure, Except.pure]

private theorem addPrevOut_inRange (mapPrevOut : MapPrevOut) (outpoint : COutPoint)
    (scriptPubKey : CScript) :
    addPrevOut mapPrevOut outpoint scriptPubKey ≠ .error .outOfRange := by
  unfold addPrevOut
  split
  · split <;> simp [throw, throwThe, MonadExceptOf.throw, pure, Except.pure]
  · simp [pure, Except.pure]

private theorem addPrevOuts_inRange (prevTxs : List PrevTxParam) (mapPrevOut : MapPrevOut) :
    addPrevOuts prevTxs mapPrevOut ≠ .error .outOfRange := by
  induction prevTxs generalizing mapPrevOut with
  | nil => simp [addPrevOuts, pure, Except.pure]
  | cons p prevTxs induction =>
      intro failed
      rw [addPrevOuts, except_bind_eq_error] at failed
      rcases failed with failed | ⟨prevOut, -, failed⟩
      · exact parse_inRange p failed
      · rcases except_bind_eq_error.mp failed with failed | ⟨_, -, failed⟩
        · exact addPrevOut_inRange _ _ _ failed
        · exact induction _ failed

/-! ## Keys and hash type -/

private theorem addKey_inRange (node : SignNode lib) (store : CBasicKeyStore) (k : StrParam) :
    node.addKey store k ≠ .error .outOfRange := by
  unfold SignNode.addKey
  split
  · simp [throw, throwThe, MonadExceptOf.throw]
  · split
    · simp [throw, throwThe, MonadExceptOf.throw]
    · split <;> simp [throw, throwThe, MonadExceptOf.throw, pure, Except.pure]

private theorem addKeys_inRange (node : SignNode lib) (keys : List StrParam)
    (store : CBasicKeyStore) : keys.foldlM node.addKey store ≠ .error .outOfRange := by
  induction keys generalizing store with
  | nil => simp [pure, Except.pure]
  | cons k keys induction =>
      intro failed
      rw [List.foldlM_cons, except_bind_eq_error] at failed
      rcases failed with failed | ⟨after, -, failed⟩
      · exact addKey_inRange _ _ _ failed
      · exact induction after failed

private theorem keystore_inRange (node : SignNode lib) (keys : Option (List StrParam)) :
    node.keystore keys ≠ .error .outOfRange := by
  cases keys with
  | none => simp [SignNode.keystore, pure, Except.pure]
  | some keys =>
      intro failed
      rw [SignNode.keystore, except_bind_eq_error] at failed
      rcases failed with failed | ⟨_, -, failed⟩
      · exact addKeys_inRange _ _ _ failed
      · simp [pure, Except.pure] at failed

private theorem hashTypeOf_inRange (param : Option StrParam) :
    hashTypeOf param ≠ .error .outOfRange := by
  unfold hashTypeOf
  split
  · simp [pure, Except.pure]
  · simp [throw, throwThe, MonadExceptOf.throw]
  · split <;> simp [throw, throwThe, MonadExceptOf.throw, pure, Except.pure]

/-! ## Signing -/

@[simp]
theorem CTransaction.prevouts_setScriptSig (tx : CTransaction) (nIn : Nat) (scriptSig : CScript) :
    (tx.setScriptSig nIn scriptSig).vin.map CTxIn.prevout = tx.vin.map CTxIn.prevout := by
  refine List.ext_getElem? fun i => ?_
  simp only [CTransaction.setScriptSig, List.getElem?_map, List.getElem?_modify]
  cases tx.vin[i]? with
  | none => rfl
  | some txin => by_cases here : nIn = i <;> simp [here]

@[simp]
theorem CTransaction.length_setScriptSig (tx : CTransaction) (nIn : Nat) (scriptSig : CScript) :
    (tx.setScriptSig nIn scriptSig).vin.length = tx.vin.length := by
  simp [CTransaction.setScriptSig]

private theorem length_of_prevouts {left right : CTransaction}
    (same : left.vin.map CTxIn.prevout = right.vin.map CTxIn.prevout) :
    left.vin.length = right.vin.length := by
  simpa using congrArg List.length same

/-- Signing an input there is changes scripts only. -/
private theorem signSignature_ok (crypto : Crypto) (keystore : SigningKeyStore)
    (fromPubKey : CScript) (nHashType : Int32) {txTo : CTransaction} {nIn : Nat}
    (present : nIn < txTo.vin.length) :
    ∃ solved result, signSignature crypto keystore fromPubKey txTo nIn nHashType =
        .ok (solved, result) ∧
      result.vin.map CTxIn.prevout = txTo.vin.map CTxIn.prevout := by
  unfold signSignature
  rw [if_neg (Nat.not_le.mpr present)]
  dsimp only
  split
  · exact ⟨_, _, rfl, CTransaction.prevouts_setScriptSig _ _ _⟩
  · refine ⟨_, _, rfl, ?_⟩
    rw [CTransaction.prevouts_setScriptSig, CTransaction.prevouts_setScriptSig]
  · exact ⟨_, _, rfl, CTransaction.prevouts_setScriptSig _ _ _⟩

private theorem mergeVariants_ok (crypto : Crypto) (prevPubKey : CScript) {i : Nat}
    {txVariants : List CTransaction} {mergedTx : CTransaction} (present : i < mergedTx.vin.length)
    (counterparts : ∀ txv ∈ txVariants, i < txv.vin.length) :
    ∃ result, mergeVariants crypto prevPubKey i txVariants mergedTx = .ok result ∧
      result.vin.map CTxIn.prevout = mergedTx.vin.map CTxIn.prevout := by
  induction txVariants generalizing mergedTx with
  | nil => exact ⟨mergedTx, rfl, rfl⟩
  | cons txv txVariants induction =>
      obtain ⟨first, later⟩ := List.forall_mem_cons.mp counterparts
      unfold mergeVariants
      rw [List.getElem?_eq_getElem present, List.getElem?_eq_getElem first]
      have step := CTransaction.prevouts_setScriptSig mergedTx i
        (combineSignatures crypto prevPubKey mergedTx i mergedTx.vin[i].scriptSig
          txv.vin[i].scriptSig)
      obtain ⟨result, merged, same⟩ := induction (length_of_prevouts step ▸ present) later
      exact ⟨result, merged, same.trans step⟩

private theorem mergeVariants_error {crypto : Crypto} {prevPubKey : CScript} {i : Nat}
    {txVariants : List CTransaction} {mergedTx : CTransaction}
    (short : ∃ txv ∈ txVariants, txv.vin.length ≤ i) :
    mergeVariants crypto prevPubKey i txVariants mergedTx = .error .outOfRange := by
  induction txVariants generalizing mergedTx with
  | nil => simp at short
  | cons txv txVariants induction =>
      unfold mergeVariants
      split
      · rename_i txin input own present
        refine induction ?_
        obtain ⟨other, member, outside⟩ := short
        rcases List.mem_cons.mp member with here | later
        · have inside := (List.getElem?_eq_some_iff.mp present).1
          exact absurd outside (Nat.not_le.mpr (here ▸ inside))
        · exact ⟨other, later, outside⟩
      · rfl

/-- A known input without its counterpart in some variant. -/
private def Short (mapPrevOut : MapPrevOut) (txVariants : List CTransaction) (i : Nat)
    (prevout : COutPoint) : Prop :=
  (mapPrevOut prevout).isSome ∧ ∃ txv ∈ txVariants, txv.vin.length ≤ i

section Loop

variable (crypto : Crypto) (keystore : SigningKeyStore) (nHashType : Int32)
  {mapPrevOut : MapPrevOut} {txVariants : List CTransaction}

private theorem signInput_ok {i : Nat} {mergedTx : CTransaction} {txin : CTxIn}
    (input : mergedTx.vin[i]? = some txin)
    (complete : ¬Short mapPrevOut txVariants i txin.prevout) :
    ∃ result signed,
      signInput crypto keystore nHashType mapPrevOut txVariants i mergedTx =
          .ok (result, signed) ∧
        result.vin.map CTxIn.prevout = mergedTx.vin.map CTxIn.prevout := by
  unfold signInput
  simp only [input]
  cases known : mapPrevOut txin.prevout with
  | none => exact ⟨mergedTx, false, rfl, rfl⟩
  | some prevPubKey =>
      have present := (List.getElem?_eq_some_iff.mp input).1
      have counterparts : ∀ txv ∈ txVariants, i < txv.vin.length := by
        simpa [Short, known] using complete
      have cleared := CTransaction.prevouts_setScriptSig mergedTx i []
      obtain ⟨solved, signed, sign, prevouts⟩ :=
        signSignature_ok crypto keystore prevPubKey nHashType (length_of_prevouts cleared ▸ present)
      rw [cleared] at prevouts
      obtain ⟨result, merge, same⟩ :=
        mergeVariants_ok crypto prevPubKey (length_of_prevouts prevouts ▸ present) counterparts
      have inside : i < result.vin.length := by
        rwa [length_of_prevouts (same.trans prevouts)]
      dsimp only
      rw [sign]
      dsimp only
      rw [merge, except_ok_bind, List.getElem?_eq_getElem inside]
      exact ⟨_, _, rfl, same.trans prevouts⟩

private theorem signInput_error {i : Nat} {mergedTx : CTransaction} {txin : CTxIn}
    (input : mergedTx.vin[i]? = some txin) (short : Short mapPrevOut txVariants i txin.prevout) :
    signInput crypto keystore nHashType mapPrevOut txVariants i mergedTx =
      .error .outOfRange := by
  obtain ⟨known, short⟩ := short
  obtain ⟨prevPubKey, known⟩ := Option.isSome_iff_exists.mp known
  have present := (List.getElem?_eq_some_iff.mp input).1
  have cleared := CTransaction.prevouts_setScriptSig mergedTx i []
  obtain ⟨solved, signed, sign, -⟩ :=
    signSignature_ok crypto keystore prevPubKey nHashType (length_of_prevouts cleared ▸ present)
  unfold signInput
  simp only [input, known, sign, mergeVariants_error short]
  rfl

/-- The loop reads out of range exactly when it comes to a known input without counterparts. -/
private theorem signInputs_error_iff {count i : Nat} {mergedTx : CTransaction} {fComplete : Bool}
    (covers : i + count ≤ mergedTx.vin.length) :
    signInputs crypto keystore nHashType mapPrevOut txVariants count i mergedTx fComplete =
        .error .outOfRange ↔
      ∃ j prevout, i ≤ j ∧ j < i + count ∧
        (mergedTx.vin.map CTxIn.prevout)[j]? = some prevout ∧
          Short mapPrevOut txVariants j prevout := by
  induction count generalizing i mergedTx fComplete with
  | zero =>
      simp only [signInputs, pure, Except.pure, reduceCtorEq, false_iff]
      rintro ⟨j, _, from_i, before, -⟩
      omega
  | succ count induction =>
      have present : i < mergedTx.vin.length := by omega
      have input := List.getElem?_eq_getElem present
      have prevout : (mergedTx.vin.map CTxIn.prevout)[i]? = some mergedTx.vin[i].prevout := by
        rw [List.getElem?_map, input, Option.map_some]
      unfold signInputs
      by_cases short : Short mapPrevOut txVariants i mergedTx.vin[i].prevout
      · rw [signInput_error crypto keystore nHashType input short]
        exact ⟨fun _ => ⟨i, _, le_rfl, by omega, prevout, short⟩, fun _ => rfl⟩
      · obtain ⟨result, signed, sign, same⟩ := signInput_ok crypto
          keystore nHashType input short
        rw [sign, except_ok_bind,
          induction (by rw [length_of_prevouts same]; omega), same]
        constructor
        · rintro ⟨j, other, after, before, named, short⟩
          exact ⟨j, other, by omega, by omega, named, short⟩
        · rintro ⟨j, other, after, before, named, shortJ⟩
          rcases Nat.eq_or_lt_of_le after with rfl | later
          · rw [prevout, Option.some.injEq] at named
            exact absurd (named ▸ shortJ) short
          · exact ⟨j, other, later, by omega, named, shortJ⟩

end Loop

private theorem isOk_iff {ε α : Type} {outcome : Except ε α} :
    outcome.isOk = true ↔ ∃ value, outcome = .ok value :=
  ⟨exists_of_isOk, fun ⟨value, same⟩ => by simp [same, Except.isOk, Except.toBool]⟩

/-- The signing loop of an accepted request reads out of range when a variant is short. -/
private theorem not_variantsInRange_iff {node : SignNode lib} {request : SignRequest} :
    ¬node.VariantsInRange request ↔
      ∃ prevOuts, node.Accepts request prevOuts ∧
        ∃ j prevout, j < request.first.vin.length ∧
          (request.first.vin.map CTxIn.prevout)[j]? = some prevout ∧
            Short (withGiven (node.chainScript request) prevOuts) request.txVariants j prevout := by
  unfold SignNode.VariantsInRange
  push Not
  constructor
  · rintro ⟨prevOuts, accepts, j, txin, input, known, txv, member, short⟩
    refine ⟨prevOuts, accepts, j, txin.prevout, (List.getElem?_eq_some_iff.mp input).1, ?_,
      isSome_withGiven.mpr known, txv, List.mem_cons_of_mem _ member, short⟩
    rw [List.getElem?_map, input, Option.map_some]
  · rintro ⟨prevOuts, accepts, j, prevout, present, named, known, txv, member, short⟩
    rw [List.getElem?_map, List.getElem?_eq_getElem present, Option.map_some,
      Option.some.injEq] at named
    subst named
    rcases List.mem_cons.mp member with here | other
    · exact absurd short (Nat.not_le.mpr (here ▸ present))
    · exact ⟨prevOuts, accepts, j, _, List.getElem?_eq_getElem present,
        isSome_withGiven.mp known, txv, other, short⟩

/-- A node whose memory pool holds one transaction with one output. -/
private def sampleSignNode : SignNode sampleOpenSSL where
  env := { crypto := sampleCrypto, files := fun _ => [], fTestNet := true, hashGenesisBlock := 0 }
  torn _ := .null
  mempool hash := if hash = 7 then some (sampleSpend 0 [{ hash := 1, n := 0 }] [5]) else none
  txdb _ := none
  wallet :=
    { haveKey := fun _ => false
      mapScripts := []
      getKey := fun _ => none
      getPubKey := fun _ => none }
  bitcoinSecret _ := none
  sign _ _ := none

end FooCoin

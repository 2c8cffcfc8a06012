import FooCoin.Script.Templates

/-!
# Spending what `IsMine` calls one's own

`isMine` follows a chain of script hashes of any length and looks at no size.  `signSignature`
follows one script hash, and the interpreter refuses to push more than 520 bytes.  Nothing else
keeps the owner of the keys from spending.
-/

namespace FooCoin

open LittleEndian Op Counted OrderedMatching

/-! ## Key stores that can sign -/

/-- A key signs so that its public key verifies. -/
structure SignsFor (crypto : Crypto) (sign : UInt256 → Option Valtype) (pubkey : Valtype) :
    Prop where
  length_pubkey : pubkey.length ≤ 120
  setPubKey : crypto.SetPubKey pubkey = true
  signs : ∀ hash, ∃ vchSig, sign hash = some vchSig ∧ vchSig.length ≤ 72 ∧
    crypto.Verify pubkey hash vchSig = true

/-- The store hands out a key for every address it has, and files scripts under their hashes. -/
structure SigningKeyStore.Unlocked (crypto : Crypto) (keystore : SigningKeyStore) : Prop where
  key : ∀ address, keystore.haveKey address = true → ∃ sign pubkey,
    keystore.getKey address = some sign ∧ keystore.getPubKey address = some pubkey ∧
      crypto.Hash160 pubkey = address ∧ SignsFor crypto sign pubkey
  script : ∀ entry ∈ keystore.mapScripts, entry.1 = crypto.Hash160 entry.2

/-- A basic key store is unlocked when its entries are filed under the addresses of their keys. -/
theorem CBasicKeyStore.signing_unlocked {crypto : Crypto} {lib : OpenSSL}
    {sign : CSecret → UInt256 → Option Valtype} {mapScripts : List (UInt160 × CScript)}
    {store : CBasicKeyStore}
    (filed : ∀ address entry, store.mapKeys.lookup address = some entry →
      crypto.Hash160 (pubKeyOf lib entry.1 entry.2) = address ∧
        SignsFor crypto (sign entry.1) (pubKeyOf lib entry.1 entry.2))
    (scripts : ∀ entry ∈ mapScripts, entry.1 = crypto.Hash160 entry.2) :
    (store.signing lib sign mapScripts).Unlocked crypto where
  key address stored := by
    obtain ⟨entry, found⟩ := Option.isSome_iff_exists.mp stored
    obtain ⟨named, signs⟩ := filed address entry found
    exact ⟨sign entry.1, pubKeyOf lib entry.1 entry.2, by simp [signing, found],
      by simp [signing, found], named, signs⟩
  script := scripts

/-- What cryptography promises about a script: the address of one of its keys is the address of no
other key, and no signature for it is part of it. -/
structure SigningKeyStore.Distinguishes (crypto : Crypto) (keystore : SigningKeyStore)
    (script : CScript) : Prop where
  key : ∀ typeRet vSolutions, solver script = some (typeRet, vSolutions) → ∀ key ∈ vSolutions,
    ∀ pubkey, keystore.getPubKey (crypto.Hash160 key) = some pubkey → pubkey = key
  fresh : ∀ typeRet vSolutions, solver script = some (typeRet, vSolutions) →
    ∀ tx nIn address sign vchSig, keystore.getKey address = some sign →
      sign (signatureHash crypto script tx nIn 1) = some vchSig → vchSig ++ [1] ∉ vSolutions

/-- The script that a script hash stands for. -/
def CKeyStore.redeemScript (keystore : CKeyStore) (scriptPubKey : CScript) : Option CScript :=
  match solver scriptPubKey with
  | some (.TX_SCRIPTHASH, vSolutions) =>
      keystore.getCScript (uint160OfBytes (vSolutions.head?.getD []))
  | _ => none

/-- A script hash stands for a script that can be pushed and is no script hash itself. -/
def CKeyStore.Redeemable (keystore : CKeyStore) (scriptPubKey : CScript) : Prop :=
  ∀ subscript, keystore.redeemScript scriptPubKey = some subscript →
    subscript.length ≤ 520 ∧ isPayToScriptHash subscript = false

section Signing

variable {crypto : Crypto} {keystore : SigningKeyStore} {script : CScript} {txTo : CTransaction}
  {nIn : Nat}

/-- A signature for the script, checked against a public key. -/
private def ValidFor (crypto : Crypto) (script : CScript) (txTo : CTransaction) (nIn : Nat)
    (vchSig pubkey : Valtype) : Prop :=
  vchSig.length ≤ 73 ∧ checkSig crypto txTo nIn 0 vchSig pubkey script = true

private theorem sign1_eq (txTo : CTransaction) (nIn : Nat) {address : UInt160}
    (unlocked : keystore.Unlocked crypto) (distinguishes : keystore.Distinguishes crypto script)
    {typeRet : TxnOutType} {vSolutions : List Valtype}
    (solved : solver script = some (typeRet, vSolutions))
    (have_key : keystore.haveKey address = true) (scriptSigRet : CScript) :
    ∃ pubkey vchSig, keystore.getPubKey address = some pubkey ∧ crypto.Hash160 pubkey = address ∧
      pubkey.length ≤ 120 ∧
      sign1 keystore (signatureHash crypto script txTo nIn 1) 1 address scriptSigRet =
        some (scriptSigRet ++ pushData vchSig) ∧
      ValidFor crypto script txTo nIn vchSig pubkey ∧ vchSig ∉ vSolutions ∧ vchSig ≠ [] := by
  obtain ⟨sign, pubkey, getKey, getPubKey, hash, key⟩ := unlocked.key address have_key
  obtain ⟨vchSig, signed, short, verifies⟩ := key.signs (signatureHash crypto script txTo nIn 1)
  refine ⟨pubkey, vchSig ++ [1], getPubKey, hash, key.length_pubkey, ?_, ⟨?_, ?_⟩, ?_, by simp⟩
  · simp only [sign1, getKey, signed, Option.bind_eq_bind, Option.bind_some, Option.pure_def]
    rfl
  · simp only [List.length_append, List.length_singleton]
    omega
  · have hashType : Int32.ofNat (1 : UInt8).toNat = 1 := by decide
    simp only [checkSig, List.getLast?_concat, hashType, List.dropLast_concat, key.setPubKey,
      verifies, ne_eq, not_true_eq_false, false_and, if_false, Bool.and_self]
  · exact distinguishes.fresh _ _ solved _ _ _ _ _ getKey signed

/-- Signatures for the first keys of a multisig script. -/
private theorem signLoop_eq (txTo : CTransaction) (nIn nRequired : Nat)
    (unlocked : keystore.Unlocked crypto) (distinguishes : keystore.Distinguishes crypto script)
    {typeRet : TxnOutType} {vSolutions : List Valtype}
    (solved : solver script = some (typeRet, vSolutions))
    {keys : List Valtype} (mine : ∀ key ∈ keys, keystore.haveKey (crypto.Hash160 key) = true)
    (listed : ∀ key ∈ keys, key ∈ vSolutions) (nSigned : Nat) (scriptSigRet : CScript) :
    ∃ sigs, signLoop crypto keystore (signatureHash crypto script txTo nIn 1) 1 nRequired keys
        nSigned scriptSigRet = (nSigned + sigs.length, scriptSigRet ++ pushAll sigs) ∧
      List.Forall₂ (ValidFor crypto script txTo nIn) sigs (keys.take (nRequired - nSigned)) ∧
      ∀ vchSig ∈ sigs, vchSig ∉ vSolutions ∧ vchSig ≠ [] := by
  induction keys generalizing nSigned scriptSigRet with
  | nil => exact ⟨[], by simp [signLoop, pushAll], by simp, by simp⟩
  | cons key keys induction =>
      obtain ⟨mine_first, mine_later⟩ := List.forall_mem_cons.mp mine
      obtain ⟨listed_first, listed_later⟩ := List.forall_mem_cons.mp listed
      unfold signLoop
      split_ifs with more
      · obtain ⟨pubkey, vchSig, getPubKey, -, -, signed, valid, fresh⟩ :=
          sign1_eq txTo nIn unlocked distinguishes solved mine_first scriptSigRet
        obtain rfl := distinguishes.key _ _ solved key listed_first pubkey getPubKey
        obtain ⟨sigs, loop, valids, freshes⟩ :=
          induction mine_later listed_later (nSigned + 1) (scriptSigRet ++ pushData vchSig)
        refine ⟨vchSig :: sigs, ?_, ?_, List.forall_mem_cons.mpr ⟨fresh, freshes⟩⟩
        · rw [signed]
          simp only [loop, List.length_cons, pushAll, List.flatMap_cons, List.append_assoc,
            Prod.mk.injEq, and_true]
          omega
        · have left : nRequired - nSigned = nRequired - (nSigned + 1) + 1 := by omega
          rw [left, List.take_succ_cons]
          exact .cons valid valids
      · refine ⟨[], by simp [pushAll], ?_, by simp⟩
        rw [Nat.sub_eq_zero_of_le (Nat.le_of_not_lt more)]
        exact .nil

/-- The store solves the script, and the script accepts the solution. -/
private def Solves (crypto : Crypto) (keystore : SigningKeyStore) (script : CScript)
    (txTo : CTransaction) (nIn : Nat) (typeRet : TxnOutType) : Prop :=
  ∃ values, solverSign crypto keystore script (signatureHash crypto script txTo nIn 1) 1 =
      (true, pushAll values, some typeRet) ∧
    values.length ≤ 17 ∧ (∀ vch ∈ values, vch.length ≤ 120) ∧
    ∃ below, (evalScript crypto (checkSig crypto txTo nIn 0) values.reverse script).outcome =
      .ok (vchBool true :: below)

private theorem solves_pubkey (unlocked : keystore.Unlocked crypto)
    (distinguishes : keystore.Distinguishes crypto script) {vSolutions : List Valtype}
    (solved : solver script = some (.TX_PUBKEY, vSolutions)) {fuel : Nat}
    (mine : isMineLoop crypto keystore.toCKeyStore (fuel + 1) script = true) :
    Solves crypto keystore script txTo nIn .TX_PUBKEY := by
  obtain ⟨key, push, rfl, parses⟩ := solver_pubkey solved
  simp only [isMineLoop, solved, List.head?_cons, Option.getD_some] at mine
  obtain ⟨pubkey, vchSig, getPubKey, -, -, signed, valid, fresh, nonempty⟩ :=
    sign1_eq txTo nIn unlocked distinguishes solved mine []
  obtain rfl := distinguishes.key _ _ solved key.2 List.mem_cons_self pubkey getPubKey
  have kept := findAndDelete_of_absent parses (valid.1.trans_lt (by norm_num)) (by
    rw [List.mem_singleton] at fresh
    simp [Ne.symm fresh, Ne.symm nonempty])
  refine ⟨[vchSig], ?_, by simp, ?_, [], ?_⟩
  · simp only [solverSign, solved, List.head?_cons, Option.getD_some, signed, pushAll,
      List.flatMap_cons, List.flatMap_nil, List.append_nil, List.nil_append]
  · intro vch member
    obtain rfl := List.mem_singleton.mp member
    exact valid.1.trans (by norm_num)
  · have run := @evalScript_pubkey crypto (checkSig crypto txTo nIn 0) [] script key vchSig push
      parses (by simp)
    rwa [kept, valid.2] at run

private theorem uint160Bytes_uint160OfBytes {bytes : Valtype} (length : bytes.length = 20) :
    uint160Bytes (uint160OfBytes bytes) = bytes := by
  have fits := ofLE_lt bytes
  rw [length] at fits
  have value : (uint160OfBytes bytes).toNat = ofLE bytes := by
    rw [uint160OfBytes, BitVec.toNat_ofNat, Nat.mod_eq_of_lt (by omega)]
  rw [uint160Bytes, value, ← length]
  exact leBytes_ofLE bytes

private theorem solves_pubkeyhash (unlocked : keystore.Unlocked crypto)
    (distinguishes : keystore.Distinguishes crypto script) {vSolutions : List Valtype}
    (solved : solver script = some (.TX_PUBKEYHASH, vSolutions)) {fuel : Nat}
    (mine : isMineLoop crypto keystore.toCKeyStore (fuel + 1) script = true) :
    Solves crypto keystore script txTo nIn .TX_PUBKEYHASH := by
  obtain ⟨opcode, hash, push, length, rfl, parses⟩ := solver_pubkeyhash solved
  simp only [isMineLoop, solved, List.head?_cons, Option.getD_some] at mine
  obtain ⟨pubkey, vchSig, getPubKey, address, short, signed, valid, fresh, nonempty⟩ :=
    sign1_eq txTo nIn unlocked distinguishes solved mine []
  have kept := findAndDelete_of_absent parses (valid.1.trans_lt (by norm_num)) (by
    rw [List.mem_singleton] at fresh
    simp [Ne.symm fresh, Ne.symm nonempty])
  rw [← uint160Bytes_uint160OfBytes length, ← address] at parses
  refine ⟨[vchSig, pubkey], ?_, by simp, ?_, [], ?_⟩
  · simp only [solverSign, solved, List.head?_cons, Option.getD_some, signed, getPubKey, pushAll,
      List.flatMap_cons, List.flatMap_nil, List.append_nil, List.nil_append]
  · intro vch member
    rcases List.mem_cons.mp member with rfl | member
    · exact valid.1.trans (by norm_num)
    · exact List.mem_singleton.mp member ▸ short
  · have run := @evalScript_pubkeyhash crypto (checkSig crypto txTo nIn 0) [] script opcode pubkey
      vchSig push parses (by simp)
    rwa [kept, valid.2] at run

private theorem solves_multisig (unlocked : keystore.Unlocked crypto)
    (distinguishes : keystore.Distinguishes crypto script) {vSolutions : List Valtype}
    (solved : solver script = some (.TX_MULTISIG, vSolutions)) {fuel : Nat}
    (mine : isMineLoop crypto keystore.toCKeyStore (fuel + 1) script = true) :
    Solves crypto keystore script txTo nIn .TX_MULTISIG := by
  obtain ⟨m, keys, m_pos, m_le, few, pushes, rfl, parses⟩ := solver_multisig solved
  have middle : ([UInt8.ofNat m] :: (keys.map Prod.snd ++
      [[UInt8.ofNat keys.length]])).tail.dropLast = keys.map Prod.snd := by
    rw [List.tail_cons, List.dropLast_concat]
  have byte : solutionByte (some [UInt8.ofNat m]) = m := by
    simp only [solutionByte, Option.bind_some, List.head?_cons, Option.map_some, Option.getD_some,
      UInt8.toNat_ofNat']
    omega
  simp only [isMineLoop, solved, middle, List.all_eq_true] at mine
  obtain ⟨sigs, loop, valids, fresh⟩ := signLoop_eq txTo nIn m unlocked distinguishes solved
    mine (fun key member => by simp [member]) 0 [UInt8.ofNat OP_0]
  rw [Nat.sub_zero] at valids
  have count : sigs.length = m := by
    rw [valids.length_eq, List.length_take, List.length_map, Nat.min_eq_left m_le]
  obtain ⟨shorts, checked⟩ := (List.forall₂_and_left _ _).mp valids
  have kept : withoutSignatures sigs.reverse script = script := by
    refine withoutSignatures_eq parses fun vchSig member => ?_
    rw [List.mem_reverse] at member
    obtain ⟨unlisted, nonempty⟩ := fresh vchSig member
    refine ⟨(shorts vchSig member).trans_lt (by norm_num), fun instr listed same => ?_⟩
    simp only [multisigInstrs, List.mem_cons, List.mem_append, List.not_mem_nil, or_false] at listed
    rcases listed with rfl | key | rfl | rfl
    · exact nonempty same.symm
    · exact unlisted (by simp [← same, List.mem_map_of_mem key])
    · exact nonempty same.symm
    · exact nonempty same.symm
  refine ⟨[] :: sigs, ?_, by simp only [List.length_cons]; omega, ?_, [], ?_⟩
  · simp only [solverSign, solved, signN, List.head?_cons, byte, middle, loop]
    simp only [Nat.zero_add, count, decide_true]
    rfl
  · refine List.forall_mem_cons.mpr ⟨by simp, fun vchSig member => ?_⟩
    exact (shorts vchSig member).trans (by norm_num)
  · have run := @evalScript_multisig crypto (checkSig crypto txTo nIn 0) [] script m keys sigs []
      pushes few (count.trans_le m_le) count m_pos parses (by simp)
    have matched : greedy (fun vchSig vchPubKey =>
        checkSig crypto txTo nIn 0 vchSig vchPubKey script) sigs.reverse
          (keys.map Prod.snd).reverse = true := by
      rw [greedy_iff_matched, matched_reverse]
      exact ⟨_, List.take_sublist m _, checked⟩
    rw [kept, matched] at run
    simpa using run

/-- The store solves every script of its own that is no script hash. -/
private theorem solves_of_mine (txTo : CTransaction) (nIn : Nat)
    (unlocked : keystore.Unlocked crypto) (distinguishes : keystore.Distinguishes crypto script)
    {typeRet : TxnOutType}
    {vSolutions : List Valtype} (solved : solver script = some (typeRet, vSolutions))
    (bare : typeRet ≠ .TX_SCRIPTHASH) {fuel : Nat}
    (mine : isMineLoop crypto keystore.toCKeyStore (fuel + 1) script = true) :
    Solves crypto keystore script txTo nIn typeRet := by
  cases typeRet with
  | TX_PUBKEY => exact solves_pubkey unlocked distinguishes solved mine
  | TX_PUBKEYHASH => exact solves_pubkeyhash unlocked distinguishes solved mine
  | TX_SCRIPTHASH => contradiction
  | TX_MULTISIG => exact solves_multisig unlocked distinguishes solved mine

/-- The chain of script hashes that `IsMine` follows starts with a script of the store. -/
private theorem exists_solution_of_mine {fuel : Nat}
    (mine : isMineLoop crypto keystore.toCKeyStore fuel script = true) :
    ∃ typeRet vSolutions, solver script = some (typeRet, vSolutions) := by
  cases fuel with
  | zero => simp [isMineLoop] at mine
  | succ fuel =>
      cases solved : solver script with
      | none => simp [isMineLoop, solved] at mine
      | some solution => exact ⟨solution.1, solution.2, rfl⟩

private theorem not_scriptHash_of_solver {typeRet : TxnOutType} {vSolutions : List Valtype}
    (solved : solver script = some (typeRet, vSolutions)) (bare : typeRet ≠ .TX_SCRIPTHASH) :
    ¬isPayToScriptHash script = true := by
  intro scriptHash
  have hashed := solver_scripthash.mpr ⟨scriptHash, rfl⟩
  rw [solved, Option.some.injEq, Prod.mk.injEq] at hashed
  exact bare hashed.1

/-- `signSignature` verifies the script that the store makes for a bare output. -/
private theorem signSignature_eq_bare {scriptSig : CScript} {typeRet : TxnOutType}
    (input : nIn < txTo.vin.length) (bare : typeRet ≠ .TX_SCRIPTHASH)
    (signs : solverSign crypto keystore script (signatureHash crypto script txTo nIn 1) 1 =
      (true, scriptSig, some typeRet)) :
    signSignature crypto keystore script txTo nIn 1 =
      .ok ((verifyScript crypto (checkSig crypto txTo nIn 0) scriptSig script true).outcome.isOk,
        txTo.setScriptSig nIn scriptSig) := by
  unfold signSignature
  rw [if_neg (Nat.not_le.mpr input)]
  simp only [signs, checkSig_setScriptSig]
  cases typeRet with
  | TX_SCRIPTHASH => contradiction
  | TX_PUBKEY => rfl
  | TX_PUBKEYHASH => rfl
  | TX_MULTISIG => rfl

/-- `signSignature` makes a script for the script behind a hash and appends that script. -/
private theorem signSignature_eq_scripthash {subscript scriptSig : CScript} {solved : Bool}
    {subType : Option TxnOutType} (input : nIn < txTo.vin.length)
    (signs : solverSign crypto keystore script (signatureHash crypto script txTo nIn 1) 1 =
      (true, subscript, some .TX_SCRIPTHASH))
    (below : solverSign crypto keystore subscript (signatureHash crypto subscript txTo nIn 1) 1 =
      (solved, scriptSig, subType)) :
    ∃ signed, signSignature crypto keystore script txTo nIn 1 =
      .ok (solved && subType ≠ some .TX_SCRIPTHASH &&
        (verifyScript crypto (checkSig crypto txTo nIn 0) (scriptSig ++ pushData subscript) script
          true).outcome.isOk, signed) := by
  unfold signSignature
  rw [if_neg (Nat.not_le.mpr input)]
  simp only [signs, signatureHash_setScriptSig, below, checkSig_setScriptSig]
  exact ⟨_, rfl⟩

/-- The store's scripts are filed under their hashes. -/
private theorem hash_of_getCScript (unlocked : keystore.Unlocked crypto) {hash : UInt160}
    {subscript : CScript} (found : keystore.getCScript hash = some subscript) :
    crypto.Hash160 subscript = hash ∧ 0 < keystore.mapScripts.length := by
  simp only [CKeyStore.getCScript, Option.map_eq_some_iff] at found
  obtain ⟨entry, found, rfl⟩ := found
  have member := List.mem_of_find?_eq_some found
  have named := List.find?_some found
  rw [decide_eq_true_eq] at named
  exact ⟨(unlocked.script entry member).symm.trans named, List.length_pos_of_mem member⟩

/-- `SignSignature` of a script hash, in terms of the script behind it. -/
private theorem signSignature_scripthash_iff (unlocked : keystore.Unlocked crypto)
    {subscript : CScript} (distinguishes : keystore.Distinguishes crypto subscript)
    (scriptHash : isPayToScriptHash script = true)
    (found : keystore.getCScript (uint160OfBytes ((script.drop 2).take 20)) = some subscript)
    {fuel : Nat} (mine : isMineLoop crypto keystore.toCKeyStore (fuel + 1) subscript = true)
    (input : nIn < txTo.vin.length) :
    (∃ signed, signSignature crypto keystore script txTo nIn 1 = .ok (true, signed)) ↔
      subscript.length ≤ 520 ∧ isPayToScriptHash subscript = false := by
  have solved := solver_scripthash.mpr ⟨scriptHash, rfl⟩
  have signs : solverSign crypto keystore script (signatureHash crypto script txTo nIn 1) 1 =
      (true, subscript, some .TX_SCRIPTHASH) := by
    simp only [solverSign, solved, List.head?_cons, Option.getD_some, found]
  obtain ⟨typeRet, vSolutions, subSolved⟩ := exists_solution_of_mine mine
  by_cases nested : typeRet = .TX_SCRIPTHASH
  · subst nested
    have subHash := (solver_scripthash.mp subSolved).1
    have subType : (solverSign crypto keystore subscript
        (signatureHash crypto subscript txTo nIn 1) 1).2.2 = some .TX_SCRIPTHASH := by
      simp only [solverSign, subSolved]
      split <;> rfl
    obtain ⟨signed, result⟩ := signSignature_eq_scripthash input signs (Prod.mk.eta).symm
    simp [result, subType, subHash]
  · obtain ⟨values, subSigns, few, short, below, run⟩ :=
      solves_of_mine txTo nIn unlocked distinguishes subSolved nested mine
    have not_hash := not_scriptHash_of_solver subSolved nested
    rw [Bool.not_eq_true] at not_hash
    obtain ⟨signed, result⟩ := signSignature_eq_scripthash input signs subSigns
    have pushed : pushAll values ++ pushData subscript = pushAll (values ++ [subscript]) := by
      simp [pushAll]
    have short' : ∀ vch ∈ values, vch.length ≤ 520 := fun vch member =>
      (short vch member).trans (by norm_num)
    rw [result, pushed]
    by_cases size : subscript.length ≤ 520
    · have all_short : ∀ vch ∈ values ++ [subscript], vch.length ≤ 520 := by
        simpa [or_imp, forall_and] using ⟨short', size⟩
      have inputs := @evalScript_pushAll crypto (checkSig crypto txTo nIn 0) _
        (by rw [List.length_append, List.length_singleton]; omega) all_short
      rw [List.reverse_append, List.reverse_singleton, List.singleton_append] at inputs
      obtain ⟨pushes, operands, sizes, parses⟩ := parses_pushAll fun vch member =>
        (all_short vch member).trans_lt (by norm_num)
      obtain ⟨named, -⟩ := hash_of_getCScript unlocked found
      have length := (parses_payToScriptHash scriptHash).1
      have verified := verifyScript_scripthash scriptHash (isPushOnly_of_parses parses sizes)
        (by rw [named, uint160Bytes_uint160OfBytes length])
        (by rw [List.length_reverse]; omega) inputs run
      simp [verified, size, not_hash, nested]
    · have fails := @evalScript_pushAll_long crypto (checkSig crypto txTo nIn 0) _ subscript few
        short' (Nat.lt_of_not_le size)
      simp [verifyScript_refused fails, size]

end Signing

/-- For an output that `IsMine` calls the store's own, `SignSignature` returns `true` on every input
of every transaction exactly when the script behind a script hash can be pushed and is no script
hash itself. -/
theorem signSignature_iff_of_isMine (crypto : Crypto) (keystore : SigningKeyStore)
    (unlocked : keystore.Unlocked crypto) (scriptPubKey : CScript)
    (distinguishes : keystore.Distinguishes crypto scriptPubKey)
    (redeem_distinguishes : ∀ subscript, keystore.redeemScript scriptPubKey = some subscript →
      keystore.Distinguishes crypto subscript)
    (mine : isMine crypto keystore.toCKeyStore scriptPubKey = true) (txTo : CTransaction)
    (nIn : Nat) (input : nIn < txTo.vin.length) :
    (∃ signed, signSignature crypto keystore scriptPubKey txTo nIn 1 = .ok (true, signed)) ↔
      keystore.Redeemable scriptPubKey := by
  obtain ⟨typeRet, vSolutions, solved⟩ := exists_solution_of_mine mine
  by_cases bare : typeRet = .TX_SCRIPTHASH
  · subst bare
    obtain ⟨scriptHash, rfl⟩ := solver_scripthash.mp solved
    have redeem : keystore.redeemScript scriptPubKey =
        keystore.getCScript (uint160OfBytes ((scriptPubKey.drop 2).take 20)) := by
      simp only [CKeyStore.redeemScript, solved, List.head?_cons, Option.getD_some]
    unfold isMine at mine
    simp only [isMineLoop, solved, List.head?_cons, Option.getD_some] at mine
    cases found : keystore.getCScript (uint160OfBytes ((scriptPubKey.drop 2).take 20)) with
    | none => simp [found] at mine
    | some subscript =>
        obtain ⟨-, stored⟩ := hash_of_getCScript unlocked found
        obtain ⟨fuel, fuel_eq⟩ := Nat.exists_eq_succ_of_ne_zero stored.ne'
        simp only [found, fuel_eq] at mine
        rw [signSignature_scripthash_iff unlocked
          (redeem_distinguishes subscript (redeem.trans found)) scriptHash found mine input]
        simp [CKeyStore.Redeemable, redeem, found]
  · have redeemable : keystore.Redeemable scriptPubKey := by
      intro subscript redeemed
      cases typeRet <;> simp_all [CKeyStore.redeemScript]
    obtain ⟨values, signs, few, short, below, run⟩ :=
      solves_of_mine txTo nIn unlocked distinguishes solved bare mine
    have verified := verifyScript_bare (not_scriptHash_of_solver solved bare)
      (evalScript_pushAll (by omega) fun vch member => (short vch member).trans (by norm_num)) run
    refine iff_of_true ⟨txTo.setScriptSig nIn (pushAll values), ?_⟩ redeemable
    rw [signSignature_eq_bare input bare signs, verified]

/-! ## A store with one key -/

/-- Cryptographic functions for one key: the signature of a hash is its bytes behind a tag. -/
def tagCrypto : Crypto where
  Hash bytes := BitVec.ofNat 256 (ofLE bytes)
  Hash160 bytes := BitVec.ofNat 160 (ofLE bytes)
  RIPEMD160 bytes := BitVec.ofNat 160 (ofLE bytes)
  SHA1 bytes := BitVec.ofNat 160 (ofLE bytes)
  SHA256 bytes := BitVec.ofNat 256 (ofLE bytes)
  scrypt _ := 0
  SetPubKey _ := true
  Verify _ hash vchSig := vchSig = 0x30 :: uint256Bytes hash

/-- A public key of 33 bytes. -/
def tagPubKey : Valtype := 2 :: List.replicate 32 7

/-- An output for the key. -/
def tagPayment : CScript := pushData tagPubKey ++ [UInt8.ofNat OP_CHECKSIG]

/-- The script hash of a script. -/
def payToScript (script : CScript) : CScript :=
  UInt8.ofNat OP_HASH160 :: 20 ::
    (uint160Bytes (tagCrypto.Hash160 script) ++ [UInt8.ofNat OP_EQUAL])

/-- The store with the key, the output for it and the script hash of that output. -/
def tagStore : SigningKeyStore where
  haveKey address := address = tagCrypto.Hash160 tagPubKey
  mapScripts := [tagPayment, payToScript tagPayment].map fun script =>
    (tagCrypto.Hash160 script, script)
  getKey address :=
    if address = tagCrypto.Hash160 tagPubKey then some fun hash => some (0x30 :: uint256Bytes hash)
    else none
  getPubKey address := if address = tagCrypto.Hash160 tagPubKey then some tagPubKey else none

private theorem tagStore_unlocked : tagStore.Unlocked tagCrypto where
  key address stored := by
    have same : address = tagCrypto.Hash160 tagPubKey := of_decide_eq_true stored
    subst same
    refine ⟨fun hash => some (0x30 :: uint256Bytes hash), tagPubKey, ?_, ?_, rfl, by decide, rfl,
      fun hash => ⟨_, rfl, ?_, ?_⟩⟩
    · simp [tagStore]
    · simp [tagStore]
    · simp
    · simp [tagCrypto]
  script := by decide +kernel

/-- The pushes of the script are no addresses of other keys and too short or long for signatures. -/
private def Plain (script : CScript) : Bool :=
  match solver script with
  | none => true
  | some (_, vSolutions) => vSolutions.all fun key =>
      key.length ≠ 34 ∧ (tagStore.getPubKey (tagCrypto.Hash160 key)).all fun pubkey => pubkey = key

private theorem tagStore_distinguishes {script : CScript} (plain : Plain script = true) :
    tagStore.Distinguishes tagCrypto script := by
  constructor
  · intro typeRet vSolutions solved key listed pubkey found
    simp only [Plain, solved, List.all_eq_true, decide_eq_true_eq] at plain
    have same := (plain key listed).2
    rw [found] at same
    exact of_decide_eq_true same
  · intro typeRet vSolutions solved tx nIn address sign vchSig found signed listed
    simp only [Plain, solved, List.all_eq_true, decide_eq_true_eq] at plain
    refine (plain _ listed).1 ?_
    simp only [tagStore, Option.ite_none_right_eq_some, Option.some.injEq] at found
    obtain ⟨-, rfl⟩ := found
    rw [Option.some.injEq] at signed
    simp [← signed]

/-- A transaction with one input. -/
def oneInput : CTransaction where
  nVersion := 1
  vin := [{ prevout := { hash := 5, n := 0 }, scriptSig := [], nSequence := 0xffffffff }]
  vout := [{ nValue := 1, scriptPubKey := [] }]
  nLockTime := 0

private theorem tagStore_redeem_distinguishes {script subscript : CScript}
    (redeem : tagStore.redeemScript script = some subscript) (plain : Plain subscript = true)
    (other : CScript) (redeemed : tagStore.redeemScript script = some other) :
    tagStore.Distinguishes tagCrypto other := by
  rw [redeem, Option.some.injEq] at redeemed
  exact redeemed ▸ tagStore_distinguishes plain

theorem signSignature_iff_of_isMine_payment :
    (∃ signed, signSignature tagCrypto tagStore (payToScript tagPayment) oneInput 0 1 =
        .ok (true, signed)) ↔
      tagStore.Redeemable (payToScript tagPayment) :=
  signSignature_iff_of_isMine tagCrypto tagStore tagStore_unlocked (payToScript tagPayment)
    (tagStore_distinguishes (by decide +kernel))
    (@tagStore_redeem_distinguishes _ tagPayment (by decide +kernel) (by decide +kernel))
    (by decide +kernel) oneInput 0 (by decide)

/-- The store owns the script hash of a script hash but cannot spend it. -/
theorem not_signSignature_of_isMine :
    ¬∀ (crypto : Crypto) (keystore : SigningKeyStore) (scriptPubKey : CScript),
      keystore.Unlocked crypto → keystore.Distinguishes crypto scriptPubKey →
      (∀ subscript, keystore.redeemScript scriptPubKey = some subscript →
        keystore.Distinguishes crypto subscript) →
      isMine crypto keystore.toCKeyStore scriptPubKey = true →
      ∀ (txTo : CTransaction) (nIn : Nat), nIn < txTo.vin.length →
        ∃ signed, signSignature crypto keystore scriptPubKey txTo nIn 1 = .ok (true, signed) := by
  intro spendable
  obtain ⟨signed, result⟩ := spendable tagCrypto tagStore (payToScript (payToScript tagPayment))
    tagStore_unlocked (tagStore_distinguishes (by decide +kernel))
    (@tagStore_redeem_distinguishes _ (payToScript tagPayment) (by decide +kernel)
      (by decide +kernel))
    (by decide +kernel) oneInput 0 (by decide)
  have refused : (signSignature tagCrypto tagStore (payToScript (payToScript tagPayment)) oneInput
      0 1).map Prod.fst = .ok false := by decide +kernel
  simp [result, Except.map] at refused

end FooCoin

import FooCoin.CoinSelectionSound
import FooCoin.KeyPool
import FooCoin.MinFee
import FooCoin.Script.Destination
import FooCoin.Script.Sign
import FooCoin.Wallet

/-!
# Creating a transaction

`CreateTransaction` selects coins for the payments and a fee, sends the change to a key of the key
pool and signs.  While the signed transaction needs a higher fee, it starts again with that fee.
The fee rises with every iteration and stays an amount, so the loop ends.
-/

namespace FooCoin

/-- What the wallet knows about its transactions from the block chain, by their hashes. -/
structure CoinView where
  isFinal : UInt256 → Bool
  isConfirmed : UInt256 → Bool
  getBlocksToMaturity : UInt256 → Int
  getDepthInMainChain : UInt256 → Int
  isFromMe : UInt256 → Bool

/-- The wallet as `CreateTransaction` uses it. -/
structure SpendingWallet (crypto : Crypto) where
  /-- How the key store of the wallet signs. -/
  signer : CCryptoKeyStore → SigningKeyStore
  nTransactionFee : Int
  nMinimumInputValue : Int
  mapWallet : AList fun _ : UInt256 => CWalletTx
  view : CoinView
  /-- Amounts that are parsed have no sign. -/
  nMinimumInputValue_nonneg : 0 ≤ nMinimumInputValue
  hash_eq : ∀ hash wtx, mapWallet.lookup hash = some wtx → wtx.tx.getHash crypto = hash
  /-- The positions of the outputs are numbers of 32 bits. -/
  vout_small : ∀ hash wtx, mapWallet.lookup hash = some wtx → wtx.tx.vout.length < 2 ^ 32

/-- What an iteration of the fee loop finds. -/
structure CreateChance (lib : OpenSSL) where
  /-- The three selections of `SelectCoins`. -/
  selection : Nat → SelectionChance
  /-- The order of `setCoins`, a set of pointers. -/
  order : Finset Coin → List Coin
  order_nodup : ∀ setCoins, (order setCoins).Nodup
  order_eq : ∀ setCoins, (order setCoins).toFinset = setCoins
  getRandInt : Nat → Nat
  getRandInt_lt : ∀ nMax, 0 < nMax → getRandInt nMax < nMax
  /-- `AllowFree` of the priority. -/
  fAllowFree : CTransaction → Bool
  /-- The keys that `TopUpKeyPool` makes. -/
  keys : Nat → CKey lib

/-- `CReserveKey::GetReservedKey` with the key that it returns. -/
def PoolState.takeReservedKey {lib : OpenSSL} (crypto : Crypto) (keypool object : Nat)
    (keys : Nat → CKey lib) (state : PoolState) : Outcome Valtype × PoolState :=
  let after := state.getReservedKey crypto keypool object keys
  let vchPubKey := (after.reservations object).vchPubKey
  let returned := if isValidPubKey vchPubKey then .ok vchPubKey else .error .assertion
  match (state.reservations object).nIndex with
  | some _ => (returned, after)
  | none =>
      match (state.wallet.reserveKeyFromKeyPool crypto keypool keys).1 with
      | .error failure => (.error failure, after)
      | .ok _ => (returned, after)

section Create

variable {crypto : Crypto} {lib : OpenSSL} (wallet : SpendingWallet crypto) (keypool object : Nat)

namespace SpendingWallet

/-- An output of a transaction of the wallet. -/
def txout (coin : Coin) : Option CTxOut := do
  let wtx ← wallet.mapWallet.lookup coin.1
  wtx.tx.vout[coin.2]?

/-- The value of an output. -/
def nValue (coin : Coin) : Int := ((wallet.txout coin).map fun txout => txout.nValue.toInt).getD 0

/-- The outputs of a transaction that `AvailableCoins` finds. -/
def outputsOf (keystore : CKeyStore) (hash : UInt256) (wtx : CWalletTx) : List COutput :=
  if wallet.view.isFinal hash = false then []
  else if wallet.view.isConfirmed hash = false then []
  else if wtx.tx.isCoinBase = true ∧ 0 < wallet.view.getBlocksToMaturity hash then []
  else
    let spendable (i : Nat) : Bool :=
      wtx.isSpent i = .ok false ∧ (wtx.tx.vout[i]?).any fun txout =>
        isMine crypto keystore txout.scriptPubKey ∧ wallet.nMinimumInputValue ≤ txout.nValue.toInt
    ((List.range wtx.tx.vout.length).filter spendable).map fun i =>
      { tx := hash, i, nDepth := wallet.view.getDepthInMainChain hash }

/-- `CWallet::AvailableCoins`. -/
def availableCoins (keystore : CKeyStore) : List COutput :=
  wallet.mapWallet.entries.flatMap fun entry => wallet.outputsOf keystore entry.1 entry.2

/-- `CWallet::SelectCoins`. -/
def selectCoins (chance : Nat → SelectionChance) (vCoins : List COutput) (nTargetValue : Int) :
    Outcome Selection := do
  let minConf (nConfMine nConfTheirs : Int) (attempt : Nat) :=
    selectCoinsMinConf wallet.view.isFromMe wallet.nValue nTargetValue nConfMine nConfTheirs
      (chance attempt) vCoins
  let first ← minConf 1 6 0
  if first.fSelected then pure first
  else
    let second ← minConf 1 1 1
    if second.fSelected then pure second else minConf 0 1 2

/-- The loop of `CreateTransaction` over the payments. -/
def totalValue : Int → List (CScript × Int64) → Outcome Int
  | nValue, [] => pure nValue
  | nValue, s :: vecSend =>
      if nValue < 0 then throw .rejected
      else do totalValue (← int64 (nValue + s.2.toInt)) vecSend

/-- The outputs of the payees. -/
def payees (vecSend : List (CScript × Int64)) : List CTxOut :=
  vecSend.map fun s => { nValue := s.2, scriptPubKey := s.1 }

/-- Raise the fee by change of less than a cent: `nFeeRet` and `nChange`. -/
def moveToFee (nFeeRet nChange : Int) : Outcome (Int × Int) :=
  if nFeeRet < minTxFee ∧ 0 < nChange ∧ nChange < cent then do
    let nMoveToFee := min nChange (← int64 (minTxFee - nFeeRet))
    pure (nFeeRet + nMoveToFee, nChange - nMoveToFee)
  else pure (nFeeRet, nChange)

/-- The coins of an iteration, with `nFeeRet` and `nChange`. -/
def chooseCoins (chance : CreateChance lib) (keystore : CKeyStore) (nValue nFeeRet : Int) :
    Outcome (Finset Coin × Int × Int) := do
  let nTotalValue ← int64 (nValue + nFeeRet)
  let selection ← wallet.selectCoins chance.selection (wallet.availableCoins keystore) nTotalValue
  if selection.fSelected = false then throw .rejected
  else
    let nChange ← int64 (selection.nValueRet - nValue)
    let nChange ← int64 (nChange - nFeeRet)
    pure (selection.setCoinsRet, ← moveToFee nFeeRet nChange)

/-- The outputs of an iteration, with change at a random position. -/
def addChange (crypto : Crypto) (keypool object : Nat) (chance : CreateChance lib) (nChange : Int)
    (vout : List CTxOut) (state : PoolState) : Outcome (List CTxOut) × PoolState :=
  if 0 < nChange then
    match state.takeReservedKey crypto keypool object chance.keys with
    | (.error failure, state) => (.error failure, state)
    | (.ok vchPubKey, state) =>
        let scriptChange := setDestination (.CKeyID (crypto.Hash160 vchPubKey))
        (.ok (vout.insertIdx (chance.getRandInt vout.length)
          { nValue := .ofInt nChange, scriptPubKey := scriptChange }), state)
  else (.ok vout, state.returnKey object)

/-- The input that spends a coin. -/
def spendCoin (coin : Coin) : CTxIn where
  prevout := { hash := coin.1, n := .ofNat coin.2 }
  scriptSig := []
  nSequence := 0xffffffff

/-- Sign the inputs from number `nIn` on. -/
def signInputs (keystore : SigningKeyStore) : Nat → List Coin → CTransaction →
    Outcome CTransaction
  | _, [], wtxNew => pure wtxNew
  | nIn, coin :: coins, wtxNew =>
      match wallet.txout coin with
      | none => throw .assertion
      | some txout => do
          let (fSigned, wtxNew) ←
            signSignature crypto keystore txout.scriptPubKey wtxNew nIn 1
          if fSigned then signInputs keystore (nIn + 1) coins wtxNew else throw .rejected

/-- A transaction with the fee it pays. -/
structure Attempt where
  wtxNew : CTransaction
  nFeeRet : Int

/-- An iteration of the fee loop up to the limit of the size. -/
def createOnce (chance : CreateChance lib) (vecSend : List (CScript × Int64)) (nValue : Int)
    (attempt : Attempt) (state : PoolState) : Outcome Attempt × PoolState :=
  let keystore := wallet.signer state.wallet.keystore
  match wallet.chooseCoins chance keystore.toCKeyStore nValue attempt.nFeeRet with
  | .error failure => (.error failure, state)
  | .ok (setCoins, nFeeRet, nChange) =>
      match addChange crypto keypool object chance nChange (payees vecSend) state with
      | (.error failure, state) => (.error failure, state)
      | (.ok vout, state) =>
          let coins := chance.order setCoins
          let unsigned := { attempt.wtxNew with vin := coins.map spendCoin, vout }
          (do pure ⟨← wallet.signInputs (wallet.signer state.wallet.keystore) 0 coins unsigned,
            nFeeRet⟩, state)

/-- The fee that a signed transaction needs: `max(nPayFee, nMinFee)`. -/
def requiredFee (chance : CreateChance lib) (wtxNew : CTransaction) : Outcome Int := do
  let nBytes := wtxNew.getSerializeSize.toNat
  if maxBlockSizeGen / 5 ≤ nBytes then throw .rejected
  else
    let nPayFee ← int64 (wallet.nTransactionFee * (1 + (nBytes / 1000 : Nat)))
    let nMinFee ← wtxNew.getMinFeeWords 1 (chance.fAllowFree wtxNew) .GMF_SEND
    pure (max nPayFee nMinFee)

/-- The fee loop, `none` when the fuel runs out before it ends. -/
def feeLoop (chances : Nat → CreateChance lib) (vecSend : List (CScript × Int64)) (nValue : Int) :
    Nat → Nat → Attempt → PoolState → Option (Outcome Attempt × PoolState)
  | 0, _, _, _ => none
  | fuel + 1, iteration, attempt, state =>
      match wallet.createOnce keypool object (chances iteration) vecSend nValue attempt state with
      | (.error failure, state) => some (.error failure, state)
      | (.ok attempt, state) =>
          match wallet.requiredFee (chances iteration) attempt.wtxNew with
          | .error failure => some (.error failure, state)
          | .ok nFee =>
              if attempt.nFeeRet < nFee then
                feeLoop chances vecSend nValue fuel (iteration + 1) { attempt with nFeeRet := nFee }
                  state
              else some (.ok attempt, state)

/-- `CWallet::CreateTransaction`: the transaction and `nFeeRet`, and the key pool that is left. -/
def createTransaction (chances : Nat → CreateChance lib) (fuel : Nat)
    (vecSend : List (CScript × Int64)) (wtxNew : CTransaction) (state : PoolState) :
    Option (Outcome Attempt × PoolState) :=
  match totalValue 0 vecSend with
  | .error failure => some (.error failure, state)
  | .ok nValue =>
      if vecSend = [] ∨ nValue < 0 then some (.error .rejected, state)
      else
        wallet.feeLoop keypool object chances vecSend nValue fuel 0
          ⟨wtxNew, wallet.nTransactionFee⟩ state

/-! ## Available coins -/

variable {wallet} {keystore : CKeyStore}

private theorem mem_outputsOf {hash : UInt256} {wtx : CWalletTx} {output : COutput}
    (member : output ∈ wallet.outputsOf keystore hash wtx) :
    output.tx = hash ∧ ∃ txout, wtx.tx.vout[output.i]? = some txout ∧
      isMine crypto keystore txout.scriptPubKey = true ∧
        wallet.nMinimumInputValue ≤ txout.nValue.toInt := by
  unfold outputsOf at member
  split_ifs at member with final confirmed immature
  · contradiction
  · contradiction
  · contradiction
  · obtain ⟨i, spendable, rfl⟩ := List.mem_map.mp member
    have spendable := (List.mem_filter.mp spendable).2
    simp only [decide_eq_true_eq, Option.any_eq_true] at spendable
    obtain ⟨-, txout, found, owned, enough⟩ := spendable
    exact ⟨rfl, txout, found, owned, enough⟩

private theorem nodup_outputsOf (hash : UInt256) (wtx : CWalletTx) :
    ((wallet.outputsOf keystore hash wtx).map COutput.coin).Nodup := by
  unfold outputsOf
  split_ifs with final confirmed immature
  · exact List.nodup_nil
  · exact List.nodup_nil
  · exact List.nodup_nil
  · rw [List.map_map]
    refine (List.nodup_range.filter _).map fun i j same => ?_
    exact (Prod.mk.inj same).2

/-- No output is available twice. -/
private theorem nodup_availableCoins :
    ((wallet.availableCoins keystore).map COutput.coin).Nodup := by
  rw [availableCoins, List.map_flatMap, List.nodup_flatMap]
  refine ⟨fun entry _ => nodup_outputsOf entry.1 entry.2, ?_⟩
  have keys := wallet.mapWallet.nodupKeys
  rw [List.NodupKeys, List.keys, List.Nodup, List.pairwise_map] at keys
  refine keys.imp fun {left right} different coin in_left in_right => ?_
  obtain ⟨first, first_member, rfl⟩ := List.mem_map.mp in_left
  obtain ⟨second, second_member, same⟩ := List.mem_map.mp in_right
  have left_hash := (mem_outputsOf first_member).1
  have right_hash := (mem_outputsOf second_member).1
  exact different (left_hash.symm.trans ((Prod.mk.inj same).1.symm.trans right_hash))

/-- An output of the wallet that the keys of a store own. -/
def Owns (wallet : SpendingWallet crypto) (keystore : CKeyStore) (coin : Coin) : Prop :=
  ∃ txout, wallet.txout coin = some txout ∧ isMine crypto keystore txout.scriptPubKey = true

private theorem exists_of_availableCoins {coin : Coin}
    (member : coin ∈ (wallet.availableCoins keystore).map COutput.coin) :
    coin.2 < 2 ^ 32 ∧ 0 ≤ wallet.nValue coin ∧ wallet.Owns keystore coin := by
  obtain ⟨output, listed, rfl⟩ := List.mem_map.mp member
  obtain ⟨⟨hash, wtx⟩, entry, inside⟩ := List.mem_flatMap.mp listed
  obtain ⟨rfl, txout, found, owned, enough⟩ := mem_outputsOf inside
  have stored : wallet.mapWallet.lookup output.tx = some wtx := AList.mem_lookup_iff.mpr entry
  have value : wallet.txout output.coin = some txout := by
    rw [SpendingWallet.txout, COutput.coin, stored]
    exact found
  refine ⟨?_, ?_, txout, value, owned⟩
  · exact (List.getElem?_eq_some_iff.mp found).1.trans (wallet.vout_small _ _ stored)
  · rw [nValue, value]
    exact wallet.nMinimumInputValue_nonneg.trans enough

/-! ## An iteration -/

private theorem selectCoins_sound {chance : Nat → SelectionChance} {nTargetValue : Int}
    {selection : Selection}
    (selected : wallet.selectCoins chance (wallet.availableCoins keystore) nTargetValue =
      .ok selection) (success : selection.fSelected = true) :
    selection.Sound wallet.nValue nTargetValue (wallet.availableCoins keystore) := by
  have sound {nConfMine nConfTheirs : Int} {attempt : Nat}
      (found : selectCoinsMinConf wallet.view.isFromMe wallet.nValue nTargetValue nConfMine
        nConfTheirs (chance attempt) (wallet.availableCoins keystore) = .ok selection) :=
    selectCoinsMinConf_sound nodup_availableCoins
      (fun coin member => (exists_of_availableCoins member).2.1) found success
  obtain ⟨first, first_found, selected⟩ := except_bind_eq_ok.mp selected
  split_ifs at selected with first_success
  · obtain rfl := pure_eq_ok.mp selected
    exact sound first_found
  · obtain ⟨second, second_found, selected⟩ := except_bind_eq_ok.mp selected
    split_ifs at selected with second_success
    · obtain rfl := pure_eq_ok.mp selected
      exact sound second_found
    · exact sound selected

private theorem moveToFee_eq {nFeeRet nChange nFeeRet' nChange' : Int} (nonneg : 0 ≤ nChange)
    (moved : moveToFee nFeeRet nChange = .ok (nFeeRet', nChange')) :
    nFeeRet' + nChange' = nFeeRet + nChange ∧ 0 ≤ nChange' ∧ nFeeRet ≤ nFeeRet' := by
  unfold moveToFee at moved
  split_ifs at moved with small
  · obtain ⟨room, fits, moved⟩ := except_bind_eq_ok.mp moved
    obtain ⟨-, rfl⟩ := int64_eq_ok.mp fits
    obtain ⟨rfl, rfl⟩ := Prod.mk.inj (pure_eq_ok.mp moved)
    omega
  · obtain ⟨rfl, rfl⟩ := Prod.mk.inj (pure_eq_ok.mp moved)
    omega

/-- The coins of an iteration are worth the payments, the fee and the change. -/
private theorem chooseCoins_eq {chance : CreateChance lib} {nValue nFeeRet nFeeRet' nChange : Int}
    {setCoins : Finset Coin}
    (chosen : wallet.chooseCoins chance keystore nValue nFeeRet =
      .ok (setCoins, nFeeRet', nChange)) :
    (∀ coin ∈ setCoins, coin.2 < 2 ^ 32 ∧ wallet.Owns keystore coin) ∧
      ∑ coin ∈ setCoins, wallet.nValue coin = nValue + nFeeRet' + nChange ∧
        0 ≤ nChange ∧ nChange ≤ int64Max ∧ nFeeRet ≤ nFeeRet' := by
  obtain ⟨nTotalValue, fits, chosen⟩ := except_bind_eq_ok.mp chosen
  obtain ⟨-, rfl⟩ := int64_eq_ok.mp fits
  obtain ⟨selection, selected, chosen⟩ := except_bind_eq_ok.mp chosen
  split_ifs at chosen with failed
  obtain ⟨beforeFee, fits, chosen⟩ := except_bind_eq_ok.mp chosen
  obtain ⟨-, rfl⟩ := int64_eq_ok.mp fits
  obtain ⟨change, fits, chosen⟩ := except_bind_eq_ok.mp chosen
  obtain ⟨⟨-, high⟩, rfl⟩ := int64_eq_ok.mp fits
  obtain ⟨amounts, moved, chosen⟩ := except_bind_eq_ok.mp chosen
  simp only [pure_eq_ok, Prod.mk.injEq] at chosen
  obtain ⟨rfl, rfl⟩ := chosen
  have sound := selectCoins_sound selected (by simpa using failed)
  have enough := sound.enough
  obtain ⟨total, nonneg, raised⟩ := moveToFee_eq (by omega) moved
  refine ⟨fun coin member => ?_, ?_, nonneg, by omega, raised⟩
  · obtain ⟨small, -, owned⟩ :=
      exists_of_availableCoins (List.mem_toFinset.mp (sound.subset member))
    exact ⟨small, owned⟩
  · rw [← sound.value]
    omega

private theorem takeReservedKey_ok {keys : Nat → CKey lib} {state after : PoolState}
    {vchPubKey : Valtype}
    (taken : state.takeReservedKey crypto keypool object keys = (.ok vchPubKey, after)) :
    (after.reservations object).vchPubKey = vchPubKey := by
  unfold PoolState.takeReservedKey at taken
  dsimp only at taken
  split at taken
  · obtain ⟨returned, rfl⟩ := Prod.mk.inj taken
    split_ifs at returned
    exact Except.ok.inj returned
  · split at taken
    · simp at taken
    · obtain ⟨returned, rfl⟩ := Prod.mk.inj taken
      split_ifs at returned
      exact Except.ok.inj returned

/-- The outputs of a transaction are those of the payees, and change for a reserved key. -/
structure PaysExactly (crypto : Crypto) (object : Nat) (vecSend : List (CScript × Int64))
    (state : PoolState) (vout : List CTxOut) (nChange : Int) : Prop where
  nonneg : 0 ≤ nChange
  outputs : nChange = 0 ∧ vout = payees vecSend ∨
    0 < nChange ∧ ∃ position change, position ≤ vecSend.length ∧
      change.nValue.toInt = nChange ∧
      change.scriptPubKey =
        setDestination (.CKeyID (crypto.Hash160 (state.reservations object).vchPubKey)) ∧
      vout = (payees vecSend).insertIdx position change

private theorem addChange_ok {chance : CreateChance lib} {nChange : Int}
    {vecSend : List (CScript × Int64)} {state after : PoolState} {vout : List CTxOut}
    (nonempty : vecSend ≠ []) (nonneg : 0 ≤ nChange) (fits : nChange ≤ int64Max)
    (added : addChange crypto keypool object chance nChange (payees vecSend) state =
      (.ok vout, after)) : PaysExactly crypto object vecSend after vout nChange := by
  refine ⟨nonneg, ?_⟩
  unfold addChange at added
  split_ifs at added with positive
  · refine .inr ⟨positive, ?_⟩
    split at added
    · simp at added
    · rename_i vchPubKey middle taken
      obtain ⟨same, rfl⟩ := Prod.mk.inj added
      have length : (payees vecSend).length = vecSend.length := List.length_map _
      refine ⟨_, _, ?_, ?_, ?_, (Except.ok.inj same).symm⟩
      · have some_payee := List.length_pos_of_ne_nil nonempty
        have position := chance.getRandInt_lt (payees vecSend).length (length ▸ some_payee)
        exact position.le.trans length.le
      · exact Int64.toInt_ofInt_of_le (le_trans (by decide) nonneg) (Int.lt_add_one_of_le fits)
      · rw [takeReservedKey_ok keypool object taken]
  · obtain ⟨same, rfl⟩ := Prod.mk.inj added
    exact .inl ⟨by omega, (Except.ok.inj same).symm⟩

/-- A transaction spends and pays like another one. -/
def SameMoney (before after : CTransaction) : Prop :=
  after.vout = before.vout ∧ after.vin.map CTxIn.prevout = before.vin.map CTxIn.prevout

private theorem sameMoney_setScriptSig (tx : CTransaction) (nIn : Nat) (scriptSig : CScript) :
    SameMoney tx (tx.setScriptSig nIn scriptSig) := by
  refine ⟨rfl, List.ext_getElem? fun i => ?_⟩
  simp only [CTransaction.setScriptSig, List.getElem?_map, List.getElem?_modify]
  cases tx.vin[i]? with
  | none => rfl
  | some txin => by_cases here : nIn = i <;> simp [here]

private theorem SameMoney.trans {first second third : CTransaction}
    (before : SameMoney first second) (after : SameMoney second third) :
    SameMoney first third :=
  ⟨after.1.trans before.1, after.2.trans before.2⟩

private theorem sameMoney_signSignature {keystore : SigningKeyStore} {fromPubKey : CScript}
    {txTo after : CTransaction} {nIn : Nat} {nHashType : Int32} {fSigned : Bool}
    (signed : signSignature crypto keystore fromPubKey txTo nIn nHashType = .ok (fSigned, after)) :
    SameMoney txTo after := by
  unfold signSignature at signed
  split_ifs at signed with missing
  dsimp only at signed
  split at signed
  · obtain ⟨-, rfl⟩ := Prod.mk.inj (Except.ok.inj signed)
    exact sameMoney_setScriptSig _ _ _
  · obtain ⟨-, rfl⟩ := Prod.mk.inj (Except.ok.inj signed)
    exact (sameMoney_setScriptSig _ _ _).trans (sameMoney_setScriptSig _ _ _)
  · obtain ⟨-, rfl⟩ := Prod.mk.inj (Except.ok.inj signed)
    exact sameMoney_setScriptSig _ _ _

private theorem sameMoney_signInputs {signer : SigningKeyStore} {nIn : Nat} {coins : List Coin}
    {wtxNew after : CTransaction}
    (signed : wallet.signInputs signer nIn coins wtxNew = .ok after) : SameMoney wtxNew after := by
  induction coins generalizing nIn wtxNew with
  | nil =>
      obtain rfl := Except.ok.inj signed
      exact ⟨rfl, rfl⟩
  | cons coin coins induction =>
      rw [signInputs] at signed
      cases found : wallet.txout coin with
      | none => simp [found] at signed
      | some txout =>
          simp only [found, except_bind_eq_ok] at signed
          obtain ⟨⟨fSigned, next⟩, first, rest⟩ := signed
          split_ifs at rest
          exact (sameMoney_signSignature first).trans (induction rest)

/-! ## The fee loop -/

/-- The coin that an input spends. -/
def spentCoin (txin : CTxIn) : Coin := (txin.prevout.hash, txin.prevout.n.toNat)

/-- A transaction spends outputs of the wallet, it pays the payees and the fee, and the rest is
change. -/
structure Balanced (wallet : SpendingWallet crypto) (object : Nat)
    (vecSend : List (CScript × Int64)) (attempt : Attempt) (state : PoolState) : Prop where
  inputs : ∃ store, ∀ txin ∈ attempt.wtxNew.vin,
    wallet.Owns (wallet.signer store).toCKeyStore (spentCoin txin)
  outputs : ∃ nChange, PaysExactly crypto object vecSend state attempt.wtxNew.vout nChange
  fee_eq : (attempt.wtxNew.vin.map fun txin => wallet.nValue (spentCoin txin)).sum -
    (attempt.wtxNew.vout.map fun txout => txout.nValue.toInt).sum = attempt.nFeeRet

private theorem sum_payees (vecSend : List (CScript × Int64)) :
    ((payees vecSend).map fun txout => txout.nValue.toInt).sum =
      (vecSend.map fun s => s.2.toInt).sum := by
  rw [payees, List.map_map]
  rfl

private theorem PaysExactly.sum_eq {vecSend : List (CScript × Int64)} {state : PoolState}
    {vout : List CTxOut} {nChange : Int}
    (pays : PaysExactly crypto object vecSend state vout nChange) :
    (vout.map fun txout => txout.nValue.toInt).sum =
      (vecSend.map fun s => s.2.toInt).sum + nChange := by
  obtain ⟨zero, rfl⟩ | ⟨-, position, change, inside, value, -, rfl⟩ := pays.outputs
  · rw [sum_payees, zero, add_zero]
  · have length : (payees vecSend).length = vecSend.length := List.length_map _
    have perm := (List.perm_insertIdx change (payees vecSend) (length ▸ inside)).map
      fun txout => txout.nValue.toInt
    rw [perm.sum_eq, List.map_cons, List.sum_cons, sum_payees, value, add_comm]

/-- The coins that a transaction like this one spends. -/
private theorem spentCoins_eq {coins : List Coin} {before after : CTransaction}
    (same : SameMoney before after) (spends : before.vin = coins.map spendCoin)
    (small : ∀ coin ∈ coins, coin.2 < 2 ^ 32) : after.vin.map spentCoin = coins := by
  have through (vin : List CTxIn) : vin.map spentCoin =
      (vin.map CTxIn.prevout).map fun prevout => (prevout.hash, prevout.n.toNat) := by
    rw [List.map_map]
    rfl
  rw [through, same.2, ← through, spends, List.map_map]
  refine (List.map_congr_left fun coin member => ?_).trans (List.map_id coins)
  have index : (UInt32.ofNat coin.2).toNat = coin.2 := by
    rw [UInt32.toNat_ofNat', Nat.mod_eq_of_lt (small coin member)]
  simp only [Function.comp_apply, spentCoin, spendCoin, index, id_eq]

/-- An iteration starts from clean inputs and outputs and balances them. -/
private theorem createOnce_balanced {chance : CreateChance lib} {vecSend : List (CScript × Int64)}
    {attempt made : Attempt} {state after : PoolState} (nonempty : vecSend ≠ [])
    (created : wallet.createOnce keypool object chance vecSend
      (vecSend.map fun s => s.2.toInt).sum attempt state = (.ok made, after)) :
    wallet.Balanced object vecSend made after ∧ attempt.nFeeRet ≤ made.nFeeRet := by
  unfold createOnce at created
  dsimp only at created
  split at created
  · simp at created
  · rename_i setCoins nFeeRet nChange chosen
    obtain ⟨own, worth, nonneg, fits, raised⟩ := chooseCoins_eq chosen
    split at created
    · simp at created
    · rename_i vout middle added
      have pays := addChange_ok keypool object nonempty nonneg fits added
      obtain ⟨signed, rfl⟩ := Prod.mk.inj created
      obtain ⟨wtxNew, inputs_signed, made_eq⟩ := except_bind_eq_ok.mp signed
      obtain rfl := pure_eq_ok.mp made_eq
      have same := sameMoney_signInputs inputs_signed
      have coins : ((chance.order setCoins).map wallet.nValue).sum =
          ∑ coin ∈ setCoins, wallet.nValue coin := by
        rw [← List.sum_toFinset _ (chance.order_nodup setCoins), chance.order_eq]
      have ordered {coin : Coin} (member : coin ∈ chance.order setCoins) :=
        own coin (chance.order_eq setCoins ▸ List.mem_toFinset.mpr member)
      have spent := spentCoins_eq same rfl fun coin member => (ordered member).1
      refine ⟨⟨⟨state.wallet.keystore, fun txin member => ?_⟩, ⟨nChange, ?_⟩, ?_⟩, raised⟩
      · have listed := List.mem_map_of_mem (f := spentCoin) member
        rw [spent] at listed
        exact (ordered listed).2
      · exact same.1 ▸ pays
      · have values : (wtxNew.vin.map fun txin => wallet.nValue (spentCoin txin)).sum =
            ((chance.order setCoins).map wallet.nValue).sum := by
          rw [← spent, List.map_map]
          rfl
        dsimp only
        rw [values, same.1, pays.sum_eq, coins, worth]
        ring

private theorem moneyRange_getMinFeeWords {tx : CTransaction} {fAllowFree : Bool}
    {mode : GetMinFeeMode} {nMinFee : Int}
    (computed : tx.getMinFeeWords 1 fAllowFree mode = .ok nMinFee) : MoneyRange nMinFee := by
  obtain ⟨nSizeFee, -, computed⟩ := except_bind_eq_ok.mp computed
  dsimp only at computed
  obtain ⟨nDust, -, computed⟩ := except_bind_eq_ok.mp computed
  rw [raiseFee, if_neg (by simp)] at computed
  obtain rfl := pure_eq_ok.mp computed
  exact moneyRange_limitFee nDust

/-- The fee is enough for the signed transaction. -/
structure EnoughFee (wallet : SpendingWallet crypto) (chance : CreateChance lib)
    (attempt : Attempt) : Prop where
  nPayFee_le : wallet.nTransactionFee *
    (1 + (attempt.wtxNew.getSerializeSize.toNat / 1000 : Nat)) ≤ attempt.nFeeRet
  nMinFee_le : ∃ nMinFee, attempt.wtxNew.getMinFeeWords 1 (chance.fAllowFree attempt.wtxNew)
    .GMF_SEND = .ok nMinFee ∧ nMinFee ≤ attempt.nFeeRet

private theorem requiredFee_le {chance : CreateChance lib} {wtxNew : CTransaction} {nFee : Int}
    (required : wallet.requiredFee chance wtxNew = .ok nFee) : nFee ≤ int64Max := by
  unfold requiredFee at required
  dsimp only at required
  split_ifs at required
  obtain ⟨nPayFee, fits, required⟩ := except_bind_eq_ok.mp required
  obtain ⟨⟨-, high⟩, rfl⟩ := int64_eq_ok.mp fits
  obtain ⟨nMinFee, computed, required⟩ := except_bind_eq_ok.mp required
  obtain rfl := pure_eq_ok.mp required
  exact max_le high ((moneyRange_getMinFeeWords computed).2.trans (by decide))

private theorem enoughFee_of_requiredFee {chance : CreateChance lib} {attempt : Attempt}
    {nFee : Int} (required : wallet.requiredFee chance attempt.wtxNew = .ok nFee)
    (enough : nFee ≤ attempt.nFeeRet) : wallet.EnoughFee chance attempt := by
  unfold requiredFee at required
  dsimp only at required
  split_ifs at required
  obtain ⟨nPayFee, fits, required⟩ := except_bind_eq_ok.mp required
  obtain ⟨-, rfl⟩ := int64_eq_ok.mp fits
  obtain ⟨nMinFee, computed, required⟩ := except_bind_eq_ok.mp required
  obtain rfl := pure_eq_ok.mp required
  exact ⟨(le_max_left _ _).trans enough, nMinFee, computed, (le_max_right _ _).trans enough⟩

private theorem totalValue_eq {vecSend : List (CScript × Int64)} {start nValue : Int}
    (totalled : totalValue start vecSend = .ok nValue) :
    nValue = start + (vecSend.map fun s => s.2.toInt).sum := by
  induction vecSend generalizing start with
  | nil =>
      obtain rfl := pure_eq_ok.mp totalled
      simp
  | cons s vecSend induction =>
      rw [totalValue] at totalled
      split_ifs at totalled
      obtain ⟨next, fits, rest⟩ := except_bind_eq_ok.mp totalled
      obtain ⟨-, rfl⟩ := int64_eq_ok.mp fits
      rw [induction rest, List.map_cons, List.sum_cons, add_assoc]

section Loop

variable {keypool object} {chances : Nat → CreateChance lib} {vecSend : List (CScript × Int64)}
  {iteration fuel : Nat} {attempt : Attempt} {state : PoolState}

/-- The fee rises until it is enough. -/
private theorem feeLoop_ends (nonempty : vecSend ≠ [])
    (enough : (int64Max - attempt.nFeeRet).toNat < fuel) :
    ∃ result, wallet.feeLoop keypool object chances vecSend (vecSend.map fun s => s.2.toInt).sum
      fuel iteration attempt state = some result := by
  induction fuel generalizing iteration attempt state with
  | zero => omega
  | succ fuel induction =>
      rw [feeLoop]
      split
      · exact ⟨_, rfl⟩
      · rename_i made after created
        obtain ⟨-, raised⟩ := createOnce_balanced keypool object nonempty created
        split
        · exact ⟨_, rfl⟩
        · rename_i nFee required
          have high := requiredFee_le required
          split_ifs with short
          · refine induction ?_
            dsimp only
            omega
          · exact ⟨_, rfl⟩

private theorem feeLoop_mono {nValue : Int} {result : Outcome Attempt × PoolState}
    (ended : wallet.feeLoop keypool object chances vecSend nValue fuel iteration attempt state =
      some result) (more : Nat) :
    wallet.feeLoop keypool object chances vecSend nValue (fuel + more) iteration attempt state =
      some result := by
  induction fuel generalizing iteration attempt state with
  | zero => contradiction
  | succ fuel induction =>
      rw [Nat.succ_add, feeLoop]
      rw [feeLoop] at ended
      split at ended
      · exact ended
      · split at ended
        · exact ended
        · split_ifs at ended ⊢ with short
          · exact induction ended
          · exact ended

/-- The loop ends with a transaction that is balanced and pays enough. -/
private theorem feeLoop_pays (nonempty : vecSend ≠ []) {made : Attempt} {after : PoolState}
    (ended : wallet.feeLoop keypool object chances vecSend (vecSend.map fun s => s.2.toInt).sum
      fuel iteration attempt state = some (.ok made, after)) :
    wallet.Balanced object vecSend made after ∧
      ∃ iteration, wallet.EnoughFee (chances iteration) made := by
  induction fuel generalizing iteration attempt state with
  | zero => contradiction
  | succ fuel induction =>
      rw [feeLoop] at ended
      split at ended
      · simp at ended
      · rename_i next middle created
        obtain ⟨balanced, -⟩ := createOnce_balanced keypool object nonempty created
        split at ended
        · simp at ended
        · rename_i nFee required
          split_ifs at ended with short
          · exact induction ended
          · simp only [Option.some.injEq, Prod.mk.injEq, Except.ok.injEq] at ended
            obtain ⟨rfl, rfl⟩ := ended
            exact ⟨balanced, iteration,
              enoughFee_of_requiredFee required (Int.not_lt.mp short)⟩

end Loop

/-- A transaction that is created is balanced and pays enough. -/
theorem balanced_createTransaction {chances : Nat → CreateChance lib} {fuel : Nat}
    {vecSend : List (CScript × Int64)} {wtxNew : CTransaction} {state after : PoolState}
    {attempt : Attempt}
    (created : wallet.createTransaction keypool object chances fuel vecSend wtxNew state =
      some (.ok attempt, after)) :
    wallet.Balanced object vecSend attempt after ∧
      ∃ iteration, wallet.EnoughFee (chances iteration) attempt := by
  unfold createTransaction at created
  split at created
  · simp at created
  · rename_i nValue totalled
    have total := totalValue_eq totalled
    rw [zero_add] at total
    subst total
    split_ifs at created with refused
    · simp at created
    · push Not at refused
      exact feeLoop_pays refused.1 created

/-- A transaction with positive payments spends outputs of a positive value. -/
theorem inputs_positive {chances : Nat → CreateChance lib} {fuel : Nat}
    {vecSend : List (CScript × Int64)} {wtxNew : CTransaction} {state after : PoolState}
    {attempt : Attempt}
    (created : wallet.createTransaction keypool object chances fuel vecSend wtxNew state =
      some (.ok attempt, after)) (positive : 0 < (vecSend.map fun s => s.2.toInt).sum) :
    0 < (attempt.wtxNew.vin.map fun txin => wallet.nValue (spentCoin txin)).sum := by
  obtain ⟨balanced, iteration, enough⟩ := balanced_createTransaction keypool object created
  obtain ⟨nChange, pays⟩ := balanced.outputs
  obtain ⟨nMinFee, computed, paid⟩ := enough.nMinFee_le
  have outputs := pays.sum_eq
  have fee := balanced.fee_eq
  have nonneg := pays.nonneg
  have least := (moneyRange_getMinFeeWords computed).1
  omega

end SpendingWallet

/-- The fee loop ends, and a transaction that is created spends outputs of the wallet, it pays the
payees exactly, the inputs exceed the outputs by the fee, and the fee is enough for its size and its
outputs. -/
theorem createTransaction_pays (chances : Nat → CreateChance lib)
    (vecSend : List (CScript × Int64)) (wtxNew : CTransaction) (state : PoolState) :
    (∃ fuel result, ∀ more, fuel ≤ more →
      wallet.createTransaction keypool object chances more vecSend wtxNew state = some result) ∧
    ∀ fuel attempt after,
      wallet.createTransaction keypool object chances fuel vecSend wtxNew state =
        some (.ok attempt, after) →
      wallet.Balanced object vecSend attempt after ∧
        ∃ iteration, wallet.EnoughFee (chances iteration) attempt := by
  refine ⟨?_, fun fuel attempt after created =>
    SpendingWallet.balanced_createTransaction keypool object created⟩
  unfold SpendingWallet.createTransaction
  cases totalled : SpendingWallet.totalValue 0 vecSend with
  | error failure => exact ⟨0, _, fun _ _ => rfl⟩
  | ok nValue =>
      dsimp only
      split_ifs with refused
      · exact ⟨0, _, fun _ _ => rfl⟩
      · push Not at refused
        have total := SpendingWallet.totalValue_eq totalled
        rw [zero_add] at total
        subst total
        obtain ⟨result, ended⟩ := @SpendingWallet.feeLoop_ends crypto lib wallet keypool object
          chances vecSend 0 _ ⟨wtxNew, wallet.nTransactionFee⟩ state refused.1
          (Nat.lt_succ_self _)
        refine ⟨(int64Max - wallet.nTransactionFee).toNat + 1, result, fun more enough => ?_⟩
        rw [← Nat.add_sub_cancel' enough]
        exact SpendingWallet.feeLoop_mono ended _

end Create

end FooCoin

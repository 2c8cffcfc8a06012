import FooCoin.KeyStore
import FooCoin.Library.Numeral
import FooCoin.Script.Destination
import FooCoin.Script.Push
import FooCoin.Script.Spendable
import FooCoin.WalletAmounts

/-!
# Base58

`EncodeBase58` reads bytes as a number, writes the number in base 58 and puts a `1` in front for
each leading zero byte; `DecodeBase58` goes back.  Both go through the bytes of a `CBigNum`, whose
sign byte is put on before and cut off after.  Addresses and secrets are written so, with a version
byte in front and four bytes of a hash behind.
-/

namespace FooCoin

open LittleEndian Numeral

/-! ## The codec -/

/-- `pszBase58`. -/
def pszBase58 : List UInt8 :=
  "123456789ABCDEFGHJKLMNPQRSTUVWXYZabcdefghijkmnopqrstuvwxyz".toList.map fun c =>
    UInt8.ofNat c.toNat

/-- The character of a digit. -/
def base58Char (digit : Nat) : UInt8 := pszBase58.getD digit 0

/-- The digits of a number as `EncodeBase58` finds them, the last one first. -/
def encodeBase58Loop : Nat → Int → List UInt8
  | 0, _ => []
  | fuel + 1, bn =>
      if 0 < bn then base58Char (bn.tmod 58).natAbs :: encodeBase58Loop fuel (bn.tdiv 58) else []

/-- `EncodeBase58`. -/
def encodeBase58 (vch : List UInt8) : List UInt8 :=
  let vchTmp := vch.reverse ++ [0]
  let bn := setvch vchTmp
  let str := encodeBase58Loop bn.natAbs bn
  (str ++ (vch.takeWhile (· = 0)).map fun _ => base58Char 0).reverse

/-- `isspace` in the C locale. -/
def isspace (c : UInt8) : Bool := c = 32 || (9 ≤ c && c ≤ 13)

/-- The number that `DecodeBase58` reads, `none` where it returns `false`. -/
def decodeBase58Loop : Int → List UInt8 → Option Int
  | bn, [] => some bn
  | bn, c :: p =>
      match pszBase58.idxOf? c with
      | some bnChar => decodeBase58Loop (bn * 58 + bnChar) p
      | none => if (c :: p).dropWhile isspace = [] then some bn else none

/-- The bytes without a sign byte. -/
def trimSign (vchTmp : List UInt8) : List UInt8 :=
  match vchTmp.reverse with
  | last :: before :: _ => if last = 0 ∧ 0x80 ≤ before then vchTmp.dropLast else vchTmp
  | _ => vchTmp

/-- The characters in front of the terminator of a C string. -/
def c_str (str : List UInt8) : List UInt8 := str.takeWhile (· ≠ 0)

/-- `DecodeBase58` of a C string, `none` where it returns `false`. -/
def decodeBase58Psz (psz : List UInt8) : Option (List UInt8) :=
  let psz := psz.dropWhile isspace
  (decodeBase58Loop 0 psz).map fun bn =>
    let vchTmp := trimSign (getvch bn)
    let nLeadingZeros := (psz.takeWhile (· = base58Char 0)).length
    List.replicate nLeadingZeros 0 ++ vchTmp.reverse

/-- `DecodeBase58`. -/
def decodeBase58 (str : List UInt8) : Option (List UInt8) := decodeBase58Psz (c_str str)

/-- `EncodeBase58Check`. -/
def encodeBase58Check (crypto : Crypto) (vchIn : List UInt8) : List UInt8 :=
  encodeBase58 (vchIn ++ (uint256Bytes (crypto.Hash vchIn)).take 4)

/-- `DecodeBase58Check`, `none` where it returns `false`. -/
def decodeBase58Check (crypto : Crypto) (str : List UInt8) : Option (List UInt8) :=
  match decodeBase58 str with
  | none => none
  | some vchRet =>
      if vchRet.length < 4 then none
      else
        let vch := vchRet.take (vchRet.length - 4)
        if (uint256Bytes (crypto.Hash vch)).take 4 ≠ vchRet.drop (vchRet.length - 4) then none
        else some vch

/-! ## Addresses and secrets -/

/-- `CBase58Data`. -/
structure CBase58Data where
  nVersion : UInt8
  vchData : List UInt8
deriving DecidableEq

namespace CBase58Data

/-- `CBase58Data::CBase58Data`. -/
def empty : CBase58Data where
  nVersion := 0
  vchData := []

/-- `CBase58Data::SetString`: what it returns and the data it leaves. -/
def setString (crypto : Crypto) (str : List UInt8) : Bool × CBase58Data :=
  match (decodeBase58Check crypto str).getD [] with
  | [] => (false, empty)
  | nVersion :: vchData => (true, ⟨nVersion, vchData⟩)

/-- `CBase58Data::ToString`. -/
def toString (crypto : Crypto) (data : CBase58Data) : List UInt8 :=
  encodeBase58Check crypto (data.nVersion :: data.vchData)

end CBase58Data

namespace CBitcoinAddress

def PUBKEY_ADDRESS : UInt8 := 38
def SCRIPT_ADDRESS : UInt8 := 5
def PUBKEY_ADDRESS_TEST : UInt8 := 111
def SCRIPT_ADDRESS_TEST : UInt8 := 196

variable (fTestNet : Bool)

/-- `CBitcoinAddress::CBitcoinAddress` of a destination. -/
def ofDestination : CTxDestination → CBase58Data
  | .CKeyID id => ⟨if fTestNet then PUBKEY_ADDRESS_TEST else PUBKEY_ADDRESS, uint160Bytes id⟩
  | .CScriptID id => ⟨if fTestNet then SCRIPT_ADDRESS_TEST else SCRIPT_ADDRESS, uint160Bytes id⟩
  | .CNoDestination => .empty

/-- `CBitcoinAddress::IsValid`. -/
def isValid (address : CBase58Data) : Bool :=
  if address.nVersion = PUBKEY_ADDRESS ∨ address.nVersion = SCRIPT_ADDRESS then
    !fTestNet && address.vchData.length = 20
  else if address.nVersion = PUBKEY_ADDRESS_TEST ∨ address.nVersion = SCRIPT_ADDRESS_TEST then
    fTestNet && address.vchData.length = 20
  else false

/-- `CBitcoinAddress::Get`. -/
def get (address : CBase58Data) : CTxDestination :=
  if !isValid fTestNet address then .CNoDestination
  else if address.nVersion = PUBKEY_ADDRESS ∨ address.nVersion = PUBKEY_ADDRESS_TEST then
    .CKeyID (uint160OfBytes (address.vchData.take 20))
  else if address.nVersion = SCRIPT_ADDRESS ∨ address.nVersion = SCRIPT_ADDRESS_TEST then
    .CScriptID (uint160OfBytes (address.vchData.take 20))
  else .CNoDestination

end CBitcoinAddress

namespace CBitcoinSecret

def PRIVKEY_ADDRESS : UInt8 := CBitcoinAddress.PUBKEY_ADDRESS + 128
def PRIVKEY_ADDRESS_TEST : UInt8 := CBitcoinAddress.PUBKEY_ADDRESS_TEST + 128

variable (fTestNet : Bool)

/-- `CBitcoinSecret::SetSecret`, `none` where its assertion fails. -/
def setSecret (vchSecret : CSecret) (fCompressed : Bool) : Option CBase58Data :=
  if vchSecret.length ≠ 32 then none
  else
    some
      { nVersion := if fTestNet then PRIVKEY_ADDRESS_TEST else PRIVKEY_ADDRESS
        vchData := if fCompressed then vchSecret ++ [1] else vchSecret }

/-- `CBitcoinSecret::GetSecret`: the secret and `fCompressedOut`. -/
def getSecret (secret : CBase58Data) : CSecret × Bool :=
  (secret.vchData.take 32, secret.vchData.length = 33)

/-- `CBitcoinSecret::IsValid`. -/
def isValid (secret : CBase58Data) : Bool :=
  let sized := secret.vchData.length = 32 ∨
    (secret.vchData.length = 33 ∧ secret.vchData[32]? = some 1)
  if secret.nVersion = PRIVKEY_ADDRESS then !fTestNet && sized
  else if secret.nVersion = PRIVKEY_ADDRESS_TEST then fTestNet && sized
  else false

/-- `CBitcoinSecret::SetString`: what it returns and the secret it leaves. -/
def setString (crypto : Crypto) (str : List UInt8) : Bool × CBase58Data :=
  let (read, secret) := CBase58Data.setString crypto str
  (read && isValid fTestNet secret, secret)

end CBitcoinSecret

/-! ## The digits -/

private theorem base58Char_facts : ∀ digit < 58, pszBase58.idxOf? (base58Char digit) = some digit ∧
    base58Char digit ≠ 0 ∧ isspace (base58Char digit) = false ∧
      (base58Char digit = base58Char 0 ↔ digit = 0) := by
  decide +kernel

private theorem of_idxOf? {c : UInt8} {digit : Nat} (found : pszBase58.idxOf? c = some digit) :
    digit < 58 ∧ base58Char digit = c := by
  obtain ⟨small, is_c, -⟩ := List.findIdx?_eq_some_iff_getElem.mp found
  refine ⟨small, ?_⟩
  rw [base58Char, List.getD_eq_getElem _ _ small]
  exact eq_of_beq is_c

/-- `EncodeBase58` finds the digits of the number. -/
theorem encodeBase58Loop_eq {fuel number : Nat} (enough : number ≤ fuel) :
    encodeBase58Loop fuel number = (Nat.digits 58 number).map base58Char := by
  induction fuel generalizing number with
  | zero =>
      rw [Nat.le_zero.mp enough]
      rfl
  | succ fuel induction =>
      rw [encodeBase58Loop]
      by_cases zero : number = 0
      · rw [if_neg (by omega), zero]
        rfl
      · have last : ((number : Int).tmod 58).natAbs = number % 58 := by
          rw [Int.tmod_eq_emod_of_nonneg (Int.natCast_nonneg _)]
          omega
        have rest : (number : Int).tdiv 58 = (number / 58 : Nat) := by
          rw [Int.tdiv_eq_ediv_of_nonneg (Int.natCast_nonneg _)]
          rfl
        rw [if_pos (by omega), last, rest, induction (by omega),
          Nat.digits_eq_cons_digits_div (by norm_num) zero, List.map_cons]

private theorem ofLE_eq (bytes : List UInt8) :
    ofLE bytes = Nat.ofDigits 256 (bytes.map UInt8.toNat) := by
  induction bytes with
  | nil => rfl
  | cons byte bytes induction => rw [ofLE, List.map_cons, Nat.ofDigits_cons, induction]

private theorem length_takeWhile_map {α β : Type} {f : α → β} {p : α → Bool} {q : β → Bool}
    {items : List α} (same : ∀ item ∈ items, q (f item) = p item) :
    ((items.map f).takeWhile q).length = (items.takeWhile p).length := by
  induction items with
  | nil => rfl
  | cons item items induction =>
      have first := same item List.mem_cons_self
      have later := induction fun item mem => same item (List.mem_cons_of_mem _ mem)
      by_cases holds : p item = true
      · rw [List.map_cons, List.takeWhile_cons_of_pos (first.trans holds),
          List.takeWhile_cons_of_pos holds, List.length_cons, List.length_cons, later]
      · rw [List.map_cons, List.takeWhile_cons_of_neg (first ▸ holds),
          List.takeWhile_cons_of_neg holds]
        rfl

/-- `EncodeBase58` changes the base and keeps the leading zeros. -/
theorem encodeBase58_eq (vch : List UInt8) :
    encodeBase58 vch = (rebase 256 58 (vch.map UInt8.toNat)).map base58Char := by
  have number : setvch (vch.reverse ++ [0]) = (value 256 (vch.map UInt8.toNat) : Nat) := by
    rw [setvch_positive (by decide), ofLE_eq, List.map_append, value, List.map_reverse]
    simp [Nat.ofDigits_append_zero]
  have zeros : leading (vch.map UInt8.toNat) = (vch.takeWhile (· = 0)).length :=
    length_takeWhile_map fun byte _ => decide_eq_decide.mpr (UInt8.toNat_inj (b := 0))
  simp only [encodeBase58, number, Int.natAbs_natCast, encodeBase58Loop_eq le_rfl]
  rw [rebase, numeral, zeros, List.map_append, List.map_replicate, List.map_reverse,
    List.reverse_append, List.map_const', List.reverse_replicate]

/-! ## The bytes of a number -/

private theorem magnitudeBytes_eq {fuel number : Nat} (enough : number ≤ fuel) :
    magnitudeBytes fuel number = (Nat.digits 256 number).map UInt8.ofNat := by
  induction fuel generalizing number with
  | zero =>
      rw [Nat.le_zero.mp enough]
      rfl
  | succ fuel induction =>
      rw [magnitudeBytes]
      by_cases zero : number = 0
      · rw [if_pos zero, zero]
        rfl
      · rw [if_neg zero, induction (by omega), Nat.digits_eq_cons_digits_div (by norm_num) zero,
          List.map_cons]

/-- Without its sign byte a number has its digits for bytes. -/
theorem trimSign_getvch (number : Nat) :
    trimSign (getvch number) = (Nat.digits 256 number).map UInt8.ofNat := by
  have positive : ¬(number : Int) < 0 := by omega
  simp only [getvch, Int.natAbs_natCast, if_neg positive]
  rw [magnitudeBytes_eq le_rfl]
  by_cases zero : number = 0
  · simp [zero, trimSign]
  · have nonempty : Nat.digits 256 number ≠ [] := Nat.digits_ne_nil_iff_ne_zero.mpr zero
    have top_ne := Nat.getLast_digit_ne_zero 256 zero
    have top_lt : (Nat.digits 256 number).getLast nonempty < 256 :=
      Nat.digits_lt_base (by norm_num) (List.getLast_mem nonempty)
    rw [← List.dropLast_append_getLast nonempty, List.map_append, List.map_singleton,
      List.getLast?_concat]
    generalize (Nat.digits 256 number).getLast nonempty = top at top_ne top_lt
    generalize (Nat.digits 256 number).dropLast.map UInt8.ofNat = init
    have top_toNat : (UInt8.ofNat top).toNat = top := by
      rw [UInt8.toNat_ofNat', Nat.mod_eq_of_lt top_lt]
    by_cases high : (0x80 : UInt8) ≤ UInt8.ofNat top
    · simp [high, trimSign]
    · have nonzero : UInt8.ofNat top ≠ 0 := fun none =>
        top_ne (by rw [← top_toNat, none, UInt8.toNat_zero])
      simp only [high, if_false, List.dropLast_concat, UInt8.or_zero]
      rw [trimSign, List.reverse_append, List.reverse_singleton, List.singleton_append]
      cases init.reverse <;> simp [nonzero]

/-! ## Reading -/

private theorem value_cons (base digit : Nat) (digits : List Nat) :
    value base (digit :: digits) = value base digits + base ^ digits.length * digit := by
  rw [value, Nat.ofDigits_reverse_cons, value]

private theorem decodeBase58Loop_digits {digits : List Nat} (small : ∀ digit ∈ digits, digit < 58)
    (number : Nat) :
    decodeBase58Loop number (digits.map base58Char) =
      some ((number * 58 ^ digits.length + value 58 digits : Nat) : Int) := by
  induction digits generalizing number with
  | nil => simp [decodeBase58Loop, value]
  | cons digit digits induction =>
      have found := (base58Char_facts digit (small digit List.mem_cons_self)).1
      have later := induction (fun digit mem => small digit (List.mem_cons_of_mem _ mem))
        (number * 58 + digit)
      rw [List.map_cons, decodeBase58Loop, found]
      push_cast at later ⊢
      rw [later, value_cons, List.length_cons, pow_succ]
      push_cast
      ring_nf

private theorem digits_of_decodeBase58Loop {p : List UInt8} {bn result : Int}
    (spaceless : ∀ c ∈ p, isspace c = false) (read : decodeBase58Loop bn p = some result) :
    ∃ digits : List Nat, (∀ digit ∈ digits, digit < 58) ∧ p = digits.map base58Char := by
  induction p generalizing bn with
  | nil => exact ⟨[], by simp, rfl⟩
  | cons c p induction =>
      rw [decodeBase58Loop] at read
      cases found : pszBase58.idxOf? c with
      | none =>
          rw [found] at read
          have visible := spaceless c List.mem_cons_self
          simp [visible] at read
      | some digit =>
          rw [found] at read
          obtain ⟨small, char⟩ := of_idxOf? found
          obtain ⟨digits, digits_small, rest⟩ :=
            induction (fun c mem => spaceless c (List.mem_cons_of_mem _ mem)) read
          exact ⟨digit :: digits, by simpa [small] using digits_small, by simp [char, rest]⟩

/-- `DecodeBase58` changes the base back and keeps the leading zeros. -/
theorem decodeBase58_digits {digits : List Nat} (small : ∀ digit ∈ digits, digit < 58) :
    decodeBase58 (digits.map base58Char) = some ((rebase 58 256 digits).map UInt8.ofNat) := by
  have visible : ∀ c ∈ digits.map base58Char, c ≠ 0 ∧ isspace c = false := by
    intro c mem
    obtain ⟨digit, digit_mem, rfl⟩ := List.mem_map.mp mem
    exact ⟨(base58Char_facts digit (small digit digit_mem)).2.1,
      (base58Char_facts digit (small digit digit_mem)).2.2.1⟩
  have text : c_str (digits.map base58Char) = digits.map base58Char :=
    List.takeWhile_eq_self_iff.mpr fun c mem => by simpa using (visible c mem).1
  have start : (digits.map base58Char).dropWhile isspace = digits.map base58Char := by
    cases digits with
    | nil => rfl
    | cons digit digits =>
        rw [List.map_cons, List.dropWhile_cons_of_neg]
        simpa using (visible _ List.mem_cons_self).2
  have zeros : ((digits.map base58Char).takeWhile (· = base58Char 0)).length = leading digits :=
    length_takeWhile_map fun digit mem =>
      decide_eq_decide.mpr (base58Char_facts digit (small digit mem)).2.2.2
  have read := decodeBase58Loop_digits small 0
  rw [Nat.zero_mul, Nat.zero_add] at read
  rw [decodeBase58, text, decodeBase58Psz]
  simp only [start, zeros]
  rw [show (0 : Int) = (0 : Nat) from rfl, read, Option.map_some, trimSign_getvch, rebase, numeral,
    List.map_append, List.map_replicate, List.map_reverse]
  rfl

/-! ## Round trips -/

private theorem map_ofNat_toNat (bytes : List UInt8) :
    (bytes.map UInt8.toNat).map UInt8.ofNat = bytes := by
  rw [List.map_map]
  exact List.map_id'' (fun byte => UInt8.ofNat_toNat) bytes

private theorem map_toNat_ofNat {digits : List Nat} (small : ∀ digit ∈ digits, digit < 256) :
    (digits.map UInt8.ofNat).map UInt8.toNat = digits := by
  rw [List.map_map]
  refine (List.map_congr_left fun digit mem => ?_).trans (List.map_id digits)
  exact UInt8.toNat_ofNat_of_lt' (small digit mem)

/-- Bytes are read back from their characters. -/
theorem decodeBase58_encodeBase58 (vch : List UInt8) :
    decodeBase58 (encodeBase58 vch) = some vch := by
  have bytes : ∀ digit ∈ vch.map UInt8.toNat, digit < 256 := by
    intro digit mem
    obtain ⟨byte, -, rfl⟩ := List.mem_map.mp mem
    exact byte.toNat_lt
  rw [encodeBase58_eq, decodeBase58_digits fun digit mem => lt_of_mem_rebase (by norm_num) mem,
    rebase_rebase (by norm_num) 58 bytes, map_ofNat_toNat]

/-- Characters that are read are written back. -/
theorem encodeBase58_of_decodeBase58 {str vchRet : List UInt8} (terminated : 0 ∉ str)
    (spaceless : ∀ c ∈ str, isspace c = false) (read : decodeBase58 str = some vchRet) :
    encodeBase58 vchRet = str := by
  have text : c_str str = str :=
    List.takeWhile_eq_self_iff.mpr fun c mem =>
      decide_eq_true fun zero : c = 0 => terminated (zero ▸ mem)
  have number : ∃ bn, decodeBase58Loop 0 str = some bn := by
    rw [decodeBase58, text, decodeBase58Psz] at read
    obtain ⟨bn, found, -⟩ := Option.map_eq_some_iff.mp read
    have start : str.dropWhile isspace = str := by
      cases str with
      | nil => rfl
      | cons c str =>
          rw [List.dropWhile_cons_of_neg]
          simpa using spaceless c List.mem_cons_self
    exact ⟨bn, start ▸ found⟩
  obtain ⟨bn, found⟩ := number
  obtain ⟨digits, small, rfl⟩ := digits_of_decodeBase58Loop spaceless found
  rw [decodeBase58_digits small] at read
  rw [← Option.some.inj read, encodeBase58_eq,
    map_toNat_ofNat fun digit mem => lt_of_mem_rebase (by norm_num) mem,
    rebase_rebase (by norm_num) 256 small]

/-- Bytes are read back with their hash. -/
theorem decodeBase58Check_encodeBase58Check (crypto : Crypto) (vchIn : List UInt8) :
    decodeBase58Check crypto (encodeBase58Check crypto vchIn) = some vchIn := by
  have hash : ((uint256Bytes (crypto.Hash vchIn)).take 4).length = 4 := by simp
  rw [decodeBase58Check, encodeBase58Check, decodeBase58_encodeBase58]
  simp only [List.length_append, hash, Nat.add_sub_cancel, List.take_left, List.drop_left]
  rw [if_neg (by omega), if_neg (by simp)]

/-! ## Addresses and secrets read back -/

namespace CBase58Data

/-- What `ToString` writes is read back. -/
theorem setString_toString (crypto : Crypto) (data : CBase58Data) :
    setString crypto (data.toString crypto) = (true, data) := by
  rw [setString, toString, decodeBase58Check_encodeBase58Check]
  rfl

end CBase58Data

namespace CBitcoinAddress

/-- The address of a key or a script is valid and stands for it. -/
theorem get_ofDestination (fTestNet : Bool) {dest : CTxDestination}
    (some_dest : dest ≠ .CNoDestination) :
    isValid fTestNet (ofDestination fTestNet dest) = true ∧
      get fTestNet (ofDestination fTestNet dest) = dest := by
  have taken (id : UInt160) : (uint160Bytes id).take 20 = uint160Bytes id :=
    List.take_of_length_le (length_uint160Bytes id).le
  cases dest with
  | CNoDestination => exact absurd rfl some_dest
  | CKeyID id =>
    cases fTestNet <;> simp [get, isValid, ofDestination, taken, uint160OfBytes_uint160Bytes,
      PUBKEY_ADDRESS, SCRIPT_ADDRESS, PUBKEY_ADDRESS_TEST, SCRIPT_ADDRESS_TEST]
  | CScriptID id =>
    cases fTestNet <;> simp [get, isValid, ofDestination, taken, uint160OfBytes_uint160Bytes,
      PUBKEY_ADDRESS, SCRIPT_ADDRESS, PUBKEY_ADDRESS_TEST, SCRIPT_ADDRESS_TEST]

end CBitcoinAddress

namespace CBitcoinSecret

/-- A secret is valid and gives back its bytes and its compression flag. -/
theorem getSecret_setSecret {fTestNet fCompressed : Bool} {vchSecret : CSecret}
    {secret : CBase58Data} (set : setSecret fTestNet vchSecret fCompressed = some secret) :
    isValid fTestNet secret = true ∧ getSecret secret = (vchSecret, fCompressed) := by
  rw [setSecret] at set
  by_cases sized : vchSecret.length = 32
  · rw [if_neg (not_not.mpr sized)] at set
    obtain rfl := Option.some.inj set
    have version : ¬(PRIVKEY_ADDRESS_TEST = PRIVKEY_ADDRESS) := by decide
    have taken : vchSecret.take 32 = vchSecret := List.take_of_length_le sized.le
    cases fTestNet <;> cases fCompressed <;> simp [isValid, getSecret, sized, taken, version]
  · rw [if_pos sized] at set
    exact absurd set (by simp)

end CBitcoinSecret

end FooCoin

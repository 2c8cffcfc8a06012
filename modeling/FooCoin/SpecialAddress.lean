import FooCoin.Base58
import FooCoin.Base64
import FooCoin.NetAddr

/-!
# Onion and garlic addresses

A hidden service is an IPv6 address with the prefix of its network in front of ten bytes, which are
written in Base32 with the suffix of the network.  `SetSpecial` puts the onion prefix in front of
the bytes of both.
-/

namespace FooCoin

namespace CNetAddr

/-- A prefix and the bytes behind it, copied into `ip`. -/
def ofPrefix (pch vchAddr : List UInt8) : CNetAddr where
  ip := Vector.ofFn fun i => (pch ++ vchAddr).getD i 0

/-- `CNetAddr::SetSpecial`: what it returns and the address it leaves. -/
def setSpecial (addr : CNetAddr) (strName : List UInt8) : Bool × CNetAddr :=
  let front (count : Nat) : List UInt8 := strName.take (strName.length - count)
  let back (count : Nat) : List UInt8 := strName.drop (strName.length - count)
  if 6 < strName.length ∧ back 6 = characters ".onion" then
    let vchAddr := (decodeBase32 (c_str (front 6))).1
    if vchAddr.length ≠ 16 - pchOnionCat.length then (false, addr)
    else (true, ofPrefix pchOnionCat vchAddr)
  else if 11 < strName.length ∧ back 11 = characters ".oc.b32.i2p" then
    let vchAddr := (decodeBase32 (c_str (front 11))).1
    if vchAddr.length ≠ 16 - pchGarliCat.length then (false, addr)
    else (true, ofPrefix pchOnionCat vchAddr)
  else (false, addr)

/-- `CNetAddr::ToStringIP`, with the text of other addresses left open. -/
def toStringIP (other : CNetAddr → List UInt8) (addr : CNetAddr) : List UInt8 :=
  if addr.isTor then encodeBase32 (addr.ip.toList.drop 6) ++ characters ".onion"
  else if addr.isI2P then encodeBase32 (addr.ip.toList.drop 6) ++ characters ".oc.b32.i2p"
  else other addr

variable {other : CNetAddr → List UInt8} {a object : CNetAddr}

private theorem isTor_iff : a.isTor ↔ a.ip.toList.take 6 = pchOnionCat := by
  simp [isTor, startsWith, pchOnionCat]

private theorem isI2P_iff : a.isI2P ↔ a.ip.toList.take 6 = pchGarliCat := by
  simp [isI2P, startsWith, pchGarliCat]

private theorem ofPrefix_toList {pch vchAddr : List UInt8} (size : (pch ++ vchAddr).length = 16) :
    (ofPrefix pch vchAddr).ip.toList = pch ++ vchAddr := by
  apply List.ext_getElem
  · simp [ofPrefix, size]
  · intro i inside _
    simp [ofPrefix, *]

private theorem payload_length (a : CNetAddr) : (a.ip.toList.drop 6).length = 10 := by
  simp

/-- The text of the bytes is read back, and it is not empty. -/
private theorem encoded_payload (a : CNetAddr) :
    0 < (encodeBase32 (a.ip.toList.drop 6)).length ∧
      (decodeBase32 (c_str (encodeBase32 (a.ip.toList.drop 6)))).1 = a.ip.toList.drop 6 := by
  have visible : ∀ c ∈ encodeBase32 (a.ip.toList.drop 6), decide (c ≠ 0) = true :=
    encodeBase32_all (by decide +kernel) (by decide) _
  have decoded := decodeBase32_encodeBase32 (a.ip.toList.drop 6)
  refine ⟨List.length_pos_of_ne_nil fun empty => ?_, ?_⟩
  · have size := payload_length a
    rw [empty] at decoded
    have same : (decodeBase32 []).1 = a.ip.toList.drop 6 := by rw [decoded]
    rw [← same] at size
    exact absurd size (by decide)
  · rw [c_str, List.takeWhile_eq_self_iff.mpr visible, decoded]

private theorem setSpecial_onion (object : CNetAddr) (a : CNetAddr) :
    object.setSpecial (encodeBase32 (a.ip.toList.drop 6) ++ characters ".onion") =
      (true, ofPrefix pchOnionCat (a.ip.toList.drop 6)) := by
  obtain ⟨positive, decoded⟩ := encoded_payload a
  have suffix_length : (characters ".onion").length = 6 := by decide
  simp only [setSpecial, List.length_append, suffix_length, Nat.add_sub_cancel, List.take_left,
    List.drop_left, and_true, decoded, payload_length]
  rw [if_pos (by omega), if_neg (by decide)]

private theorem setSpecial_garlic (object : CNetAddr) (a : CNetAddr) :
    object.setSpecial (encodeBase32 (a.ip.toList.drop 6) ++ characters ".oc.b32.i2p") =
      (true, ofPrefix pchOnionCat (a.ip.toList.drop 6)) := by
  obtain ⟨positive, decoded⟩ := encoded_payload a
  have suffix_length : (characters ".oc.b32.i2p").length = 11 := by decide
  have no_onion : (encodeBase32 (a.ip.toList.drop 6) ++ characters ".oc.b32.i2p").drop
      ((encodeBase32 (a.ip.toList.drop 6)).length + 11 - 6) ≠ characters ".onion" := by
    have shorter : (encodeBase32 (a.ip.toList.drop 6)).length + 11 - 6 =
        (encodeBase32 (a.ip.toList.drop 6)).length + 5 := by omega
    rw [shorter, List.drop_length_add_append]
    decide
  simp only [setSpecial, List.length_append, suffix_length, Nat.add_sub_cancel, List.take_left,
    List.drop_left, and_true, decoded, payload_length]
  rw [if_neg fun onion => no_onion onion.2, if_pos (by omega), if_neg (by decide)]

/-- An address is its prefix in front of its bytes. -/
private theorem ofPrefix_ip {pch : List UInt8} (front : a.ip.toList.take 6 = pch) :
    (ofPrefix pch (a.ip.toList.drop 6)).ip = a.ip := by
  have parts : pch ++ a.ip.toList.drop 6 = a.ip.toList := by rw [← front, List.take_append_drop]
  have size : (pch ++ a.ip.toList.drop 6).length = 16 := by rw [parts, Vector.length_toList]
  exact Vector.toList_inj.mp ((ofPrefix_toList size).trans parts)

/-- An onion address is read back from its text, a garlic address is read as an onion address. -/
theorem setSpecial_toStringIP (other : CNetAddr → List UInt8) (a object : CNetAddr)
    (special : a.isTor ∨ a.isI2P) :
    (∃ b, object.setSpecial (a.toStringIP other) = (true, b) ∧ b.ip = a.ip ∧
      b.getNetwork = a.getNetwork ∧ b.getGroup = a.getGroup) ↔ a.isTor := by
  constructor
  · rintro ⟨b, read, same, -⟩
    by_contra not_tor
    have garlic := special.resolve_left not_tor
    rw [toStringIP, if_neg not_tor, if_pos garlic, setSpecial_garlic, Prod.mk.injEq] at read
    obtain ⟨-, rfl⟩ := read
    have size : (pchOnionCat ++ a.ip.toList.drop 6).length = 16 := by
      rw [List.length_append, payload_length]
      rfl
    rw [isTor_iff, ← same, ofPrefix_toList size] at not_tor
    exact not_tor rfl
  · intro tor
    have back : ofPrefix pchOnionCat (a.ip.toList.drop 6) = a := by
      have bytes := ofPrefix_ip (isTor_iff.mp tor)
      cases a
      simp_all [ofPrefix]
    refine ⟨a, ?_, rfl, rfl, rfl⟩
    rw [toStringIP, if_pos tor, setSpecial_onion, back]

/-- An onion address and a garlic address. -/
theorem setSpecial_toStringIP_samples :
    (∃ b, (ofPrefix [] []).setSpecial ((ofPrefix pchOnionCat [1, 2, 3]).toStringIP fun _ => []) =
      (true, b) ∧ b.ip = (ofPrefix pchOnionCat [1, 2, 3]).ip) ∧
    ¬∃ b, (ofPrefix [] []).setSpecial ((ofPrefix pchGarliCat [1, 2, 3]).toStringIP fun _ => []) =
      (true, b) ∧ b.ip = (ofPrefix pchGarliCat [1, 2, 3]).ip ∧
        b.getNetwork = (ofPrefix pchGarliCat [1, 2, 3]).getNetwork ∧
          b.getGroup = (ofPrefix pchGarliCat [1, 2, 3]).getGroup := by
  have onion := setSpecial_toStringIP (fun _ => []) (ofPrefix pchOnionCat [1, 2, 3])
    (ofPrefix [] []) (.inl (by decide +kernel))
  have garlic := setSpecial_toStringIP (fun _ => []) (ofPrefix pchGarliCat [1, 2, 3])
    (ofPrefix [] []) (.inr (by decide +kernel))
  obtain ⟨b, read, same, -⟩ := onion.mpr (by decide +kernel)
  exact ⟨⟨b, read, same⟩, fun back => absurd (garlic.mp back) (by decide +kernel)⟩

/-- A garlic address of ten zero bytes gets the prefix of onion addresses. -/
theorem not_setSpecial_toStringIP :
    ¬∀ a object : CNetAddr, a.isTor ∨ a.isI2P →
      ∃ b, object.setSpecial (a.toStringIP fun _ => []) = (true, b) ∧ b.ip = a.ip := by
  intro back
  obtain ⟨b, read, same⟩ :=
    back (ofPrefix pchGarliCat []) (ofPrefix [] []) (.inr (by decide +kernel))
  have wrong : (ofPrefix [] []).setSpecial ((ofPrefix pchGarliCat []).toStringIP fun _ => []) =
      (true, ofPrefix pchOnionCat []) := by decide +kernel
  obtain ⟨-, rfl⟩ := Prod.mk.inj (wrong.symm.trans read)
  exact absurd same (by decide +kernel)

end CNetAddr

end FooCoin

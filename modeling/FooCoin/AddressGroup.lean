import FooCoin.Library.BitGroups
import FooCoin.NetAddr

/-!
# Groups of addresses

The documented group of an address is its class with some bits in front of it: 16 of an embedded
IPv4 address, 4 of the bytes of a hidden service, 36 of an address of he.net and 32 of any other.
`GetGroup` looks for he.net under another prefix.
-/

namespace FooCoin

open BitGroups

/-- The classes of groups. -/
inductive GroupClass
  | ipv4
  | tor
  | i2p
  | heNet
  | ipv6
  deriving DecidableEq

/-- The bits of some bytes. -/
def byteBits (bytes : List UInt8) : List Bool := stream 8 (bytes.map UInt8.toNat)

namespace CNetAddr

/-- Some of the 128 bits of an address. -/
def bitsFrom (addr : CNetAddr) (start count : Nat) : List Bool :=
  ((byteBits addr.ip.toList).drop start).take count

/-- The bits of an embedded IPv4 address. -/
def embeddedIPv4 (addr : CNetAddr) : Option (List Bool) :=
  if addr.isIPv4 || addr.isRFC6145 || addr.isRFC6052 then some (addr.bitsFrom 96 32)
  else if addr.isRFC3964 then some (addr.bitsFrom 16 32)
  else if addr.isRFC4380 then some ((addr.bitsFrom 96 32).map not)
  else none

/-- The first 32 bits of the addresses of he.net. -/
def heNetPrefix : List Bool := bits 32 0x20010470

/-- The documented class and prefix of an address. -/
def documentedGroup (addr : CNetAddr) : GroupClass × List Bool :=
  match addr.embeddedIPv4 with
  | some ipv4 => (.ipv4, ipv4.take 16)
  | none =>
      if addr.isTor then (.tor, addr.bitsFrom 48 4)
      else if addr.isI2P then (.i2p, addr.bitsFrom 48 4)
      else if addr.bitsFrom 0 32 = heNetPrefix then (.heNet, addr.bitsFrom 0 36)
      else (.ipv6, addr.bitsFrom 0 32)

/-- The first 32 bits that `GetGroup` tests for. -/
def testedPrefix : List Bool := bits 32 0x20110470

/-! ## Bytes and bits -/

/-- A byte whose last four bits are set. -/
private def topNibble (byte : UInt8) : UInt8 := byte ||| UInt8.ofNat (2 ^ 4 - 1)

private theorem byteBits_append (front back : List UInt8) :
    byteBits (front ++ back) = byteBits front ++ byteBits back := by
  rw [byteBits, List.map_append, stream_append, ← byteBits, ← byteBits]

private theorem byteBits_inj {bytes others : List UInt8} (same : byteBits bytes = byteBits others) :
    bytes = others := by
  have small (bytes : List UInt8) : ∀ word ∈ bytes.map UInt8.toNat, word < 2 ^ 8 := by
    intro word mem
    obtain ⟨byte, -, rfl⟩ := List.mem_map.mp mem
    exact byte.toNat_lt
  have streams : stream 8 (bytes.map UInt8.toNat) ++ [] =
      stream 8 (others.map UInt8.toNat) ++ [] := by
    rw [List.append_nil, List.append_nil]
    exact same
  have words := (stream_append_inj (small bytes) (small others) (by simp) (by simp) streams).1
  exact List.map_injective_iff.mpr (fun _ _ => UInt8.toNat_inj.mp) words

private theorem take_nibble (byte : UInt8) (rest : List UInt8) :
    (byteBits (byte :: rest)).take 4 = (byteBits [topNibble byte]).take 4 := by
  have nibble : (bits 8 byte.toNat).take 4 = (bits 8 (topNibble byte).toNat).take 4 :=
    @forall_byte (fun byte => (bits 8 byte.toNat).take 4 = (bits 8 (topNibble byte).toNat).take 4)
      (by decide +kernel) byte
  simpa [byteBits, List.take_append] using nibble

private theorem topNibble_inj {byte other : UInt8}
    (same : (byteBits [topNibble byte]).take 4 = (byteBits [topNibble other]).take 4) :
    topNibble byte = topNibble other := by
  let read (nibble : List Bool) : UInt8 :=
    UInt8.ofNat (16 * nibble.foldl (fun number bit => 2 * number + bit.toNat) 0 + 15)
  have back : ∀ byte, read ((byteBits [topNibble byte]).take 4) = topNibble byte :=
    forall_byte (by decide +kernel)
  rw [← back byte, same, back]

private theorem map_not_byteBits (bytes : List UInt8) :
    (byteBits bytes).map not = byteBits (bytes.map (· ^^^ 0xff)) := by
  have inverted : ∀ byte : UInt8, (bits 8 byte.toNat).map not = bits 8 (byte ^^^ 0xff).toNat :=
    forall_byte (by decide +kernel)
  induction bytes with
  | nil => rfl
  | cons byte bytes induction =>
      simp only [byteBits, List.map_cons, stream_cons, List.map_append, inverted] at induction ⊢
      rw [induction]

private theorem bitsFrom_bytes (addr : CNetAddr) (start count : Nat) :
    addr.bitsFrom (8 * start) (8 * count) =
      byteBits ((addr.ip.toList.drop start).take count) := by
  rw [bitsFrom, byteBits, drop_stream, take_stream, byteBits, List.map_take, List.map_drop]

/-! ## The bytes of a group -/

/-- The class of an address and the bytes of its group, with a prefix for he.net. -/
private def groupKey (heNet : List UInt8) (addr : CNetAddr) : GroupClass × List UInt8 :=
  if addr.isIPv4 || addr.isRFC6145 || addr.isRFC6052 then
    (.ipv4, (addr.ip.toList.drop 12).take 2)
  else if addr.isRFC3964 then (.ipv4, (addr.ip.toList.drop 2).take 2)
  else if addr.isRFC4380 then (.ipv4, ((addr.ip.toList.drop 12).take 2).map (· ^^^ 0xff))
  else if addr.isTor then (.tor, [topNibble (addr.getByte 9)])
  else if addr.isI2P then (.i2p, [topNibble (addr.getByte 9)])
  else if addr.ip.toList.take 4 = heNet then
    (.heNet, addr.ip.toList.take 4 ++ [topNibble (addr.getByte 11)])
  else (.ipv6, addr.ip.toList.take 4)

/-- The first byte of a group. -/
private def classByte : GroupClass → UInt8
  | .ipv4 => Network.ipv4.toUInt8
  | .tor => Network.tor.toUInt8
  | .i2p => Network.i2p.toUInt8
  | .heNet | .ipv6 => Network.ipv6.toUInt8

/-- The number of bits of a documented prefix. -/
private def prefixLength : GroupClass → Nat
  | .ipv4 => 16
  | .tor | .i2p => 4
  | .heNet => 36
  | .ipv6 => 32

private theorem exists_bytes (addr : CNetAddr) :
    ∃ b0 b1 b2 b3 b4 b5 b6 b7 b8 b9 b10 b11 b12 b13 b14 b15 : UInt8,
      addr = ⟨#v[b0, b1, b2, b3, b4, b5, b6, b7, b8, b9, b10, b11, b12, b13, b14, b15]⟩ := by
  obtain ⟨⟨⟨bytes⟩, size⟩⟩ := addr
  simp only [List.size_toArray] at size
  match bytes, size with
  | [b0, b1, b2, b3, b4, b5, b6, b7, b8, b9, b10, b11, b12, b13, b14, b15], _ =>
      exact ⟨b0, b1, b2, b3, b4, b5, b6, b7, b8, b9, b10, b11, b12, b13, b14, b15, rfl⟩

private theorem groupOf_ipv4 (addr : CNetAddr) (nClass : UInt8) :
    addr.groupOf nClass 12 16 = nClass :: (addr.ip.toList.drop 12).take 2 ∧
      addr.groupOf nClass 2 16 = nClass :: (addr.ip.toList.drop 2).take 2 ∧
      [nClass, addr.getByte 3 ^^^ 0xff, addr.getByte 2 ^^^ 0xff] =
        nClass :: ((addr.ip.toList.drop 12).take 2).map (· ^^^ 0xff) := by
  obtain ⟨b0, b1, b2, b3, b4, b5, b6, b7, b8, b9, b10, b11, b12, b13, b14, b15, rfl⟩ :=
    exists_bytes addr
  exact ⟨rfl, rfl, rfl⟩

private theorem groupOf_ipv6 (addr : CNetAddr) (nClass : UInt8) :
    addr.groupOf nClass 6 4 = [nClass, topNibble (addr.getByte 9)] ∧
      addr.groupOf nClass 0 36 =
        nClass :: (addr.ip.toList.take 4 ++ [topNibble (addr.getByte 11)]) ∧
      addr.groupOf nClass 0 32 = nClass :: addr.ip.toList.take 4 := by
  obtain ⟨b0, b1, b2, b3, b4, b5, b6, b7, b8, b9, b10, b11, b12, b13, b14, b15, rfl⟩ :=
    exists_bytes addr
  exact ⟨rfl, rfl, rfl⟩

private theorem take_four_iff (addr : CNetAddr) (first second third fourth : UInt8) :
    (addr.getByte 15 == first && addr.getByte 14 == second && addr.getByte 13 == third &&
      addr.getByte 12 == fourth) = true ↔
      addr.ip.toList.take 4 = [first, second, third, fourth] := by
  obtain ⟨b0, b1, b2, b3, b4, b5, b6, b7, b8, b9, b10, b11, b12, b13, b14, b15, rfl⟩ :=
    exists_bytes addr
  simp [getByte, and_assoc]

private theorem getGroup_eq {addr : CNetAddr} (routable : addr.isRoutable) :
    addr.getGroup = classByte (groupKey [0x20, 0x11, 0x04, 0x70] addr).1 ::
      (groupKey [0x20, 0x11, 0x04, 0x70] addr).2 := by
  have not_local : addr.isLocal = false := by
    simp only [isRoutable] at routable
    grind
  obtain ⟨mapped, tunneled, inverted⟩ := groupOf_ipv4 addr Network.ipv4.toUInt8
  simp only [getGroup, groupKey, not_local, routable, Bool.false_eq_true, if_false, Bool.not_true,
    take_four_iff, mapped, tunneled, inverted, (groupOf_ipv6 addr _).1, (groupOf_ipv6 addr _).2.1,
    (groupOf_ipv6 addr _).2.2]
  split_ifs <;> rfl

private theorem take_byteBits (bytes : List UInt8) (count : Nat) :
    (byteBits bytes).take (8 * count) = byteBits (bytes.take count) := by
  rw [byteBits, take_stream, ← List.map_take, ← byteBits]

private theorem bitsFrom_ipv4 (addr : CNetAddr) (start : Nat) :
    (addr.bitsFrom (8 * start) 32).take 16 =
      (byteBits ((addr.ip.toList.drop start).take 2)).take 16 := by
  have wide : addr.bitsFrom (8 * start) 32 = byteBits ((addr.ip.toList.drop start).take 4) :=
    bitsFrom_bytes addr start 4
  have cut (bytes : List UInt8) : (byteBits bytes).take 16 = byteBits (bytes.take 2) :=
    take_byteBits bytes 2
  rw [wide, cut, cut, List.take_take, List.take_take]
  rfl

private theorem bitsFrom_nibble (addr : CNetAddr) :
    addr.bitsFrom 48 4 = (byteBits [topNibble (addr.getByte 9)]).take 4 := by
  have start : (48 : Nat) = 8 * 6 := rfl
  have bytes : addr.ip.toList.drop 6 = addr.getByte 9 :: addr.ip.toList.drop 7 := by
    obtain ⟨b0, b1, b2, b3, b4, b5, b6, b7, b8, b9, b10, b11, b12, b13, b14, b15, rfl⟩ :=
      exists_bytes addr
    rfl
  rw [bitsFrom, byteBits, start, drop_stream, ← List.map_drop, ← byteBits, bytes, take_nibble]

private theorem bitsFrom_front (addr : CNetAddr) :
    addr.bitsFrom 0 32 = byteBits (addr.ip.toList.take 4) :=
  bitsFrom_bytes addr 0 4

private theorem bitsFrom_heNet (addr : CNetAddr) :
    addr.bitsFrom 0 36 =
      (byteBits (addr.ip.toList.take 4 ++ [topNibble (addr.getByte 11)])).take 36 := by
  have bytes : addr.ip.toList.drop 4 = addr.getByte 11 :: addr.ip.toList.drop 5 := by
    obtain ⟨b0, b1, b2, b3, b4, b5, b6, b7, b8, b9, b10, b11, b12, b13, b14, b15, rfl⟩ :=
      exists_bytes addr
    rfl
  have four : (byteBits (addr.ip.toList.take 4)).length = 32 := by simp [byteBits]
  have count : 36 = (byteBits (addr.ip.toList.take 4)).length + 4 := by rw [four]
  have split : byteBits addr.ip.toList =
      byteBits (addr.ip.toList.take 4) ++ byteBits (addr.getByte 11 :: addr.ip.toList.drop 5) := by
    rw [← byteBits_append, ← bytes, List.take_append_drop]
  rw [bitsFrom, List.drop_zero, split, byteBits_append, count, List.take_length_add_append,
    List.take_length_add_append, take_nibble]

private theorem bitsFrom_eq_bits {addr : CNetAddr} {number : Nat} {bytes : List UInt8}
    (same : bits 32 number = byteBits bytes) :
    addr.bitsFrom 0 32 = bits 32 number ↔ addr.ip.toList.take 4 = bytes := by
  rw [bitsFrom_front, same]
  exact ⟨byteBits_inj, fun equal => by rw [equal]⟩

/-- The documented group has the bits of the bytes. -/
private theorem documentedGroup_eq (addr : CNetAddr) :
    addr.documentedGroup = ((groupKey [0x20, 0x01, 0x04, 0x70] addr).1,
      (byteBits (groupKey [0x20, 0x01, 0x04, 0x70] addr).2).take
        (prefixLength (groupKey [0x20, 0x01, 0x04, 0x70] addr).1)) := by
  have heNet : addr.bitsFrom 0 32 = heNetPrefix ↔
      addr.ip.toList.take 4 = [0x20, 0x01, 0x04, 0x70] := bitsFrom_eq_bits (by decide)
  have mapped : (addr.bitsFrom 96 32).take 16 =
      (byteBits ((addr.ip.toList.drop 12).take 2)).take 16 := bitsFrom_ipv4 addr 12
  have tunneled : (addr.bitsFrom 16 32).take 16 =
      (byteBits ((addr.ip.toList.drop 2).take 2)).take 16 := bitsFrom_ipv4 addr 2
  have all_bits : (byteBits (addr.ip.toList.take 4)).take 32 = byteBits (addr.ip.toList.take 4) :=
    List.take_of_length_le (by simp [byteBits])
  simp only [documentedGroup, embeddedIPv4, groupKey, heNet]
  split_ifs <;>
    simp only [prefixLength, mapped, tunneled, bitsFrom_nibble, bitsFrom_heNet, bitsFrom_front,
      all_bits, ← List.map_take, ← map_not_byteBits]

/-! ## Groups and keys -/

/-- The prefix of a class consists of whole bytes. -/
private def wholeBytes : GroupClass → Bool
  | .ipv4 | .ipv6 => true
  | .tor | .i2p | .heNet => false

/-- A key has the bytes of its class, the last one with its last four bits set if the prefix ends
inside it. -/
private def Shaped (key : GroupClass × List UInt8) : Prop :=
  ∃ front byte, 8 * front.length + (if wholeBytes key.1 then 0 else 4) = prefixLength key.1 ∧
    key.2 = front ++ if wholeBytes key.1 then [] else [topNibble byte]

private theorem Shaped.whole {group : GroupClass} {bytes : List UInt8} (whole : wholeBytes group)
    (size : 8 * bytes.length = prefixLength group) : Shaped (group, bytes) :=
  ⟨bytes, 0, by simp [whole, size], by simp [whole]⟩

private theorem Shaped.nibble {group : GroupClass} {bytes : List UInt8} (byte : UInt8)
    (part : wholeBytes group = false) (size : 8 * bytes.length + 4 = prefixLength group) :
    Shaped (group, bytes ++ [topNibble byte]) :=
  ⟨bytes, byte, by simp [part, size], by simp [part]⟩

private theorem groupKey_shape (heNet : List UInt8) (addr : CNetAddr) :
    Shaped (groupKey heNet addr) := by
  rw [groupKey]
  split_ifs
  · exact .whole rfl (by simp [prefixLength])
  · exact .whole rfl (by simp [prefixLength])
  · exact .whole rfl (by simp [prefixLength])
  · exact @Shaped.nibble .tor [] _ rfl rfl
  · exact @Shaped.nibble .i2p [] _ rfl rfl
  · exact .nibble _ rfl (by simp [prefixLength])
  · exact .whole rfl (by simp [prefixLength])

/-- Keys are told by their class and the bits of the prefix. -/
private theorem groupKey_inj_of_bits {heNet : List UInt8} {a b : CNetAddr}
    (same_class : (groupKey heNet a).1 = (groupKey heNet b).1)
    (same : (byteBits (groupKey heNet a).2).take (prefixLength (groupKey heNet a).1) =
      (byteBits (groupKey heNet b).2).take (prefixLength (groupKey heNet b).1)) :
    groupKey heNet a = groupKey heNet b := by
  obtain ⟨front, byte, front_length, shape⟩ := groupKey_shape heNet a
  obtain ⟨other, other_byte, other_length, other_shape⟩ := groupKey_shape heNet b
  refine Prod.ext same_class ?_
  rw [shape, other_shape, ← front_length, ← other_length, ← same_class] at same
  rw [shape, other_shape, ← same_class]
  rw [← same_class, ← front_length] at other_length
  have lengths : front.length = other.length := by omega
  cases whole : wholeBytes (groupKey heNet a).1
  · have cut (bytes : List UInt8) (last : UInt8) :
        (byteBits (bytes ++ [topNibble last])).take (8 * bytes.length + 4) =
          byteBits bytes ++ (byteBits [topNibble last]).take 4 := by
      have size : 8 * bytes.length = (byteBits bytes).length := by simp [byteBits]
      rw [size, byteBits_append, List.take_length_add_append]
    simp only [whole, Bool.false_eq_true, if_false, cut] at same ⊢
    obtain ⟨fronts, nibbles⟩ := List.append_inj same (by simp [byteBits, lengths])
    rw [byteBits_inj fronts, topNibble_inj nibbles]
  · have cut (bytes : List UInt8) :
        (byteBits (bytes ++ [])).take (8 * bytes.length + 0) = byteBits bytes := by
      rw [List.append_nil, Nat.add_zero, take_byteBits, List.take_length]
    simp only [whole, if_true, cut] at same ⊢
    rw [byteBits_inj same]

/-- Keys are told by the bytes of the group. -/
private theorem groupKey_inj_of_bytes {heNet : List UInt8} {a b : CNetAddr}
    (same : classByte (groupKey heNet a).1 :: (groupKey heNet a).2 =
      classByte (groupKey heNet b).1 :: (groupKey heNet b).2) :
    groupKey heNet a = groupKey heNet b := by
  obtain ⟨front, byte, front_length, shape⟩ := groupKey_shape heNet a
  obtain ⟨other, other_byte, other_length, other_shape⟩ := groupKey_shape heNet b
  obtain ⟨same_byte, bytes⟩ := List.cons_eq_cons.mp same
  refine Prod.ext ?_ bytes
  rw [shape, other_shape] at bytes
  have lengths := congrArg List.length bytes
  generalize (groupKey heNet a).1 = first at *
  generalize (groupKey heNet b).1 = second at *
  revert same_byte front_length other_length lengths
  cases first <;> cases second <;>
    simp [classByte, wholeBytes, prefixLength, Network.toUInt8] <;> omega

private theorem getGroup_eq_iff {a b : CNetAddr} (a_routable : a.isRoutable)
    (b_routable : b.isRoutable) : a.getGroup = b.getGroup ↔
      groupKey [0x20, 0x11, 0x04, 0x70] a = groupKey [0x20, 0x11, 0x04, 0x70] b := by
  rw [getGroup_eq a_routable, getGroup_eq b_routable]
  exact ⟨groupKey_inj_of_bytes, fun same => by rw [same]⟩

private theorem documentedGroup_eq_iff {a b : CNetAddr} :
    a.documentedGroup = b.documentedGroup ↔
      groupKey [0x20, 0x01, 0x04, 0x70] a = groupKey [0x20, 0x01, 0x04, 0x70] b := by
  rw [documentedGroup_eq, documentedGroup_eq, Prod.mk.injEq]
  exact ⟨fun same => groupKey_inj_of_bits same.1 same.2, fun same => by rw [same]; exact ⟨rfl, rfl⟩⟩

/-- An address is of a class of its own, or it is told by its first bytes. -/
private theorem groupKey_cases (addr : CNetAddr) :
    ((∃ group bytes, group ≠ .heNet ∧ group ≠ .ipv6 ∧
        ∀ heNet, groupKey heNet addr = (group, bytes)) ∧
      addr.ip.toList.take 4 ≠ [0x20, 0x01, 0x04, 0x70] ∧
      addr.ip.toList.take 4 ≠ [0x20, 0x11, 0x04, 0x70]) ∨
    ∀ heNet, groupKey heNet addr =
      if addr.ip.toList.take 4 = heNet then
        (.heNet, addr.ip.toList.take 4 ++ [topNibble (addr.getByte 11)])
      else (.ipv6, addr.ip.toList.take 4) := by
  by_cases own : (addr.isIPv4 || addr.isRFC6145 || addr.isRFC6052) = true ∨ addr.isRFC3964 = true ∨
    addr.isRFC4380 = true ∨ addr.isTor = true ∨ addr.isI2P = true
  · left
    constructor
    · by_cases mapped : (addr.isIPv4 || addr.isRFC6145 || addr.isRFC6052) = true
      · exact ⟨.ipv4, _, by decide, by decide, fun heNet => by rw [groupKey, if_pos mapped]⟩
      by_cases tunneled : addr.isRFC3964
      · exact ⟨.ipv4, _, by decide, by decide, fun heNet => by
          rw [groupKey, if_neg mapped, if_pos tunneled]⟩
      by_cases inverted : addr.isRFC4380
      · exact ⟨.ipv4, _, by decide, by decide, fun heNet => by
          rw [groupKey, if_neg mapped, if_neg tunneled, if_pos inverted]⟩
      by_cases tor : addr.isTor
      · exact ⟨.tor, _, by decide, by decide, fun heNet => by
          rw [groupKey, if_neg mapped, if_neg tunneled, if_neg inverted, if_pos tor]⟩
      · have i2p : addr.isI2P := by simp_all
        exact ⟨.i2p, _, by decide, by decide, fun heNet => by
          rw [groupKey, if_neg mapped, if_neg tunneled, if_neg inverted, if_neg tor, if_pos i2p]⟩
    · obtain ⟨b0, b1, b2, b3, b4, b5, b6, b7, b8, b9, b10, b11, b12, b13, b14, b15, rfl⟩ :=
        exists_bytes addr
      simp only [isIPv4, isRFC6145, isRFC6052, isRFC3964, isRFC4380, isTor, isI2P, startsWith,
        pchIPv4, pchOnionCat, pchGarliCat, getByte] at own
      constructor
      · rintro same
        simp at same
        obtain ⟨rfl, rfl, rfl, rfl⟩ := same
        simp at own
      · rintro same
        simp at same
        obtain ⟨rfl, rfl, rfl, rfl⟩ := same
        simp at own
  · right
    intro heNet
    simp only [not_or] at own
    rw [groupKey, if_neg own.1, if_neg own.2.1, if_neg own.2.2.1, if_neg own.2.2.2.1,
      if_neg own.2.2.2.2]

/-- With two prefixes for he.net, addresses are grouped alike unless they share one of them and
differ in the next bits. -/
private theorem groupKey_iff (a b : CNetAddr) :
    ((groupKey [0x20, 0x11, 0x04, 0x70] a = groupKey [0x20, 0x11, 0x04, 0x70] b) ↔
      (groupKey [0x20, 0x01, 0x04, 0x70] a = groupKey [0x20, 0x01, 0x04, 0x70] b)) ↔
    (a.ip.toList.take 4 = b.ip.toList.take 4 →
      a.ip.toList.take 4 = [0x20, 0x01, 0x04, 0x70] ∨
        a.ip.toList.take 4 = [0x20, 0x11, 0x04, 0x70] →
      topNibble (a.getByte 11) = topNibble (b.getByte 11)) := by
  obtain ⟨⟨group, bytes, not_heNet, not_ipv6, key⟩, other, tested⟩ | key := groupKey_cases a
  · have same_key : (groupKey [0x20, 0x11, 0x04, 0x70] a = groupKey [0x20, 0x11, 0x04, 0x70] b) ↔
        (groupKey [0x20, 0x01, 0x04, 0x70] a = groupKey [0x20, 0x01, 0x04, 0x70] b) := by
      obtain ⟨⟨_, _, -, -, key'⟩, -⟩ | key' := groupKey_cases b
      · rw [key, key, key', key']
      · rw [key, key, key', key']
        constructor <;> intro same <;> split at same <;> simp_all
    exact iff_of_true same_key fun _ he => absurd he (not_or.mpr ⟨other, tested⟩)
  · obtain ⟨⟨group, bytes, not_heNet, not_ipv6, key'⟩, other, tested⟩ | key' := groupKey_cases b
    · have same_key :
          (groupKey [0x20, 0x11, 0x04, 0x70] a = groupKey [0x20, 0x11, 0x04, 0x70] b) ↔
          (groupKey [0x20, 0x01, 0x04, 0x70] a = groupKey [0x20, 0x01, 0x04, 0x70] b) := by
        rw [key, key, key', key']
        constructor <;> intro same <;> split at same <;> simp_all
      exact iff_of_true same_key fun same he => absurd (same ▸ he) (not_or.mpr ⟨other, tested⟩)
    · rw [key, key, key', key']
      generalize a.ip.toList.take 4 = front
      generalize b.ip.toList.take 4 = back
      by_cases same : front = back
      · subst same
        by_cases he : front = [0x20, 0x01, 0x04, 0x70]
        · simp [he]
        · by_cases tested : front = [0x20, 0x11, 0x04, 0x70]
          · simp [tested]
          · simp [he, tested]
      · have differ (heNet : List UInt8) (nibble other : UInt8) :
            ¬(if front = heNet then (GroupClass.heNet, front ++ [nibble]) else (.ipv6, front)) =
              if back = heNet then (GroupClass.heNet, back ++ [other]) else (.ipv6, back) := by
          split_ifs <;> simp_all
        simp only [differ, same, false_implies]

private theorem bitsFrom_heNet_iff (a b : CNetAddr)
    (same : a.ip.toList.take 4 = b.ip.toList.take 4) :
    a.bitsFrom 0 36 = b.bitsFrom 0 36 ↔
      topNibble (a.getByte 11) = topNibble (b.getByte 11) := by
  have four : (byteBits (b.ip.toList.take 4)).length = 32 := by simp [byteBits]
  have count : 36 = (byteBits (b.ip.toList.take 4)).length + 4 := by rw [four]
  rw [bitsFrom_heNet, bitsFrom_heNet, same, byteBits_append, byteBits_append, count,
    List.take_length_add_append, List.take_length_add_append, List.append_cancel_left_eq]
  exact ⟨topNibble_inj, fun nibbles => by rw [nibbles]⟩

/-- Routable addresses are grouped as documented exactly if they do not share the first 32 bits of
he.net, or those that are tested in their place, and differ in the next four. -/
theorem getGroup_documented_iff (a b : CNetAddr) (a_routable : a.isRoutable)
    (b_routable : b.isRoutable) :
    (a.getGroup = b.getGroup ↔ a.documentedGroup = b.documentedGroup) ↔
      (a.bitsFrom 0 32 = b.bitsFrom 0 32 →
        a.bitsFrom 0 32 = heNetPrefix ∨ a.bitsFrom 0 32 = testedPrefix →
        a.bitsFrom 0 36 = b.bitsFrom 0 36) := by
  have fronts : a.bitsFrom 0 32 = b.bitsFrom 0 32 ↔
      a.ip.toList.take 4 = b.ip.toList.take 4 := by
    rw [bitsFrom_front, bitsFrom_front]
    exact ⟨byteBits_inj, fun same => by rw [same]⟩
  have heNet : a.bitsFrom 0 32 = heNetPrefix ↔
      a.ip.toList.take 4 = [0x20, 0x01, 0x04, 0x70] := bitsFrom_eq_bits (by decide)
  have tested : a.bitsFrom 0 32 = testedPrefix ↔
      a.ip.toList.take 4 = [0x20, 0x11, 0x04, 0x70] := bitsFrom_eq_bits (by decide)
  rw [getGroup_eq_iff a_routable b_routable, documentedGroup_eq_iff, groupKey_iff, fronts, heNet,
    tested]
  exact forall_congr' fun same => by rw [bitsFrom_heNet_iff a b same]

/-- Two addresses that are mapped from one /16. -/
theorem getGroup_documented_iff_sample :
    let a : CNetAddr := ⟨#v[0, 0, 0, 0, 0, 0, 0, 0, 0, 0, 0xff, 0xff, 8, 8, 1, 1]⟩
    let b : CNetAddr := ⟨#v[0, 0, 0, 0, 0, 0, 0, 0, 0, 0, 0xff, 0xff, 8, 8, 2, 2]⟩
    a.getGroup = b.getGroup ↔ a.documentedGroup = b.documentedGroup := by
  intro a b
  refine (getGroup_documented_iff a b (by decide +kernel) (by decide +kernel)).mpr
    fun _ he => absurd he ?_
  decide +kernel

/-- Two addresses of he.net that differ in their first 36 bits are in one group. -/
theorem not_getGroup_documented :
    ¬∀ a b : CNetAddr, a.isRoutable → b.isRoutable →
      (a.getGroup = b.getGroup ↔ a.documentedGroup = b.documentedGroup) := by
  intro same
  have grouped := (same ⟨#v[0x20, 0x01, 0x04, 0x70, 0, 0, 0, 0, 0, 0, 0, 0, 0, 0, 0, 1]⟩
    ⟨#v[0x20, 0x01, 0x04, 0x70, 0x10, 0, 0, 0, 0, 0, 0, 0, 0, 0, 0, 1]⟩ (by decide +kernel)
    (by decide +kernel)).mp (by decide +kernel)
  exact absurd grouped (by decide +kernel)

end CNetAddr

end FooCoin

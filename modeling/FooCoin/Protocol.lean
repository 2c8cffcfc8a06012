import FooCoin.Transaction

/-!
# The network protocol

The bytes that start a message and the record of a block, and the header of a message.
-/

namespace FooCoin

open LittleEndian Codec

/-- `pchMessageStart`. -/
def pchMessageStart (fTestNet : Bool) : List UInt8 :=
  if fTestNet then [0xfb, 0xc0, 0xb8, 0xdb] else [0xfc, 0xd9, 0xb7, 0xdd]

@[simp]
theorem length_pchMessageStart (fTestNet : Bool) : (pchMessageStart fTestNet).length = 4 := by
  cases fTestNet <;> rfl

/-! ## Message headers -/

/-- The size of a message header. -/
def nHeaderSize : Nat := 24

/-- `COMMAND_SIZE`. -/
def commandSize : Nat := 12

/-- A message header. -/
structure CMessageHeader where
  pchMessageStart : List UInt8
  pchCommand : List UInt8
  nMessageSize : UInt32
  nChecksum : UInt32
  deriving DecidableEq

/-- `CMessageHeader(pszCommand, nMessageSizeIn)`; the command is given without the zero that ends
it. -/
def CMessageHeader.ofCommand (fTestNet : Bool) (pszCommand : List UInt8) (nMessageSizeIn : UInt32) :
    CMessageHeader where
  pchMessageStart := FooCoin.pchMessageStart fTestNet
  pchCommand :=
    pszCommand.take commandSize ++ List.replicate (commandSize - pszCommand.length) 0
  nMessageSize := nMessageSizeIn
  nChecksum := 0

/-- `CMessageHeader::GetCommand`. -/
def CMessageHeader.getCommand (hdr : CMessageHeader) : List UInt8 :=
  if hdr.pchCommand[commandSize - 1]? = some 0 then hdr.pchCommand.takeWhile (· ≠ 0)
  else hdr.pchCommand.take commandSize

/-- The character is between `' '` and `0x7E`; from `0x80` on it is negative as a `char`. -/
def isPrintable (character : UInt8) : Bool := 0x20 ≤ character ∧ character ≤ 0x7E

/-- The loop of `IsValid` over the command. -/
def isValidCommand : List UInt8 → Bool
  | [] => true
  | character :: pchCommand =>
      if character = 0 then pchCommand.all (· = 0)
      else isPrintable character && isValidCommand pchCommand

/-- `CMessageHeader::IsValid`. -/
def CMessageHeader.isValid (fTestNet : Bool) (hdr : CMessageHeader) : Bool :=
  hdr.pchMessageStart = FooCoin.pchMessageStart fTestNet && isValidCommand hdr.pchCommand &&
    hdr.nMessageSize.toNat ≤ maxSize

/-- The serialization of a header. -/
def CMessageHeader.write (hdr : CMessageHeader) : List UInt8 :=
  hdr.pchMessageStart ++ (hdr.pchCommand ++
    (leBytes 4 hdr.nMessageSize.toNat ++ leBytes 4 hdr.nChecksum.toNat))

/-- The header in 24 bytes. -/
def CMessageHeader.read (bytes : List UInt8) : CMessageHeader where
  pchMessageStart := bytes.take 4
  pchCommand := (bytes.drop 4).take commandSize
  nMessageSize := UInt32.ofNat (ofLE ((bytes.drop 16).take 4))
  nChecksum := UInt32.ofNat (ofLE ((bytes.drop 20).take 4))

/-- The fields of a header have their sizes. -/
structure CMessageHeader.Sized (hdr : CMessageHeader) : Prop where
  pchMessageStart : hdr.pchMessageStart.length = 4
  pchCommand : hdr.pchCommand.length = commandSize

theorem CMessageHeader.Sized.length_write {hdr : CMessageHeader} (sized : hdr.Sized) :
    hdr.write.length = nHeaderSize := by
  simp only [write, List.length_append, length_leBytes, sized.pchMessageStart, sized.pchCommand]
  rfl

/-- Reading a header inverts writing it. -/
theorem CMessageHeader.Sized.read_write {hdr : CMessageHeader} (sized : hdr.Sized)
    (rest : List UInt8) : CMessageHeader.read (hdr.write ++ rest) = hdr := by
  have start := sized.pchMessageStart
  have command : hdr.pchCommand.length = 12 := sized.pchCommand
  have size : (leBytes 4 hdr.nMessageSize.toNat).length = 4 := length_leBytes _ _
  have checksum : (leBytes 4 hdr.nChecksum.toNat).length = 4 := length_leBytes _ _
  have parts : hdr.write ++ rest = hdr.pchMessageStart ++ (hdr.pchCommand ++
      (leBytes 4 hdr.nMessageSize.toNat ++ (leBytes 4 hdr.nChecksum.toNat ++ rest))) := by
    simp only [write, List.append_assoc]
  have from_command : (hdr.write ++ rest).drop 4 = hdr.pchCommand ++
      (leBytes 4 hdr.nMessageSize.toNat ++ (leBytes 4 hdr.nChecksum.toNat ++ rest)) := by
    rw [parts, List.drop_left' start]
  have from_size : (hdr.write ++ rest).drop 16 =
      leBytes 4 hdr.nMessageSize.toNat ++ (leBytes 4 hdr.nChecksum.toNat ++ rest) := by
    rw [show 16 = 4 + 12 from rfl, ← List.drop_drop, from_command, List.drop_left' command]
  have from_checksum : (hdr.write ++ rest).drop 20 = leBytes 4 hdr.nChecksum.toNat ++ rest := by
    rw [show 20 = 16 + 4 from rfl, ← List.drop_drop, from_size, List.drop_left' size]
  rw [read, from_size, from_checksum, from_command, List.take_left' size,
    List.take_left' checksum, commandSize, List.take_left' command, parts, List.take_left' start,
    ofLE_leBytes_of_lt hdr.nMessageSize.toNat_lt, ofLE_leBytes_of_lt hdr.nChecksum.toNat_lt]
  simp

end FooCoin

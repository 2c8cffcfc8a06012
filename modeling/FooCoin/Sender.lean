import FooCoin.Messages

/-!
# Sending messages

`BeginMessage` writes a header at the end of the send buffer and `EndMessage` completes it in place.
The socket thread sends the front of the buffer while no message is open.  A peer dispatches the
messages that were ended, in order.
-/

namespace FooCoin

open LittleEndian Framing

/-- `vch.resize`: cut off or pad with zeros. -/
def resize (bytes : List UInt8) (n : Nat) : List UInt8 :=
  bytes.take n ++ List.replicate (n - bytes.length) 0

/-- `memcpy` into a buffer at a position. -/
def overwrite (bytes : List UInt8) (pos : Nat) (source : List UInt8) : List UInt8 :=
  bytes.take pos ++ (source ++ bytes.drop (pos + source.length))

/-- `MESSAGE_SIZE_OFFSET`. -/
def messageSizeOffset : Nat := 4 + commandSize

/-- `CHECKSUM_OFFSET`. -/
def checksumOffset : Nat := messageSizeOffset + 4

/-- The send side of a node. -/
structure Sender where
  vSend : List UInt8
  nHeaderStart : Int
  nMessageStart : UInt32
  /-- How often the threads that write messages are inside `cs_vSend`. -/
  entered : Nat
  /-- What was handed to the socket so far. -/
  sent : List UInt8

namespace Sender

/-- The send side of a new node. -/
def idle : Sender where
  vSend := []
  nHeaderStart := -1
  nMessageStart := -1
  entered := 0
  sent := []

/-- `AbortMessage`. -/
def abortMessage (sender : Sender) : Sender :=
  if sender.nHeaderStart < 0 then sender
  else
    { sender with
      vSend := resize sender.vSend sender.nHeaderStart.toNat
      nHeaderStart := -1
      nMessageStart := -1
      entered := sender.entered - 1 }

/-- `BeginMessage`. -/
def beginMessage (fTestNet : Bool) (pszCommand : List UInt8) (sender : Sender) : Sender :=
  let sender := { sender with entered := sender.entered + 1 }
  let sender := if sender.nHeaderStart ≠ -1 then sender.abortMessage else sender
  let vSend := sender.vSend ++ (CMessageHeader.ofCommand fTestNet pszCommand 0).write
  { sender with
    vSend
    nHeaderStart := (Int32.ofNat sender.vSend.length).toInt
    nMessageStart := UInt32.ofNat vSend.length }

/-- `vSend <<` inside a message. -/
def write (bytes : List UInt8) (sender : Sender) : Sender :=
  { sender with vSend := sender.vSend ++ bytes }

/-- `EndMessage`; `fDrop` is the draw of `-dropmessagestest`. -/
def endMessage (crypto : Crypto) (fDrop : Bool) (sender : Sender) : Sender :=
  if fDrop then sender.abortMessage
  else if sender.nHeaderStart < 0 then sender
  else
    let nSize := UInt32.ofNat sender.vSend.length - sender.nMessageStart
    let vSend := overwrite sender.vSend (sender.nHeaderStart.toNat + messageSizeOffset)
      (leBytes 4 nSize.toNat)
    let nChecksum := checksum crypto (vSend.drop sender.nMessageStart.toNat)
    { sender with
      vSend := overwrite vSend (sender.nHeaderStart.toNat + checksumOffset)
        (leBytes 4 nChecksum.toNat)
      nHeaderStart := -1
      nMessageStart := -1
      entered := sender.entered - 1 }

/-- The socket thread sends `nBytes` bytes and erases them. -/
def send (nBytes : Nat) (sender : Sender) : Sender :=
  { sender with
    vSend := sender.vSend.drop nBytes
    sent := sender.sent ++ sender.vSend.take nBytes }

@[simp]
theorem abortMessage_sent (sender : Sender) : sender.abortMessage.sent = sender.sent := by
  rw [abortMessage]
  split_ifs <;> rfl

@[simp]
theorem beginMessage_sent (fTestNet : Bool) (pszCommand : List UInt8) (sender : Sender) :
    (sender.beginMessage fTestNet pszCommand).sent = sender.sent := by
  simp only [beginMessage]
  split_ifs
  · rw [abortMessage_sent]
  · rfl

@[simp]
theorem write_sent (bytes : List UInt8) (sender : Sender) :
    (sender.write bytes).sent = sender.sent := rfl

@[simp]
theorem endMessage_sent (crypto : Crypto) (fDrop : Bool) (sender : Sender) :
    (sender.endMessage crypto fDrop).sent = sender.sent := by
  rw [endMessage]
  split_ifs
  · exact sender.abortMessage_sent
  · rfl
  · rfl

end Sender

/-- A command of at most twelve printable characters. -/
def IsCommand (pszCommand : List UInt8) : Prop :=
  pszCommand.length ≤ commandSize ∧ ∀ character ∈ pszCommand, isPrintable character

/-- A run of the send side.  It has ended the messages `completed`, in this order, and the message
`current`, if any, is open.  A message is begun only while the send buffer is smaller than `limit`.
-/
inductive SenderRun (crypto : Crypto) (fTestNet : Bool) (limit : Nat) :
    List Message → Option Message → Sender → Prop
  | start : SenderRun crypto fTestNet limit [] none .idle
  | beginMessage {completed : List Message} {current : Option Message} {sender : Sender}
      (pszCommand : List UInt8) :
      SenderRun crypto fTestNet limit completed current sender → IsCommand pszCommand →
      sender.vSend.length < limit →
      SenderRun crypto fTestNet limit completed (some { strCommand := pszCommand, vMsg := [] })
        (sender.beginMessage fTestNet pszCommand)
  | write {completed : List Message} {message : Message} {sender : Sender} (bytes : List UInt8) :
      SenderRun crypto fTestNet limit completed (some message) sender →
      SenderRun crypto fTestNet limit completed
        (some { message with vMsg := message.vMsg ++ bytes }) (sender.write bytes)
  | abortMessage {completed : List Message} {current : Option Message} {sender : Sender} :
      SenderRun crypto fTestNet limit completed current sender →
      SenderRun crypto fTestNet limit completed none sender.abortMessage
  | endMessage {completed : List Message} {current : Option Message} {sender : Sender} :
      SenderRun crypto fTestNet limit completed current sender →
      (∀ message ∈ current, message.vMsg.length ≤ maxSize) →
      SenderRun crypto fTestNet limit (completed ++ current.toList) none
        (sender.endMessage crypto false)
  /-- `EndMessage` drops the message. -/
  | dropMessage {completed : List Message} {current : Option Message} {sender : Sender} :
      SenderRun crypto fTestNet limit completed current sender →
      SenderRun crypto fTestNet limit completed none (sender.endMessage crypto true)
  /-- The socket thread gets into `cs_vSend`. -/
  | send {completed : List Message} {current : Option Message} {sender : Sender} (nBytes : Nat) :
      SenderRun crypto fTestNet limit completed current sender → sender.entered = 0 →
      SenderRun crypto fTestNet limit completed current (sender.send nBytes)

/-- Every peer that receives the bytes dispatches these messages and keeps what is left. -/
def Dispatches (crypto : Crypto) (fTestNet : Bool) (stream : List UInt8)
    (dispatched : List Message) (left : List UInt8) : Prop :=
  ∀ (σ : Type) (handler : Handler σ) (receiver : Receiver σ) (pass : Pass σ),
    ReceiverRun crypto fTestNet handler (2 ^ 31) stream receiver →
    processMessages crypto fTestNet handler receiver.node receiver.vRecv = pass →
    pass.full = false →
      receiver.dispatched ++ pass.dispatched = dispatched ∧ pass.vRecv = left

/-! ## Messages on the wire -/

/-- The header of a complete message. -/
def Message.header (crypto : Crypto) (fTestNet : Bool) (message : Message) : CMessageHeader :=
  { CMessageHeader.ofCommand fTestNet message.strCommand (UInt32.ofNat message.vMsg.length) with
    nChecksum := checksum crypto message.vMsg }

/-- A complete message. -/
def Message.wire (crypto : Crypto) (fTestNet : Bool) (message : Message) : List UInt8 :=
  (message.header crypto fTestNet).write ++ message.vMsg

/-- A message that the protocol carries. -/
structure Message.Sendable (message : Message) : Prop where
  command : IsCommand message.strCommand
  payload : message.vMsg.length ≤ maxSize

theorem CMessageHeader.sized_ofCommand (fTestNet : Bool) {pszCommand : List UInt8}
    (command : IsCommand pszCommand) (nMessageSize nChecksum : UInt32) :
    CMessageHeader.Sized { CMessageHeader.ofCommand fTestNet pszCommand nMessageSize with
      nChecksum } where
  pchMessageStart := length_pchMessageStart fTestNet
  pchCommand := by
    have short := command.1
    simp only [ofCommand, List.length_append, List.length_take, List.length_replicate]
    omega

private theorem ne_zero_of_isPrintable {character : UInt8} (printable : isPrintable character) :
    character ≠ 0 := by
  rintro rfl
  exact absurd printable (by decide)

private theorem isValidCommand_padded {pszCommand : List UInt8} {padding : Nat}
    (printable : ∀ character ∈ pszCommand, isPrintable character) :
    isValidCommand (pszCommand ++ List.replicate padding 0) = true := by
  induction pszCommand with
  | nil =>
      cases padding with
      | zero => rfl
      | succ padding => simp [List.replicate_succ, isValidCommand]
  | cons character pszCommand induction =>
      have first := printable character List.mem_cons_self
      have later := induction fun next member => printable next (List.mem_cons_of_mem _ member)
      rw [List.cons_append, isValidCommand, if_neg (ne_zero_of_isPrintable first), first, later]
      rfl

private theorem pchCommand_eq {fTestNet : Bool} {pszCommand : List UInt8} {nMessageSize : UInt32}
    (command : IsCommand pszCommand) :
    (CMessageHeader.ofCommand fTestNet pszCommand nMessageSize).pchCommand =
      pszCommand ++ List.replicate (commandSize - pszCommand.length) 0 := by
  rw [CMessageHeader.ofCommand, List.take_of_length_le command.1]

private theorem getCommand_eq {hdr : CMessageHeader} {pszCommand : List UInt8}
    (command : IsCommand pszCommand)
    (padded : hdr.pchCommand =
      pszCommand ++ List.replicate (commandSize - pszCommand.length) 0) :
    hdr.getCommand = pszCommand := by
  have short := command.1
  have size : commandSize = 12 := rfl
  rw [CMessageHeader.getCommand, padded]
  split_ifs with ended
  · have printable : ∀ character ∈ pszCommand, decide (character ≠ 0) = true := fun _ member =>
      decide_eq_true (ne_zero_of_isPrintable (command.2 _ member))
    rw [List.takeWhile_append_of_pos printable, List.takeWhile_replicate]
    simp
  · have full : pszCommand.length = commandSize := by
      by_contra shorter
      refine ended ?_
      rw [List.getElem?_append_right (by omega), List.getElem?_replicate, if_pos (by omega)]
    rw [full, Nat.sub_self, List.replicate_zero, List.append_nil,
      List.take_of_length_le full.le]

/-- The header of a message that the protocol carries passes the checks of the receiver. -/
private theorem Message.Sendable.header_eq {message : Message} (sendable : message.Sendable)
    (crypto : Crypto) (fTestNet : Bool) :
    (message.header crypto fTestNet).isValid fTestNet = true ∧
      (message.header crypto fTestNet).getCommand = message.strCommand ∧
      (message.header crypto fTestNet).nMessageSize.toNat = message.vMsg.length := by
  have padded := @pchCommand_eq fTestNet _ (UInt32.ofNat message.vMsg.length) sendable.command
  have limit : maxSize = 2 ^ 25 := rfl
  have payload := sendable.payload
  have size : (UInt32.ofNat message.vMsg.length).toNat = message.vMsg.length :=
    UInt32.toNat_ofNat_of_lt' (lt_of_lt_of_le (b := 2 ^ 32) (by omega) (by decide))
  refine ⟨?_, getCommand_eq sendable.command padded, size⟩
  have command : isValidCommand (message.header crypto fTestNet).pchCommand = true := by
    have same : (message.header crypto fTestNet).pchCommand = _ := padded
    rw [same]
    exact isValidCommand_padded sendable.command.2
  have start : (message.header crypto fTestNet).pchMessageStart = pchMessageStart fTestNet := rfl
  have fits : (message.header crypto fTestNet).nMessageSize.toNat ≤ maxSize := size.trans_le payload
  simp [CMessageHeader.isValid, start, command, fits]

section Scan

variable (crypto : Crypto) (fTestNet : Bool)

private theorem Message.Sendable.length_header {message : Message} (sendable : message.Sendable) :
    (message.header crypto fTestNet).write.length = nHeaderSize :=
  CMessageHeader.Sized.length_write
    (CMessageHeader.sized_ofCommand fTestNet sendable.command _ _)

private theorem Message.Sendable.length_wire {message : Message} (sendable : message.Sendable) :
    (message.wire crypto fTestNet).length = nHeaderSize + message.vMsg.length := by
  rw [wire, List.length_append, sendable.length_header]

private theorem Message.prefix_wire (message : Message) :
    pchMessageStart fTestNet <+: message.wire crypto fTestNet := by
  rw [wire, CMessageHeader.write, List.append_assoc]
  exact List.prefix_append _ _

/-- What the receiver does at a complete header. -/
private theorem Message.Sendable.processHeader_eq {message : Message} (sendable : message.Sendable)
    (payload : List UInt8) :
    processHeader crypto fTestNet ((message.header crypto fTestNet).write ++ payload) =
      if payload.length < message.vMsg.length then
        .wait ((message.header crypto fTestNet).write ++ payload)
      else if checksum crypto (payload.take message.vMsg.length) ≠ checksum crypto message.vMsg then
        .take none payload
      else
        .take (some { message with vMsg := payload.take message.vMsg.length })
          (payload.drop message.vMsg.length) := by
  obtain ⟨valid, command, size⟩ := sendable.header_eq crypto fTestNet
  have header := sendable.length_header crypto fTestNet
  have read := CMessageHeader.Sized.read_write
    (CMessageHeader.sized_ofCommand fTestNet sendable.command
      (UInt32.ofNat message.vMsg.length) (checksum crypto message.vMsg)) []
  rw [List.append_nil] at read
  have small : ¬maxSize < message.vMsg.length := Nat.not_lt.mpr sendable.payload
  have same : CMessageHeader.read (message.header crypto fTestNet).write =
      message.header crypto fTestNet := read
  simp only [processHeader, List.take_left' header, List.drop_left' header, same, valid, size,
    command, not_true_eq_false, if_false, small]
  rfl

/-- A complete message is taken off as it was sent. -/
theorem Message.Sendable.step_wire {message : Message} (sendable : message.Sendable)
    (rest : List UInt8) :
    (messageScanner crypto fTestNet).step (message.wire crypto fTestNet ++ rest) =
      .take (some message) rest := by
  have found := search_eq_self
    ((message.prefix_wire crypto fTestNet).trans (List.prefix_append _ rest))
  have long : ¬(message.wire crypto fTestNet ++ rest).length < nHeaderSize := by
    rw [List.length_append, sendable.length_wire]
    omega
  rw [messageScanner_long (by rwa [found]), found, wire, List.append_assoc,
    sendable.processHeader_eq, List.take_left, List.drop_left, if_neg (by simp), if_neg (by simp)]

/-- An incomplete message is kept. -/
theorem Message.Sendable.step_beginning {message : Message} (sendable : message.Sendable)
    {left : List UInt8} (front : left <+: message.wire crypto fTestNet)
    (short : left.length < (message.wire crypto fTestNet).length) :
    (messageScanner crypto fTestNet).step left = .wait left := by
  have inside := (search_suffix (pchMessageStart fTestNet) left).length_le
  by_cases header : left.length < nHeaderSize
  · rw [messageScanner_short (by omega), Nat.sub_eq_zero_of_le header.le, List.drop_zero]
  · have start : pchMessageStart fTestNet <+: left := by
      refine List.prefix_of_prefix_length_le (message.prefix_wire crypto fTestNet) front ?_
      have size : nHeaderSize = 24 := rfl
      rw [length_pchMessageStart]
      omega
    have whole : (message.header crypto fTestNet).write <+: left := by
      refine List.prefix_of_prefix_length_le (List.prefix_append _ message.vMsg) front ?_
      rw [sendable.length_header]
      omega
    obtain ⟨payload, rfl⟩ := whole
    have found := search_eq_self start
    have incomplete : payload.length < message.vMsg.length := by
      rw [sendable.length_wire, List.length_append, sendable.length_header] at short
      omega
    rw [messageScanner_long (by rwa [found]), found, sendable.processHeader_eq, if_pos incomplete]

/-- Complete messages are taken off in order. -/
theorem scan_wires {messages : List Message} (sendable : ∀ message ∈ messages, message.Sendable)
    (rest : List UInt8) :
    (messageScanner crypto fTestNet).scan
        (messages.flatMap (Message.wire crypto fTestNet) ++ rest) =
      (messages ++ ((messageScanner crypto fTestNet).scan rest).1,
        ((messageScanner crypto fTestNet).scan rest).2) := by
  induction messages with
  | nil => rfl
  | cons message messages induction =>
      have later := induction fun next member => sendable next (List.mem_cons_of_mem _ member)
      have takes := (sendable message List.mem_cons_self).step_wire crypto fTestNet
        (messages.flatMap (Message.wire crypto fTestNet) ++ rest)
      rw [List.flatMap_cons, List.append_assoc, Scanner.scan_of_take takes, later]
      rfl

/-- A front of a sequence of frames is some whole frames and a part of the next one. -/
private theorem prefix_flatMap {α β : Type} {frame : α → List β} {values : List α}
    {bytes : List β} (front : bytes <+: values.flatMap frame) :
    ∃ whole later left, values = whole ++ later ∧ bytes = whole.flatMap frame ++ left ∧
      left <+: later.flatMap frame ∧
      ∀ value ∈ later.head?, left.length < (frame value).length := by
  induction values generalizing bytes with
  | nil => exact ⟨[], [], bytes, rfl, rfl, front, by simp⟩
  | cons value values induction =>
      by_cases short : bytes.length < (frame value).length
      · exact ⟨[], value :: values, bytes, rfl, rfl, front, by simpa using short⟩
      · rw [List.flatMap_cons] at front
        obtain ⟨rest, rfl⟩ : frame value <+: bytes :=
          List.prefix_of_prefix_length_le (List.prefix_append _ _) front (Nat.not_lt.mp short)
        obtain ⟨whole, later, left, rfl, rfl, tail, part⟩ :=
          induction ((List.prefix_append_right_inj _).mp front)
        refine ⟨value :: whole, later, left, rfl, ?_, tail, part⟩
        rw [List.flatMap_cons, List.append_assoc]

end Scan

/-! ## The send buffer -/

section Send

variable {crypto : Crypto} {fTestNet : Bool}

private theorem overwrite_append {front old back source : List UInt8} {pos : Nat}
    (at_pos : front.length = pos) (same : old.length = source.length) :
    overwrite (front ++ (old ++ back)) pos source = front ++ (source ++ back) := by
  subst at_pos
  rw [overwrite, List.take_left, ← List.drop_drop, List.drop_left, ← same, List.drop_left]

private theorem resize_append (front back : List UInt8) :
    resize (front ++ back) front.length = front := by
  rw [resize, List.take_left, List.length_append, Nat.sub_eq_zero_of_le (Nat.le_add_right _ _)]
  simp

/-- The header as `BeginMessage` writes it. -/
def Message.opening (fTestNet : Bool) (message : Message) : List UInt8 :=
  (CMessageHeader.ofCommand fTestNet message.strCommand 0).write

/-- The send buffer behind the bytes of completed messages: nothing, or the open message, which the
start positions and the lock tell. -/
inductive Sender.Holds (fTestNet : Bool) : Option Message → Sender → List UInt8 → Prop
  | closed {sender : Sender} {unsent : List UInt8} : sender.vSend = unsent →
      sender.nHeaderStart = -1 → sender.entered = 0 → Holds fTestNet none sender unsent
  | opened {sender : Sender} {unsent : List UInt8} {message : Message} :
      sender.vSend = unsent ++ (message.opening fTestNet ++ message.vMsg) →
      sender.nHeaderStart = unsent.length →
      sender.nMessageStart = UInt32.ofNat (unsent.length + nHeaderSize) →
      sender.entered = 1 → unsent.length < 2 ^ 31 → IsCommand message.strCommand →
      Holds fTestNet (some message) sender unsent

theorem Message.length_opening {message : Message} (command : IsCommand message.strCommand) :
    (message.opening fTestNet).length = nHeaderSize :=
  CMessageHeader.Sized.length_write (CMessageHeader.sized_ofCommand fTestNet command 0 0)

private theorem Sender.Holds.abortMessage {current : Option Message} {sender : Sender}
    {unsent : List UInt8} (holds : sender.Holds fTestNet current unsent) :
    sender.abortMessage.Holds fTestNet none unsent := by
  cases holds with
  | closed vSend nHeaderStart entered =>
      have idle : sender.abortMessage = sender := if_pos (by omega)
      rw [idle]
      exact .closed vSend nHeaderStart entered
  | opened vSend nHeaderStart nMessageStart entered small command =>
      have started : ¬sender.nHeaderStart < 0 := by omega
      rw [Sender.abortMessage, if_neg started]
      refine .closed ?_ rfl (by simp [entered])
      simp only [vSend, nHeaderStart, Int.toNat_natCast, resize_append]

/-- `BeginMessage` aborts an open message and enters `cs_vSend` once. -/
private theorem Sender.Holds.beginMessage_eq {current : Option Message} {sender : Sender}
    {unsent pszCommand : List UInt8} (holds : sender.Holds fTestNet current unsent) :
    sender.beginMessage fTestNet pszCommand =
      { vSend := unsent ++ (CMessageHeader.ofCommand fTestNet pszCommand 0).write
        nHeaderStart := (Int32.ofNat unsent.length).toInt
        nMessageStart := UInt32.ofNat
          (unsent ++ (CMessageHeader.ofCommand fTestNet pszCommand 0).write).length
        entered := 1
        sent := sender.sent } := by
  cases holds with
  | closed vSend nHeaderStart entered =>
      have idle : ¬sender.nHeaderStart ≠ -1 := by omega
      simp only [Sender.beginMessage, if_neg idle, vSend, entered]
  | opened vSend nHeaderStart nMessageStart entered small command =>
      have other : sender.nHeaderStart ≠ -1 := by omega
      have started : ¬sender.nHeaderStart < 0 := by omega
      simp only [Sender.beginMessage, if_pos other, Sender.abortMessage, if_neg started]
      simp only [vSend, nHeaderStart, Int.toNat_natCast, resize_append, entered]

private theorem Sender.Holds.beginMessage {current : Option Message} {sender : Sender}
    {unsent pszCommand : List UInt8} (holds : sender.Holds fTestNet current unsent)
    (command : IsCommand pszCommand) (small : unsent.length < 2 ^ 31) :
    (sender.beginMessage fTestNet pszCommand).Holds fTestNet
      (some { strCommand := pszCommand, vMsg := [] }) unsent := by
  have header := @Message.length_opening fTestNet { strCommand := pszCommand, vMsg := [] } command
  rw [holds.beginMessage_eq]
  refine .opened ?_ ?_ ?_ rfl small command
  · rw [List.append_nil]
    rfl
  · exact Int32.toInt_ofNat_of_lt small
  · rw [← header, ← List.length_append]
    rfl

private theorem Sender.Holds.write {sender : Sender} {unsent : List UInt8} {message : Message}
    (holds : sender.Holds fTestNet (some message) unsent) (bytes : List UInt8) :
    (sender.write bytes).Holds fTestNet (some { message with vMsg := message.vMsg ++ bytes })
      unsent := by
  cases holds with
  | opened vSend nHeaderStart nMessageStart entered small command =>
      refine .opened ?_ nHeaderStart nMessageStart entered small command
      rw [Sender.write, vSend, List.append_assoc, List.append_assoc]
      rfl

/-- The size and the checksum, written into the header of the last message of a buffer, complete
it. -/
private theorem overwrite_opening (unsent : List UInt8) {message : Message}
    (command : IsCommand message.strCommand) :
    let sized := overwrite (unsent ++ (message.opening fTestNet ++ message.vMsg))
      (unsent.length + messageSizeOffset) (leBytes 4 (UInt32.ofNat message.vMsg.length).toNat)
    sized.drop (unsent.length + nHeaderSize) = message.vMsg ∧
      overwrite sized (unsent.length + checksumOffset)
          (leBytes 4 (checksum crypto message.vMsg).toNat) =
        unsent ++ message.wire crypto fTestNet := by
  intro sized
  have pchCommand : (CMessageHeader.ofCommand fTestNet message.strCommand 0).pchCommand.length =
      commandSize := (CMessageHeader.sized_ofCommand fTestNet command 0 0).pchCommand
  have named : (unsent ++ (pchMessageStart fTestNet ++
      (CMessageHeader.ofCommand fTestNet message.strCommand 0).pchCommand)).length =
        unsent.length + messageSizeOffset := by
    rw [List.length_append, List.length_append, length_pchMessageStart, pchCommand,
      messageSizeOffset]
  have buffer : unsent ++ (message.opening fTestNet ++ message.vMsg) =
      (unsent ++ (pchMessageStart fTestNet ++
        (CMessageHeader.ofCommand fTestNet message.strCommand 0).pchCommand)) ++
          (leBytes 4 0 ++ (leBytes 4 0 ++ message.vMsg)) := by
    simp only [Message.opening, CMessageHeader.write, List.append_assoc]
    rfl
  have sized_eq : sized = (unsent ++ (pchMessageStart fTestNet ++
      (CMessageHeader.ofCommand fTestNet message.strCommand 0).pchCommand)) ++
        (leBytes 4 (UInt32.ofNat message.vMsg.length).toNat ++ (leBytes 4 0 ++ message.vMsg)) := by
    simp only [sized]
    rw [buffer, overwrite_append named (by simp)]
  have measured : ((unsent ++ (pchMessageStart fTestNet ++
      (CMessageHeader.ofCommand fTestNet message.strCommand 0).pchCommand)) ++
        leBytes 4 (UInt32.ofNat message.vMsg.length).toNat).length =
          unsent.length + checksumOffset := by
    rw [List.length_append, named, length_leBytes, checksumOffset, Nat.add_assoc]
  rw [← List.append_assoc] at sized_eq
  constructor
  · rw [sized_eq, ← List.append_assoc]
    refine List.drop_left' ?_
    rw [List.length_append, measured, length_leBytes]
    rfl
  · rw [sized_eq, overwrite_append measured (by simp)]
    simp only [Message.wire, Message.header, CMessageHeader.write, List.append_assoc]
    rfl

/-- `EndMessage` turns the open message into a complete one, in place. -/
private theorem Sender.Holds.endMessage {sender : Sender} {unsent : List UInt8} {message : Message}
    (holds : sender.Holds fTestNet (some message) unsent) :
    (sender.endMessage crypto false).Holds fTestNet none
      (unsent ++ message.wire crypto fTestNet) := by
  cases holds with
  | opened vSend nHeaderStart nMessageStart entered small command =>
      have started : ¬sender.nHeaderStart < 0 := by omega
      have header := @Message.length_opening fTestNet message command
      have headerSize : nHeaderSize = 24 := rfl
      have size : UInt32.ofNat sender.vSend.length - sender.nMessageStart =
          UInt32.ofNat message.vMsg.length := by
        rw [vSend, nMessageStart, List.length_append, List.length_append, header, ← Nat.add_assoc,
          UInt32.ofNat_add, UInt32.add_comm, UInt32.add_sub_cancel]
      have position : sender.nMessageStart.toNat = unsent.length + nHeaderSize := by
        rw [nMessageStart]
        exact UInt32.toNat_ofNat_of_lt' (lt_of_lt_of_le (b := 2 ^ 32) (by omega) (by decide))
      obtain ⟨hashed, completed⟩ := @overwrite_opening crypto fTestNet unsent message command
      have ends : sender.endMessage crypto false =
          { sender with
            vSend := unsent ++ message.wire crypto fTestNet
            nHeaderStart := -1
            nMessageStart := -1
            entered := sender.entered - 1 } := by
        simp only [Sender.endMessage, Bool.false_eq_true, if_false, if_neg started, size, position]
        rw [nHeaderStart, vSend, Int.toNat_natCast, hashed, completed]
      rw [ends]
      exact .closed rfl rfl (by simp [entered])

private theorem Sender.Holds.length_le {current : Option Message} {sender : Sender}
    {unsent : List UInt8} (holds : sender.Holds fTestNet current unsent) :
    unsent.length ≤ sender.vSend.length := by
  cases holds with
  | closed vSend => rw [vSend]
  | opened vSend =>
      rw [vSend, List.length_append]
      exact Nat.le_add_right _ _

/-- What was sent and what waits to be sent are the completed messages. -/
structure Sender.Queued (crypto : Crypto) (fTestNet : Bool) (completed : List Message)
    (current : Option Message) (sender : Sender) (unsent : List UInt8) : Prop where
  holds : sender.Holds fTestNet current unsent
  bytes : sender.sent ++ unsent = completed.flatMap (Message.wire crypto fTestNet)
  sendable : ∀ message ∈ completed, message.Sendable

private theorem Sender.Queued.abortMessage {completed : List Message} {current : Option Message}
    {sender : Sender} {unsent : List UInt8}
    (queued : sender.Queued crypto fTestNet completed current unsent) :
    sender.abortMessage.Queued crypto fTestNet completed none unsent :=
  ⟨queued.holds.abortMessage, by rw [Sender.abortMessage_sent, queued.bytes], queued.sendable⟩

private theorem Sender.Queued.beginMessage {completed : List Message} {current : Option Message}
    {sender : Sender} {unsent pszCommand : List UInt8}
    (queued : sender.Queued crypto fTestNet completed current unsent)
    (command : IsCommand pszCommand) (small : sender.vSend.length < 2 ^ 31) :
    (sender.beginMessage fTestNet pszCommand).Queued crypto fTestNet completed
      (some { strCommand := pszCommand, vMsg := [] }) unsent :=
  ⟨queued.holds.beginMessage command (queued.holds.length_le.trans_lt small),
    by rw [Sender.beginMessage_sent, queued.bytes], queued.sendable⟩

private theorem Sender.Queued.write {completed : List Message} {sender : Sender}
    {unsent : List UInt8} {message : Message}
    (queued : sender.Queued crypto fTestNet completed (some message) unsent)
    (bytes : List UInt8) :
    (sender.write bytes).Queued crypto fTestNet completed
      (some { message with vMsg := message.vMsg ++ bytes }) unsent :=
  ⟨queued.holds.write bytes, by rw [Sender.write_sent, queued.bytes], queued.sendable⟩

private theorem Sender.Queued.endMessage {completed : List Message} {current : Option Message}
    {sender : Sender} {unsent : List UInt8}
    (queued : sender.Queued crypto fTestNet completed current unsent)
    (payload : ∀ message ∈ current, message.vMsg.length ≤ maxSize) :
    ∃ later, (sender.endMessage crypto false).Queued crypto fTestNet
      (completed ++ current.toList) none later := by
  obtain ⟨holds, bytes, sendable⟩ := queued
  cases current with
  | none =>
      cases holds with
      | closed vSend nHeaderStart entered =>
          have idle : sender.endMessage crypto false = sender := by
            rw [Sender.endMessage, if_neg (by decide), if_pos (by omega)]
          rw [idle]
          exact ⟨unsent, .closed vSend nHeaderStart entered, by simpa using bytes,
            by simpa using sendable⟩
  | some message =>
      have command : IsCommand message.strCommand := by
        cases holds with
        | opened _ _ _ _ _ command => exact command
      refine ⟨_, holds.endMessage, ?_, ?_⟩
      · rw [Sender.endMessage_sent, ← List.append_assoc, bytes]
        simp
      · intro other member
        rcases List.mem_append.mp member with earlier | last
        · exact sendable other earlier
        · obtain rfl := List.mem_singleton.mp last
          exact ⟨command, payload other rfl⟩

private theorem Sender.Queued.send {completed : List Message} {current : Option Message}
    {sender : Sender} {unsent : List UInt8}
    (queued : sender.Queued crypto fTestNet completed current unsent) (free : sender.entered = 0)
    (nBytes : Nat) :
    (sender.send nBytes).Queued crypto fTestNet completed current (unsent.drop nBytes) := by
  obtain ⟨holds, bytes, sendable⟩ := queued
  cases holds with
  | closed vSend nHeaderStart entered =>
      refine ⟨.closed (by rw [Sender.send, vSend]) nHeaderStart entered, ?_, sendable⟩
      rw [← bytes, Sender.send, vSend, List.append_assoc, List.take_append_drop]
  | opened _ _ _ entered =>
      rw [entered] at free
      contradiction

/-- The send buffer holds what it should in every run. -/
theorem SenderRun.queued {completed : List Message} {current : Option Message} {sender : Sender}
    (run : SenderRun crypto fTestNet (2 ^ 31) completed current sender) :
    ∃ unsent, sender.Queued crypto fTestNet completed current unsent := by
  induction run with
  | start => exact ⟨[], .closed rfl rfl rfl, rfl, by simp⟩
  | beginMessage pszCommand _ command small induction =>
      obtain ⟨unsent, queued⟩ := induction
      exact ⟨unsent, queued.beginMessage command small⟩
  | write more _ induction =>
      obtain ⟨unsent, queued⟩ := induction
      exact ⟨unsent, queued.write more⟩
  | abortMessage _ induction =>
      obtain ⟨unsent, queued⟩ := induction
      exact ⟨unsent, queued.abortMessage⟩
  | endMessage _ payload induction =>
      obtain ⟨unsent, queued⟩ := induction
      exact queued.endMessage payload
  | dropMessage _ induction =>
      obtain ⟨unsent, queued⟩ := induction
      exact ⟨unsent, queued.abortMessage⟩
  | send nBytes _ free induction =>
      obtain ⟨unsent, queued⟩ := induction
      exact ⟨unsent.drop nBytes, queued.send free nBytes⟩

private theorem dispatches_of_scan {stream left : List UInt8} {dispatched : List Message}
    (scanned : (messageScanner crypto fTestNet).scan stream = (dispatched, left)) :
    Dispatches crypto fTestNet stream dispatched left := by
  intro σ handler receiver pass run last room
  obtain ⟨small, taken⟩ := run.taken
  rw [Scanner.Taken, scanned, processMessages_eq_scan small last room] at taken
  exact (Prod.mk.inj taken).imp Eq.symm Eq.symm

end Send

-- A bounded quantifier is decided over its list, not over all bytes.
private local instance (priority := 2000) decidableEachByte {α : Type} {p : α → Prop} [DecidablePred p]
    (values : List α) : Decidable (∀ value ∈ values, p value) :=
  List.decidableBAll p values

/-- One message is aborted and one is ended, and three bytes are sent. -/
def abortedSender : Sender :=
  ((((((Sender.idle.beginMessage true [0x61]).write [1]).abortMessage).beginMessage true
    [0x62]).write [7]).endMessage sampleCrypto false).send 3

/-- A message with a payload of zeros. -/
def zeroMessage (count : Nat) : Message where
  strCommand := [0x61]
  vMsg := List.replicate count 0

private theorem isCommand_a : IsCommand [0x61] := ⟨by decide, by decide⟩

private theorem zeroMessage_sendable {count : Nat} (small : count ≤ maxSize) :
    (zeroMessage count).Sendable where
  command := isCommand_a
  payload := by simpa [zeroMessage] using small

private theorem length_zeroMessages {count k : Nat} (small : count ≤ maxSize) :
    ((List.replicate k (zeroMessage count)).flatMap (Message.wire sampleCrypto true)).length =
      k * (24 + count) := by
  have wire := (zeroMessage_sendable small).length_wire sampleCrypto true
  have payload : (zeroMessage count).vMsg.length = count := List.length_replicate
  rw [List.length_flatMap, List.map_replicate, List.sum_replicate, wire, payload]
  rfl

private theorem Sender.Queued.length {count k : Nat} {sender : Sender} {unsent : List UInt8}
    (queued : sender.Queued sampleCrypto true (List.replicate k (zeroMessage count)) none unsent)
    (sent : sender.sent = []) (small : count ≤ maxSize) :
    sender.vSend = unsent ∧ sender.vSend.length = k * (24 + count) := by
  obtain ⟨holds, bytes, _⟩ := queued
  cases holds with
  | closed vSend =>
      refine ⟨vSend, ?_⟩
      rw [vSend, ← length_zeroMessages small, ← bytes, sent, List.nil_append]

private theorem zeroMessages_run {count k : Nat} (small : count ≤ maxSize) (few : k ≤ 64) :
    ∃ sender unsent, SenderRun sampleCrypto true (2 ^ 32) (List.replicate k (zeroMessage count))
        none sender ∧ sender.sent = [] ∧
      sender.Queued sampleCrypto true (List.replicate k (zeroMessage count)) none unsent := by
  have limit : maxSize = 2 ^ 25 := rfl
  induction k with
  | zero => exact ⟨.idle, [], .start, rfl, .closed rfl rfl rfl, rfl, by simp⟩
  | succ k induction =>
      obtain ⟨sender, unsent, run, sent, queued⟩ := induction (by omega)
      have length := (queued.length sent small).2
      have bound : k * (24 + count) ≤ 63 * (24 + 2 ^ 25) :=
        Nat.mul_le_mul (by omega) (by omega)
      have all : List.replicate k (zeroMessage count) ++ [zeroMessage count] =
          List.replicate (k + 1) (zeroMessage count) := List.replicate_succ'.symm
      have payload : ∀ message ∈ some (zeroMessage count), message.vMsg.length ≤ maxSize := by
        rintro _ ⟨⟩
        exact (zeroMessage_sendable small).payload
      have running := ((run.beginMessage [0x61] isCommand_a (by omega)).write
        (List.replicate count 0)).endMessage payload
      obtain ⟨later, ended⟩ := ((queued.beginMessage isCommand_a (by omega)).write
        (List.replicate count 0)).endMessage payload
      refine ⟨_, later, all ▸ running, ?_, all ▸ ended⟩
      rw [Sender.endMessage_sent, Sender.write_sent, Sender.beginMessage_sent, sent]

/-- From 2 GiB on the start of a header is negative as an `int`, and `EndMessage` leaves the header
as it is. -/
private theorem endMessage_large {sender : Sender} {unsent bytes : List UInt8}
    (holds : sender.Holds true none unsent) (large : unsent.length = 64 * (24 + 2 ^ 25)) :
    (((sender.beginMessage true [0x61]).write bytes).endMessage sampleCrypto false).vSend =
      unsent ++ ((CMessageHeader.ofCommand true [0x61] 0).write ++ bytes) := by
  have negative : (Int32.ofNat unsent.length).toInt < 0 := by
    rw [large]
    decide
  rw [holds.beginMessage_eq, Sender.write, Sender.endMessage, if_neg (by decide), if_pos negative,
    List.append_assoc]

/-- What a peer keeps that receives a stream in two chunks, the first of whole messages. -/
private theorem Dispatches.left_eq {front back left : List UInt8} {dispatched : List Message}
    (dispatches : Dispatches sampleCrypto true (front ++ back) dispatched left)
    (whole : ((messageScanner sampleCrypto true).scan front).2 = [])
    (front_small : front.length < 2 ^ 31) (back_small : back.length < 2 ^ 31) :
    ((messageScanner sampleCrypto true).scan back).2 = left := by
  have room := idleHandler_full sampleCrypto true
  obtain ⟨pass, called⟩ : ∃ pass, processMessages sampleCrypto true idleHandler () front = pass :=
    ⟨_, rfl⟩
  have first := processMessages_eq_scan front_small called (called ▸ room front)
  have kept : pass.vRecv = [] := by rw [← whole, first]
  have run := @ReceiverRun.inTwo _ _ _ _ _ front back _ _ front_small called (called ▸ room front)
    (by rwa [kept, List.nil_append])
  have received := (dispatches Unit idleHandler _ _ run rfl (room _)).2
  rw [kept, List.nil_append] at received
  rw [processMessages_eq_scan back_small rfl (room back), received]

/-- The peer takes an uncompleted header for that of an empty message. -/
private theorem scan_uncompleted {messages : List Message}
    (sendable : ∀ message ∈ messages, message.Sendable) :
    ((messageScanner sampleCrypto true).scan
      (messages.flatMap (Message.wire sampleCrypto true) ++
        ((CMessageHeader.ofCommand true [0x61] 0).write ++ [1]))).2 = [1] := by
  have taken : (messageScanner sampleCrypto true).step
      ((CMessageHeader.ofCommand true [0x61] 0).write ++ [1]) =
        .take (some { strCommand := [0x61], vMsg := [] }) [1] := by
    decide +kernel
  have waits : (messageScanner sampleCrypto true).step [1] = .wait [1] := by decide +kernel
  rw [scan_wires _ _ sendable, Scanner.scan_of_take taken, Scanner.scan_of_wait waits]

end FooCoin

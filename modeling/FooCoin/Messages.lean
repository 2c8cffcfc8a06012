import FooCoin.Library.Framing
import FooCoin.Protocol
import FooCoin.SampleChain

/-!
# Receiving messages

`ProcessMessages` takes messages off the receive buffer of a node.  What it does to a buffer does not
depend on how the bytes arrived, as long as the size of the buffer is one that an `int` holds.
-/

namespace FooCoin

open LittleEndian Framing

/-- What is passed to `ProcessMessage`. -/
structure Message where
  strCommand : List UInt8
  vMsg : List UInt8
  deriving DecidableEq

/-- The first four bytes of the hash of a payload. -/
def checksum (crypto : Crypto) (vMsg : List UInt8) : UInt32 :=
  UInt32.ofNat (crypto.Hash vMsg).toNat

section Round

variable (crypto : Crypto) (fTestNet : Bool)

/-- A round of the loop of `ProcessMessages` that finds a header at the front of the buffer. -/
def processHeader (vRecv : List UInt8) : Step UInt8 Message :=
  let vHeaderSave := vRecv.take nHeaderSize
  let vRecv := vRecv.drop nHeaderSize
  let hdr := CMessageHeader.read vHeaderSave
  let nMessageSize := hdr.nMessageSize.toNat
  if ¬hdr.isValid fTestNet then .take none vRecv
  else if maxSize < nMessageSize then .take none vRecv
  else if vRecv.length < nMessageSize then .wait (vHeaderSave ++ vRecv)
  else if checksum crypto (vRecv.take nMessageSize) ≠ hdr.nChecksum then .take none vRecv
  else
    .take (some { strCommand := hdr.getCommand, vMsg := vRecv.take nMessageSize })
      (vRecv.drop nMessageSize)

/-- A round of the loop of `ProcessMessages`; `keep` is what it leaves where it finds no header. -/
def processRound (keep : List UInt8 → List UInt8) (vRecv : List UInt8) : Step UInt8 Message :=
  let found := search (pchMessageStart fTestNet) vRecv
  if found.length < nHeaderSize then .wait (keep vRecv) else processHeader crypto fTestNet found

/-- What `ProcessMessages` leaves where it finds no header; the size is compared as an `int`. -/
def keepHeader (vRecv : List UInt8) : List UInt8 :=
  if (nHeaderSize : Int) < (Int32.ofNat vRecv.length).toInt then
    vRecv.drop (vRecv.length - nHeaderSize)
  else vRecv

variable {crypto fTestNet}

private theorem processHeader_shrinks {vRecv rest : List UInt8} {frame : Option Message}
    (long : nHeaderSize ≤ vRecv.length)
    (taken : processHeader crypto fTestNet vRecv = .take frame rest) :
    rest.length < vRecv.length := by
  have header : 0 < nHeaderSize := by decide
  simp only [processHeader] at taken
  split_ifs at taken
  all_goals
    cases taken
    simp only [List.length_drop]
    omega

private theorem processHeader_wait {vRecv left : List UInt8}
    (waits : processHeader crypto fTestNet vRecv = .wait left) : left = vRecv := by
  simp only [processHeader] at waits
  split_ifs at waits
  cases waits
  exact List.take_append_drop nHeaderSize vRecv

theorem processRound_shrinks {keep : List UInt8 → List UInt8} {vRecv rest : List UInt8}
    {frame : Option Message}
    (taken : processRound crypto fTestNet keep vRecv = .take frame rest) :
    rest.length < vRecv.length := by
  simp only [processRound] at taken
  split_ifs at taken with short
  exact (processHeader_shrinks (Nat.not_lt.mp short) taken).trans_le
    (search_suffix _ vRecv).length_le

private theorem processRound_keeps {keep : List UInt8 → List UInt8} {vRecv left : List UInt8}
    (kept : ∀ vRecv, (keep vRecv).length ≤ vRecv.length)
    (waits : processRound crypto fTestNet keep vRecv = .wait left) :
    left.length ≤ vRecv.length := by
  simp only [processRound] at waits
  split_ifs at waits
  · cases waits
    exact kept vRecv
  · cases processHeader_wait waits
    exact (search_suffix _ vRecv).length_le

end Round

/-- What the rest of the node contributes to `ProcessMessages`. -/
structure Handler (σ : Type) where
  /-- `ProcessMessage`, whatever it returns or throws. -/
  processMessage : σ → Message → σ
  /-- `vSend.size() >= SendBufferSize()`. -/
  sendBufferFull : σ → Bool

/-- What a call of `ProcessMessages` leaves. -/
structure Pass (σ : Type) where
  node : σ
  vRecv : List UInt8
  /-- What was passed to `ProcessMessage`, in order. -/
  dispatched : List Message
  /-- The call ended because the send buffer was full. -/
  full : Bool

section Process

variable {σ : Type} (crypto : Crypto) (fTestNet : Bool) (handler : Handler σ)

/-- The loop of `ProcessMessages`. -/
def processLoop (node : σ) (vRecv : List UInt8) : Pass σ :=
  if handler.sendBufferFull node then { node, vRecv, dispatched := [], full := true }
  else
    match _round : processRound crypto fTestNet keepHeader vRecv with
    | .wait vRecv => { node, vRecv, dispatched := [], full := false }
    | .take none vRecv => processLoop node vRecv
    | .take (some message) vRecv =>
        let pass := processLoop (handler.processMessage node message) vRecv
        { pass with dispatched := message :: pass.dispatched }
termination_by vRecv.length
decreasing_by all_goals exact processRound_shrinks _round

/-- `ProcessMessages`. -/
def processMessages (node : σ) (vRecv : List UInt8) : Pass σ :=
  if vRecv.isEmpty then { node, vRecv, dispatched := [], full := false }
  else processLoop crypto fTestNet handler node vRecv

/-- A node with its receive buffer. -/
structure Receiver (σ : Type) where
  node : σ
  vRecv : List UInt8
  /-- What was passed to `ProcessMessage` so far. -/
  dispatched : List Message

/-- A node that has received a stream, with `ProcessMessages` called from time to time; its receive
buffer stays below a size, and no call found the send buffer full. -/
inductive ReceiverRun (limit : Nat) : List UInt8 → Receiver σ → Prop
  | start (node : σ) : ReceiverRun limit [] { node, vRecv := [], dispatched := [] }
  /-- The socket thread receives a chunk. -/
  | receive {stream : List UInt8} {receiver : Receiver σ} (chunk : List UInt8) :
      ReceiverRun limit stream receiver → (receiver.vRecv ++ chunk).length < limit →
      ReceiverRun limit (stream ++ chunk) { receiver with vRecv := receiver.vRecv ++ chunk }
  /-- A call of `ProcessMessages`. -/
  | process {stream : List UInt8} {receiver : Receiver σ} {pass : Pass σ} :
      ReceiverRun limit stream receiver →
      processMessages crypto fTestNet handler receiver.node receiver.vRecv = pass →
      pass.full = false →
      ReceiverRun limit stream
        { node := pass.node
          vRecv := pass.vRecv
          dispatched := receiver.dispatched ++ pass.dispatched }
  /-- Anything else that the node does. -/
  | other {stream : List UInt8} {receiver : Receiver σ} (node : σ) :
      ReceiverRun limit stream receiver → ReceiverRun limit stream { receiver with node }

end Process

/-! ## The scanner -/

/-- `ProcessMessages` on buffers of any size. -/
def messageScanner (crypto : Crypto) (fTestNet : Bool) : Scanner UInt8 Message where
  step := processRound crypto fTestNet fun vRecv => vRecv.drop (vRecv.length - nHeaderSize)
  shrinks := processRound_shrinks
  keeps := processRound_keeps fun vRecv => by simp

section Scan

variable {crypto : Crypto} {fTestNet : Bool}

private theorem processHeader_append {vRecv rest : List UInt8} {frame : Option Message}
    (long : nHeaderSize ≤ vRecv.length)
    (taken : processHeader crypto fTestNet vRecv = .take frame rest) (more : List UInt8) :
    processHeader crypto fTestNet (vRecv ++ more) = .take frame (rest ++ more) := by
  simp only [processHeader, List.take_append_of_le_length long,
    List.drop_append_of_le_length long] at taken ⊢
  generalize CMessageHeader.read (vRecv.take nHeaderSize) = hdr at taken ⊢
  generalize vRecv.drop nHeaderSize = payload at taken ⊢
  by_cases valid : ¬hdr.isValid fTestNet
  · rw [if_pos valid] at taken ⊢
    cases taken
    rfl
  rw [if_neg valid] at taken ⊢
  by_cases large : maxSize < hdr.nMessageSize.toNat
  · rw [if_pos large] at taken ⊢
    cases taken
    rfl
  rw [if_neg large] at taken ⊢
  by_cases partial_payload : payload.length < hdr.nMessageSize.toNat
  · rw [if_pos partial_payload] at taken
    contradiction
  have whole : hdr.nMessageSize.toNat ≤ payload.length := Nat.not_lt.mp partial_payload
  have still : ¬(payload ++ more).length < hdr.nMessageSize.toNat := by
    rw [List.length_append]
    omega
  rw [if_neg partial_payload] at taken
  rw [if_neg still, List.take_append_of_le_length whole, List.drop_append_of_le_length whole]
  by_cases corrupt : checksum crypto (payload.take hdr.nMessageSize.toNat) ≠ hdr.nChecksum
  · rw [if_pos corrupt] at taken ⊢
    cases taken
    rfl
  · rw [if_neg corrupt] at taken ⊢
    cases taken
    rfl

theorem messageScanner_short {vRecv : List UInt8}
    (short : (search (pchMessageStart fTestNet) vRecv).length < nHeaderSize) :
    (messageScanner crypto fTestNet).step vRecv =
      .wait (vRecv.drop (vRecv.length - nHeaderSize)) := by
  simp only [messageScanner, processRound, if_pos short]

theorem messageScanner_long {vRecv : List UInt8}
    (long : ¬(search (pchMessageStart fTestNet) vRecv).length < nHeaderSize) :
    (messageScanner crypto fTestNet).step vRecv =
      processHeader crypto fTestNet (search (pchMessageStart fTestNet) vRecv) := by
  simp only [messageScanner, processRound, if_neg long]

/-- A header that was found is found when more arrives. -/
private theorem search_long {vRecv : List UInt8}
    (long : ¬(search (pchMessageStart fTestNet) vRecv).length < nHeaderSize) (more : List UInt8) :
    pchMessageStart fTestNet <+: search (pchMessageStart fTestNet) vRecv ∧
      search (pchMessageStart fTestNet) (vRecv ++ more) =
        search (pchMessageStart fTestNet) vRecv ++ more ∧
      ¬(search (pchMessageStart fTestNet) vRecv ++ more).length < nHeaderSize := by
  have found : search (pchMessageStart fTestNet) vRecv ≠ [] := by
    intro empty
    rw [empty] at long
    exact long (by decide)
  refine ⟨prefix_search found, search_append found more, ?_⟩
  rw [List.length_append]
  omega

/-- `ProcessMessages` can be stopped and resumed anywhere. -/
theorem messageScanner_resumable : (messageScanner crypto fTestNet).Resumable where
  take_append := by
    intro vRecv frame rest taken more
    by_cases short : (search (pchMessageStart fTestNet) vRecv).length < nHeaderSize
    · rw [messageScanner_short short] at taken
      contradiction
    obtain ⟨_, later, long⟩ := search_long short more
    rw [messageScanner_long short] at taken
    rw [messageScanner_long (by rwa [later]), later]
    exact processHeader_append (Nat.not_lt.mp short) taken more
  wait_append := by
    intro vRecv left waits more
    by_cases short : (search (pchMessageStart fTestNet) vRecv).length < nHeaderSize
    · -- The bytes dropped hold no start of a message, whatever follows.
      rw [messageScanner_short short] at waits
      cases waits
      have fits : (pchMessageStart fTestNet).length ≤ nHeaderSize := by
        rw [length_pchMessageStart]
        decide
      have later := length_search_append_lt short fits more
      have inside := (search_suffix (pchMessageStart fTestNet) (vRecv ++ more)).length_le
      have drops : vRecv.drop (vRecv.length - nHeaderSize) ++ more =
          (vRecv ++ more).drop (vRecv.length - nHeaderSize) := by
        rw [List.drop_append_of_le_length (Nat.sub_le _ _)]
      have same : search (pchMessageStart fTestNet)
          ((vRecv ++ more).drop (vRecv.length - nHeaderSize)) =
            search (pchMessageStart fTestNet) (vRecv ++ more) := by
        apply search_drop
        rw [List.length_append] at inside ⊢
        omega
      rw [drops]
      by_cases waiting : (search (pchMessageStart fTestNet) (vRecv ++ more)).length < nHeaderSize
      · rw [messageScanner_short waiting, messageScanner_short (by rwa [same]), List.drop_drop]
        congr 2
        simp only [List.length_drop, List.length_append]
        omega
      · rw [messageScanner_long waiting, messageScanner_long (by rwa [same]), same]
    · obtain ⟨here, later, long⟩ := search_long short more
      have again := search_eq_self (here.trans (List.prefix_append _ more))
      rw [messageScanner_long short] at waits
      cases processHeader_wait waits
      rw [messageScanner_long (by rwa [again]), again, messageScanner_long (by rwa [later]), later]

private theorem keepHeader_eq {vRecv : List UInt8} (small : vRecv.length < 2 ^ 31) :
    keepHeader vRecv = vRecv.drop (vRecv.length - nHeaderSize) := by
  have size : (Int32.ofNat vRecv.length).toInt = vRecv.length := by
    rw [Int32.toInt_ofNat_of_lt small]
  rw [keepHeader, size]
  split_ifs with long
  · rfl
  · rw [Nat.sub_eq_zero_of_le (by omega), List.drop_zero]

private theorem processRound_eq_step {vRecv : List UInt8} (small : vRecv.length < 2 ^ 31) :
    processRound crypto fTestNet keepHeader vRecv =
      (messageScanner crypto fTestNet).step vRecv := by
  simp only [messageScanner, processRound, keepHeader_eq small]

end Scan

/-! ## Runs -/

section Run

variable {σ : Type} {crypto : Crypto} {fTestNet : Bool} {handler : Handler σ}

private theorem processLoop_of_full {node : σ} {vRecv : List UInt8}
    (full : handler.sendBufferFull node = true) :
    (processLoop crypto fTestNet handler node vRecv).full = true := by
  rw [processLoop, if_pos full]

private theorem processLoop_of_wait {node : σ} {vRecv left : List UInt8}
    (room : handler.sendBufferFull node = false)
    (waits : processRound crypto fTestNet keepHeader vRecv = .wait left) :
    processLoop crypto fTestNet handler node vRecv =
      { node, vRecv := left, dispatched := [], full := false } := by
  rw [processLoop, if_neg (by simp [room])]
  split <;> simp_all

private theorem processLoop_of_skip {node : σ} {vRecv rest : List UInt8}
    (room : handler.sendBufferFull node = false)
    (skips : processRound crypto fTestNet keepHeader vRecv = .take none rest) :
    processLoop crypto fTestNet handler node vRecv =
      processLoop crypto fTestNet handler node rest := by
  rw [processLoop, if_neg (by simp [room])]
  split <;> simp_all

private theorem processLoop_of_message {node : σ} {vRecv rest : List UInt8} {message : Message}
    (room : handler.sendBufferFull node = false)
    (takes : processRound crypto fTestNet keepHeader vRecv = .take (some message) rest) :
    processLoop crypto fTestNet handler node vRecv =
      { processLoop crypto fTestNet handler (handler.processMessage node message) rest with
        dispatched := message ::
          (processLoop crypto fTestNet handler (handler.processMessage node message)
            rest).dispatched } := by
  rw [processLoop, if_neg (by simp [room])]
  split <;> simp_all

/-- A call that the send buffer does not stop does what the scanner does. -/
private theorem processLoop_eq_scan {node : σ} {vRecv : List UInt8} {pass : Pass σ}
    (small : vRecv.length < 2 ^ 31) (called : processLoop crypto fTestNet handler node vRecv = pass)
    (room : pass.full = false) :
    (messageScanner crypto fTestNet).scan vRecv = (pass.dispatched, pass.vRecv) := by
  induction vRecv using (messageScanner crypto fTestNet).induction generalizing node pass with
  | wait waits =>
      cases blocked : handler.sendBufferFull node with
      | true =>
          rw [← called, processLoop_of_full blocked] at room
          contradiction
      | false =>
          rw [processLoop_of_wait blocked ((processRound_eq_step small).trans waits)] at called
          rw [← called, Scanner.scan_of_wait waits]
  | @take vRecv frame rest takes induction =>
      cases blocked : handler.sendBufferFull node with
      | true =>
          rw [← called, processLoop_of_full blocked] at room
          contradiction
      | false =>
          have shorter := (messageScanner crypto fTestNet).shrinks takes
          have round := (processRound_eq_step small).trans takes
          rw [Scanner.scan_of_take takes]
          cases frame with
          | none =>
              rw [processLoop_of_skip blocked round] at called
              rw [induction (by omega) called room]
              rfl
          | some message =>
              rw [processLoop_of_message blocked round] at called
              rw [← called] at room ⊢
              rw [induction (by omega) rfl room]
              rfl

theorem processMessages_eq_scan {node : σ} {vRecv : List UInt8} {pass : Pass σ}
    (small : vRecv.length < 2 ^ 31)
    (called : processMessages crypto fTestNet handler node vRecv = pass)
    (room : pass.full = false) :
    (messageScanner crypto fTestNet).scan vRecv = (pass.dispatched, pass.vRecv) := by
  rw [processMessages] at called
  split_ifs at called with empty
  · rw [List.isEmpty_iff] at empty
    rw [← called, empty]
    exact Scanner.scan_of_wait rfl
  · exact processLoop_eq_scan small called room

/-- The whole stream arrives at once. -/
theorem ReceiverRun.atOnce {limit : Nat} {stream : List UInt8} (node : σ)
    (small : stream.length < limit) :
    ReceiverRun crypto fTestNet handler limit stream { node, vRecv := stream, dispatched := [] } :=
  (ReceiverRun.start node).receive stream small

/-- The stream arrives in two chunks, with a call of `ProcessMessages` between them. -/
theorem ReceiverRun.inTwo {limit : Nat} {front back : List UInt8} {node : σ} {pass : Pass σ}
    (small : front.length < limit)
    (called : processMessages crypto fTestNet handler node front = pass)
    (room : pass.full = false) (fits : (pass.vRecv ++ back).length < limit) :
    ReceiverRun crypto fTestNet handler limit (front ++ back)
      { node := pass.node, vRecv := pass.vRecv ++ back, dispatched := pass.dispatched } :=
  ((ReceiverRun.atOnce node small).process called room).receive back fits

/-- In a run the node has passed on what the scanner took off the stream so far. -/
theorem ReceiverRun.taken {stream : List UInt8} {receiver : Receiver σ}
    (run : ReceiverRun crypto fTestNet handler (2 ^ 31) stream receiver) :
    receiver.vRecv.length < 2 ^ 31 ∧
      (messageScanner crypto fTestNet).Taken stream receiver.dispatched receiver.vRecv := by
  induction run with
  | start node => exact ⟨Nat.two_pow_pos 31, Scanner.taken_nil _ _⟩
  | receive chunk _ small induction =>
      exact ⟨small, induction.2.append messageScanner_resumable chunk⟩
  | @process stream receiver pass _ called room induction =>
      obtain ⟨small, taken⟩ := induction
      have scanned := processMessages_eq_scan small called room
      have shorter := (messageScanner crypto fTestNet).length_scan_le receiver.vRecv
      have later := taken.scan messageScanner_resumable
      rw [scanned] at shorter later
      exact ⟨shorter.trans_lt small, later⟩
  | other node _ induction => exact induction

end Run

/-- A node that ignores every message. -/
def idleHandler : Handler Unit where
  processMessage _ _ := ()
  sendBufferFull _ := false

theorem idleHandler_full (crypto : Crypto) (fTestNet : Bool) (vRecv : List UInt8) :
    (processMessages crypto fTestNet idleHandler () vRecv).full = false := by
  rw [processMessages]
  split_ifs with empty
  · rfl
  clear empty
  induction size : vRecv.length using Nat.strongRecOn generalizing vRecv with
  | ind size induction =>
      cases round : processRound crypto fTestNet keepHeader vRecv with
      | wait left => rw [processLoop_of_wait rfl round]
      | take frame rest =>
          have shorter := processRound_shrinks round
          cases frame with
          | none =>
              rw [processLoop_of_skip rfl round]
              exact induction rest.length (by omega) rest rfl
          | some message =>
              rw [processLoop_of_message rfl round]
              exact induction rest.length (by omega) rest rfl

/-- A message in 25 bytes. -/
def framedMessage : List UInt8 :=
  { CMessageHeader.ofCommand true [0x61] 1 with nChecksum := 7 }.write ++ [7]

private theorem search_zeros (fTestNet : Bool) (count : Nat) :
    search (pchMessageStart fTestNet) (List.replicate count 0) = [] := by
  induction count with
  | zero => rfl
  | succ count induction =>
      have absent : ¬pchMessageStart fTestNet <+: 0 :: List.replicate count 0 := by
        intro here
        cases fTestNet <;> exact absurd (List.cons_prefix_cons.mp here).1 (by decide)
      rw [List.replicate_succ, search_cons, if_neg absent, induction]

private theorem process_zeros {count : Nat} (positive : 0 < count) :
    processMessages sampleCrypto true idleHandler () (List.replicate count 0) =
      { node := ()
        vRecv := keepHeader (List.replicate count 0)
        dispatched := []
        full := false } := by
  have round : processRound sampleCrypto true keepHeader (List.replicate count 0) =
      .wait (keepHeader (List.replicate count 0)) := by
    simp only [processRound, search_zeros]
    rfl
  rw [processMessages, if_neg (by simpa using Nat.ne_of_gt positive),
    processLoop_of_wait rfl round]

private theorem keepHeader_zeros {count : Nat} (more : nHeaderSize ≤ count)
    (small : count < 2 ^ 31) :
    keepHeader (List.replicate count 0) = List.replicate nHeaderSize 0 := by
  rw [keepHeader_eq (by simpa using small), List.length_replicate, List.drop_replicate]
  congr 1
  omega

private theorem keepHeader_zeros_large {count : Nat} (large : count = 2 ^ 31) :
    keepHeader (List.replicate count 0) = List.replicate count 0 := by
  subst large
  rw [keepHeader, List.length_replicate, if_neg (by decide)]

end FooCoin

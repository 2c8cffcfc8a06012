import FooCoin.Library.Simulation
import FooCoin.Library.Stateful

/-!
# Streams in memory

`CDataStream` keeps the bytes that were already read until the buffer is cleared, and a position
behind them.  Reading and erasing at the front advance the position, inserting at the front moves it
back where there is room, and reaching the end clears the buffer.
-/

namespace FooCoin

open Function Simulation Stateful

/-- `std::ios::badbit`. -/
def badbit : UInt16 := 1

/-- `std::ios::failbit`. -/
def failbit : UInt16 := 4

/-- How an operation on a stream ends without a result. -/
inductive StreamFailure
  /-- A failed assertion. -/
  | assertion
  /-- `std::ios_base::failure` with its text. -/
  | failure (psz : String)
  deriving DecidableEq

/-- `CDataStream`. -/
structure CDataStream where
  vch : List UInt8
  nReadPos : UInt32
  state : UInt16
  exceptmask : UInt16
  deriving DecidableEq

namespace CDataStream

/-- The constructor from bytes, with `Init`. -/
def ofBytes (vchIn : List UInt8) : CDataStream where
  vch := vchIn
  nReadPos := 0
  state := 0
  exceptmask := badbit ||| failbit

/-- `str`, the bytes from `begin` to `end`. -/
def str (s : CDataStream) : List UInt8 := s.vch.drop s.nReadPos.toNat

/-- `size`. -/
def size (s : CDataStream) : Nat := s.vch.length - s.nReadPos.toNat

/-- `resize`. -/
def resize (n : Nat) (c : UInt8) (s : CDataStream) : CDataStream :=
  let n := n + s.nReadPos.toNat
  { s with vch := s.vch.take n ++ List.replicate (n - s.vch.length) c }

/-- `clear`. -/
def clear (s : CDataStream) : CDataStream := { s with vch := [], nReadPos := 0 }

/-- `vch.insert` at `begin`. -/
def insertVch (first : List UInt8) (s : CDataStream) : CDataStream :=
  { s with vch := s.vch.take s.nReadPos.toNat ++ (first ++ s.vch.drop s.nReadPos.toNat) }

/-- `insert` of a character at `begin`. -/
def insertChar (x : UInt8) (s : CDataStream) : CDataStream := s.insertVch [x]

/-- `insert` of several equal characters at `begin`. -/
def insertFill (n : Nat) (x : UInt8) (s : CDataStream) : CDataStream :=
  s.insertVch (List.replicate n x)

/-- `insert` of a range at `begin`. -/
def insertRange (first : List UInt8) (s : CDataStream) : CDataStream :=
  if UInt32.ofNat first.length ≤ s.nReadPos then
    let nReadPos := s.nReadPos - UInt32.ofNat first.length
    { s with
      nReadPos
      vch := s.vch.take nReadPos.toNat ++
        (first ++ s.vch.drop (nReadPos.toNat + first.length)) }
  else s.insertVch first

/-- `erase` of the character at `begin`. -/
def eraseFront (s : CDataStream) : CDataStream :=
  let nReadPos := s.nReadPos + 1
  if s.vch.length ≤ nReadPos.toNat then s.clear else { s with nReadPos }

/-- `erase` from `begin` on, up to some characters further or to the end. -/
def eraseRange (count : Nat) (s : CDataStream) : CDataStream :=
  let last := min (s.nReadPos.toNat + count) s.vch.length
  if last = s.vch.length then s.clear else { s with nReadPos := UInt32.ofNat last }

/-- `Compact`. -/
def compact (s : CDataStream) : CDataStream :=
  { s with vch := s.vch.drop s.nReadPos.toNat, nReadPos := 0 }

/-- `setstate`. -/
def setstate (bits : UInt16) (psz : String) : Action StreamFailure CDataStream := fun s =>
  let s := { s with state := s.state ||| bits }
  if s.state &&& s.exceptmask ≠ 0 then (.error (.failure psz), s) else (.ok (), s)

/-- `read`, with the bytes at `pch`. -/
def read (nSize : Int) (s : CDataStream) : Except StreamFailure (List UInt8) × CDataStream :=
  if nSize < 0 then (.error .assertion, s)
  else
    let nReadPosNext := s.nReadPos + UInt32.ofInt nSize
    if s.vch.length ≤ nReadPosNext.toNat then
      if s.vch.length < nReadPosNext.toNat then
        match s.setstate failbit "CDataStream::read() : end of data" with
        | (.error failure, s) => (.error failure, s)
        | (.ok (), s) => (.ok (s.str ++ List.replicate (nSize.toNat - s.size) 0), s.clear)
      else (.ok (s.str.take nSize.toNat), s.clear)
    else (.ok (s.str.take nSize.toNat), { s with nReadPos := nReadPosNext })

/-- `ignore`. -/
def ignore (nSize : Int) : Action StreamFailure CDataStream := fun s =>
  if nSize < 0 then (.error .assertion, s)
  else
    let nReadPosNext := s.nReadPos + UInt32.ofInt nSize
    if s.vch.length ≤ nReadPosNext.toNat then
      if s.vch.length < nReadPosNext.toNat then
        match s.setstate failbit "CDataStream::ignore() : end of data" with
        | (.error failure, s) => (.error failure, s)
        | (.ok (), s) => (.ok (), s.clear)
      else (.ok (), s.clear)
    else (.ok (), { s with nReadPos := nReadPosNext })

/-- `write` of the first bytes at `pch`. -/
def write (pch : List UInt8) (nSize : Int) : Action StreamFailure CDataStream := fun s =>
  if nSize < 0 then (.error .assertion, s)
  else (.ok (), { s with vch := s.vch ++ pch.take nSize.toNat })

/-- `operator+=`. -/
def addAssign (b s : CDataStream) : CDataStream := { s with vch := s.vch ++ b.str }

/-- `operator<<` of a stream: its `Serialize` writes to this one. -/
def append (b : CDataStream) : Action StreamFailure CDataStream := fun s =>
  if b.vch ≠ [] then s.write b.vch (Int.bmod b.vch.length (2 ^ 32)) else (.ok (), s)

end CDataStream

/-! ## Operations on several streams -/

/-- An operation on one of several streams, with sizes that an `int` can hold. -/
inductive StreamOp (ι : Type)
  | write (i : ι) (pch : List UInt8) (small : pch.length < 2 ^ 31)
  | read (i : ι) (nSize : Nat) (small : nSize < 2 ^ 31)
  | ignore (i : ι) (nSize : Nat) (small : nSize < 2 ^ 31)
  | insertChar (i : ι) (x : UInt8)
  | insertFill (i : ι) (n : Nat) (x : UInt8)
  | insertRange (i : ι) (first : List UInt8)
  | eraseFront (i : ι)
  | eraseRange (i : ι) (count : Nat)
  | clear (i : ι)
  | resize (i : ι) (n : Nat) (c : UInt8)
  | compact (i : ι)
  | addAssign (i j : ι) (other : i ≠ j)
  | append (i j : ι) (other : i ≠ j)

namespace StreamOp

variable {ι : Type} [DecidableEq ι]

/-- An action on one of the streams, which returns no bytes. -/
def act (i : ι) (action : Action StreamFailure CDataStream) (streams : ι → CDataStream) :
    Option (List UInt8) × (ι → CDataStream) :=
  let (result, s) := action (streams i)
  (result.toOption.map fun _ => [], update streams i s)

/-- A change of one of the streams. -/
def change (i : ι) (next : CDataStream → CDataStream) (streams : ι → CDataStream) :
    Option (List UInt8) × (ι → CDataStream) :=
  (some [], update streams i (next (streams i)))

/-- The bytes that an operation on the streams returns, `none` where it throws, and the streams
after it. -/
def step (op : StreamOp ι) (streams : ι → CDataStream) :
    Option (List UInt8) × (ι → CDataStream) :=
  match op with
  | write i pch _ => act i (CDataStream.write pch pch.length) streams
  | read i nSize _ =>
      let (result, s) := (streams i).read nSize
      (result.toOption, update streams i s)
  | ignore i nSize _ => act i (CDataStream.ignore nSize) streams
  | insertChar i x => change i (.insertChar x) streams
  | insertFill i n x => change i (.insertFill n x) streams
  | insertRange i first => change i (.insertRange first) streams
  | eraseFront i => change i .eraseFront streams
  | eraseRange i count => change i (.eraseRange count) streams
  | clear i => change i .clear streams
  | resize i n c => change i (.resize n c) streams
  | compact i => change i .compact streams
  | addAssign i j _ => change i (.addAssign (streams j)) streams
  | append i j _ => act i (CDataStream.append (streams j)) streams

/-- The same operation on plain queues of bytes. -/
def queueStep (op : StreamOp ι) (queues : ι → List UInt8) :
    Option (List UInt8) × (ι → List UInt8) :=
  let set (i : ι) (change : List UInt8 → List UInt8) :=
    (some ([] : List UInt8), update queues i (change (queues i)))
  match op with
  | write i pch _ => set i (· ++ pch)
  | read i nSize _ =>
      if nSize ≤ (queues i).length then
        (some ((queues i).take nSize), update queues i ((queues i).drop nSize))
      else (none, queues)
  | ignore i nSize _ =>
      if nSize ≤ (queues i).length then set i (·.drop nSize) else (none, queues)
  | insertChar i x => set i (x :: ·)
  | insertFill i n x => set i (List.replicate n x ++ ·)
  | insertRange i first => set i (first ++ ·)
  | eraseFront i => set i (·.tail)
  | eraseRange i count => set i (·.drop count)
  | clear i => set i fun _ => []
  | resize i n c => set i fun queue => queue.take n ++ List.replicate (n - queue.length) c
  | compact i => set i id
  | addAssign i j _ | append i j _ => set i (· ++ queues j)

/-- No stream with read bytes is appended, nor one whose size is no `int`, and no position leaves
the range of an `unsigned int`. -/
def Fits (op : StreamOp ι) (streams : ι → CDataStream) : Prop :=
  match op with
  | read i nSize _ | ignore i nSize _ => (streams i).nReadPos.toNat + nSize < 2 ^ 32
  | insertRange i first =>
      first.length < 2 ^ 32 ∨ (streams i).nReadPos.toNat < first.length % 2 ^ 32
  | eraseFront i => (streams i).nReadPos.toNat + 1 < 2 ^ 32
  | eraseRange i count =>
      (streams i).nReadPos.toNat + count < 2 ^ 32 ∨ (streams i).size ≤ count
  | append _ j _ => (streams j).nReadPos = 0 ∧ (streams j).vch.length < 2 ^ 31
  | _ => True

instance (op : StreamOp ι) (streams : ι → CDataStream) : Decidable (op.Fits streams) :=
  match op with
  | read .. | ignore .. | eraseFront _ => inferInstanceAs (Decidable (_ < _))
  | insertRange .. | eraseRange .. => inferInstanceAs (Decidable (_ ∨ _))
  | append .. => inferInstanceAs (Decidable (_ ∧ _))
  | write .. | insertChar .. | insertFill .. | clear _ | resize .. | compact _ | addAssign .. =>
      inferInstanceAs (Decidable True)

end StreamOp

/-! ## One stream and its queue -/

namespace CDataStream

/-- The unread bytes of a stream that throws at the end of its data. -/
structure Holds (s : CDataStream) (queue : List UInt8) : Prop where
  bound : s.nReadPos.toNat ≤ s.vch.length
  throws : s.exceptmask = badbit ||| failbit
  str_eq : s.str = queue

variable {s b : CDataStream} {queue other : List UInt8}

theorem holds_ofBytes (vchIn : List UInt8) : (ofBytes vchIn).Holds vchIn where
  bound := Nat.zero_le _
  throws := rfl
  str_eq := rfl

private theorem Holds.size_eq (holds : s.Holds queue) : s.size = queue.length := by
  rw [← holds.str_eq, str, List.length_drop, size]

/-- What a change of the buffer and the position leaves. -/
private theorem Holds.change (holds : s.Holds queue) {vch : List UInt8} {nReadPos : UInt32}
    (bound : nReadPos.toNat ≤ vch.length) (unread : vch.drop nReadPos.toNat = other) :
    Holds { s with vch, nReadPos } other where
  bound := bound
  throws := holds.throws
  str_eq := unread

private theorem Holds.clear (holds : s.Holds queue) : s.clear.Holds [] :=
  holds.change (Nat.zero_le _) rfl

private theorem Holds.insertVch (holds : s.Holds queue) (first : List UInt8) :
    (s.insertVch first).Holds (first ++ queue) := by
  have front : (s.vch.take s.nReadPos.toNat).length = s.nReadPos.toNat :=
    List.length_take_of_le holds.bound
  refine holds.change ?_ ?_
  · rw [List.length_append, front]
    omega
  · rw [List.drop_left' front, ← holds.str_eq, str]

private theorem Holds.insertRange (holds : s.Holds queue) {first : List UInt8}
    (fits : first.length < 2 ^ 32 ∨ s.nReadPos.toNat < first.length % 2 ^ 32) :
    (s.insertRange first).Holds (first ++ queue) := by
  have bound := holds.bound
  have length : (UInt32.ofNat first.length).toNat = first.length % 2 ^ 32 := UInt32.toNat_ofNat'
  rw [CDataStream.insertRange]
  split
  next inside =>
    have room : first.length % 2 ^ 32 ≤ s.nReadPos.toNat := by
      rwa [UInt32.le_iff_toNat_le, length] at inside
    have small : first.length % 2 ^ 32 = first.length := Nat.mod_eq_of_lt (by omega)
    have position : (s.nReadPos - UInt32.ofNat first.length).toNat =
        s.nReadPos.toNat - first.length := by
      rw [UInt32.toNat_sub_of_le _ _ inside, length, small]
    have front : (s.vch.take (s.nReadPos.toNat - first.length)).length =
        s.nReadPos.toNat - first.length := List.length_take_of_le (by omega)
    have back : s.nReadPos.toNat - first.length + first.length = s.nReadPos.toNat := by omega
    refine holds.change ?_ ?_
    · rw [position, List.length_append, front]
      omega
    · rw [position, List.drop_left' front, back, ← holds.str_eq, str]
  next => exact holds.insertVch first

private theorem toNat_add {n : Nat} (fits : s.nReadPos.toNat + n < 2 ^ 32) :
    (s.nReadPos + UInt32.ofInt n).toNat = s.nReadPos.toNat + n := by
  rw [UInt32.toNat_add, UInt32.ofInt, UInt32.toNat_ofNat']
  omega

private theorem Holds.eraseFront (holds : s.Holds queue)
    (fits : s.nReadPos.toNat + 1 < 2 ^ 32) : s.eraseFront.Holds queue.tail := by
  have next : (s.nReadPos + 1).toNat = s.nReadPos.toNat + 1 := @toNat_add s 1 fits
  rw [CDataStream.eraseFront]
  split
  next reached =>
    have short : queue.tail = [] := by
      rw [← holds.str_eq, str, List.tail_drop, List.drop_eq_nil_iff]
      omega
    rw [short]
    exact holds.clear
  next inside =>
    refine holds.change (Nat.le_of_not_le inside) ?_
    rw [next, ← holds.str_eq, str, List.tail_drop]

private theorem Holds.eraseRange (holds : s.Holds queue) {count : Nat}
    (fits : s.nReadPos.toNat + count < 2 ^ 32 ∨ s.size ≤ count) :
    (s.eraseRange count).Holds (queue.drop count) := by
  have bound := holds.bound
  rw [size] at fits
  rw [CDataStream.eraseRange]
  split
  next reached =>
    have short : queue.drop count = [] := by
      rw [← holds.str_eq, str, List.drop_drop, List.drop_eq_nil_iff]
      omega
    rw [short]
    exact holds.clear
  next inside =>
    have last : min (s.nReadPos.toNat + count) s.vch.length = s.nReadPos.toNat + count := by omega
    have position : (UInt32.ofNat (s.nReadPos.toNat + count)).toNat = s.nReadPos.toNat + count := by
      rw [UInt32.toNat_ofNat', Nat.mod_eq_of_lt (by omega)]
    rw [last]
    refine holds.change (by rw [position]; omega) ?_
    rw [position, ← holds.str_eq, str, List.drop_drop]

private theorem Holds.resize (holds : s.Holds queue) (n : Nat) (c : UInt8) :
    (s.resize n c).Holds (queue.take n ++ List.replicate (n - queue.length) c) := by
  have bound := holds.bound
  have size := holds.size_eq
  rw [CDataStream.size] at size
  refine holds.change ?_ ?_
  · rw [List.length_append, List.length_take, List.length_replicate]
    omega
  · have front : s.nReadPos.toNat ≤ (s.vch.take (n + s.nReadPos.toNat)).length := by
      rw [List.length_take]
      omega
    have fill : n + s.nReadPos.toNat - s.vch.length = n - queue.length := by omega
    rw [List.drop_append_of_le_length front, List.drop_take, Nat.add_sub_cancel, fill,
      ← holds.str_eq, str]

private theorem Holds.compact (holds : s.Holds queue) : s.compact.Holds queue :=
  holds.change (Nat.zero_le _) holds.str_eq

/-- Bytes behind the buffer are bytes behind the queue. -/
private theorem Holds.extend (holds : s.Holds queue) (back : List UInt8) :
    Holds { s with vch := s.vch ++ back } (queue ++ back) := by
  have bound := holds.bound
  refine holds.change ?_ ?_
  · rw [List.length_append]
    omega
  · rw [List.drop_append_of_le_length bound, ← holds.str_eq, str]

private theorem Holds.addAssign (holds : s.Holds queue) (b_holds : b.Holds other) :
    (b.addAssign s).Holds (queue ++ other) := by
  rw [← b_holds.str_eq]
  exact holds.extend b.str

private theorem Holds.write (holds : s.Holds queue) (pch : List UInt8) :
    (s.write pch pch.length).1 = .ok () ∧ (s.write pch pch.length).2.Holds (queue ++ pch) := by
  have nonneg : ¬(pch.length : Int) < 0 := by omega
  rw [CDataStream.write, if_neg nonneg, Int.toNat_natCast, List.take_length]
  exact ⟨rfl, holds.extend pch⟩

/-- `operator<<` copies the whole buffer of a stream below the limit of an `int`. -/
private theorem append_eq (s : CDataStream) (small : b.vch.length < 2 ^ 31) :
    b.append s = (.ok (), { s with vch := s.vch ++ b.vch }) := by
  have size : Int.bmod b.vch.length (2 ^ 32) = b.vch.length :=
    Int.bmod_eq_of_le (by omega) (by omega)
  have nonneg : ¬(b.vch.length : Int) < 0 := by omega
  rw [append, size]
  split
  next => rw [CDataStream.write, if_neg nonneg, Int.toNat_natCast, List.take_length]
  next empty => rw [not_not.mp empty, List.append_nil]

/-- `operator<<` appends what `operator+=` does exactly where nothing was read from the stream. -/
theorem append_eq_addAssign_iff (s : CDataStream) (b_holds : b.Holds other)
    (small : b.vch.length < 2 ^ 31) :
    (b.append s).2 = b.addAssign s ↔ b.nReadPos = 0 := by
  rw [append_eq s small, CDataStream.addAssign]
  constructor
  · intro same
    have bytes := congrArg (fun stream => stream.vch.length) same
    have bound := b_holds.bound
    simp only [List.length_append, str, List.length_drop] at bytes
    exact UInt32.toNat_inj.mp (by rw [UInt32.toNat_zero]; omega)
  · intro none
    rw [str, none]
    rfl

private theorem Holds.append (holds : s.Holds queue) (b_holds : b.Holds other)
    (unread : b.nReadPos = 0) (small : b.vch.length < 2 ^ 31) :
    (b.append s).1 = .ok () ∧ (b.append s).2.Holds (queue ++ other) := by
  rw [(append_eq_addAssign_iff s b_holds small).mpr unread, append_eq s small]
  exact ⟨rfl, holds.addAssign b_holds⟩

/-- A stream throws for its failure bit and keeps its contents. -/
private theorem Holds.setstate (holds : s.Holds queue) (psz : String) :
    (s.setstate failbit psz).1 = .error (.failure psz) ∧
      (s.setstate failbit psz).2.Holds queue := by
  have throws : (s.state ||| failbit) &&& (badbit ||| failbit) ≠ 0 := by
    intro clear
    have bit := congrArg (fun word : UInt16 => word.toBitVec.getLsbD 2) clear
    simp [badbit, failbit] at bit
  rw [CDataStream.setstate, if_pos (by simpa only [holds.throws] using throws)]
  exact ⟨rfl, holds.bound, holds.throws, holds.str_eq⟩

/-- `read` gives the first bytes of the queue, or throws where there are too few. -/
private theorem Holds.read (holds : s.Holds queue) {nSize : Nat}
    (fits : s.nReadPos.toNat + nSize < 2 ^ 32) :
    if nSize ≤ queue.length then
      (s.read nSize).1 = .ok (queue.take nSize) ∧ (s.read nSize).2.Holds (queue.drop nSize)
    else (∃ failure, (s.read nSize).1 = .error failure) ∧ (s.read nSize).2.Holds queue := by
  have nonneg : ¬(nSize : Int) < 0 := by omega
  have bound := holds.bound
  have size := holds.size_eq
  have next : (s.nReadPos + UInt32.ofInt nSize).toNat = s.nReadPos.toNat + nSize := toNat_add fits
  rw [CDataStream.size] at size
  rw [CDataStream.read, if_neg nonneg]
  simp only [next, Int.toNat_natCast, holds.str_eq]
  by_cases enough : nSize ≤ queue.length
  · rw [if_pos enough]
    by_cases whole : nSize = queue.length
    · have rest : queue.drop nSize = [] := List.drop_eq_nil_of_le whole.ge
      rw [if_pos (by omega), if_neg (by omega), rest]
      exact ⟨rfl, holds.clear⟩
    · rw [if_neg (by omega)]
      refine ⟨rfl, holds.change (by omega) ?_⟩
      rw [next, ← holds.str_eq, str, List.drop_drop]
  · obtain ⟨thrown, kept⟩ := holds.setstate "CDataStream::read() : end of data"
    rw [if_neg enough, if_pos (by omega), if_pos (by omega)]
    generalize s.setstate failbit "CDataStream::read() : end of data" = outcome at thrown kept
    obtain ⟨result, after⟩ := outcome
    obtain rfl := thrown
    exact ⟨⟨_, rfl⟩, kept⟩

/-- `ignore` changes the stream as `read` does and throws where it does. -/
private theorem ignore_eq_read (s : CDataStream) (nSize : Int) :
    (s.ignore nSize).2 = (s.read nSize).2 ∧
      (s.ignore nSize).1.toOption = (s.read nSize).1.toOption.map fun _ => () := by
  simp only [CDataStream.ignore, CDataStream.read, CDataStream.setstate]
  split_ifs <;> exact ⟨rfl, rfl⟩

/-! ## Runs -/

variable {ι : Type} [DecidableEq ι]

/-- Every stream holds its queue. -/
private def AllHold (streams : ι → CDataStream) (queues : ι → List UInt8) : Prop :=
  ∀ i, (streams i).Holds (queues i)

private theorem AllHold.update {streams : ι → CDataStream} {queues : ι → List UInt8}
    (hold : AllHold streams queues) (i : ι) (holds : s.Holds queue) :
    AllHold (update streams i s) (update queues i queue) := by
  intro other
  by_cases same : other = i
  · subst same
    rw [update_self, update_self]
    exact holds
  · rw [update_of_ne same, update_of_ne same]
    exact hold other

/-- A read or ignored range is dropped from the queue, or the operation throws and keeps it. -/
private theorem AllHold.advance {streams : ι → CDataStream} {queues : ι → List UInt8}
    (hold : AllHold streams queues) {i : ι} {nSize : Nat}
    (fits : (streams i).nReadPos.toNat + nSize < 2 ^ 32) :
    ((streams i).read nSize).1.toOption =
        (if nSize ≤ (queues i).length then some ((queues i).take nSize) else none) ∧
      AllHold (Function.update streams i ((streams i).read nSize).2)
        (if nSize ≤ (queues i).length then Function.update queues i ((queues i).drop nSize)
          else queues) := by
  have outcome := (hold i).read fits
  by_cases enough : nSize ≤ (queues i).length
  · rw [if_pos enough] at outcome
    rw [if_pos enough, if_pos enough, outcome.1]
    exact ⟨rfl, hold.update i outcome.2⟩
  · rw [if_neg enough] at outcome
    obtain ⟨⟨failure, thrown⟩, kept⟩ := outcome
    rw [if_neg enough, if_neg enough, thrown]
    have same := hold.update i kept
    rw [update_eq_self] at same
    exact ⟨rfl, same⟩

private theorem AllHold.act {streams : ι → CDataStream} {queues : ι → List UInt8}
    (hold : AllHold streams queues) {i : ι} {action : Action StreamFailure CDataStream}
    (done : (action (streams i)).1 = .ok ()) (holds : (action (streams i)).2.Holds queue) :
    (StreamOp.act i action streams).1 = some [] ∧
      AllHold (StreamOp.act i action streams).2 (Function.update queues i queue) := by
  refine ⟨?_, hold.update i holds⟩
  simp only [StreamOp.act, done]
  rfl

/-- Every operation within the limits does to the streams what it does to the queues. -/
private theorem step_refines (op : StreamOp ι) (streams : ι → CDataStream)
    (queues : ι → List UInt8) (hold : AllHold streams queues) (fits : op.Fits streams) :
    (op.step streams).1 = (op.queueStep queues).1 ∧
      AllHold (op.step streams).2 (op.queueStep queues).2 := by
  cases op with
  | write i pch small =>
      obtain ⟨done, holds⟩ := (hold i).write pch
      exact hold.act done holds
  | read i nSize small =>
      obtain ⟨result, after⟩ := hold.advance fits
      simp only [StreamOp.queueStep]
      by_cases enough : nSize ≤ (queues i).length
      · rw [if_pos enough] at result after ⊢
        exact ⟨result, after⟩
      · rw [if_neg enough] at result after ⊢
        exact ⟨result, after⟩
  | ignore i nSize small =>
      obtain ⟨result, after⟩ := hold.advance fits
      obtain ⟨same_stream, same_result⟩ := ignore_eq_read (streams i) nSize
      rw [← same_stream] at after
      simp only [StreamOp.queueStep, StreamOp.step, StreamOp.act, same_result, result]
      by_cases enough : nSize ≤ (queues i).length
      · rw [if_pos enough] at after
        rw [if_pos enough, if_pos enough]
        exact ⟨rfl, after⟩
      · rw [if_neg enough] at after
        rw [if_neg enough, if_neg enough]
        exact ⟨rfl, after⟩
  | insertChar i x => exact ⟨rfl, hold.update i ((hold i).insertVch [x])⟩
  | insertFill i n x => exact ⟨rfl, hold.update i ((hold i).insertVch _)⟩
  | insertRange i first => exact ⟨rfl, hold.update i ((hold i).insertRange fits)⟩
  | eraseFront i => exact ⟨rfl, hold.update i ((hold i).eraseFront fits)⟩
  | eraseRange i count => exact ⟨rfl, hold.update i ((hold i).eraseRange fits)⟩
  | clear i => exact ⟨rfl, hold.update i (hold i).clear⟩
  | resize i n c => exact ⟨rfl, hold.update i ((hold i).resize n c)⟩
  | compact i => exact ⟨rfl, hold.update i (hold i).compact⟩
  | addAssign i j other => exact ⟨rfl, hold.update i ((hold i).addAssign (hold j))⟩
  | append i j other =>
      obtain ⟨done, holds⟩ := (hold i).append (hold j) fits.1 fits.2
      exact hold.act done holds

/-- Two streams of which the second one is read, refilled at the front and appended to the first. -/
def sampleOps : List (StreamOp Bool) :=
  [.read true 2 (by decide), .insertRange true [7], .eraseFront true, .compact true,
    .append false true (by decide), .read false 5 (by decide)]

end CDataStream

end FooCoin

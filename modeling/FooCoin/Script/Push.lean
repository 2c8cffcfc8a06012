import FooCoin.Script.Bounds
import FooCoin.Script.FindAndDelete
import FooCoin.Script.Templates

/-!
# Building scripts

`operator<<` appends pushes, numbers and opcodes to a script, and `GetOp` reads them back, except
for a push behind which so many bytes stand that their number wraps around as a 32-bit word.  Pushed
values are what the evaluation of the script leaves on the stack, and pushed numbers are read
back.
-/

namespace FooCoin

open LittleEndian Op

/-- What is appended to a script. -/
inductive PushItem
  /-- `operator<<(const vector<unsigned char>&)`. -/
  | data (vch : Valtype)
  /-- `operator<<(int64)`. -/
  | number (n : Int64)
  /-- `operator<<(opcodetype)`. -/
  | operator (opcode : UInt8)
  deriving DecidableEq

/-- A number that `push_int64` encodes as an opcode. -/
def IsSmallNumber (n : Int64) : Prop := n.toInt = -1 ∨ 1 ≤ n.toInt ∧ n.toInt ≤ 16

instance (n : Int64) : Decidable (IsSmallNumber n) :=
  inferInstanceAs (Decidable (n.toInt = -1 ∨ 1 ≤ n.toInt ∧ n.toInt ≤ 16))

/-- `CScript::push_int64`. -/
def pushInt64 (n : Int64) : CScript :=
  if IsSmallNumber n then [UInt8.ofNat (n.toInt + ((OP_1 : Int) - 1)).toNat]
  else pushData (getvch n.toInt)

/-- The bytes that are appended. -/
def PushItem.write : PushItem → CScript
  | .data vch => pushData vch
  | .number n => pushInt64 n
  | .operator opcode => [opcode]

/-- The script built from the items. -/
def buildScript (items : List PushItem) : CScript := items.flatMap PushItem.write

/-- The opcode of a push. -/
def pushOpcode (size : Nat) : Nat :=
  if size < OP_PUSHDATA1 then size
  else if size ≤ 0xff then OP_PUSHDATA1
  else if size ≤ 0xffff then OP_PUSHDATA2
  else OP_PUSHDATA4

/-- The opcode and the data that an item stands for. -/
def PushItem.instruction : PushItem → Instr
  | .data vch => (pushOpcode vch.length, vch)
  | .number n =>
      if IsSmallNumber n then ((n.toInt + ((OP_1 : Int) - 1)).toNat, [])
      else (pushOpcode (getvch n.toInt).length, getvch n.toInt)
  | .operator opcode => (opcode.toNat, [])

/-- A vector shorter than 2^32, a number, or an opcode above `OP_PUSHDATA4`. -/
def PushItem.Valid : PushItem → Prop
  | .data vch => vch.length < 2 ^ 32
  | .number _ => True
  | .operator opcode => OP_PUSHDATA4 < opcode.toNat

/-- The instructions that `GetOp` reads up to the end of the script, `none` if it fails before. -/
def readScript : Nat → CScript → Option (List Instr)
  | _, [] => some []
  | 0, _ :: _ => none
  | fuel + 1, byte :: pc =>
      match getOp2 (byte :: pc) with
      | none => none
      | some (opcode, vch, rest) => (readScript fuel rest).map ((opcode, vch) :: ·)

example : readScript 8 (buildScript [.number 5, .data [1, 2], .operator 0xac]) =
    some [(0x55, []), (2, [1, 2]), (0xac, [])] := by decide

/-- Reading the script of the items gives them back and ends at its end. -/
def RoundTrips (items : List PushItem) : Prop :=
  ∀ fuel, (buildScript items).length ≤ fuel →
    readScript fuel (buildScript items) = some (items.map PushItem.instruction)

/-- The number of data bytes of an item. -/
def PushItem.dataSize : PushItem → Nat
  | .data vch => vch.length
  | .number n => if IsSmallNumber n then 0 else (getvch n.toInt).length
  | .operator _ => 0

/-- The number of bytes of the opcode and the size field of a push. -/
def pushHeader (size : Nat) : Nat :=
  if size < OP_PUSHDATA1 then 1 else if size ≤ 0xff then 2 else if size ≤ 0xffff then 3 else 5

/-- The number of bytes of an item. -/
def PushItem.size (item : PushItem) : Nat := pushHeader item.dataSize + item.dataSize

/-- The bytes from the data of every item on are enough for the data, as a 32-bit word. -/
def Counted32 : List PushItem → Prop
  | [] => True
  | item :: items =>
      item.dataSize ≤ (item.dataSize + (items.map PushItem.size).sum) % 2 ^ 32 ∧ Counted32 items

/-! ## Numbers -/

theorem setvch_positive {init : Valtype} {top : UInt8} (unsigned : top.toNat < 128) :
    setvch (init ++ [top]) = (ofLE (init ++ [top]) : Int) := by
  have low := ofLE_lt init
  have bound : ofLE (init ++ [top]) < 128 * 256 ^ init.length := by
    rw [ofLE_concat]
    calc ofLE init + 256 ^ init.length * top.toNat
        < 256 ^ init.length + 256 ^ init.length * top.toNat := by omega
      _ = (top.toNat + 1) * 256 ^ init.length := by ring
      _ ≤ 128 * 256 ^ init.length := Nat.mul_le_mul_right _ (by omega)
  simp only [setvch, List.length_append, List.length_singleton, Nat.add_sub_cancel]
  exact if_neg fun signed => absurd signed.2 (by omega)

private theorem setvch_negative {init : Valtype} {top : UInt8} (signed : 128 ≤ top.toNat) :
    setvch (init ++ [top]) =
      -((ofLE init + 256 ^ init.length * (top.toNat - 128) : Nat) : Int) := by
  have split : ofLE (init ++ [top]) =
      ofLE init + 256 ^ init.length * (top.toNat - 128) + 128 * 256 ^ init.length := by
    rw [ofLE_concat, add_assoc, mul_comm 128, ← mul_add]
    congr 2
    omega
  simp only [setvch, List.length_append, List.length_singleton, Nat.add_sub_cancel, split]
  rw [if_pos ⟨by simp, by omega⟩]

/-- The bytes of a magnitude stand for it. -/
theorem ofLE_magnitudeBytes {fuel value : Nat} (enough : value ≤ fuel) :
    ofLE (magnitudeBytes fuel value) = value := by
  induction fuel generalizing value with
  | zero =>
      rw [Nat.le_zero.mp enough]
      rfl
  | succ fuel induction =>
      by_cases zero : value = 0
      · simp [magnitudeBytes, zero, ofLE]
      · have shorter := @induction (value / 256) (by omega)
        simp only [magnitudeBytes, zero, if_false, ofLE, shorter]
        rw [UInt8.toNat_ofNat', Nat.mod_eq_of_lt (Nat.mod_lt _ (by norm_num))]
        omega

/-- A number is read back from its bytes. -/
theorem setvch_getvch (bn : Int) : setvch (getvch bn) = bn := by
  have magnitude := @ofLE_magnitudeBytes bn.natAbs bn.natAbs le_rfl
  simp only [getvch]
  generalize magnitudeBytes bn.natAbs bn.natAbs = bytes at magnitude ⊢
  cases last : bytes.getLast? with
  | none =>
      rw [List.getLast?_eq_none_iff.mp last, ofLE] at magnitude
      have zero : bn = 0 := by omega
      rw [zero]
      rfl
  | some top =>
      obtain ⟨init, rfl⟩ := List.getLast?_eq_some_iff.mp last
      have top_lt := top.toNat_lt
      simp only [List.dropLast_concat, UInt8.le_iff_toNat_le]
      by_cases high : (0x80 : UInt8).toNat ≤ top.toNat
      · rw [if_pos high]
        by_cases negative : bn < 0
        · rw [if_pos negative, setvch_negative (by decide), magnitude]
          have sign : (0x80 : UInt8).toNat - 128 = 0 := rfl
          rw [sign]
          omega
        · rw [if_neg negative, setvch_positive (by decide), ofLE_concat, magnitude]
          have sign : (0 : UInt8).toNat = 0 := rfl
          rw [sign]
          omega
      · rw [if_neg high]
        have small : top.toNat < 128 := Nat.lt_of_not_le high
        by_cases negative : bn < 0
        · have signed : (top ||| 0x80).toNat = top.toNat + 128 := by
            have bits : 128 + top.toNat = 128 ||| top.toNat :=
              @Nat.two_pow_add_eq_or_of_lt 7 _ small 1
            rw [UInt8.toNat_or, Nat.or_comm, add_comm, bits]
            rfl
          rw [if_pos negative, setvch_negative (by omega), signed, Nat.add_sub_cancel,
            ← ofLE_concat, magnitude]
          omega
        · have unsigned : top ||| 0 = top := by simp
          rw [if_neg negative, unsigned, setvch_positive small, magnitude]
          omega

/-! ## One item -/

private theorem getOp2_of_operandSize {byte : UInt8} {pc rest : CScript} {bytes : Valtype}
    (push : byte.toNat ≤ OP_PUSHDATA4)
    (sized : operandSize byte.toNat pc = some (bytes.length, bytes ++ rest)) :
    getOp2 (byte :: pc) =
      if (bytes.length + rest.length) % 2 ^ 32 < bytes.length then none
      else some (byte.toNat, bytes, rest) := by
  simp only [getOp2, push, if_true, sized, List.length_append, List.take_left, List.drop_left]

private theorem toNat_byte {n : Nat} (small : n < 256) : (UInt8.ofNat n).toNat = n := by
  rw [UInt8.toNat_ofNat', Nat.mod_eq_of_lt small]

/-- A push is read back unless the bytes from its data on are too few as a 32-bit word. -/
theorem getOp2_pushData {bytes : Valtype} (small : bytes.length < 2 ^ 32) (rest : CScript) :
    getOp2 (pushData bytes ++ rest) =
      if (bytes.length + rest.length) % 2 ^ 32 < bytes.length then none
      else some (pushOpcode bytes.length, bytes, rest) := by
  by_cases direct : bytes.length < OP_PUSHDATA1
  · have bound : bytes.length < 76 := direct
    have opcode := @toNat_byte bytes.length (by omega)
    have sized : operandSize (UInt8.ofNat bytes.length).toNat (bytes ++ rest) =
        some (bytes.length, bytes ++ rest) := by
      rw [opcode, operandSize, if_pos direct]
    have read := getOp2_of_operandSize (by rw [opcode]; simp only [OP_PUSHDATA4]; omega) sized
    rw [opcode] at read
    rwa [pushData, pushOpcode, if_pos direct, if_pos direct, List.cons_append]
  rw [pushData, pushOpcode, if_neg direct, if_neg direct]
  by_cases one : bytes.length ≤ 0xff
  · have size := @toNat_byte bytes.length (by omega)
    have sized : operandSize (UInt8.ofNat OP_PUSHDATA1).toNat
        (UInt8.ofNat bytes.length :: (bytes ++ rest)) = some (bytes.length, bytes ++ rest) := by
      have opcode : (UInt8.ofNat OP_PUSHDATA1).toNat = OP_PUSHDATA1 := rfl
      rw [opcode]
      simp [operandSize, ofLE, size]
    rw [if_pos one, if_pos one]
    exact getOp2_of_operandSize (by decide) sized
  rw [if_neg one, if_neg one]
  by_cases two : bytes.length ≤ 0xffff
  · have size : ofLE (leBytes 2 bytes.length) = bytes.length := ofLE_leBytes_of_lt (by omega)
    have sized : operandSize (UInt8.ofNat OP_PUSHDATA2).toNat
        (leBytes 2 bytes.length ++ (bytes ++ rest)) = some (bytes.length, bytes ++ rest) := by
      have opcode : (UInt8.ofNat OP_PUSHDATA2).toNat = OP_PUSHDATA2 := rfl
      have field : ¬2 + (bytes.length + rest.length) ≤ 1 := by omega
      rw [opcode]
      simp [operandSize, OP_PUSHDATA1, OP_PUSHDATA2, size, field]
    rw [if_pos two, if_pos two, List.cons_append, List.append_assoc]
    exact getOp2_of_operandSize (by decide) sized
  · have size : ofLE (leBytes 4 bytes.length) = bytes.length := ofLE_leBytes_of_lt (by omega)
    have sized : operandSize (UInt8.ofNat OP_PUSHDATA4).toNat
        (leBytes 4 bytes.length ++ (bytes ++ rest)) = some (bytes.length, bytes ++ rest) := by
      have opcode : (UInt8.ofNat OP_PUSHDATA4).toNat = OP_PUSHDATA4 := rfl
      rw [opcode]
      simp [operandSize, OP_PUSHDATA1, OP_PUSHDATA2, OP_PUSHDATA4, size]
    rw [if_neg two, if_neg two, List.cons_append, List.append_assoc]
    exact getOp2_of_operandSize (by decide) sized

private theorem getOp2_operator {byte : UInt8} (operator : OP_PUSHDATA4 < byte.toNat)
    (rest : CScript) : getOp2 (byte :: rest) = some (byte.toNat, [], rest) := by
  simp only [getOp2]
  rw [if_neg (Nat.not_le.mpr operator)]

private theorem natAbs_lt (n : Int64) : n.toInt.natAbs < 256 ^ 8 := by
  have least := n.le_toInt
  have greatest := n.toInt_lt
  norm_num at least greatest ⊢
  omega

private theorem smallNumber_opcode {n : Int64} (small : IsSmallNumber n) :
    OP_PUSHDATA4 < (n.toInt + ((OP_1 : Int) - 1)).toNat ∧
      (n.toInt + ((OP_1 : Int) - 1)).toNat < 256 := by
  simp only [IsSmallNumber] at small
  simp only [OP_PUSHDATA4, OP_1]
  omega

private theorem length_pushData (bytes : Valtype) :
    (pushData bytes).length = pushHeader bytes.length + bytes.length := by
  unfold pushData pushHeader
  split_ifs <;> simp only [List.length_cons, List.length_append, length_leBytes] <;> omega

theorem length_write (item : PushItem) : item.write.length = item.size := by
  cases item with
  | data vch => exact length_pushData vch
  | operator opcode => rfl
  | number n =>
      by_cases small : IsSmallNumber n
      · simp [PushItem.write, pushInt64, PushItem.size, PushItem.dataSize, small, pushHeader,
          OP_PUSHDATA1]
      · simpa [PushItem.write, pushInt64, PushItem.size, PushItem.dataSize, small]
          using length_pushData (getvch n.toInt)

theorem length_buildScript (items : List PushItem) :
    (buildScript items).length = (items.map PushItem.size).sum := by
  rw [buildScript, List.length_flatMap]
  exact congrArg List.sum (List.map_congr_left fun item _ => length_write item)

/-- What is read where an item was appended. -/
theorem getOp2_write {item : PushItem} (valid : item.Valid) (rest : CScript) :
    getOp2 (item.write ++ rest) =
      if (item.dataSize + rest.length) % 2 ^ 32 < item.dataSize then none
      else some (item.instruction.1, item.instruction.2, rest) := by
  cases item with
  | data vch => exact getOp2_pushData valid rest
  | operator opcode => exact getOp2_operator valid rest
  | number n =>
      by_cases small : IsSmallNumber n
      · obtain ⟨above, below⟩ := smallNumber_opcode small
        have byte := toNat_byte below
        have read := getOp2_operator (byte.symm ▸ above) rest
        rw [byte] at read
        simpa [PushItem.write, pushInt64, PushItem.instruction, PushItem.dataSize, small] using read
      · have size : (getvch n.toInt).length < 2 ^ 32 := by
          have short := length_getvch_le (natAbs_lt n)
          omega
        simpa only [PushItem.write, pushInt64, PushItem.instruction, PushItem.dataSize, small,
          if_false] using getOp2_pushData size rest

/-! ## Reading a script -/

private theorem pushHeader_pos (size : Nat) : 0 < pushHeader size := by
  unfold pushHeader
  split_ifs <;> omega

private theorem readScript_write {item : PushItem} (valid : item.Valid) (rest : CScript)
    (fuel : Nat) :
    readScript (fuel + 1) (item.write ++ rest) =
      if (item.dataSize + rest.length) % 2 ^ 32 < item.dataSize then none
      else (readScript fuel rest).map (item.instruction :: ·) := by
  have read := getOp2_write valid rest
  have nonempty := length_write item
  have positive := pushHeader_pos item.dataSize
  cases written : item.write with
  | nil =>
      rw [written, List.length_nil, PushItem.size] at nonempty
      omega
  | cons byte bytes =>
      rw [written, List.cons_append] at read
      simp only [List.cons_append, readScript, read]
      split_ifs <;> rfl

private theorem readScript_iff {items : List PushItem} (valid : ∀ item ∈ items, item.Valid)
    {fuel : Nat} (enough : (buildScript items).length ≤ fuel) :
    readScript fuel (buildScript items) = some (items.map PushItem.instruction) ↔
      Counted32 items := by
  induction items generalizing fuel with
  | nil => cases fuel <;> simp [buildScript, readScript, Counted32]
  | cons item items induction =>
      obtain ⟨here, others⟩ := List.forall_mem_cons.mp valid
      have split : buildScript (item :: items) = item.write ++ buildScript items := rfl
      have positive := pushHeader_pos item.dataSize
      rw [split, List.length_append, length_write, PushItem.size] at enough
      obtain ⟨fuel, rfl⟩ : ∃ fewer, fuel = fewer + 1 := ⟨fuel - 1, by omega⟩
      have later := @induction others fuel (by omega)
      rw [split, readScript_write here, length_buildScript, Counted32, ← later]
      by_cases cut : (item.dataSize + (items.map PushItem.size).sum) % 2 ^ 32 < item.dataSize
      · rw [if_pos cut]
        exact ⟨fun absent => by simp at absent, fun counted => absurd counted.1 (by omega)⟩
      · rw [if_neg cut, List.map_cons]
        simp only [Option.map_eq_some_iff, List.cons.injEq, true_and, exists_eq_right,
          Nat.not_lt.mp cut]

private theorem roundTrips_iff {items : List PushItem} (valid : ∀ item ∈ items, item.Valid) :
    RoundTrips items ↔ Counted32 items :=
  ⟨fun reads => (readScript_iff valid le_rfl).mp (reads _ le_rfl),
    fun counted _ enough => (readScript_iff valid enough).mpr counted⟩

/-- A script shorter than 4 GiB is counted. -/
theorem counted32_of_small {items : List PushItem}
    (small : (items.map PushItem.size).sum < 2 ^ 32) : Counted32 items := by
  induction items with
  | nil => trivial
  | cons item items induction =>
      rw [List.map_cons, List.sum_cons, PushItem.size] at small
      have fits : (item.dataSize + (items.map PushItem.size).sum) % 2 ^ 32 = _ :=
        Nat.mod_eq_of_lt (by omega)
      exact ⟨by rw [fits]; exact Nat.le_add_right _ _, induction (by omega)⟩

/-! ## Evaluating pushes -/

variable {crypto : Crypto} {check : SignatureCheck}

private theorem evalScript_pushAll_sized {values : List Valtype} (few : values.length ≤ 1000)
    (short : ∀ vch ∈ values, vch.length ≤ 520) (small : (pushAll values).length ≤ 10000) :
    (evalScript crypto check [] (pushAll values)).outcome = .ok values.reverse := by
  obtain ⟨pushes, rfl, sizes, parses⟩ :=
    parses_pushAll fun vch member => (short vch member).trans_lt (by norm_num)
  rw [List.length_map] at few
  exact evalScript_pushes parses
    (fun instr member => ⟨sizes instr member, short _ (List.mem_map_of_mem member)⟩) small few

private theorem evalScript_number {n : Nat} (positive : 1 ≤ n) (small : n ≤ 16) :
    (evalScript crypto check [] [UInt8.ofNat (OP_1 - 1 + n)]).outcome = .ok [getvch n] := by
  have opcode : (UInt8.ofNat (OP_1 - 1 + n)).toNat = OP_1 - 1 + n :=
    toNat_byte (by simp only [OP_1]; omega)
  have read : getOp [UInt8.ofNat (OP_1 - 1 + n)] = some (OP_1 - 1 + n, [], []) := by
    have operator : ¬(UInt8.ofNat (OP_1 - 1 + n)).toNat ≤ OP_PUSHDATA4 := by
      rw [opcode]
      simp only [OP_1, OP_PUSHDATA4]
      omega
    rw [opcode] at operator
    simp only [getOp, opcode, if_neg operator]
  obtain ⟨rest, ended, run⟩ := @runFrom_number crypto check 0 _ [] _ n [] (.cons read .nil) positive
    small (by simp)
  cases ended
  rw [runFrom_nil] at run
  exact evalScript_of_runFrom (by simp) run

/-- A pushed number is left on the stack. -/
theorem evalScript_pushInt64 (n : Int64) :
    (evalScript crypto check [] (pushInt64 n)).outcome = .ok [getvch n.toInt] := by
  by_cases small : IsSmallNumber n
  · rw [pushInt64, if_pos small]
    rcases small with minus | ⟨positive, at_most⟩
    · rw [minus]
      rfl
    · obtain ⟨count, count_eq⟩ := Int.eq_ofNat_of_zero_le (show 0 ≤ n.toInt by omega)
      have opcode : (n.toInt + ((OP_1 : Int) - 1)).toNat = OP_1 - 1 + count := by
        simp only [OP_1]
        omega
      rw [opcode, count_eq]
      exact evalScript_number (by omega) (by omega)
  · rw [pushInt64, if_neg small]
    have size := length_getvch_le (natAbs_lt n)
    have pushed := @evalScript_pushAll crypto check [getvch n.toInt] (by simp) (by simp; omega)
    simpa [pushAll] using pushed

/-- A number of at most four bytes is read back. -/
theorem castToBigNum_getvch {bn : Int} (small : (getvch bn).length ≤ nMaxNumSize) :
    castToBigNum (getvch bn) = some bn := by
  rw [castToBigNum, if_neg (Nat.not_lt.mpr small), setvch_getvch, setvch_getvch]

/-- A script is read back exactly if its pushes are counted, and pushed values and numbers are what
its evaluation leaves. -/
theorem push_roundTrip (crypto : Crypto) (check : SignatureCheck) :
    (∀ items : List PushItem, (∀ item ∈ items, item.Valid) →
      (RoundTrips items ↔ Counted32 items)) ∧
    (∀ values : List Valtype, values.length ≤ 1000 → (∀ vch ∈ values, vch.length ≤ 520) →
      (pushAll values).length ≤ 10000 →
        (evalScript crypto check [] (pushAll values)).outcome = .ok values.reverse) ∧
    ∀ n : Int64, (getvch n.toInt).length ≤ nMaxNumSize →
      (evalScript crypto check [] (pushInt64 n)).outcome = .ok [getvch n.toInt] ∧
        castToBigNum (getvch n.toInt) = some n.toInt :=
  ⟨fun _ => roundTrips_iff, fun _ => evalScript_pushAll_sized,
    fun n small => ⟨evalScript_pushInt64 n, castToBigNum_getvch small⟩⟩

private theorem not_roundTrips_of_length {vch : Valtype} (size : vch.length = 2 ^ 32 - 6) :
    ¬RoundTrips [.data [0], .data vch] := by
  intro reads
  have valid : ∀ item ∈ [PushItem.data [0], .data vch], item.Valid := by
    intro item member
    rcases List.mem_cons.mp member with rfl | member
    · exact (by norm_num : (1 : Nat) < 2 ^ 32)
    · obtain rfl := List.mem_singleton.mp member
      rw [PushItem.Valid, size]
      norm_num
  have counted := ((roundTrips_iff valid).mp reads).1
  simp only [PushItem.dataSize, PushItem.size, List.map_cons, List.map_nil, List.sum_cons,
    List.sum_nil, size, List.length_singleton, pushHeader, OP_PUSHDATA1] at counted
  norm_num at counted

/-- Behind the first opcode of this script stand 4 GiB, which as a 32-bit word are no bytes. -/
theorem not_roundTrips_hugeScript :
    ¬RoundTrips [.data [0], .data (List.replicate (2 ^ 32 - 6) 0)] :=
  not_roundTrips_of_length List.length_replicate

end FooCoin

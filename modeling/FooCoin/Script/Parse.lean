import FooCoin.Library.LittleEndian
import Mathlib.Tactic

/-!
# Scripts and their instructions

A `CScript` is its bytes.  `getOp` reads one instruction as `CScript::GetOp2` does and returns the
opcode, the immediate operand and the bytes after it; it fails where the source returns `false`.
Opcodes are numbers, as the source compares and subtracts them and casts every byte to
`opcodetype`.
-/

namespace FooCoin

open LittleEndian

/-- A stack element: `vector<unsigned char>`. -/
abbrev Valtype := List UInt8

/-- A serialized script. -/
abbrev CScript := List UInt8

namespace Op

def OP_0 : Nat := 0x00
def OP_PUSHDATA1 : Nat := 0x4c
def OP_PUSHDATA2 : Nat := 0x4d
def OP_PUSHDATA4 : Nat := 0x4e
def OP_1NEGATE : Nat := 0x4f
def OP_RESERVED : Nat := 0x50
def OP_1 : Nat := 0x51
def OP_16 : Nat := 0x60
def OP_NOP : Nat := 0x61
def OP_IF : Nat := 0x63
def OP_NOTIF : Nat := 0x64
def OP_ELSE : Nat := 0x67
def OP_ENDIF : Nat := 0x68
def OP_VERIFY : Nat := 0x69
def OP_RETURN : Nat := 0x6a
def OP_TOALTSTACK : Nat := 0x6b
def OP_FROMALTSTACK : Nat := 0x6c
def OP_2DROP : Nat := 0x6d
def OP_2DUP : Nat := 0x6e
def OP_3DUP : Nat := 0x6f
def OP_2OVER : Nat := 0x70
def OP_2ROT : Nat := 0x71
def OP_2SWAP : Nat := 0x72
def OP_IFDUP : Nat := 0x73
def OP_DEPTH : Nat := 0x74
def OP_DROP : Nat := 0x75
def OP_DUP : Nat := 0x76
def OP_NIP : Nat := 0x77
def OP_OVER : Nat := 0x78
def OP_PICK : Nat := 0x79
def OP_ROLL : Nat := 0x7a
def OP_ROT : Nat := 0x7b
def OP_SWAP : Nat := 0x7c
def OP_TUCK : Nat := 0x7d
def OP_CAT : Nat := 0x7e
def OP_SUBSTR : Nat := 0x7f
def OP_LEFT : Nat := 0x80
def OP_RIGHT : Nat := 0x81
def OP_SIZE : Nat := 0x82
def OP_INVERT : Nat := 0x83
def OP_AND : Nat := 0x84
def OP_OR : Nat := 0x85
def OP_XOR : Nat := 0x86
def OP_EQUAL : Nat := 0x87
def OP_EQUALVERIFY : Nat := 0x88
def OP_1ADD : Nat := 0x8b
def OP_1SUB : Nat := 0x8c
def OP_2MUL : Nat := 0x8d
def OP_2DIV : Nat := 0x8e
def OP_NEGATE : Nat := 0x8f
def OP_ABS : Nat := 0x90
def OP_NOT : Nat := 0x91
def OP_0NOTEQUAL : Nat := 0x92
def OP_ADD : Nat := 0x93
def OP_SUB : Nat := 0x94
def OP_MUL : Nat := 0x95
def OP_DIV : Nat := 0x96
def OP_MOD : Nat := 0x97
def OP_LSHIFT : Nat := 0x98
def OP_RSHIFT : Nat := 0x99
def OP_BOOLAND : Nat := 0x9a
def OP_BOOLOR : Nat := 0x9b
def OP_NUMEQUAL : Nat := 0x9c
def OP_NUMEQUALVERIFY : Nat := 0x9d
def OP_NUMNOTEQUAL : Nat := 0x9e
def OP_LESSTHAN : Nat := 0x9f
def OP_GREATERTHAN : Nat := 0xa0
def OP_LESSTHANOREQUAL : Nat := 0xa1
def OP_GREATERTHANOREQUAL : Nat := 0xa2
def OP_MIN : Nat := 0xa3
def OP_MAX : Nat := 0xa4
def OP_WITHIN : Nat := 0xa5
def OP_RIPEMD160 : Nat := 0xa6
def OP_SHA1 : Nat := 0xa7
def OP_SHA256 : Nat := 0xa8
def OP_HASH160 : Nat := 0xa9
def OP_HASH256 : Nat := 0xaa
def OP_CODESEPARATOR : Nat := 0xab
def OP_CHECKSIG : Nat := 0xac
def OP_CHECKSIGVERIFY : Nat := 0xad
def OP_CHECKMULTISIG : Nat := 0xae
def OP_CHECKMULTISIGVERIFY : Nat := 0xaf
def OP_NOP1 : Nat := 0xb0
def OP_NOP10 : Nat := 0xb9
def OP_SMALLINTEGER : Nat := 0xfa
def OP_PUBKEYS : Nat := 0xfb
def OP_PUBKEYHASH : Nat := 0xfd
def OP_PUBKEY : Nat := 0xfe
def OP_INVALIDOPCODE : Nat := 0xff

end Op

open Op

/-- The operand size of a push and the bytes after the size field, `none` if the field is cut
off. -/
def operandSize (opcode : Nat) (pc : CScript) : Option (Nat × CScript) :=
  if opcode < OP_PUSHDATA1 then some (opcode, pc)
  else
    let width := if opcode = OP_PUSHDATA1 then 1 else if opcode = OP_PUSHDATA2 then 2 else 4
    if pc.length < width then none else some (ofLE (pc.take width), pc.drop width)

/-- `CScript::GetOp2`: the instruction at `pc` as opcode, operand and the bytes after it. -/
def getOp : CScript → Option (Nat × Valtype × CScript)
  | [] => none
  | byte :: pc =>
      let opcode := byte.toNat
      if opcode ≤ OP_PUSHDATA4 then
        match operandSize opcode pc with
        | none => none
        | some (nSize, pc) =>
            if pc.length < nSize then none else some (opcode, pc.take nSize, pc.drop nSize)
      else some (opcode, [], pc)

/-- `CScript::DecodeOP_N` on `OP_0` and `OP_1` to `OP_16`. -/
def decodeOP_N (opcode : Nat) : Nat :=
  if opcode = OP_0 then 0 else opcode - (OP_1 - 1)

/-- `CScript::EncodeOP_N` on the numbers 0 to 16. -/
def encodeOP_N (n : Nat) : Nat :=
  if n = 0 then OP_0 else OP_1 + n - 1

/-- `operator<<` of a byte vector: the shortest push of the bytes. -/
def pushData (bytes : Valtype) : CScript :=
  if bytes.length < OP_PUSHDATA1 then UInt8.ofNat bytes.length :: bytes
  else if bytes.length ≤ 0xff then
    UInt8.ofNat OP_PUSHDATA1 :: UInt8.ofNat bytes.length :: bytes
  else if bytes.length ≤ 0xffff then
    UInt8.ofNat OP_PUSHDATA2 :: (leBytes 2 bytes.length ++ bytes)
  else UInt8.ofNat OP_PUSHDATA4 :: (leBytes 4 bytes.length ++ bytes)

private theorem operandSize_length {opcode : Nat} {pc rest : CScript} {nSize : Nat}
    (sized : operandSize opcode pc = some (nSize, rest)) : rest.length ≤ pc.length := by
  by_cases short : opcode < OP_PUSHDATA1
  · simp only [operandSize, short, if_true, Option.some.injEq, Prod.mk.injEq] at sized
    exact sized.2 ▸ le_rfl
  · simp only [operandSize, short, if_false, Option.ite_none_left_eq_some, Option.some.injEq,
      Prod.mk.injEq] at sized
    simp [← sized.2.2]

/-- Every instruction takes at least one byte. -/
theorem getOp_length {pc rest : CScript} {opcode : Nat} {vch : Valtype}
    (parsed : getOp pc = some (opcode, vch, rest)) : rest.length < pc.length := by
  cases pc with
  | nil => simp [getOp] at parsed
  | cons byte pc =>
      simp only [getOp] at parsed
      split at parsed
      · split at parsed
        · contradiction
        · rename_i nSize operand sized
          have bound := operandSize_length sized
          split at parsed
          · contradiction
          · simp only [Option.some.injEq, Prod.mk.injEq] at parsed
            simp only [← parsed.2.2, List.length_drop, List.length_cons]
            omega
      · simp only [Option.some.injEq, Prod.mk.injEq] at parsed
        simp [← parsed.2.2]

/-- Only pushes carry an operand. -/
theorem getOp_operand {pc rest : CScript} {opcode : Nat} {vch : Valtype}
    (parsed : getOp pc = some (opcode, vch, rest)) (operator : OP_PUSHDATA4 < opcode) :
    vch = [] := by
  cases pc with
  | nil => simp [getOp] at parsed
  | cons byte pc =>
      simp only [getOp] at parsed
      split at parsed
      · split at parsed
        · contradiction
        · split at parsed
          · contradiction
          · simp only [Option.some.injEq, Prod.mk.injEq] at parsed
            exact absurd ‹_› (parsed.1 ▸ Nat.not_le.mpr operator)
      · simp only [Option.some.injEq, Prod.mk.injEq] at parsed
        exact parsed.2.1.symm

/-- Drop `pattern` from the front of the script as often as it stands there, counting. -/
def dropPattern (pattern : CScript) : Nat → CScript → CScript × Nat
  | 0, pc => (pc, 0)
  | fuel + 1, pc =>
      if pattern.length ≤ pc.length ∧ pc.take pattern.length = pattern then
        let (rest, nFound) := dropPattern pattern fuel (pc.drop pattern.length)
        (rest, nFound + 1)
      else (pc, 0)

/-- The loop of `CScript::FindAndDelete` from `pc`, for a nonempty pattern. -/
def findAndDeleteLoop (pattern : CScript) : Nat → CScript → CScript × Nat
  | 0, pc => (pc, 0)
  | fuel + 1, pc =>
      let (pc, nFound) := dropPattern pattern pc.length pc
      match getOp pc with
      | none => (pc, nFound)
      | some (_, _, rest) =>
          let (tail, nMore) := findAndDeleteLoop pattern fuel rest
          (pc.take (pc.length - rest.length) ++ tail, nFound + nMore)

/-- `CScript::FindAndDelete`: the script left over and the number of occurrences removed. -/
def findAndDelete (script pattern : CScript) : CScript × Nat :=
  if pattern = [] then (script, 0)
  else findAndDeleteLoop pattern (script.length + 1) script

/-- The loop of `CScript::IsPushOnly`. -/
def isPushOnlyLoop : Nat → CScript → Bool
  | _, [] => true
  | 0, _ :: _ => true
  | fuel + 1, byte :: pc =>
      match getOp (byte :: pc) with
      | none => false
      | some (opcode, _, rest) => if OP_16 < opcode then false else isPushOnlyLoop fuel rest

/-- `CScript::IsPushOnly`. -/
def isPushOnly (script : CScript) : Bool :=
  isPushOnlyLoop script.length script

/-- `CScript::IsPayToScriptHash`. -/
def isPayToScriptHash (script : CScript) : Bool :=
  script.length = 23 ∧ script[0]? = some (UInt8.ofNat OP_HASH160) ∧
    script[1]? = some 0x14 ∧ script[22]? = some (UInt8.ofNat OP_EQUAL)

end FooCoin

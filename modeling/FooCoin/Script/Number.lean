import FooCoin.Script.Parse

/-!
# Script numbers and booleans

The numbers of the script machine are stack elements read as little-endian sign-magnitude
integers.  `setvch` and `getvch` are the two conversions of `CBigNum`; `castToBigNum` adds the
four-byte limit of the interpreter, `getint` the saturation of `CBigNum::getint`.
-/

namespace FooCoin

open LittleEndian

/-- `CBigNum::setvch`: the number a byte vector stands for. -/
def setvch (vch : Valtype) : Int :=
  let value := ofLE vch
  let sign := 128 * 256 ^ (vch.length - 1)
  if vch ≠ [] ∧ sign ≤ value then -((value - sign : Nat) : Int) else value

/-- The bytes of a magnitude without leading zeros. -/
def magnitudeBytes : Nat → Nat → List UInt8
  | 0, _ => []
  | fuel + 1, value =>
      if value = 0 then [] else UInt8.ofNat (value % 256) :: magnitudeBytes fuel (value / 256)

/-- `CBigNum::getvch`: the shortest byte vector that stands for the number. -/
def getvch (bn : Int) : Valtype :=
  let bytes := magnitudeBytes bn.natAbs bn.natAbs
  match bytes.getLast? with
  | none => []
  | some top =>
      let sign : UInt8 := if bn < 0 then 0x80 else 0
      if 0x80 ≤ top then bytes ++ [sign] else bytes.dropLast ++ [top ||| sign]

/-- `CBigNum::getint`. -/
def getint (bn : Int) : Int :=
  if bn < 0 then (if bn < -2147483647 then -2147483648 else bn)
  else if 2147483647 < bn then 2147483647 else bn

/-- `nMaxNumSize`. -/
def nMaxNumSize : Nat := 4

/-- `CastToBigNum`, `none` where it throws. -/
def castToBigNum (vch : Valtype) : Option Int :=
  if nMaxNumSize < vch.length then none else some (setvch (getvch (setvch vch)))

/-- `CastToBool`. -/
def castToBool : Valtype → Bool
  | [] => false
  | [byte] => byte ≠ 0 ∧ byte ≠ 0x80
  | byte :: rest => if byte ≠ 0 then true else castToBool rest

/-- `vchFalse`. -/
def vchFalse : Valtype := []

/-- `vchTrue`. -/
def vchTrue : Valtype := [1]

/-- A flag as a stack element. -/
def vchBool (fValue : Bool) : Valtype := if fValue then vchTrue else vchFalse

/-- The numbers pushed by `OP_1` to `OP_16` are read back. -/
theorem castToBigNum_getvch_small {n : Nat} (small : n ≤ 16) :
    castToBigNum (getvch n) = some (n : Int) := by
  interval_cases n <;> decide

end FooCoin

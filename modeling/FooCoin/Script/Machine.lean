import FooCoin.Amount
import FooCoin.Crypto
import FooCoin.Script.Number

/-!
# The operators of the script machine

A stack is a list with its top in front.  `stacktop`, `popstack` and the other accesses fail with
`EvalFailure.outOfRange` where the source would leave the vector, so that an access that its guard
does not cover is told apart from a plain `return false`.  Each function below is one group of
cases of the switch in `EvalScript`; the operators that the source disables before the switch are
left out of it.
-/

namespace FooCoin

open LittleEndian Op

/-- Why an evaluation ended early. -/
inductive EvalFailure
  /-- `return false`. -/
  | returnedFalse
  /-- `CastToBigNum` threw. -/
  | overflow
  /-- An access left the stack. -/
  | outOfRange
  deriving DecidableEq, Repr

/-- The result of an operator. -/
abbrev EvalResult := Except EvalFailure

/-- The main or the alternative stack, top first. -/
abbrev Stack := List Valtype

/-- `return false` unless the condition holds. -/
def demand (condition : Prop) [Decidable condition] : EvalResult Unit :=
  if condition then .ok () else .error .returnedFalse

/-- `stacktop(-i)`. -/
def stacktop (stack : Stack) : Nat → EvalResult Valtype
  | 0 => .error .outOfRange
  | i + 1 =>
      match stack[i]? with
      | none => .error .outOfRange
      | some vch => .ok vch

/-- `popstack`. -/
def popstack : Stack → EvalResult Stack
  | [] => .error .outOfRange
  | _ :: stack => .ok stack

/-- `popstack`, `count` times. -/
def popstacks : Nat → Stack → EvalResult Stack
  | 0, stack => .ok stack
  | count + 1, stack => do popstacks count (← popstack stack)

/-- `stack.erase(stack.end() - first, stack.end() - last)`. -/
def eraseRange (stack : Stack) (first last : Nat) : EvalResult Stack :=
  if last ≤ first ∧ first ≤ stack.length then .ok (stack.take last ++ stack.drop first)
  else .error .outOfRange

/-- `stack.erase(stack.end() - i)`. -/
def eraseAt (stack : Stack) (i : Nat) : EvalResult Stack :=
  if 1 ≤ i then eraseRange stack i (i - 1) else .error .outOfRange

/-- `stack.insert(stack.end() - i, vch)`. -/
def insertBefore (stack : Stack) (i : Nat) (vch : Valtype) : EvalResult Stack :=
  if i ≤ stack.length then .ok (stack.take i ++ vch :: stack.drop i) else .error .outOfRange

/-- `swap(stacktop(-i), stacktop(-j))`. -/
def swapTops (stack : Stack) (i j : Nat) : EvalResult Stack := do
  let left ← stacktop stack i
  let right ← stacktop stack j
  pure ((stack.set (i - 1) right).set (j - 1) left)

/-- `CastToBigNum` of a stack element. -/
def bigNumTop (stack : Stack) (i : Nat) : EvalResult Int := do
  match castToBigNum (← stacktop stack i) with
  | none => .error .overflow
  | some bn => pure bn

theorem bigNumTop_of_stacktop {stack : Stack} {i : Nat} {vch : Valtype} {bn : Int}
    (top : stacktop stack i = .ok vch) (value : castToBigNum vch = some bn) :
    bigNumTop stack i = .ok bn := by
  unfold bigNumTop
  simp only [top, bind, Except.bind, value]
  rfl

/-- The operators that only move elements of the two stacks. -/
def stackOp (opcode : Nat) (stack altstack : Stack) : EvalResult (Stack × Stack) :=
  if opcode = OP_TOALTSTACK then do
    demand (1 ≤ stack.length)
    let vch ← stacktop stack 1
    pure (← popstack stack, vch :: altstack)
  else if opcode = OP_FROMALTSTACK then do
    demand (1 ≤ altstack.length)
    let vch ← stacktop altstack 1
    pure (vch :: stack, ← popstack altstack)
  else if opcode = OP_2DROP then do
    demand (2 ≤ stack.length)
    pure (← popstack (← popstack stack), altstack)
  else if opcode = OP_2DUP then do
    demand (2 ≤ stack.length)
    let vch1 ← stacktop stack 2
    let vch2 ← stacktop stack 1
    pure (vch2 :: vch1 :: stack, altstack)
  else if opcode = OP_3DUP then do
    demand (3 ≤ stack.length)
    let vch1 ← stacktop stack 3
    let vch2 ← stacktop stack 2
    let vch3 ← stacktop stack 1
    pure (vch3 :: vch2 :: vch1 :: stack, altstack)
  else if opcode = OP_2OVER then do
    demand (4 ≤ stack.length)
    let vch1 ← stacktop stack 4
    let vch2 ← stacktop stack 3
    pure (vch2 :: vch1 :: stack, altstack)
  else if opcode = OP_2ROT then do
    demand (6 ≤ stack.length)
    let vch1 ← stacktop stack 6
    let vch2 ← stacktop stack 5
    let stack ← eraseRange stack 6 4
    pure (vch2 :: vch1 :: stack, altstack)
  else if opcode = OP_2SWAP then do
    demand (4 ≤ stack.length)
    pure (← swapTops (← swapTops stack 4 2) 3 1, altstack)
  else if opcode = OP_IFDUP then do
    demand (1 ≤ stack.length)
    let vch ← stacktop stack 1
    pure (if castToBool vch then vch :: stack else stack, altstack)
  else if opcode = OP_DEPTH then
    pure (getvch stack.length :: stack, altstack)
  else if opcode = OP_DROP then do
    demand (1 ≤ stack.length)
    pure (← popstack stack, altstack)
  else if opcode = OP_DUP then do
    demand (1 ≤ stack.length)
    pure ((← stacktop stack 1) :: stack, altstack)
  else if opcode = OP_NIP then do
    demand (2 ≤ stack.length)
    pure (← eraseAt stack 2, altstack)
  else if opcode = OP_OVER then do
    demand (2 ≤ stack.length)
    pure ((← stacktop stack 2) :: stack, altstack)
  else if opcode = OP_PICK ∨ opcode = OP_ROLL then do
    demand (2 ≤ stack.length)
    let n := getint (← bigNumTop stack 1)
    let stack ← popstack stack
    demand (0 ≤ n ∧ n < stack.length)
    let vch ← stacktop stack (n.toNat + 1)
    let stack ← if opcode = OP_ROLL then eraseAt stack (n.toNat + 1) else pure stack
    pure (vch :: stack, altstack)
  else if opcode = OP_ROT then do
    demand (3 ≤ stack.length)
    pure (← swapTops (← swapTops stack 3 2) 2 1, altstack)
  else if opcode = OP_SWAP then do
    demand (2 ≤ stack.length)
    pure (← swapTops stack 2 1, altstack)
  else if opcode = OP_TUCK then do
    demand (2 ≤ stack.length)
    let vch ← stacktop stack 1
    pure (← insertBefore stack 2 vch, altstack)
  else .error .returnedFalse

/-- `OP_SIZE`, `OP_EQUAL` and `OP_EQUALVERIFY`. -/
def compareOp (opcode : Nat) (stack : Stack) : EvalResult Stack :=
  if opcode = OP_SIZE then do
    demand (1 ≤ stack.length)
    let vch ← stacktop stack 1
    pure (getvch vch.length :: stack)
  else do
    demand (2 ≤ stack.length)
    let vch1 ← stacktop stack 2
    let vch2 ← stacktop stack 1
    let fEqual := decide (vch1 = vch2)
    let stack ← popstack (← popstack stack)
    let stack := vchBool fEqual :: stack
    if opcode = OP_EQUALVERIFY then
      if fEqual then popstack stack else .error .returnedFalse
    else pure stack

/-- A truth value as a number. -/
def bnBool (fValue : Bool) : Int := if fValue then 1 else 0

/-- The numeric operators of one operand. -/
def unaryNumber (opcode : Nat) (bn : Int) : Int :=
  if opcode = OP_1ADD then bn + 1
  else if opcode = OP_1SUB then bn - 1
  else if opcode = OP_NEGATE then -bn
  else if opcode = OP_ABS then (if bn < 0 then -bn else bn)
  else if opcode = OP_NOT then bnBool (bn = 0)
  else bnBool (bn ≠ 0)

/-- The numeric operators of two operands. -/
def binaryNumber (opcode : Nat) (bn1 bn2 : Int) : Int :=
  if opcode = OP_ADD then bn1 + bn2
  else if opcode = OP_SUB then bn1 - bn2
  else if opcode = OP_BOOLAND then bnBool (bn1 ≠ 0 ∧ bn2 ≠ 0)
  else if opcode = OP_BOOLOR then bnBool (bn1 ≠ 0 ∨ bn2 ≠ 0)
  else if opcode = OP_NUMEQUAL ∨ opcode = OP_NUMEQUALVERIFY then bnBool (bn1 = bn2)
  else if opcode = OP_NUMNOTEQUAL then bnBool (bn1 ≠ bn2)
  else if opcode = OP_LESSTHAN then bnBool (bn1 < bn2)
  else if opcode = OP_GREATERTHAN then bnBool (bn2 < bn1)
  else if opcode = OP_LESSTHANOREQUAL then bnBool (bn1 ≤ bn2)
  else if opcode = OP_GREATERTHANOREQUAL then bnBool (bn2 ≤ bn1)
  else if opcode = OP_MIN then (if bn1 < bn2 then bn1 else bn2)
  else (if bn2 < bn1 then bn1 else bn2)

/-- The numeric operators of one operand that are not disabled. -/
def unaryOpcodes : List Nat := [OP_1ADD, OP_1SUB, OP_NEGATE, OP_ABS, OP_NOT, OP_0NOTEQUAL]

/-- The numeric operators of two operands that are not disabled. -/
def binaryOpcodes : List Nat :=
  [OP_ADD, OP_SUB, OP_BOOLAND, OP_BOOLOR, OP_NUMEQUAL, OP_NUMEQUALVERIFY, OP_NUMNOTEQUAL,
    OP_LESSTHAN, OP_GREATERTHAN, OP_LESSTHANOREQUAL, OP_GREATERTHANOREQUAL, OP_MIN, OP_MAX]

/-- The numeric operators. -/
def numericOp (opcode : Nat) (stack : Stack) : EvalResult Stack :=
  if opcode ∈ unaryOpcodes then do
    demand (1 ≤ stack.length)
    let bn ← bigNumTop stack 1
    let stack ← popstack stack
    pure (getvch (unaryNumber opcode bn) :: stack)
  else if opcode ∈ binaryOpcodes then do
    demand (2 ≤ stack.length)
    let bn1 ← bigNumTop stack 2
    let bn2 ← bigNumTop stack 1
    let stack ← popstack (← popstack stack)
    let stack := getvch (binaryNumber opcode bn1 bn2) :: stack
    if opcode = OP_NUMEQUALVERIFY then
      if castToBool (← stacktop stack 1) then popstack stack else .error .returnedFalse
    else pure stack
  else do
    demand (3 ≤ stack.length)
    let bn1 ← bigNumTop stack 3
    let bn2 ← bigNumTop stack 2
    let bn3 ← bigNumTop stack 1
    let stack ← popstack (← popstack (← popstack stack))
    pure (vchBool (bn2 ≤ bn1 ∧ bn1 < bn3) :: stack)

/-- The hash operators. -/
def hashOp (crypto : Crypto) (opcode : Nat) (stack : Stack) : EvalResult Stack := do
  demand (1 ≤ stack.length)
  let vch ← stacktop stack 1
  let vchHash :=
    if opcode = OP_RIPEMD160 then uint160Bytes (crypto.RIPEMD160 vch)
    else if opcode = OP_SHA1 then uint160Bytes (crypto.SHA1 vch)
    else if opcode = OP_SHA256 then uint256Bytes (crypto.SHA256 vch)
    else if opcode = OP_HASH160 then uint160Bytes (crypto.Hash160 vch)
    else uint256Bytes (crypto.Hash vch)
  pure (vchHash :: (← popstack stack))

/-- The operators that `EvalScript` refuses before the switch. -/
def disabledOpcodes : List Nat :=
  [OP_CAT, OP_SUBSTR, OP_LEFT, OP_RIGHT, OP_INVERT, OP_AND, OP_OR, OP_XOR, OP_2MUL, OP_2DIV, OP_MUL,
    OP_DIV, OP_MOD, OP_LSHIFT, OP_RSHIFT]

/-- The hash operators' opcodes. -/
def hashOpcodes : List Nat := [OP_RIPEMD160, OP_SHA1, OP_SHA256, OP_HASH160, OP_HASH256]

/-- An operator that neither branches nor checks signatures, applied to the two stacks. -/
def plainOp (crypto : Crypto) (opcode : Nat) (stack altstack : Stack) :
    EvalResult (Stack × Stack) :=
  if opcode = OP_1NEGATE ∨ (OP_1 ≤ opcode ∧ opcode ≤ OP_16) then
    pure (getvch ((opcode : Int) - ((OP_1 : Int) - 1)) :: stack, altstack)
  else if opcode = OP_NOP ∨ (OP_NOP1 ≤ opcode ∧ opcode ≤ OP_NOP10) then
    pure (stack, altstack)
  else if opcode = OP_VERIFY then do
    demand (1 ≤ stack.length)
    if castToBool (← stacktop stack 1) then pure (← popstack stack, altstack)
    else .error .returnedFalse
  else if OP_TOALTSTACK ≤ opcode ∧ opcode ≤ OP_TUCK then stackOp opcode stack altstack
  else if opcode = OP_SIZE ∨ opcode = OP_EQUAL ∨ opcode = OP_EQUALVERIFY then do
    pure (← compareOp opcode stack, altstack)
  else if opcode ∈ unaryOpcodes ∨ opcode ∈ binaryOpcodes ∨ opcode = OP_WITHIN then do
    pure (← numericOp opcode stack, altstack)
  else if opcode ∈ hashOpcodes then do
    pure (← hashOp crypto opcode stack, altstack)
  else .error .returnedFalse

end FooCoin

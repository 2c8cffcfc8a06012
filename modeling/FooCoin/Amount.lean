import Mathlib.Tactic

/-!
# Amounts and call outcomes

The money constants of `main.h` and `util.h`, and signed 64-bit arithmetic.  Amounts are integers;
every sum that the source forms in an `int64` goes through `int64`, which fails with
`Failure.overflow` when the exact result leaves the range, so a call that overflows is told apart
from one that returns `false`.
-/

namespace FooCoin

/-- The ways in which a modelled call ends without a result. -/
inductive Failure
  /-- The function returned `false`. -/
  | rejected
  /-- A `std::runtime_error` left the function. -/
  | thrown
  /-- A signed 64-bit operation left its range. -/
  | overflow
  /-- An `assert` fired. -/
  | assertion
  /-- A null pointer was followed. -/
  | nullPointer
  deriving DecidableEq, Repr

/-- The result of a call that may fail. -/
abbrev Outcome := Except Failure

/-- Return `false` unless the condition holds. -/
def require (condition : Prop) [Decidable condition] : Outcome Unit :=
  if condition then .ok () else .error .rejected

@[simp]
theorem require_eq_ok {condition : Prop} [Decidable condition] {value : Unit} :
    require condition = .ok value ↔ condition := by
  simp [require]

/-- A sequenced call succeeds exactly when both of its parts do. -/
@[simp]
theorem except_bind_eq_ok {ε α β : Type} {first : Except ε α} {next : α → Except ε β}
    {result : β} :
    first >>= next = .ok result ↔ ∃ value, first = .ok value ∧ next value = .ok result := by
  cases first with
  | error failure => simp [bind, Except.bind]
  | ok value => simp [bind, Except.bind]

/-- A call that succeeds is followed by the next one. -/
theorem except_ok_bind {ε α β : Type} (value : α) (next : α → Except ε β) :
    (Except.ok value >>= next) = next value :=
  rfl

@[simp]
theorem throw_eq_ok {ε α : Type} {failure : ε} {value : α} :
    (throw failure : Except ε α) = .ok value ↔ False := by
  simp [throw, throwThe, MonadExceptOf.throw]

@[simp]
theorem pure_eq_ok {ε α : Type} {value result : α} :
    (pure value : Except ε α) = .ok result ↔ value = result := by
  simp [pure, Except.pure]

theorem exists_of_isOk {ε α : Type} {outcome : Except ε α} (succeeds : outcome.isOk = true) :
    ∃ value, outcome = .ok value := by
  cases outcome with
  | error failure => simp [Except.isOk, Except.toBool] at succeeds
  | ok value => exact ⟨value, rfl⟩

/-- A check of every member succeeds exactly when each one passes. -/
theorem forM_eq_ok {α ε : Type} {check : α → Except ε Unit} {values : List α} {value : Unit} :
    forM values check = .ok value ↔ ∀ value ∈ values, check value = .ok () := by
  induction values with
  | nil => simp [pure, Except.pure]
  | cons head values induction =>
      simp only [List.forM_cons, except_bind_eq_ok, induction, List.forall_mem_cons]
      exact ⟨fun ⟨_, first, rest⟩ => ⟨first, rest⟩, fun ⟨first, rest⟩ => ⟨(), first, rest⟩⟩

/-- The least `int64`. -/
def int64Min : Int := -9223372036854775808

/-- The greatest `int64`. -/
def int64Max : Int := 9223372036854775807

/-- Store an exact integer in an `int64`. -/
def int64 (value : Int) : Outcome Int :=
  if int64Min ≤ value ∧ value ≤ int64Max then .ok value else .error .overflow

@[simp]
theorem int64_eq_ok {value result : Int} :
    int64 value = .ok result ↔ (int64Min ≤ value ∧ value ≤ int64Max) ∧ value = result := by
  unfold int64
  split <;> simp_all

theorem int64_of_mem {value : Int} (lower : int64Min ≤ value) (upper : value ≤ int64Max) :
    int64 value = .ok value := by
  simp [lower, upper]

/-- One coin in base units. -/
def coin : Int := 100000000

/-- One cent in base units. -/
def cent : Int := 1000000

theorem cent_pos : 0 < cent := by decide

/-- The maximum number of coins. -/
def maxMoney : Int := 10000 * coin

/-- `MIN_TX_FEE`. -/
def minTxFee : Int := 10000000

/-- `MIN_RELAY_TX_FEE`. -/
def minRelayTxFee : Int := minTxFee

/-- An amount is within the money range. -/
def MoneyRange (nValue : Int) : Prop := 0 ≤ nValue ∧ nValue ≤ maxMoney

instance (nValue : Int) : Decidable (MoneyRange nValue) :=
  inferInstanceAs (Decidable (0 ≤ nValue ∧ nValue ≤ maxMoney))

theorem maxMoney_eq : maxMoney = 1000000000000 := by decide

/-- `COINBASE_MATURITY`. -/
def coinbaseMaturity : Nat := 15

/-- `MAX_BLOCK_SIZE`. -/
def maxBlockSize : Nat := 1000000

/-- `MAX_BLOCK_SIZE_GEN`. -/
def maxBlockSizeGen : Nat := maxBlockSize / 2

/-- `MAX_BLOCK_SIGOPS`. -/
def maxBlockSigops : Nat := maxBlockSize / 50

end FooCoin

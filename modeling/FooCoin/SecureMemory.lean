import Mathlib.Data.Nat.Bitwise
import Mathlib.Data.List.Induction
import Mathlib.Tactic.Common

/-!
# Locked memory

`secure_allocator` locks the pages of a block when it is allocated and unlocks them when it is
freed.  Pages are locked or not, however many blocks lie on them: a block that is freed unlocks the
pages it shares with blocks that are still in use.
-/

namespace FooCoin

/-- A block of memory: its address and its size in bytes. -/
structure SecureBlock where
  p : Nat
  nBytes : Nat
deriving DecidableEq

/-- The pages that are locked and the blocks in use. -/
structure SecureMemory where
  locked : Nat → Bool
  live : List SecureBlock

namespace SecureMemory

/-- No block yet. -/
def empty : SecureMemory where
  locked _ := false
  live := []

variable (pageBits : Nat)

/-- The size of a page, a power of two. -/
def pageSize : Nat := 2 ^ pageBits

/-- Some byte of a range lies on the page. -/
def touches (page addr len : Nat) : Bool :=
  0 < len && addr / pageSize pageBits ≤ page && page ≤ (addr + len - 1) / pageSize pageBits

/-- The address that the macros pass on: the start of its page. -/
def macroAddress (block : SecureBlock) : Nat := block.p >>> pageBits <<< pageBits

/-- The length that the macros pass on. -/
def macroLength (block : SecureBlock) : Nat :=
  ((block.p + block.nBytes - 1) ||| (pageSize pageBits - 1)) + 1 - macroAddress pageBits block

/-- The pages that `mlock` and `munlock` act on. -/
def acts (block : SecureBlock) (page : Nat) : Bool :=
  touches pageBits page (macroAddress pageBits block) (macroLength pageBits block)

/-- `secure_allocator::allocate`, where the underlying allocator finds the block. -/
def allocate (memory : SecureMemory) (block : SecureBlock) : SecureMemory where
  locked page := memory.locked page || acts pageBits block page
  live := block :: memory.live

/-- `secure_allocator::deallocate`. -/
def deallocate (memory : SecureMemory) (block : SecureBlock) : SecureMemory where
  locked page := memory.locked page && !acts pageBits block page
  live := memory.live.erase block

end SecureMemory

/-- A call of the allocator. -/
inductive SecureCall
  | allocate (block : SecureBlock)
  | deallocate (block : SecureBlock)

namespace SecureMemory

variable (pageBits : Nat)

/-- The memory after a call. -/
def step (memory : SecureMemory) : SecureCall → SecureMemory
  | .allocate block => memory.allocate pageBits block
  | .deallocate block => memory.deallocate pageBits block

/-- The memory after some calls. -/
def run (calls : List SecureCall) : SecureMemory := calls.foldl (step pageBits) empty

/-- Every page of a block in use is locked. -/
def Protected (memory : SecureMemory) : Prop :=
  ∀ block ∈ memory.live, ∀ page, touches pageBits page block.p block.nBytes = true →
    memory.locked page = true

/-- No block that stays in use lies on a page that is unlocked. -/
def Apart (memory : SecureMemory) : SecureCall → Prop
  | .allocate _ => True
  | .deallocate block =>
      ∀ other ∈ memory.live.erase block, ∀ page,
        touches pageBits page other.p other.nBytes = true → acts pageBits block page = false

/-- What the underlying allocator and its caller promise: a new block lies apart from those in use,
and a block that is freed is in use. -/
def Valid (memory : SecureMemory) : SecureCall → Prop
  | .allocate block => 0 < block.p ∧ ∀ other ∈ memory.live,
      block.p + block.nBytes ≤ other.p ∨ other.p + other.nBytes ≤ block.p
  | .deallocate block => block ∈ memory.live

/-! ## Rounding to pages -/

private theorem or_mask (value : Nat) :
    value ||| (2 ^ pageBits - 1) = value / 2 ^ pageBits * 2 ^ pageBits + (2 ^ pageBits - 1) := by
  have positive : 0 < 2 ^ pageBits := Nat.two_pow_pos pageBits
  rw [Nat.mul_comm, Nat.two_pow_add_eq_or_of_lt (Nat.sub_lt positive Nat.one_pos)]
  apply Nat.eq_of_testBit_eq
  intro position
  rw [Nat.testBit_or, Nat.testBit_or, Nat.testBit_two_pow_mul, Nat.testBit_div_two_pow,
    Nat.testBit_two_pow_sub_one]
  rcases Nat.lt_or_ge position pageBits with inside | beyond
  · simp [inside]
  · simp [beyond, Nat.not_lt.mpr beyond]

private theorem macroAddress_eq (block : SecureBlock) :
    macroAddress pageBits block = block.p / 2 ^ pageBits * 2 ^ pageBits := by
  rw [macroAddress, Nat.shiftLeft_eq, Nat.shiftRight_eq_div_pow]

private theorem touches_iff (page addr len : Nat) :
    touches pageBits page addr len = true ↔
      0 < len ∧ addr / 2 ^ pageBits ≤ page ∧ page ≤ (addr + len - 1) / 2 ^ pageBits := by
  simp only [touches, Bool.and_eq_true, decide_eq_true_iff, and_assoc]
  rfl

/-- The macros act on every page that the block touches. -/
theorem acts_of_touches {block : SecureBlock} {page : Nat}
    (touched : touches pageBits page block.p block.nBytes = true) :
    acts pageBits block page = true := by
  have positive : 0 < 2 ^ pageBits := Nat.two_pow_pos pageBits
  obtain ⟨inhabited, first, last⟩ := (touches_iff pageBits _ _ _).mp touched
  have ordered : block.p / 2 ^ pageBits * 2 ^ pageBits ≤
      (block.p + block.nBytes - 1) / 2 ^ pageBits * 2 ^ pageBits :=
    Nat.mul_le_mul_right _ (first.trans last)
  have final : macroAddress pageBits block + macroLength pageBits block - 1 =
      (block.p + block.nBytes - 1) / 2 ^ pageBits * 2 ^ pageBits + (2 ^ pageBits - 1) := by
    rw [macroLength, pageSize, or_mask, macroAddress_eq]
    omega
  have some_bytes : 0 < macroLength pageBits block := by
    rw [macroLength, pageSize, or_mask, macroAddress_eq]
    omega
  apply (touches_iff pageBits _ _ _).mpr
  refine ⟨some_bytes, ?_, ?_⟩
  · rw [macroAddress_eq, Nat.mul_div_cancel _ positive]
    exact first
  · rw [final, Nat.add_comm, Nat.add_mul_div_right _ _ positive,
      Nat.div_eq_of_lt (Nat.sub_lt positive Nat.one_pos), Nat.zero_add]
    exact last

/-! ## One call -/

theorem protected_empty : Protected pageBits empty := fun _ live => by cases live

/-- A call keeps the blocks in use locked exactly when it unlocks no page of another one. -/
theorem Protected.step_iff {memory : SecureMemory} (kept : Protected pageBits memory)
    (call : SecureCall) :
    Protected pageBits (memory.step pageBits call) ↔ Apart pageBits memory call := by
  cases call with
  | allocate block =>
    refine iff_of_true ?_ trivial
    intro other live page touched
    rw [step, allocate, Bool.or_eq_true]
    rcases List.mem_cons.mp live with rfl | old
    · exact .inr (acts_of_touches pageBits touched)
    · exact .inl (kept other old page touched)
  | deallocate block =>
    constructor
    · intro after other live page touched
      have locked := after other live page touched
      rw [step, deallocate, Bool.and_eq_true, Bool.not_eq_true'] at locked
      exact locked.2
    · intro apart other live page touched
      rw [step, deallocate, Bool.and_eq_true, Bool.not_eq_true']
      exact ⟨kept other (List.mem_of_mem_erase live) page touched, apart other live page touched⟩

/-! ## Every sequence of calls -/

private theorem run_append_call (calls : List SecureCall) (call : SecureCall) :
    run pageBits (calls ++ [call]) = (run pageBits calls).step pageBits call := by
  simp [run]

/-- The blocks in use stay locked through a sequence of calls exactly when no call frees a block
while another one lies on a page of it. -/
theorem protected_iff (calls : List SecureCall) :
    (∀ earlier later, calls = earlier ++ later → Protected pageBits (run pageBits earlier)) ↔
      ∀ earlier call later, calls = earlier ++ call :: later →
        Apart pageBits (run pageBits earlier) call := by
  constructor
  · intro kept earlier call later parts
    have before := kept earlier (call :: later) parts
    have after := kept (earlier ++ [call]) later (by simp [parts])
    rw [run_append_call] at after
    exact (before.step_iff pageBits call).mp after
  · intro apart earlier
    induction earlier using List.reverseRecOn with
    | nil => exact fun _ _ => protected_empty pageBits
    | append_singleton earlier call induction =>
      intro later parts
      rw [List.append_assoc, List.singleton_append] at parts
      rw [run_append_call]
      exact ((induction _ parts).step_iff pageBits call).mpr (apart earlier call later parts)

/-- Two blocks of 32 bytes in one page of 4096, the first of which is freed. -/
def sharedPage : List SecureCall :=
  [.allocate ⟨8192, 32⟩, .allocate ⟨8224, 32⟩, .deallocate ⟨8192, 32⟩]

/-- Freed memory takes the lock of its page away from a block still in use. -/
theorem not_protected :
    ¬ ∀ (pageBits : Nat) (calls : List SecureCall),
      (∀ earlier call later, calls = earlier ++ call :: later →
        Valid (run pageBits earlier) call) → Protected pageBits (run pageBits calls) := by
  intro always
  have kept := always 12 sharedPage ?_
  · exact absurd (kept ⟨8224, 32⟩ (by decide) 2 (by decide)) (by decide)
  · intro earlier call later parts
    rcases earlier with _ | ⟨first, _ | ⟨second, _ | ⟨third, rest⟩⟩⟩ <;>
      simp only [sharedPage, List.nil_append, List.cons_append, List.cons.injEq, reduceCtorEq,
        List.append_eq_nil_iff, and_false, List.nil_eq] at parts
    · rw [← parts.1]
      exact ⟨by decide, by decide⟩
    · rw [← parts.1, ← parts.2.1]
      exact ⟨by decide, by decide⟩
    · rw [← parts.1, ← parts.2.1, ← parts.2.2.1]
      exact List.mem_cons_of_mem _ (List.mem_singleton_self _)

end SecureMemory

end FooCoin

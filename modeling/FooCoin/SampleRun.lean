import FooCoin.ChainRun

/-!
# Sample runs

A chain of sample blocks from a first block on, given by the transactions of each block, and the
run that connects them in order to an empty index.
-/

namespace FooCoin

open Journal

/-- The `i`-th block of a chain with the given transactions, two minutes after the one before. -/
def sampleBlocks (vtx : Nat → List CTransaction) : Nat → CBlock
  | 0 => sampleBlock 0 1400000000 (vtx 0)
  | i + 1 =>
      sampleBlock ((sampleBlocks vtx i).getHash sampleCrypto)
        (UInt32.ofNat (1400000000 + 120 * (i + 1))) (vtx (i + 1))

/-- The block files of the chain. -/
def sampleFiles (vtx : Nat → List CTransaction) : Env := sampleEnv (sampleBlocks vtx) 0

/-- The first `n` blocks, newest first. -/
def sampleJournal (vtx : Nat → List CTransaction) : Nat → List ChainBlock
  | 0 => []
  | i + 1 =>
      { pindex := sampleEntry i (sampleBlocks vtx i) (chainOf [] (sampleJournal vtx i))
        block := sampleBlocks vtx i } :: sampleJournal vtx i

/-- The `i`-th block with its index entry. -/
def sampleTip (vtx : Nat → List CTransaction) (i : Nat) : ChainBlock where
  pindex := sampleEntry i (sampleBlocks vtx i) (chainOf [] (sampleJournal vtx i))
  block := sampleBlocks vtx i

/-- The database before the first block. -/
def sampleStart : CTxDB := emptyIndex (fun _ => none) none

/-- Connect the first `n` blocks. -/
def sampleConnect (vtx : Nat → List CTransaction) : Nat → Outcome CTxDB
  | 0 => pure sampleStart
  | i + 1 => do
      (sampleBlocks vtx i).connectBlock (sampleFiles vtx) sampleContext (sampleTip vtx i).pindex
        (chainOf [] (sampleJournal vtx i)) (← sampleConnect vtx i)

variable {vtx : Nat → List CTransaction}

@[simp]
theorem length_sampleJournal (n : Nat) : (sampleJournal vtx n).length = n := by
  induction n with
  | zero => rfl
  | succ n induction => simp [sampleJournal, induction]

@[simp]
theorem sampleBlocks_vtx (i : Nat) : (sampleBlocks vtx i).vtx = vtx i := by
  cases i <;> rfl

/-- A block of the chain extends the chain of the ones before it. -/
theorem sampleTip_extends {i : Nat} (usable : i + 1 ≠ 0xffffffff) :
    Extends (sampleFiles vtx) [] (sampleJournal vtx i) (sampleTip vtx i) where
  stored := sampleEnv_stored (sampleBlocks vtx) 0 usable
  link := by cases i <;> rfl
  entry := rfl

/-- Connecting the first blocks of the chain is a run of every machine that can do these steps. -/
theorem sampleConnect_run {machine : Machine CTxDB ChainBlock} {n : Nat} {txdb : CTxDB}
    (usable : n < 0xffffffff) (connected : sampleConnect vtx n = .ok txdb)
    (steps : ∀ i < n, ∀ before after, (chainMachine (sampleFiles vtx) []).apply
      (sampleJournal vtx i) (sampleTip vtx i) before after →
        machine.apply (sampleJournal vtx i) (sampleTip vtx i) before after) :
    Run machine sampleStart (sampleJournal vtx n) txdb := by
  induction n generalizing txdb with
  | zero =>
      cases connected
      exact .start
  | succ n induction =>
      simp only [sampleConnect, except_bind_eq_ok] at connected
      obtain ⟨before, earlier, last⟩ := connected
      have run := induction (by omega) earlier fun i small => steps i (by omega)
      exact run.push (steps n (by omega) before txdb
        ⟨sampleTip_extends (by omega), sampleContext, last⟩)

end FooCoin

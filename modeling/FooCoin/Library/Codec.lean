import FooCoin.Library.LittleEndian
import Mathlib.Tactic

/-!
# Byte readers

A reader takes a value off the front of a byte string or fails.  `Reads reader bytes value` says
that the reader takes exactly `bytes`, whatever follows them; it is closed under sequencing, so the
round trip of a record follows from those of its fields.
-/

namespace Codec

open LittleEndian

/-- A reader of values of a type. -/
abbrev Reader (α : Type) := StateT (List UInt8) Option α

variable {α β : Type}

/-- The reader takes exactly these bytes for the value. -/
def Reads (reader : Reader α) (bytes : List UInt8) (value : α) : Prop :=
  ∀ rest, reader.run (bytes ++ rest) = some (value, rest)

theorem Reads.pure (value : α) : Reads (pure value) [] value :=
  fun _ => rfl

theorem Reads.bind {first : Reader α} {next : α → Reader β} {bytes more : List UInt8} {value : α}
    {result : β} (first_reads : Reads first bytes value)
    (next_reads : Reads (next value) more result) :
    Reads (first >>= next) (bytes ++ more) result := by
  intro rest
  rw [List.append_assoc, StateT.run_bind, first_reads]
  exact next_reads rest

/-- A reader takes one value for some bytes. -/
theorem Reads.unique {reader : Reader α} {bytes : List UInt8} {first second : α}
    (first_reads : Reads reader bytes first) (second_reads : Reads reader bytes second) :
    first = second :=
  congrArg Prod.fst (Option.some.inj ((first_reads []).symm.trans (second_reads [])))

/-- The last part of a record, converted with the parts before it. -/
theorem Reads.last {first : Reader α} {bytes : List UInt8} {value : α} {convert : α → β}
    {result : β} (first_reads : Reads first bytes value) (converted : convert value = result) :
    Reads (first >>= fun value => Pure.pure (convert value)) bytes result := by
  intro rest
  rw [StateT.run_bind, first_reads, ← converted]
  rfl

/-- Take `count` bytes. -/
def readBytes (count : Nat) : Reader (List UInt8) := fun input =>
  if input.length < count then none else some (input.take count, input.drop count)

theorem reads_readBytes (bytes : List UInt8) : Reads (readBytes bytes.length) bytes bytes := by
  intro rest
  simp [readBytes, StateT.run]

/-- Take a little-endian word of `width` bytes. -/
def readLE (width : Nat) : Reader Nat := do
  let bytes ← readBytes width
  pure (ofLE bytes)

theorem reads_readLE {width value : Nat} (fits : value < 256 ^ width) :
    Reads (readLE width) (leBytes width value) value := by
  have bytes := reads_readBytes (leBytes width value)
  rw [length_leBytes] at bytes
  exact bytes.last (ofLE_leBytes_of_lt fits)

/-- Take `count` values. -/
def readMany (reader : Reader α) : Nat → Reader (List α)
  | 0 => pure []
  | count + 1 => do
      let value ← reader
      let values ← readMany reader count
      pure (value :: values)

theorem reads_readMany {reader : Reader α} {write : α → List UInt8} {values : List α}
    (each : ∀ value ∈ values, Reads reader (write value) value) :
    Reads (readMany reader values.length) (values.flatMap write) values := by
  induction values with
  | nil => exact Reads.pure []
  | cons value values induction =>
      have later := induction fun next member => each next (List.mem_cons_of_mem value member)
      exact (each value List.mem_cons_self).bind (later.last rfl)

end Codec

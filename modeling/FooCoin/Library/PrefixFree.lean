import FooCoin.Library.Codec

/-!
# Prefix-free serializations

The bytes of a value are followed by those of the next one without a separator.  A serialization is
prefix free on a domain when its bytes nevertheless say which value was written and where it ends;
then whole records are told apart by their bytes.
-/

namespace PrefixFree

open Codec LittleEndian

variable {α : Type}

/-- Whatever follows, the bytes of a value of the domain tell the value and where it ends. -/
def PrefixFreeOn (write : α → List UInt8) (domain : Set α) : Prop :=
  ∀ ⦃left⦄, left ∈ domain → ∀ ⦃right⦄, right ∈ domain → ∀ ⦃rest rest' : List UInt8⦄,
    write left ++ rest = write right ++ rest' → left = right ∧ rest = rest'

variable {write : α → List UInt8} {domain : Set α}

/-- What a reader inverts is prefix free. -/
theorem prefixFreeOn_of_reads {reader : Reader α}
    (reads : ∀ value ∈ domain, Reads reader (write value) value) : PrefixFreeOn write domain := by
  intro left left_mem right right_mem rest rest' same
  have left_read := reads left left_mem rest
  rw [same, reads right right_mem rest'] at left_read
  simp only [Option.some.injEq, Prod.mk.injEq] at left_read
  exact ⟨left_read.1.symm, left_read.2.symm⟩

/-- Words of a fixed width, as the encoding of what they determine. -/
theorem prefixFreeOn_word {width : Nat} {word : α → Nat} (injective : domain.InjOn word)
    (fits : ∀ value ∈ domain, word value < 256 ^ width) :
    PrefixFreeOn (fun value => leBytes width (word value)) domain := by
  intro left left_mem right right_mem rest rest' same
  obtain ⟨same_bytes, same_rest⟩ := List.append_inj same (by simp)
  have same_word := leBytes_injective (fits left left_mem) (fits right right_mem) same_bytes
  exact ⟨injective left_mem right_mem same_word, same_rest⟩

/-- Lists whose length is known. -/
theorem PrefixFreeOn.flatMap (free : PrefixFreeOn write domain) {left right : List α}
    (left_mem : ∀ value ∈ left, value ∈ domain) (right_mem : ∀ value ∈ right, value ∈ domain)
    (same_length : left.length = right.length) {rest rest' : List UInt8}
    (same : left.flatMap write ++ rest = right.flatMap write ++ rest') :
    left = right ∧ rest = rest' := by
  induction left generalizing right with
  | nil =>
      cases right with
      | nil => exact ⟨rfl, same⟩
      | cons value right => simp at same_length
  | cons value left induction =>
      cases right with
      | nil => simp at same_length
      | cons value' right =>
          simp only [List.flatMap_cons, List.append_assoc] at same
          obtain ⟨rfl, same_tail⟩ := free (left_mem value List.mem_cons_self)
            (right_mem value' List.mem_cons_self) same
          obtain ⟨rfl, same_rest⟩ := induction
            (fun next member => left_mem next (List.mem_cons_of_mem value member))
            (fun next member => right_mem next (List.mem_cons_of_mem value member))
            (by simpa using same_length) same_tail
          exact ⟨rfl, same_rest⟩

/-- Lists with their length in front. -/
theorem PrefixFreeOn.counted (free : PrefixFreeOn write domain) {writeCount : Nat → List UInt8}
    {counts : Set Nat} (count_free : PrefixFreeOn writeCount counts) :
    PrefixFreeOn (fun values : List α => writeCount values.length ++ values.flatMap write)
      {values | values.length ∈ counts ∧ ∀ value ∈ values, value ∈ domain} := by
  rintro left ⟨left_count, left_mem⟩ right ⟨right_count, right_mem⟩ rest rest' same
  simp only [List.append_assoc] at same
  obtain ⟨same_length, same⟩ := count_free left_count right_count same
  exact free.flatMap left_mem right_mem same_length same

end PrefixFree

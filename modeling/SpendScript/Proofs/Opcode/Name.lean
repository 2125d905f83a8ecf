/-
  The names of opcodes. No two opcodes share a name (`Opcode.eq_of_name`), and no name holds a blank or
  the end of a line (`Opcode.plain_of_mem_name`). Both are computed from the bytes of the 256 names.
-/
import SpendScript.Bytes
import SpendScript.Proofs.Opcode

namespace SpendScript

/-- The character neither separates words nor ends a line. -/
def Plain (c : Char) : Prop := c ≠ ' ' ∧ c ≠ '\n'

instance (c : Char) : Decidable (Plain c) := inferInstanceAs (Decidable (_ ∧ _))

/-- A text has the bytes of its characters. -/
theorem mem_bytes_of_mem_toList {s : String} {c : Char} (h : c ∈ s.toList) {b : UInt8}
    (hb : b ∈ String.utf8EncodeChar c) : b ∈ s.toByteArray.data.toList := by
  rw [← String.ofList_toList (s := s), String.toByteArray_ofList]
  have hmem : b ∈ s.toList.flatMap String.utf8EncodeChar := List.mem_flatMap.2 ⟨c, h, hb⟩
  simpa [List.utf8Encode] using hmem

namespace Opcode

/-- The number that the bytes of the name spell. -/
def nameNumber (op : Opcode) : Nat := Bytes.natLE op.name.toByteArray.data.toList

/-- Names with different numbers are different, and comparing numbers is cheap. -/
theorem nameNumber_ne {m n : Nat} (hn : n < 256) (hm : m < n) :
    nameNumber ⟨UInt8.ofNat n⟩ ≠ nameNumber ⟨UInt8.ofNat m⟩ := by
  have hall : ((List.range 256).all fun n => (List.range n).all fun m =>
      !Nat.beq (nameNumber ⟨UInt8.ofNat n⟩) (nameNumber ⟨UInt8.ofNat m⟩)) = true := by
    decide +kernel
  intro heq
  have hrow := List.all_eq_true.1 hall n (List.mem_range.2 hn)
  have hbeq := List.all_eq_true.1 hrow m (List.mem_range.2 hm)
  rw [heq, Nat.beq_refl] at hbeq
  cases hbeq

/-- **No two opcodes share a name.** -/
theorem eq_of_name {op op' : Opcode} (h : op.name = op'.name) : op = op' := by
  have hnumber : nameNumber op = nameNumber op' := by rw [nameNumber, h, nameNumber]
  rw [eq_of_value (rfl : op.value = op.value), eq_of_value (rfl : op'.value = op'.value)]
    at hnumber ⊢
  rcases Nat.lt_trichotomy op.value op'.value with hlt | heq | hlt
  · exact absurd hnumber.symm (nameNumber_ne op'.byte.toNat_lt hlt)
  · rw [heq]
  · exact absurd hnumber (nameNumber_ne op.byte.toNat_lt hlt)

/-- **Names are single words.** -/
theorem plain_of_mem_name {op : Opcode} {c : Char} (h : c ∈ op.name.toList) : Plain c := by
  have hall := forall_of_table
    (p := fun op => op.name.toByteArray.data.toList.all fun b => b.toNat != 32 && b.toNat != 10)
    (by decide +kernel) op
  have hbyte {b : UInt8} (hb : b ∈ String.utf8EncodeChar c) : b ≠ 32 ∧ b ≠ 10 := by
    have hb' := List.all_eq_true.1 hall b (mem_bytes_of_mem_toList h hb)
    constructor <;> rintro rfl <;> cases hb'
  constructor
  · rintro rfl
    exact (hbyte List.mem_cons_self).1 rfl
  · rintro rfl
    exact (hbyte List.mem_cons_self).2 rfl

end Opcode

end SpendScript

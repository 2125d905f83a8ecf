/-
  What holds of the opcode table as a whole. A property of opcodes that can be computed is checked
  once for each of the 256 byte values (`Opcode.forall_of_table`).
-/
import SpendScript.Opcode

namespace SpendScript

/-- The operations that do nothing but push an item. -/
def Operation.isPush : Operation → Bool
  | pushBytes | pushNum _ => true
  | _ => false

namespace Opcode

/-- What holds of all byte values holds of every opcode. -/
theorem forall_of_table {p : Opcode → Bool} (h : ∀ n < 256, p ⟨UInt8.ofNat n⟩ = true)
    (op : Opcode) : p op = true := by
  have hop := h op.value op.byte.toNat_lt
  unfold value at hop
  rwa [UInt8.ofNat_toNat] at hop

theorem eq_of_value {op : Opcode} {n : Nat} (h : op.value = n) : op = ⟨UInt8.ofNat n⟩ := by
  rw [← h]
  unfold value
  rw [UInt8.ofNat_toNat]

/-- Pushes are in the push range. -/
theorem isPush_of_operation {op : Opcode} (h : op.operation.isPush = true) : op.isPush = true := by
  have hall := forall_of_table (p := fun op => !op.operation.isPush || op.isPush)
    (by decide +kernel) op
  rwa [h] at hall

/-- Nothing else is in the push range but one reserved opcode. -/
theorem operation_of_isPush {op : Opcode} (h : op.isPush = true) :
    op.operation.isPush = true ∨ op.operation = .reserved := by
  have hall := forall_of_table
    (p := fun op => !op.isPush || (op.operation.isPush || op.operation == .reserved))
    (by decide +kernel) op
  rw [h] at hall
  simpa using hall

/-- What holds of no push and not of that opcode either holds above the push range only. -/
theorem not_isPush_of {p : Operation → Bool} {op : Opcode} (hbytes : p .pushBytes = false)
    (hnum : ∀ n, p (.pushNum n) = false) (hreserved : p .reserved = false)
    (h : p op.operation = true) : ¬ op.isPush = true := by
  intro hpush
  rcases operation_of_isPush hpush with hop | hop
  · cases hoperation : op.operation with
    | pushBytes =>
      rw [hoperation, hbytes] at h
      cases h
    | pushNum n =>
      rw [hoperation, hnum n] at h
      cases h
    | _ =>
      rw [hoperation] at hop
      cases hop
  · rw [hop, hreserved] at h
    cases h

theorem not_isPush_of_operation {op : Opcode} {o : Operation} (h : op.operation = o)
    (ho : o.isPush = false) (hreserved : o ≠ .reserved) : ¬ op.isPush = true := by
  intro hpush
  rcases operation_of_isPush hpush with hop | hop
  · rw [h, ho] at hop
    cases hop
  · exact hreserved (h.symm.trans hop)

/-- Above the push range no opcode has an operand. -/
theorem operandForm_of_not_isPush {op : Opcode} (h : ¬ op.isPush = true) :
    op.operandForm = .none := by
  have hall := forall_of_table (p := fun op => op.isPush || decide (op.operandForm = .none))
    (by decide +kernel) op
  simpa [h] using hall

end Opcode

end SpendScript

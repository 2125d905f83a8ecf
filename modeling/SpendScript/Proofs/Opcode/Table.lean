/-
  The opcodes that are told apart by their kind, byte by byte (`Opcode.operation_table`). The disabled
  opcodes and those that are illegal in every branch are what an admissible script does not hold
  (`Instruction.allowed_iff_value`); the opcodes with operations on numbers are those that exact
  arithmetic is about.
-/
import SpendScript.Proofs.Machine.Arithmetic
import SpendScript.Proofs.Opcode

namespace SpendScript

namespace Opcode

/-- `CAT`, `SUBSTR`, `LEFT` and `RIGHT`, `INVERT`, `AND`, `OR` and `XOR`, `2MUL` and `2DIV`, `MUL`,
    `DIV`, `MOD`, `LSHIFT` and `RSHIFT`. -/
def disabled : List Nat :=
  [0x7e, 0x7f, 0x80, 0x81, 0x83, 0x84, 0x85, 0x86, 0x8d, 0x8e, 0x95, 0x96, 0x97, 0x98, 0x99]

/-- `VERIF` and `VERNOTIF`. -/
def illegal : List Nat := [0x65, 0x66]

/-- The opcodes with operations on numbers. -/
def numeric : List (Nat × Operation) :=
  [(0x8b, .unary .add1), (0x8c, .unary .sub1), (0x8f, .unary .negate), (0x90, .unary .abs),
    (0x91, .unary .not), (0x92, .unary .notEqual0), (0x93, .binary .add), (0x94, .binary .sub),
    (0x9a, .binary .boolAnd), (0x9b, .binary .boolOr), (0x9c, .binary .numEqual),
    (0x9d, .numEqualVerify), (0x9e, .binary .numNotEqual), (0x9f, .binary .lessThan),
    (0xa0, .binary .greaterThan), (0xa1, .binary .lessThanOrEqual),
    (0xa2, .binary .greaterThanOrEqual), (0xa3, .binary .min), (0xa4, .binary .max),
    (0xa5, .within)]

theorem operation_eq_disabled_iff (op : Opcode) :
    op.operation = .disabled ↔ op.value ∈ disabled := by
  have hall := forall_of_table
    (p := fun op => decide (op.operation = .disabled ↔ op.value ∈ disabled)) (by decide +kernel) op
  exact of_decide_eq_true hall

theorem operation_eq_alwaysIllegal_iff (op : Opcode) :
    op.operation = .alwaysIllegal ↔ op.value ∈ illegal := by
  have hall := forall_of_table
    (p := fun op => decide (op.operation = .alwaysIllegal ↔ op.value ∈ illegal)) (by decide +kernel)
    op
  exact of_decide_eq_true hall

theorem operation_eq_iff_of_arity (op : Opcode) {o : Operation} (ho : o.arity?.isSome = true) :
    op.operation = o ↔ (op.value, o) ∈ numeric := by
  have hlisted := forall_of_table
    (p := fun op => !op.operation.arity?.isSome || decide ((op.value, op.operation) ∈ numeric))
    (by decide +kernel) op
  have hrows : ∀ row ∈ numeric, operation ⟨UInt8.ofNat row.1⟩ = row.2 := by decide +kernel
  constructor
  · rintro rfl
    simpa [ho] using hlisted
  · intro hrow
    rw [eq_of_value (rfl : op.value = op.value)]
    exact hrows _ hrow

/-- **The table, by kind.** The disabled opcodes, those that are illegal in every branch, and the opcodes
    of each operation on numbers. -/
theorem operation_table (op : Opcode) :
    (op.operation = .disabled ↔ op.value ∈ disabled) ∧
      (op.operation = .alwaysIllegal ↔ op.value ∈ illegal) ∧
      ∀ o : Operation, o.arity?.isSome = true → (op.operation = o ↔ (op.value, o) ∈ numeric) :=
  ⟨op.operation_eq_disabled_iff, op.operation_eq_alwaysIllegal_iff,
    fun _ => op.operation_eq_iff_of_arity⟩

end Opcode

theorem Instruction.allowed_iff_value (i : Instruction) :
    i.Allowed ↔ i.opcode.value ∉ Opcode.disabled ∧ i.opcode.value ∉ Opcode.illegal := by
  rw [← Opcode.operation_eq_disabled_iff, ← Opcode.operation_eq_alwaysIllegal_iff]
  exact and_congr decide_eq_false_iff_not decide_eq_false_iff_not

end SpendScript

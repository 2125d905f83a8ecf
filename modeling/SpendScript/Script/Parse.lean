/-
  Reading a script from bytes. A script has at most 10000 bytes; reading stops at the first push
  whose length or operand is cut short, and says how many bytes it wanted and how many were left.
-/
import SpendScript.Limit
import SpendScript.Script.Instruction

namespace SpendScript

/-- Why bytes are no script. -/
inductive ParseError where
  | scriptTooLarge (size : Nat)
  | malformedPush (opcode : Opcode) (required remaining : Nat)
  deriving DecidableEq

/-- The wording of a failure. -/
def ParseError.message : ParseError → String
  | .scriptTooLarge size =>
    s!"script size {size} is larger than max allowed size {Limit.scriptSize}"
  | .malformedPush opcode required remaining =>
    s!"opcode {opcode.name} requires {required} bytes, but script only has {remaining} remaining"

/-- The operand of an opcode and the bytes after it. -/
def Opcode.takeOperand (op : Opcode) (tail : Bytes) : Except ParseError (Bytes × Bytes) :=
  match op.operandForm with
  | .none => .ok ([], tail)
  | .fixed n =>
    if tail.length < n then .error (.malformedPush op n tail.length)
    else .ok (tail.take n, tail.drop n)
  | .counted width =>
    if tail.length < width then .error (.malformedPush op width tail.length)
    else
      let n := Bytes.natLE (tail.take width)
      let rest := tail.drop width
      if rest.length < n then .error (.malformedPush op n rest.length)
      else .ok (rest.take n, rest.drop n)

theorem Opcode.length_rest_le {op : Opcode} {tail data rest : Bytes}
    (h : op.takeOperand tail = .ok (data, rest)) : rest.length ≤ tail.length := by
  unfold takeOperand at h
  split at h
  · cases h; exact Nat.le_refl _
  · split at h <;> cases h
    simp
  · split at h
    · cases h
    · dsimp only at h
      split at h <;> cases h
      simp only [List.length_drop]
      omega

namespace Script

/-- Reads instructions to the end of the bytes, whatever their number. -/
def readAll : Bytes → Except ParseError Script
  | [] => .ok []
  | b :: tail =>
    match h : (Opcode.mk b).takeOperand tail with
    | .error e => .error e
    | .ok (data, rest) =>
      have : rest.length < tail.length + 1 := Nat.lt_succ_of_le (Opcode.length_rest_le h)
      match readAll rest with
      | .error e => .error e
      | .ok script => .ok (⟨⟨b⟩, data⟩ :: script)
termination_by bs => bs.length

/-- Reads a script. -/
def parse (bs : Bytes) : Except ParseError Script :=
  if Limit.scriptSize < bs.length then .error (.scriptTooLarge bs.length) else readAll bs

/-- The bytes are a script of pushes only. -/
def isPushOnly (bs : Bytes) : Bool :=
  match parse bs with
  | .ok script => script.all Instruction.isPush
  | .error _ => false

end Script

end SpendScript

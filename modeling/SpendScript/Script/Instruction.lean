/-
  One instruction of a script: an opcode with the bytes it pushes, if any. It is written back as
  bytes (`toBytes`) and as text, in a long form that names the opcode and a short one that does not.
-/
import SpendScript.Bytes.Hex
import SpendScript.Opcode

namespace SpendScript

/-- An opcode and its operand. -/
structure Instruction where
  opcode : Opcode
  data : Bytes
  deriving DecidableEq

/-- A script, first instruction first. -/
abbrev Script := List Instruction

namespace Instruction

/-- What the instruction does. -/
def operation (i : Instruction) : Operation := i.opcode.operation

/-- Whether it is in the push range. -/
def isPush (i : Instruction) : Bool := i.opcode.isPush

/-- Whether it is a disabled opcode. -/
def isDisabled (i : Instruction) : Bool := i.operation = .disabled

/-- Whether it may not even stand in a branch that is not taken. -/
def isAlwaysIllegal (i : Instruction) : Bool := i.operation = .alwaysIllegal

/-- Whether it moves between branches. -/
def isConditional (i : Instruction) : Bool := i.operation.isConditional

/-- The operand has the form that its opcode asks for. -/
def WellFormed (i : Instruction) : Prop :=
  match i.opcode.operandForm with
  | .none => i.data = []
  | .fixed n => i.data.length = n
  | .counted width => i.data.length < Bytes.capacity width

/-- The opcode is the one that pushes these bytes in the fewest bytes of script. -/
def isMinimalPush (i : Instruction) : Bool :=
  let op := i.opcode.value
  let length := i.data.length
  match i.data with
  | [] => op = 0x00
  | [n] =>
    if 1 ≤ n.toNat ∧ n.toNat ≤ 16 then op = 0x50 + n.toNat
    else if n = 0x81 then op = 0x4f
    else op = 0x01
  | _ =>
    if length ≤ 75 then op = length
    else if length ≤ 0xff then op = 0x4c
    else if length ≤ 0xffff then op = 0x4d
    else true

/-- The bytes of the instruction: opcode, length where the form has one, operand. -/
def toBytes (i : Instruction) : Bytes :=
  i.opcode.byte ::
    match i.opcode.operandForm with
    | .none => []
    | .fixed _ => i.data
    | .counted width => Bytes.ofNatLE width i.data.length ++ i.data

/-- The long form: the name, and the operand in hexadecimal where there can be one. -/
def text (i : Instruction) : String :=
  match i.opcode.operandForm with
  | .none | .fixed 0 => i.opcode.name
  | _ => i.opcode.name ++ " 0x" ++ Hex.encode i.data

/-- The short form: a push shows only what it pushes. -/
def shortText (i : Instruction) : String :=
  match i.operation, i.opcode.operandForm with
  | .pushNum n, _ => toString n
  | _, .fixed 0 => "0"
  | _, .none => i.opcode.name
  | _, _ => Hex.encode i.data

end Instruction

namespace Script

/-- The bytes of a script. -/
def toBytes (s : Script) : Bytes := s.flatMap Instruction.toBytes

@[simp] theorem toBytes_nil : toBytes [] = [] := rfl

@[simp] theorem toBytes_cons (i : Instruction) (s : Script) :
    toBytes (i :: s) = i.toBytes ++ toBytes s := rfl

@[simp] theorem toBytes_append (s t : Script) : toBytes (s ++ t) = toBytes s ++ toBytes t := by
  simp [toBytes]

end Script

end SpendScript

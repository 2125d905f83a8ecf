/-
  Scripts as text: on one line in short form, or one instruction a line with its position.
-/
import SpendScript.Script.Parse

namespace SpendScript

namespace Script

/-- The short forms of a script's instructions, separated by blanks. -/
def shortText (bs : Bytes) : String :=
  match parse bs with
  | .ok script => " ".intercalate (script.map Instruction.shortText)
  | .error _ => "[error]"

/-- A position: two hexadecimal digits for the script, four for the instruction. -/
def positionText (scriptIndex offset : Nat) : String :=
  Hex.ofNatPadded 2 scriptIndex ++ ":" ++ Hex.ofNatPadded 4 offset

/-- The long form of an instruction behind its position. -/
def lineText (scriptIndex offset : Nat) (i : Instruction) : String :=
  positionText scriptIndex offset ++ ": " ++ i.text

/-- The lines of a script, in order. -/
def lines (scriptIndex : Nat) (script : Script) : List String :=
  script.zipIdx.map fun (i, offset) => lineText scriptIndex offset i

end Script

end SpendScript

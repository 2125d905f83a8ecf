/-
  The optional rules of verification. Each one only makes scripts fail that would pass without it.
-/

namespace SpendScript

/-- Which optional rules are in force. -/
structure Flags where
  /-- Hash types and public keys must have a defined form. -/
  strictEncoding : Bool := false
  /-- Pushes and numbers must have their shortest form. -/
  minimalData : Bool := false
  /-- The opcodes kept for soft forks fail. -/
  discourageUpgradableNops : Bool := false
  /-- Absolute lock times are checked. -/
  checkLockTime : Bool := false
  /-- Relative lock times are checked. -/
  checkSequence : Bool := false
  /-- The extra item of a multiple signature check must be empty. -/
  nullDummy : Bool := false
  deriving DecidableEq

namespace Flags

/-- The rules whose bits are set, from bit 0 on in the order of the fields. -/
def ofBits (n : Nat) : Flags where
  strictEncoding := n.testBit 0
  minimalData := n.testBit 1
  discourageUpgradableNops := n.testBit 2
  checkLockTime := n.testBit 3
  checkSequence := n.testBit 4
  nullDummy := n.testBit 5

end Flags

end SpendScript

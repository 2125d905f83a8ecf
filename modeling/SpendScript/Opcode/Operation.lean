/-
  What an instruction does, apart from how its byte is written. Opcodes that do the same to a
  different number of items share one operation.
-/

namespace SpendScript

/-- A function of one number. -/
inductive UnaryOp where
  | add1 | sub1 | negate | abs | not | notEqual0
  deriving DecidableEq

/-- A function of two numbers. -/
inductive BinaryOp where
  | add | sub
  | boolAnd | boolOr
  | numEqual | numNotEqual
  | lessThan | greaterThan | lessThanOrEqual | greaterThanOrEqual
  | min | max
  deriving DecidableEq

/-- A digest of one item. -/
inductive HashOp where
  | ripemd160 | sha1 | sha256 | hash160 | hash256
  deriving DecidableEq

/-- The operation of an opcode. -/
inductive Operation where
  /-- Pushes the operand. -/
  | pushBytes
  /-- Pushes a small number. -/
  | pushNum (n : Int)
  | nop
  /-- Opens a conditional; `negated` takes the branch when the item is false. -/
  | openIf (negated : Bool)
  | elseBranch
  | endIf
  | verify
  | returnEarly
  | toAltStack
  | fromAltStack
  /-- Removes the top `n` items. -/
  | drop (n : Nat)
  /-- Copies the top `n` items. -/
  | dup (n : Nat)
  /-- Copies the second block of `n` items from the top. -/
  | copyOver (n : Nat)
  /-- Moves the third block of `n` items to the top. -/
  | rot (n : Nat)
  /-- Exchanges the two topmost blocks of `n` items. -/
  | swap (n : Nat)
  | ifDup
  | depth
  | nip
  | pick
  | roll
  | tuck
  | size
  | equal
  | equalVerify
  | unary (op : UnaryOp)
  | binary (op : BinaryOp)
  | numEqualVerify
  | within
  | hash (op : HashOp)
  | codeSeparator
  /-- Checks one signature; `verify` fails the script instead of pushing the answer. -/
  | checkSig (verify : Bool)
  /-- Checks several signatures against a list of keys. -/
  | checkMultiSig (verify : Bool)
  | checkLockTimeVerify
  | checkSequenceVerify
  /-- Does nothing until a soft fork gives it a meaning. -/
  | upgradableNop
  /-- Fails the script even in a branch that is not taken. -/
  | disabled
  /-- Fails the script even in a branch that is not taken. -/
  | alwaysIllegal
  /-- Fails the script when executed. -/
  | reserved
  /-- Fails the script when executed. -/
  | invalid
  deriving DecidableEq

namespace Operation

/-- The operations that move between branches, and so run in every branch. -/
def isConditional : Operation → Bool
  | openIf _ | elseBranch | endIf => true
  | _ => false

end Operation

end SpendScript

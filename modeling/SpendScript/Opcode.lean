/-
  The opcode table: for each of the 256 byte values its name, the form of its operand and its
  operation.
-/
import SpendScript.Opcode.Operation

namespace SpendScript

/-- The first byte of an instruction. -/
structure Opcode where
  byte : UInt8
  deriving DecidableEq

/-- The form of the operand that follows an opcode. -/
inductive OperandForm where
  | none
  /-- Exactly `n` bytes. -/
  | fixed (n : Nat)
  /-- A little-endian length of `width` bytes, then as many bytes. -/
  | counted (width : Nat)
  deriving DecidableEq

namespace Opcode

/-- The value of the byte. -/
def value (op : Opcode) : Nat := op.byte.toNat

/-- The direct pushes stand for their own length, the three after them carry a length. -/
def operandForm (op : Opcode) : OperandForm :=
  if op.value < 0x4c then .fixed op.value
  else if op.value = 0x4c then .counted 1
  else if op.value = 0x4d then .counted 2
  else if op.value = 0x4e then .counted 4
  else .none

/-- The highest opcode that pushes: the small number sixteen. -/
def lastPush : Nat := 0x60

/-- The highest opcode that pushes its operand. -/
def lastDataPush : Nat := 0x4e

/-- Whether the opcode is in the push range. The reserved opcode 0x50 counts as one. -/
def isPush (op : Opcode) : Bool := op.value ≤ lastPush

/-- What the opcode does. -/
def operation (op : Opcode) : Operation :=
  if op.value ≤ lastDataPush then .pushBytes
  else if 0x51 ≤ op.value ∧ op.value ≤ lastPush then .pushNum (op.value - 0x50)
  else match op.value with
    | 0x4f => .pushNum (-1)
    | 0x50 => .reserved
    | 0x61 => .nop
    | 0x62 => .reserved
    | 0x63 => .openIf false
    | 0x64 => .openIf true
    | 0x65 | 0x66 => .alwaysIllegal
    | 0x67 => .elseBranch
    | 0x68 => .endIf
    | 0x69 => .verify
    | 0x6a => .returnEarly
    | 0x6b => .toAltStack
    | 0x6c => .fromAltStack
    | 0x6d => .drop 2
    | 0x6e => .dup 2
    | 0x6f => .dup 3
    | 0x70 => .copyOver 2
    | 0x71 => .rot 2
    | 0x72 => .swap 2
    | 0x73 => .ifDup
    | 0x74 => .depth
    | 0x75 => .drop 1
    | 0x76 => .dup 1
    | 0x77 => .nip
    | 0x78 => .copyOver 1
    | 0x79 => .pick
    | 0x7a => .roll
    | 0x7b => .rot 1
    | 0x7c => .swap 1
    | 0x7d => .tuck
    | 0x7e | 0x7f | 0x80 | 0x81 => .disabled
    | 0x82 => .size
    | 0x83 | 0x84 | 0x85 | 0x86 => .disabled
    | 0x87 => .equal
    | 0x88 => .equalVerify
    | 0x89 | 0x8a => .reserved
    | 0x8b => .unary .add1
    | 0x8c => .unary .sub1
    | 0x8d | 0x8e => .disabled
    | 0x8f => .unary .negate
    | 0x90 => .unary .abs
    | 0x91 => .unary .not
    | 0x92 => .unary .notEqual0
    | 0x93 => .binary .add
    | 0x94 => .binary .sub
    | 0x95 | 0x96 | 0x97 | 0x98 | 0x99 => .disabled
    | 0x9a => .binary .boolAnd
    | 0x9b => .binary .boolOr
    | 0x9c => .binary .numEqual
    | 0x9d => .numEqualVerify
    | 0x9e => .binary .numNotEqual
    | 0x9f => .binary .lessThan
    | 0xa0 => .binary .greaterThan
    | 0xa1 => .binary .lessThanOrEqual
    | 0xa2 => .binary .greaterThanOrEqual
    | 0xa3 => .binary .min
    | 0xa4 => .binary .max
    | 0xa5 => .within
    | 0xa6 => .hash .ripemd160
    | 0xa7 => .hash .sha1
    | 0xa8 => .hash .sha256
    | 0xa9 => .hash .hash160
    | 0xaa => .hash .hash256
    | 0xab => .codeSeparator
    | 0xac => .checkSig false
    | 0xad => .checkSig true
    | 0xae => .checkMultiSig false
    | 0xaf => .checkMultiSig true
    | 0xb1 => .checkLockTimeVerify
    | 0xb2 => .checkSequenceVerify
    | 0xb0 | 0xb3 | 0xb4 | 0xb5 | 0xb6 | 0xb7 | 0xb8 | 0xb9 => .upgradableNop
    | _ => .invalid

/-- The names from 0x61 on, after the numbered pushes. -/
def namesFromNop : List String := [
  "OP_NOP", "OP_VER", "OP_IF", "OP_NOTIF", "OP_VERIF", "OP_VERNOTIF", "OP_ELSE", "OP_ENDIF",
  "OP_VERIFY", "OP_RETURN", "OP_TOALTSTACK", "OP_FROMALTSTACK", "OP_2DROP", "OP_2DUP", "OP_3DUP",
  "OP_2OVER", "OP_2ROT", "OP_2SWAP", "OP_IFDUP", "OP_DEPTH", "OP_DROP", "OP_DUP", "OP_NIP",
  "OP_OVER", "OP_PICK", "OP_ROLL", "OP_ROT", "OP_SWAP", "OP_TUCK", "OP_CAT", "OP_SUBSTR",
  "OP_LEFT", "OP_RIGHT", "OP_SIZE", "OP_INVERT", "OP_AND", "OP_OR", "OP_XOR", "OP_EQUAL",
  "OP_EQUALVERIFY", "OP_RESERVED1", "OP_RESERVED2", "OP_1ADD", "OP_1SUB", "OP_2MUL", "OP_2DIV",
  "OP_NEGATE", "OP_ABS", "OP_NOT", "OP_0NOTEQUAL", "OP_ADD", "OP_SUB", "OP_MUL", "OP_DIV",
  "OP_MOD", "OP_LSHIFT", "OP_RSHIFT", "OP_BOOLAND", "OP_BOOLOR", "OP_NUMEQUAL",
  "OP_NUMEQUALVERIFY", "OP_NUMNOTEQUAL", "OP_LESSTHAN", "OP_GREATERTHAN", "OP_LESSTHANOREQUAL",
  "OP_GREATERTHANOREQUAL", "OP_MIN", "OP_MAX", "OP_WITHIN", "OP_RIPEMD160", "OP_SHA1",
  "OP_SHA256", "OP_HASH160", "OP_HASH256", "OP_CODESEPARATOR", "OP_CHECKSIG",
  "OP_CHECKSIGVERIFY", "OP_CHECKMULTISIG", "OP_CHECKMULTISIGVERIFY", "OP_NOP1", "OP_CLTV",
  "OP_CSV", "OP_NOP4", "OP_NOP5", "OP_NOP6", "OP_NOP7", "OP_NOP8", "OP_NOP9", "OP_NOP10",
  "OP_CHECKSIGADD"]

/-- The name of an opcode. Values past the named ones carry their own number. -/
def name (op : Opcode) : String :=
  let n := op.value
  if n < 0x4c then s!"OP_PUSHBYTES_{n}"
  else if n = 0x4c then "OP_PUSHDATA1"
  else if n = 0x4d then "OP_PUSHDATA2"
  else if n = 0x4e then "OP_PUSHDATA4"
  else if n = 0x4f then "OP_PUSHNUM_NEG1"
  else if n = 0x50 then "OP_RESERVED"
  else if n ≤ lastPush then s!"OP_PUSHNUM_{n - 0x50}"
  else if n = 0xff then "OP_INVALIDOPCODE"
  else namesFromNop.getD (n - 0x61) s!"OP_RETURN_{n}"

end Opcode

end SpendScript

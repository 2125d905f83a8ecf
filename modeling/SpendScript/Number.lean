/-
  Script numbers. On the stack a number is its magnitude in little-endian bytes with the sign in
  the high bit of the last byte. Arithmetic operands have at most four bytes and lock times five;
  results stay within 64 bits.
-/
import SpendScript.Bytes

namespace SpendScript

namespace Number

/-- Why a stack item is no number, or a result is none. -/
inductive Error where
  | tooLong (length max : Nat)
  | notMinimal
  | outOfRange
  deriving DecidableEq

/-- The wording of a failure. -/
def Error.message : Error → String
  | .tooLong length max =>
    s!"numeric value encoded as {length} bytes exceeds max allowed of {max}"
  | .notMinimal => "numeric value is not minimally encoded"
  | .outOfRange => "arithmetic overflow"

/-- The most bytes of an arithmetic operand. -/
def operandSize : Nat := 4

/-- The most bytes of a lock time. -/
def lockTimeSize : Nat := 5

/-- The high bit of a byte. -/
def highBit (b : UInt8) : Bool := b &&& 0x80 != 0

/-- No shorter byte string spells the same number: the last byte holds more than the sign, or
    the byte below it has no room for the sign. -/
def isMinimal (bs : Bytes) : Bool :=
  match bs.reverse with
  | [] => true
  | [last] => last &&& 0x7f != 0
  | last :: below :: _ => last &&& 0x7f != 0 || highBit below

/-- The 64-bit word in which byte `i` of the string, counted from `i` on, covers the eight bits
    from `8 * i` modulo 64. -/
def wordFrom : Nat → Bytes → Nat
  | _, [] => 0
  | i, b :: bs => (b.toNat <<< (8 * i % 64)) ||| wordFrom (i + 1) bs

/-- A number taken modulo the range of signed 64-bit words. -/
def wrap (n : Int) : Int := Int.bmod n 18446744073709551616

/-- The number a byte string spells. With the sign bit set, the word without it is negated. -/
def value (bs : Bytes) : Int :=
  match bs.getLast? with
  | none => 0
  | some last =>
    if highBit last then
      wrap (-(wordFrom 0 bs - 0x80 <<< (8 * (bs.length - 1) % 64) : Nat))
    else
      wrap (wordFrom 0 bs)

/-- Reads a number of at most `max` bytes, in its shortest form if `minimal` asks for it. -/
def decode (bs : Bytes) (minimal : Bool) (max : Nat) : Except Error Int :=
  if max < bs.length then .error (.tooLong bs.length max)
  else if minimal && !isMinimal bs then .error .notMinimal
  else .ok (value bs)

/-- The shortest byte string of a number. The sign takes a byte of its own where the magnitude
    fills its last byte. -/
def encode (n : Int) : Bytes :=
  let magnitude := Bytes.shortestLE n.natAbs
  match magnitude.getLast? with
  | none => []
  | some last =>
    if highBit last then magnitude ++ [if n < 0 then 0x80 else 0x00]
    else if n < 0 then magnitude.dropLast ++ [last ||| 0x80]
    else magnitude

/-- A result, if 64 bits can hold it. -/
def checked (n : Int) : Except Error Int :=
  if -9223372036854775808 ≤ n ∧ n ≤ 9223372036854775807 then .ok n else .error .outOfRange

/-- The sum of two numbers. -/
def add (a b : Int) : Except Error Int := checked (a + b)

/-- The difference of two numbers. -/
def sub (a b : Int) : Except Error Int := checked (a - b)

/-- The opposite of a number. -/
def neg (a : Int) : Except Error Int := checked (-a)

/-- The distance of a number from zero. -/
def abs (a : Int) : Int := a.natAbs

end Number

end SpendScript

/-
  Hexadecimal text. Bytes are written as two lower-case digits each, high half first. Reading takes
  digits of either case; it refuses a text of odd length first, then the first byte that is no
  digit.
-/
import SpendScript.Bytes

namespace SpendScript

namespace Hex

/-- The lower-case digit of a value below sixteen. -/
def digit (n : Nat) : Char :=
  if n < 10 then Char.ofNat (48 + n) else Char.ofNat (87 + n)

/-- The two digits of a byte. -/
def byteDigits (b : UInt8) : List Char :=
  [digit (b.toNat / 16), digit (b.toNat % 16)]

/-- The digits of a byte string, without any mark in front. -/
def encode (bs : Bytes) : String := String.ofList (bs.flatMap byteDigits)

/-- A number in as few digits as it needs, zero being one digit. -/
def ofNat (n : Nat) : String := String.ofList (Nat.toDigits 16 n)

/-- A number in at least `width` digits, padded with zeros in front. -/
def ofNatPadded (width n : Nat) : String :=
  let digits := Nat.toDigits 16 n
  String.ofList (List.replicate (width - digits.length) '0' ++ digits)

/-- Why a text is no hexadecimal. -/
inductive Error where
  | oddLength
  | invalidCharacter (byte : UInt8) (position : Nat)
  deriving DecidableEq

/-- Control characters, the no-break space and the soft hyphen have no visible form. -/
def isInvisible (b : UInt8) : Bool :=
  b.toNat < 0x20 || (0x7f ≤ b.toNat && b.toNat ≤ 0xa0) || b.toNat = 0xad

/-- The byte as the Latin-1 character of its number, escaped where that would be invisible or
    ambiguous between single quotes. -/
def showByte (b : UInt8) : String :=
  let shown :=
    match b.toNat with
    | 0x00 => "\\0"
    | 0x09 => "\\t"
    | 0x0a => "\\n"
    | 0x0d => "\\r"
    | 0x27 => "\\\x27"
    | 0x5c => "\\\\"
    | n => if isInvisible b then "\\u\x7b" ++ ofNat n ++ "\x7d" else String.singleton (Char.ofNat n)
  "\x27" ++ shown ++ "\x27"

/-- The wording of a failure. -/
def Error.message : Error → String
  | .oddLength => "Odd number of digits"
  | .invalidCharacter byte position =>
    "Invalid character " ++ showByte byte ++ s!" at position {position}"

/-- The value of a digit given by its ASCII code. -/
def digitValue? (b : UInt8) : Option Nat :=
  let n := b.toNat
  if 48 ≤ n ∧ n ≤ 57 then some (n - 48)
  else if 97 ≤ n ∧ n ≤ 102 then some (n - 87)
  else if 65 ≤ n ∧ n ≤ 70 then some (n - 55)
  else none

/-- Reads digit pairs from left to right, `position` counting the digits already read. -/
def decodePairs (position : Nat) : Bytes → Except Error Bytes
  | [] => .ok []
  | [_] => .error .oddLength
  | hi :: lo :: rest =>
    match digitValue? hi, digitValue? lo with
    | none, _ => .error (.invalidCharacter hi position)
    | some _, none => .error (.invalidCharacter lo (position + 1))
    | some h, some l => (decodePairs (position + 2) rest).map (UInt8.ofNat (16 * h + l) :: ·)

/-- Reads the bytes of a text as hexadecimal digits. -/
def decodeBytes (text : Bytes) : Except Error Bytes :=
  if text.length % 2 = 1 then .error .oddLength else decodePairs 0 text

/-- Reads a text as hexadecimal digits. -/
def decode (text : String) : Except Error Bytes :=
  decodeBytes text.toUTF8.data.toList

end Hex

end SpendScript

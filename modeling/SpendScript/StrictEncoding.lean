/-
  The strict forms of what a signature check reads: a signature in its one shortest encoding with
  the lower of its two S values, a defined hash type, and a public key of an accepted kind.

  A signature is written 0x30, length of the rest, 0x02, length of R, R, 0x02, length of S, S. R and
  S are big-endian, not empty, not negative and without a needless zero byte in front.
-/
import SpendScript.Bytes.Hex
import SpendScript.Flags

namespace SpendScript

/-- One of the two numbers of a signature. -/
inductive Component where
  | r
  | s
  deriving DecidableEq

/-- How a signature strays from its shape. -/
inductive DerError where
  | tooShort (length : Nat)
  | tooLong (length : Nat)
  | wrongSequenceMark (byte : UInt8)
  | wrongTotalLength (declared actual : Nat)
  | sOutOfBounds
  | wrongComponentLengths
  | missingMark (c : Component)
  | emptyComponent (c : Component)
  | negativeComponent (c : Component)
  | paddedComponent (c : Component)
  deriving DecidableEq

/-- Why a signature, hash type or key is refused. -/
inductive EncodingError where
  | der (e : DerError)
  | highS
  | hashType (byte : UInt8)
  | publicKey (length : Nat)
  | uncompressedKey
  deriving DecidableEq

/-- The wording of a shape error. -/
def DerError.message : DerError → String
  | .tooShort length => s!"too short: {length} < 8"
  | .tooLong length => s!"too long: {length} > 72"
  | .wrongSequenceMark byte => "format has wrong type: 0x" ++ Hex.ofNat byte.toNat
  | .wrongTotalLength declared actual => s!"bad length: {declared} != {actual}"
  | .sOutOfBounds => "S out of bounds"
  | .wrongComponentLengths => "invalid R length"
  | .missingMark .r => "missing first integer marker"
  | .missingMark .s => "missing second integer marker"
  | .emptyComponent .r => "R length is zero"
  | .emptyComponent .s => "S length is zero"
  | .negativeComponent .r => "R value is negative"
  | .negativeComponent .s => "S value is negative"
  | .paddedComponent .r => "invalid R value"
  | .paddedComponent .s => "invalid S value"

/-- The wording of a refusal. -/
def EncodingError.message : EncodingError → String
  | .der e => "malformed signature: " ++ e.message
  | .highS => "signature is not canonical due to unnecessarily high S value"
  | .hashType byte => "invalid hashtype: 0x" ++ Hex.ofNat byte.toNat
  | .publicKey length => s!"unsupported public key type of {length} bytes"
  | .uncompressedKey => "only compressed keys are accepted in witness version 0 programs"

/-- Whether what was refused is well formed and has a canonical twin. -/
def EncodingError.isNonCanonical : EncodingError → Bool
  | .highS => true
  | _ => false

namespace StrictEncoding

/-- Half the order of the curve group. A signature stays valid when S is subtracted from the order,
    so only values up to here are accepted. -/
def halfOrder : Nat := 0x7fffffffffffffffffffffffffffffff5d576e7357a4501ddfe92f46681b20a0

/-- The marks and bodies of the two numbers. -/
structure Parts where
  rMark : UInt8
  r : Bytes
  sMark : UInt8
  s : Bytes
  deriving DecidableEq

/-- Cuts a signature where its lengths say. -/
def split (sig : Bytes) : Except DerError Parts :=
  let length := sig.length
  let mark := sig.getD 0 0
  let declared := (sig.getD 1 0).toNat
  let rLength := (sig.getD 3 0).toNat
  let sLength := (sig.getD (rLength + 5) 0).toNat
  if length < 8 then .error (.tooShort length)
  else if 72 < length then .error (.tooLong length)
  else if mark ≠ 0x30 then .error (.wrongSequenceMark mark)
  else if declared ≠ length - 2 then .error (.wrongTotalLength declared (length - 2))
  else if length ≤ rLength + 5 then .error .sOutOfBounds
  else if rLength + sLength + 6 ≠ length then .error .wrongComponentLengths
  else
    .ok {
      rMark := sig.getD 2 0
      r := (sig.drop 4).take rLength
      sMark := sig.getD (rLength + 4) 0
      s := sig.drop (rLength + 6) }

/-- A number behind its mark: not empty, not negative, no zero byte in front that the sign does
    not need. -/
def checkComponent (c : Component) (mark : UInt8) (body : Bytes) : Except DerError Unit :=
  if mark ≠ 0x02 then .error (.missingMark c)
  else match body with
    | [] => .error (.emptyComponent c)
    | b :: rest =>
      if 0x80 ≤ b then .error (.negativeComponent c)
      else match rest with
        | [] => .ok ()
        | next :: _ => if b = 0 ∧ next < 0x80 then .error (.paddedComponent c) else .ok ()

/-- The shape of a signature without its hash type; the answer is the bytes of S. -/
def checkShape (sig : Bytes) : Except DerError Bytes := do
  let parts ← split sig
  checkComponent .r parts.rMark parts.r
  checkComponent .s parts.sMark parts.s
  return parts.s

/-- A signature without its hash type. -/
def checkSignature (sig : Bytes) : Except EncodingError Unit :=
  match checkShape sig with
  | .error e => .error (.der e)
  | .ok s => if halfOrder < Bytes.natBE s then .error .highS else .ok ()

/-- A hash type: apart from the high bit it is 1, 2 or 3. -/
def checkHashType (hashType : UInt8) (flags : Flags) : Except EncodingError Unit :=
  let base := hashType &&& 0x7f
  if flags.strictEncoding && !(1 ≤ base && base ≤ 3) then .error (.hashType hashType) else .ok ()

/-- A key of 33 bytes that starts with 2 or 3. -/
def isCompressed (key : Bytes) : Bool :=
  key.length = 33 && (key.head? == some 0x02 || key.head? == some 0x03)

/-- A key of 65 bytes that starts with 4. -/
def isUncompressed (key : Bytes) : Bool :=
  key.length = 65 && key.head? == some 0x04

/-- A public key. Spends of version 0 take compressed keys only, whatever the flags. -/
def checkPublicKey (key : Bytes) (versionZero : Bool) (flags : Flags) :
    Except EncodingError Unit :=
  if versionZero && !isCompressed key then .error .uncompressedKey
  else if flags.strictEncoding && !(isCompressed key || isUncompressed key) then
    .error (.publicKey key.length)
  else .ok ()

end StrictEncoding

end SpendScript

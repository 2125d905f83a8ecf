/-
  Signatures: two numbers below the group order, read from DER and checked against a digest and a
  key. A number that is negative or not below the order reads as zero, and a signature with a zero
  is never valid.
-/
import SpendScript.Curve.PublicKey

namespace SpendScript

/-- The two numbers of a signature. -/
structure Signature where
  r : Nat
  s : Nat
  deriving DecidableEq

namespace Signature

/-- Reads a DER length and gives the bytes after it. A long form must be needed, be shortest and
    stay within the bytes. -/
def readLength? : Bytes → Option (Nat × Bytes)
  | [] => none
  | b :: rest =>
    let n := b.toNat
    if n < 0x80 then some (n, rest)
    else
      let width := n - 0x80
      let length := Bytes.natBE (rest.take width)
      let body := rest.drop width
      if width = 0 ∨ 8 < width ∨ rest.length < width ∨ rest.head? = some 0 ∨
          body.length < length ∨ length < 128 then none
      else some (length, body)

/-- A number behind its mark and length. Needless bytes in front of it are refused; a value that is
    no scalar of the group is read as zero. -/
def readScalar? : Bytes → Option (Nat × Bytes)
  | [] => none
  | mark :: rest =>
    if mark ≠ 0x02 then none
    else match readLength? rest with
      | none => none
      | some (length, rest) =>
        let body := rest.take length
        let first := body.headD 0
        let second := (body.getD 1 0).toNat
        if length = 0 ∨ rest.length < length then none
        else if 1 < length ∧ first = 0x00 ∧ second < 0x80 then none
        else if 1 < length ∧ first = 0xff ∧ 0x80 ≤ second then none
        else
          let n := Bytes.natBE body
          some (if 0x80 ≤ first ∨ Curve.order ≤ n then 0 else n, rest.drop length)

/-- Reads a signature that fills the bytes. -/
def ofDer? : Bytes → Option Signature
  | [] => none
  | mark :: rest =>
    if mark ≠ 0x30 then none
    else do
      let (length, body) ← readLength? rest
      if length ≠ body.length then none
      else
        let (r, body) ← readScalar? body
        let (s, body) ← readScalar? body
        if body.isEmpty then some ⟨r, s⟩ else none

/-- The two numbers in 32 bytes each. -/
def compact (sig : Signature) : Bytes := Bytes.ofNatBE 32 sig.r ++ Bytes.ofNatBE 32 sig.s

/-- Whether the signature is one of this digest under this key, with the lower of its two possible
    values of s. -/
def isValid (sig : Signature) (digest : Bytes) (key : PublicKey) : Bool :=
  if sig.r = 0 ∨ sig.s = 0 ∨ Curve.order / 2 < sig.s then false
  else
    let w := Curve.inverse Curve.order sig.s
    let u := Bytes.natBE digest * w % Curve.order
    let v := sig.r * w % Curve.order
    match (Curve.Point.combine u v .generator key.toPoint).affineX? with
    | none => false
    | some x => x % Curve.order = sig.r

end Signature

end SpendScript

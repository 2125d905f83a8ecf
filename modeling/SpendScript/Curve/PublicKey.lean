/-
  Public keys: points of the curve, written compressed (33 bytes, y by its parity) or in full
  (65 bytes, with a mark that may name the parity as well).
-/
import SpendScript.Bytes
import SpendScript.Curve

namespace SpendScript

/-- A point of the curve by its two coordinates. -/
structure PublicKey where
  x : Nat
  y : Nat
  deriving DecidableEq

namespace PublicKey

/-- The point with this x whose y is odd or even as asked. -/
def ofX? (x : Nat) (odd : Bool) : Option PublicKey :=
  if x < Curve.fieldPrime then
    (Curve.sqrt? (Curve.rhs x)).map fun root =>
      ⟨x, if (root % 2 = 1) = odd then root else Curve.fieldPrime - root⟩
  else none

/-- The point with these coordinates, if it lies on the curve. -/
def ofXY? (x y : Nat) : Option PublicKey :=
  if x < Curve.fieldPrime ∧ y < Curve.fieldPrime ∧ Curve.mul y y = Curve.rhs x then some ⟨x, y⟩
  else none

/-- Reads a key. The marks 6 and 7 are those of a full key that names its parity. -/
def ofBytes? (bs : Bytes) : Option PublicKey :=
  match bs with
  | [] => none
  | mark :: body =>
    if body.length = 32 then
      if mark = 0x02 ∨ mark = 0x03 then ofX? (Bytes.natBE body) (mark = 0x03) else none
    else if body.length = 64 then
      let key := ofXY? (Bytes.natBE (body.take 32)) (Bytes.natBE (body.drop 32))
      if mark = 0x04 then key
      else if mark = 0x06 then key.filter fun k => k.y % 2 = 0
      else if mark = 0x07 then key.filter fun k => k.y % 2 = 1
      else none
    else none

/-- The key in 33 bytes. -/
def compressed (k : PublicKey) : Bytes :=
  (if k.y % 2 = 1 then 0x03 else 0x02) :: Bytes.ofNatBE 32 k.x

/-- The key as a point. -/
def toPoint (k : PublicKey) : Curve.Point := .ofAffine k.x k.y

end PublicKey

end SpendScript

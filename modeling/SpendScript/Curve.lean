/-
  The curve y² = x³ + 7 over the field of `fieldPrime` elements, whose points form a group of prime
  order `order`. Field elements are numbers below the prime; points are held in Jacobian form, where
  (x, y, z) stands for (x / z², y / z³) and z = 0 for the neutral point, so that adding needs no
  division.
-/

namespace SpendScript

namespace Curve

/-- The size of the field. -/
def fieldPrime : Nat := 0xfffffffffffffffffffffffffffffffffffffffffffffffffffffffefffffc2f

/-- The number of points. -/
def order : Nat := 0xfffffffffffffffffffffffffffffffebaaedce6af48a03bbfd25e8cd0364141

/-- Raises a number to a power modulo `m` by repeated squaring. -/
def powMod (m base exponent : Nat) : Nat :=
  if exponent = 0 then 1 % m
  else
    let half := powMod m (base * base % m) (exponent / 2)
    if exponent % 2 = 1 then base * half % m else half
termination_by exponent

/-- The inverse of a number modulo a prime. -/
def inverse (m a : Nat) : Nat := powMod m a (m - 2)

/-- The difference of two field elements. -/
def sub (a b : Nat) : Nat := (a + (fieldPrime - b % fieldPrime)) % fieldPrime

/-- The product of two field elements. -/
def mul (a b : Nat) : Nat := a * b % fieldPrime

/-- The right side of the curve equation. -/
def rhs (x : Nat) : Nat := (x * x % fieldPrime * x + 7) % fieldPrime

/-- A square root, if there is one. The prime is 3 modulo 4. -/
def sqrt? (a : Nat) : Option Nat :=
  let root := powMod fieldPrime a ((fieldPrime + 1) / 4)
  if mul root root = a then some root else none

/-- A point in Jacobian form. -/
structure Point where
  x : Nat
  y : Nat
  z : Nat
  deriving DecidableEq

namespace Point

/-- The neutral point. -/
def zero : Point := ⟨1, 1, 0⟩

/-- A point given by its two coordinates. -/
def ofAffine (x y : Nat) : Point := ⟨x, y, 1⟩

/-- The fixed point that keys are multiples of. -/
def generator : Point :=
  ofAffine 0x79be667ef9dcbbac55a06295ce870b07029bfcdb2dce28d959f2815b16f81798
    0x483ada7726a3c4655da4fbfc0e1108a8fd17b448a68554199c47d08ffb10d4b8

/-- A point added to itself. -/
def double (p : Point) : Point :=
  if p.z = 0 then zero
  else
    let a := mul p.x p.x
    let b := mul p.y p.y
    let c := mul b b
    let d := mul 4 (mul p.x b)
    let e := mul 3 a
    let x := sub (mul e e) (2 * d)
    ⟨x, sub (mul e (sub d x)) (8 * c), mul 2 (mul p.y p.z)⟩

/-- The sum of two points. -/
def add (p q : Point) : Point :=
  if p.z = 0 then q
  else if q.z = 0 then p
  else
    let pz2 := mul p.z p.z
    let qz2 := mul q.z q.z
    let u1 := mul p.x qz2
    let u2 := mul q.x pz2
    let s1 := mul p.y (mul q.z qz2)
    let s2 := mul q.y (mul p.z pz2)
    if u1 = u2 then
      if s1 = s2 then double p else zero
    else
      let h := sub u2 u1
      let r := sub s2 s1
      let h2 := mul h h
      let h3 := mul h h2
      let v := mul u1 h2
      let x := sub (mul r r) (h3 + 2 * v)
      ⟨x, sub (mul r (sub v x)) (mul s1 h3), mul h (mul p.z q.z)⟩

/-- The x coordinate, if the point is not neutral. -/
def affineX? (p : Point) : Option Nat :=
  if p.z = 0 then none else some (mul p.x (inverse fieldPrime (mul p.z p.z)))

/-- Doubles `acc` once for each of the low `bits` bits of `u` and `v`, highest first, and adds the
    points whose bit is set; `both` is the sum of the two. -/
def combineFrom (u v : Nat) (p q both : Point) : Nat → Point → Point
  | 0, acc => acc
  | bits + 1, acc =>
    let acc := acc.double
    let acc :=
      match u.testBit bits, v.testBit bits with
      | true, true => acc.add both
      | true, false => acc.add p
      | false, true => acc.add q
      | false, false => acc
    combineFrom u v p q both bits acc

/-- The point `u * p + v * q`, for factors below 2²⁵⁶. -/
def combine (u v : Nat) (p q : Point) : Point :=
  combineFrom u v p q (p.add q) 256 zero

end Point

end Curve

end SpendScript

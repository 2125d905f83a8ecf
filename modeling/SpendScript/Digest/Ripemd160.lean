/-
  RIPEMD-160: two lines of 80 rounds per block over five words, joined after the last round; a
  digest of 20 bytes (`length_ripemd160`).
-/
import SpendScript.Digest.Block

namespace SpendScript

namespace Digest

namespace Ripemd160

/-- The five working words. -/
structure State where
  a : UInt32
  b : UInt32
  c : UInt32
  d : UInt32
  e : UInt32

/-- The state before the first block. -/
def start : State := ⟨0x67452301, 0xefcdab89, 0x98badcfe, 0x10325476, 0xc3d2e1f0⟩

/-- The block words that the left line reads, in round order. -/
def leftOrder : List Nat := [
  0, 1, 2, 3, 4, 5, 6, 7, 8, 9, 10, 11, 12, 13, 14, 15,
  7, 4, 13, 1, 10, 6, 15, 3, 12, 0, 9, 5, 2, 14, 11, 8,
  3, 10, 14, 4, 9, 15, 8, 1, 2, 7, 0, 6, 13, 11, 5, 12,
  1, 9, 11, 10, 0, 8, 12, 4, 13, 3, 7, 15, 14, 5, 6, 2,
  4, 0, 5, 9, 7, 12, 2, 10, 14, 1, 3, 8, 11, 6, 15, 13]

/-- The block words that the right line reads, in round order. -/
def rightOrder : List Nat := [
  5, 14, 7, 0, 9, 2, 11, 4, 13, 6, 15, 8, 1, 10, 3, 12,
  6, 11, 3, 7, 0, 13, 5, 10, 14, 15, 8, 12, 4, 9, 1, 2,
  15, 5, 1, 3, 7, 14, 6, 9, 11, 8, 12, 2, 10, 0, 4, 13,
  8, 6, 4, 1, 3, 11, 15, 0, 5, 12, 2, 13, 9, 7, 10, 14,
  12, 15, 10, 4, 1, 5, 8, 7, 6, 2, 13, 14, 0, 3, 9, 11]

/-- The rotations of the left line, in round order. -/
def leftShifts : List UInt32 := [
  11, 14, 15, 12, 5, 8, 7, 9, 11, 13, 14, 15, 6, 7, 9, 8,
  7, 6, 8, 13, 11, 9, 7, 15, 7, 12, 15, 9, 11, 7, 13, 12,
  11, 13, 6, 7, 14, 9, 13, 15, 14, 8, 13, 6, 5, 12, 7, 5,
  11, 12, 14, 15, 14, 15, 9, 8, 9, 14, 5, 6, 8, 6, 5, 12,
  9, 15, 5, 11, 6, 8, 13, 12, 5, 12, 13, 14, 11, 8, 5, 6]

/-- The rotations of the right line, in round order. -/
def rightShifts : List UInt32 := [
  8, 9, 9, 11, 13, 15, 15, 5, 7, 7, 8, 11, 14, 14, 12, 6,
  9, 13, 15, 7, 12, 8, 9, 11, 7, 7, 12, 7, 6, 15, 13, 11,
  9, 7, 15, 11, 8, 6, 6, 14, 12, 13, 5, 14, 13, 13, 7, 5,
  15, 5, 8, 11, 14, 14, 6, 14, 6, 9, 12, 9, 12, 5, 15, 8,
  8, 5, 12, 9, 12, 5, 14, 6, 8, 13, 6, 5, 15, 13, 11, 11]

/-- The constants of the left line, one per sixteen rounds. -/
def leftConstants : List UInt32 := [0, 0x5a827999, 0x6ed9eba1, 0x8f1bbcdc, 0xa953fd4e]

/-- The constants of the right line, one per sixteen rounds. -/
def rightConstants : List UInt32 := [0x50a28be6, 0x5c4dd124, 0x6d703ef3, 0x7a6d76e9, 0]

/-- The five mixing functions, one per sixteen rounds of the left line; the right line takes them
    in reverse. -/
def mix (group : Nat) (x y z : UInt32) : UInt32 :=
  match group with
  | 0 => x ^^^ y ^^^ z
  | 1 => (x &&& y) ||| (~~~x &&& z)
  | 2 => (x ||| ~~~y) ^^^ z
  | 3 => (x &&& z) ||| (y &&& ~~~z)
  | _ => x ^^^ (y ||| ~~~z)

/-- What one round of a line uses besides its state. -/
structure Round where
  group : Nat
  word : UInt32
  shift : UInt32
  constant : UInt32

/-- One round of a line. -/
def round (s : State) (r : Round) : State :=
  let t := rotateLeft (s.a + mix r.group s.b s.c s.d + r.word + r.constant) r.shift + s.e
  ⟨s.e, t, s.b, rotateLeft s.c 10, s.d⟩

/-- The rounds of a line over the words of a block. -/
def line (group : Nat → Nat) (order : List Nat) (shifts constants : List UInt32)
    (block : Array UInt32) : List Round :=
  (order.zip shifts).zipIdx.map fun ((word, shift), t) =>
    ⟨group (t / 16), block.getD word 0, shift, constants.getD (t / 16) 0⟩

/-- Takes one block into the state. -/
def compress (s : State) (block : Bytes) : State :=
  let w := (words Bytes.natLE block).toArray
  let l := (line id leftOrder leftShifts leftConstants w).foldl round s
  let r := (line (4 - ·) rightOrder rightShifts rightConstants w).foldl round s
  ⟨s.b + l.c + r.d, s.c + l.d + r.e, s.d + l.e + r.a, s.e + l.a + r.b, s.a + l.b + r.c⟩

/-- The words of a state, each lowest byte first. -/
def State.toBytes (s : State) : Bytes :=
  [s.a, s.b, s.c, s.d, s.e].flatMap fun w => Bytes.ofNatLE 4 w.toNat

end Ripemd160

/-- The RIPEMD-160 digest of a byte string. -/
def ripemd160 (message : Bytes) : Bytes :=
  (absorbAll Ripemd160.compress (pad (Bytes.ofNatLE 8) message) Ripemd160.start).toBytes

@[simp] theorem length_ripemd160 (message : Bytes) : (ripemd160 message).length = 20 := by
  simp [ripemd160, Ripemd160.State.toBytes]

end Digest

end SpendScript

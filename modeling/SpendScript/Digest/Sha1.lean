/-
  SHA-1: 80 rounds per block over five words, a digest of 20 bytes (`length_sha1`).
-/
import SpendScript.Digest.Block

namespace SpendScript

namespace Digest

namespace Sha1

/-- The five working words. -/
structure State where
  a : UInt32
  b : UInt32
  c : UInt32
  d : UInt32
  e : UInt32

/-- The state before the first block. -/
def start : State := ⟨0x67452301, 0xefcdab89, 0x98badcfe, 0x10325476, 0xc3d2e1f0⟩

/-- Appends `n` words to a schedule, each mixed from four of the sixteen before it. -/
def extend : Nat → Array UInt32 → Array UInt32
  | 0, w => w
  | n + 1, w =>
    let x := w.getD (w.size - 3) 0 ^^^ w.getD (w.size - 8) 0 ^^^ w.getD (w.size - 14) 0 ^^^
      w.getD (w.size - 16) 0
    extend n (w.push (rotateLeft x 1))

/-- The 80 words that a block gives to its rounds. -/
def schedule (block : Bytes) : List UInt32 :=
  (extend 64 (words Bytes.natBE block).toArray).toList

/-- The mixing function and the constant of a round, by its number. -/
def mix (t : Nat) (b c d : UInt32) : UInt32 × UInt32 :=
  if t < 20 then ((b &&& c) ||| (~~~b &&& d), 0x5a827999)
  else if t < 40 then (b ^^^ c ^^^ d, 0x6ed9eba1)
  else if t < 60 then ((b &&& c) ||| (b &&& d) ||| (c &&& d), 0x8f1bbcdc)
  else (b ^^^ c ^^^ d, 0xca62c1d6)

/-- One round with its schedule word and its number. -/
def round (s : State) (wt : UInt32 × Nat) : State :=
  let (f, k) := mix wt.2 s.b s.c s.d
  ⟨rotateLeft s.a 5 + f + s.e + k + wt.1, s.a, rotateLeft s.b 30, s.c, s.d⟩

/-- Takes one block into the state. -/
def compress (s : State) (block : Bytes) : State :=
  let t := (schedule block).zipIdx.foldl round s
  ⟨s.a + t.a, s.b + t.b, s.c + t.c, s.d + t.d, s.e + t.e⟩

/-- The words of a state, each highest byte first. -/
def State.toBytes (s : State) : Bytes :=
  [s.a, s.b, s.c, s.d, s.e].flatMap fun w => Bytes.ofNatBE 4 w.toNat

end Sha1

/-- The SHA-1 digest of a byte string. -/
def sha1 (message : Bytes) : Bytes :=
  (absorbAll Sha1.compress (pad (Bytes.ofNatBE 8) message) Sha1.start).toBytes

@[simp] theorem length_sha1 (message : Bytes) : (sha1 message).length = 20 := by
  simp [sha1, Sha1.State.toBytes]

end Digest

end SpendScript

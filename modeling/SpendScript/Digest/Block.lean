/-
  What the block hashes share. A message is followed by the byte 0x80, zeros up to eight bytes short
  of a multiple of 64, and its length in bits; a state then takes in the 64-byte blocks in order.
-/
import SpendScript.Bytes

namespace SpendScript

namespace Digest

/-- Rotates a word to the left by `n` bits, `0 < n < 32`. -/
def rotateLeft (x n : UInt32) : UInt32 := (x <<< n) ||| (x >>> (32 - n))

/-- Rotates a word to the right by `n` bits, `0 < n < 32`. -/
def rotateRight (x n : UInt32) : UInt32 := (x >>> n) ||| (x <<< (32 - n))

/-- How many zero bytes stand between the mark and the length. -/
def paddingZeros (length : Nat) : Nat := (119 - length % 64) % 64

/-- The padded message; `writeLength` spells the bit count in eight bytes. -/
def pad (writeLength : Nat → Bytes) (message : Bytes) : Bytes :=
  message ++ 0x80 :: List.replicate (paddingZeros message.length) 0 ++
    writeLength (8 * message.length)

/-- Feeds `count` blocks of 64 bytes to a state. -/
def absorb {σ : Type} (compress : σ → Bytes → σ) : Nat → Bytes → σ → σ
  | 0, _, s => s
  | count + 1, bs, s => absorb compress count (bs.drop 64) (compress s (bs.take 64))

/-- Feeds a whole padded message to a state. -/
def absorbAll {σ : Type} (compress : σ → Bytes → σ) (padded : Bytes) (s : σ) : σ :=
  absorb compress (padded.length / 64) padded s

/-- A block as words, each read by `readWord` from four bytes. -/
def words (readWord : Bytes → Nat) : Bytes → List UInt32
  | a :: b :: c :: d :: rest => UInt32.ofNat (readWord [a, b, c, d]) :: words readWord rest
  | _ => []

end Digest

end SpendScript

/-
  Blocks: a header, which names the block before it, and transactions. A block is known by the
  double SHA-256 of its header, which is shown with its bytes in reverse.
-/
import SpendScript.Bytes.Hex
import SpendScript.Digest
import SpendScript.Transaction.Reader
import SpendScript.Transaction.Writer

namespace SpendScript

/-- The digest by which a block is known. -/
structure BlockHash where
  bytes : Bytes
  deriving DecidableEq, Hashable

/-- The hash in hexadecimal, last byte first. -/
def BlockHash.text (h : BlockHash) : String := Hex.encode h.bytes.reverse

/-- The part of a block that its hash covers. -/
structure BlockHeader where
  version : UInt32
  parent : BlockHash
  merkleRoot : Bytes
  time : UInt32
  bits : UInt32
  nonce : UInt32
  deriving DecidableEq

/-- A block. -/
structure Block where
  header : BlockHeader
  transactions : List Transaction
  deriving DecidableEq

/-- The bytes of a header. -/
def BlockHeader.toBytes (h : BlockHeader) : Bytes :=
  Bytes.ofNatLE 4 h.version.toNat ++ h.parent.bytes ++ h.merkleRoot ++
    Bytes.ofNatLE 4 h.time.toNat ++ Bytes.ofNatLE 4 h.bits.toNat ++ Bytes.ofNatLE 4 h.nonce.toNat

namespace Reader

/-- A header. -/
def blockHeader : Reader BlockHeader := do
  let version ← nat 4
  let parent ← bytes 32
  let merkleRoot ← bytes 32
  let time ← nat 4
  let bits ← nat 4
  let nonce ← nat 4
  return ⟨UInt32.ofNat version, ⟨parent⟩, merkleRoot, UInt32.ofNat time, UInt32.ofNat bits,
    UInt32.ofNat nonce⟩

/-- A block. -/
def block : Reader Block := do
  let header ← blockHeader
  let transactions ← list transaction
  return ⟨header, transactions⟩

end Reader

namespace Block

/-- The hash of a block. -/
def hash (b : Block) : BlockHash := ⟨Digest.hash256 b.header.toBytes⟩

/-- The block that this one builds on. -/
def parent (b : Block) : BlockHash := b.header.parent

/-- The bytes of a block. -/
def toBytes (b : Block) : Bytes :=
  b.header.toBytes ++ Bytes.sizedList Transaction.toBytes b.transactions

/-- Reads a block that fills the bytes. -/
def ofBytes (bs : Bytes) : Except DecodeError Block := Reader.run Reader.block bs

end Block

end SpendScript

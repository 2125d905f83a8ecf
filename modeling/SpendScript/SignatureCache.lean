/-
  Signatures already found valid, by the digest they sign. The cache holds a bounded number of them,
  most recently used first; storing and finding a digest both count as uses.
-/
import SpendScript.Curve.Signature

namespace SpendScript

/-- A valid signature under the digest it signs. -/
structure CachedSignature where
  digest : Bytes
  signature : Signature
  key : PublicKey
  deriving DecidableEq

/-- The cached signatures, the most recently used first. -/
structure SignatureCache where
  capacity : Nat
  entries : List CachedSignature
  deriving DecidableEq

namespace SignatureCache

/-- The largest number of entries, whatever the capacity. -/
def maxEntries : Nat := 4294967295

/-- A cache without entries. -/
def empty (capacity : Nat) : SignatureCache := ⟨capacity, []⟩

/-- How many entries the cache may hold. -/
def limit (c : SignatureCache) : Nat := min c.capacity maxEntries

/-- The number of entries. -/
def size (c : SignatureCache) : Nat := c.entries.length

/-- The entry of a digest. -/
def find? (c : SignatureCache) (digest : Bytes) : Option CachedSignature :=
  c.entries.find? fun e => e.digest == digest

/-- The cache with this entry as the most recent one of its digest. -/
def promote (c : SignatureCache) (entry : CachedSignature) : SignatureCache :=
  { c with entries := entry :: c.entries.filter fun e => e.digest != entry.digest }

/-- Whether this signature and key are stored under the digest. Finding the digest counts as a use,
    also when signature or key differ. -/
def lookup (c : SignatureCache) (digest : Bytes) (sig : Signature) (key : PublicKey) :
    Bool × SignatureCache :=
  match c.find? digest with
  | none => (false, c)
  | some entry => (entry.signature = sig && entry.key = key, c.promote entry)

/-- Stores a signature in place of any other of its digest, and lets the least recently used entry
    go if there are too many. -/
def add (c : SignatureCache) (digest : Bytes) (sig : Signature) (key : PublicKey) :
    SignatureCache :=
  let c := c.promote ⟨digest, sig, key⟩
  { c with entries := c.entries.take c.limit }

/-- A short account of the cache. -/
def text (c : SignatureCache) : String :=
  s!"SigCache \x7b len: {c.size}, max_entries: {c.capacity} \x7d"

end SignatureCache

end SpendScript

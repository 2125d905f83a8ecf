/-
  A signature cache on top of a map that forgets the entries used longest ago. The map may be any one
  with these operations; the cache keeps it behind the capacity that was asked for.
-/
import SpendScript.SignatureCache

namespace SpendScript

/-- A map with room for a number of entries. -/
structure RecencyMap (κ ν μ : Type) where
  /-- The map without entries that has room for so many. -/
  empty : Nat → μ
  get : κ → μ → Option ν × μ
  insert : κ → ν → μ → μ
  size : μ → Nat
  /-- How many entries there is room for. -/
  limit : μ → Nat
  /-- The entries, the one used last first. -/
  entries : μ → List (κ × ν)

/-- A cache of signatures, with a map from digests. -/
structure BackedCache (μ : Type) where
  capacity : Nat
  map : μ

namespace BackedCache

variable {μ : Type} (L : RecencyMap Bytes (Signature × PublicKey) μ)

/-- A cache without entries. Its map has room for no more than 32 bits can count. -/
def empty (capacity : Nat) : BackedCache μ where
  capacity := capacity
  map := L.empty (min capacity SignatureCache.maxEntries)

/-- Whether this signature and key are stored under the digest. -/
def lookup (c : BackedCache μ) (digest : Bytes) (sig : Signature) (key : PublicKey) :
    Bool × BackedCache μ :=
  match L.get digest c.map with
  | (none, map) => (false, { c with map := map })
  | (some entry, map) => (entry.1 = sig && entry.2 = key, { c with map := map })

/-- Stores a signature. A cache without capacity does not ask its map. -/
def add (c : BackedCache μ) (digest : Bytes) (sig : Signature) (key : PublicKey) : BackedCache μ :=
  if c.capacity = 0 then c else { c with map := L.insert digest (sig, key) c.map }

/-- The number of entries. -/
def size (c : BackedCache μ) : Nat := L.size c.map

end BackedCache

end SpendScript

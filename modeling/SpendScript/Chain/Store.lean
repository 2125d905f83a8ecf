/-
  A store of one chain of blocks. Blocks are found by hash and by height. A block is only taken on
  top of the last one; to follow another branch, the blocks above the fork are dropped first. A
  failing operation leaves the store as it was.

  A height is a word of 32 bits, while the hashes of a chain are counted without a bound. That matters
  from 2 ^ 32 blocks on: the height of the next block then is 0 again, and dropping the blocks above
  such a block drops more than that. The height is counted up from that of the tip, and this is the one
  step that a build that checks its arithmetic breaks off there. Below that bound heights and places
  are the same numbers.
-/
import SpendScript.Chain.Block
import Std.Data.ExtHashMap

namespace SpendScript

/-- Why a store refuses. -/
inductive ChainError where
  | unknownHash (hash : BlockHash)
  | unknownHeight (height : UInt32)
  | orphan (hash parent : BlockHash)
  | duplicate (hash : BlockHash)
  | notOnTip (parent tip : BlockHash)
  deriving DecidableEq

/-- The wording of a refusal. -/
def ChainError.message : ChainError → String
  | .unknownHash hash => s!"block {hash.text} is missing"
  | .unknownHeight height => s!"no block at height {height}"
  | .orphan hash parent => s!"parent {parent.text} of block {hash.text} is unknown"
  | .duplicate hash => s!"block {hash.text} already exists"
  | .notOnTip parent tip => s!"parent {parent.text} is not the chain tip {tip.text}"

/-- A block by its height and hash. -/
structure IndexedBlock where
  height : UInt32
  hash : BlockHash
  deriving DecidableEq

/-- A height and a hash on one line. -/
def IndexedBlock.text (b : IndexedBlock) : String := s!"#{b.height}," ++ b.hash.text

/-- The blocks of one chain. -/
structure ChainStore where
  blocks : Std.ExtHashMap BlockHash Block
  heights : Std.ExtHashMap BlockHash UInt32
  /-- The hash of each height. -/
  hashes : Array BlockHash

/-- An operation on a store. -/
abbrev ChainM := EStateM ChainError ChainStore

/-- A number moved into bounds, which must be in order. -/
def clamp? (low high n : Nat) : Option Nat :=
  if low ≤ high then some (max low (min n high)) else none

/-- The elements from one place up to, but without, another. Both places must lie in the array, the
    first one not behind the last one. -/
def slice? {α : Type} (xs : Array α) (first last : Nat) : Option (List α) :=
  if first ≤ last ∧ last ≤ xs.size then some (xs.extract first last).toList else none

namespace ChainStore

/-- The store without blocks. -/
def empty : ChainStore := ⟨∅, ∅, #[]⟩

/-- The number of blocks. -/
def size (s : ChainStore) : Nat := s.hashes.size

/-- Whether there are no blocks. -/
def isEmpty (s : ChainStore) : Bool := s.hashes.isEmpty

/-- The last block of the chain. -/
def tip? (s : ChainStore) : Option IndexedBlock :=
  s.hashes.back?.map fun hash => ⟨UInt32.ofNat (s.hashes.size - 1), hash⟩

/-- The height that the next block gets. -/
def nextHeight (s : ChainStore) : UInt32 :=
  match s.tip? with
  | none => 0
  | some tip => tip.height + 1

/-- Whether a block is stored. -/
def contains (s : ChainStore) (hash : BlockHash) : Bool := s.blocks.contains hash

/-- The block with this hash. -/
def block (s : ChainStore) (hash : BlockHash) : Except ChainError Block :=
  match s.blocks[hash]? with
  | some b => .ok b
  | none => .error (.unknownHash hash)

/-- The height of the block with this hash. -/
def height (s : ChainStore) (hash : BlockHash) : Except ChainError UInt32 :=
  match s.heights[hash]? with
  | some n => .ok n
  | none => .error (.unknownHash hash)

/-- The hash of the block at this height. -/
def hashAt (s : ChainStore) (height : UInt32) : Except ChainError BlockHash :=
  match s.hashes[height.toNat]? with
  | some hash => .ok hash
  | none => .error (.unknownHeight height)

/-- The hashes between two heights, once both have been moved into the chain. -/
def range? (s : ChainStore) (start stop : UInt32) : Option (List BlockHash) := do
  let first := min start.toNat s.hashes.size
  let last ← clamp? first s.hashes.size stop.toNat
  slice? s.hashes first last

/-- The hashes from one height up to, but without, another, as far as the chain goes. -/
def range (s : ChainStore) (start stop : UInt32) : List BlockHash := (s.range? start stop).getD []

/-- The store with a block on top of its chain. -/
def append (s : ChainStore) (b : Block) : ChainStore where
  blocks := s.blocks.insert b.hash b
  heights := s.heights.insert b.hash s.nextHeight
  hashes := s.hashes.push b.hash

/-- Why a block can not come next, if so. Only the first block may have an unknown parent. -/
def refusal? (s : ChainStore) (b : Block) : Option ChainError :=
  if s.contains b.hash then some (.duplicate b.hash)
  else match s.tip? with
    | none => none
    | some tip =>
      if tip.hash = b.parent then none
      else if s.heights.contains b.parent then some (.notOnTip b.parent tip.hash)
      else some (.orphan b.hash b.parent)

/-- Puts a block on top of the chain and gives its height. -/
def insert (b : Block) : ChainM UInt32 := fun s =>
  match s.refusal? b with
  | some e => .error e s
  | none => .ok s.nextHeight (s.append b)

/-- The store with only the blocks below this height. -/
def truncate (s : ChainStore) (count : Nat) : ChainStore :=
  let dropped := (s.hashes.extract count s.hashes.size).toList
  { blocks := dropped.foldl (fun m h => m.erase h) s.blocks
    heights := dropped.foldl (fun m h => m.erase h) s.heights
    hashes := s.hashes.extract 0 count }

/-- Drops the blocks above the block with this hash, which becomes the last one. -/
def dropAfter (hash : BlockHash) : ChainM Unit := fun s =>
  match s.height hash with
  | .error e => .error e s
  | .ok height => .ok () (s.truncate (height.toNat + 1))

end ChainStore

end SpendScript

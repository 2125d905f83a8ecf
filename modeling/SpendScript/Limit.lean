/-
  The bounds that scripts and witnesses are held to.
-/

namespace SpendScript

namespace Limit

/-- The most bytes of a script. -/
def scriptSize : Nat := 10000

/-- The most bytes of a pushed item. -/
def elementSize : Nat := 520

/-- The most operations of a script, pushes not counted. -/
def operations : Nat := 201

/-- The most items on both stacks together. -/
def stackItems : Nat := 1000

/-- The most keys of one multiple signature check. -/
def keys : Nat := 20

/-- The most elements of a witness, and the most bytes that they take behind their sizes. -/
def witnessSize : Nat := 4000000

/-- The lowest height a locking script may ask for. -/
def minLockHeight : Nat := 1000

/-- The first height a locking script may no longer ask for. -/
def lockHeightBound : Nat := 4194304

end Limit

end SpendScript

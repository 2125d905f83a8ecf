/-
  Sizes that stand before what they count: the number of bytes of a string, or of things in a
  list. A size takes as few bytes as its range allows, so each size has one form.
-/
import SpendScript.Bytes

namespace SpendScript

namespace Bytes

/-- A size in one byte, or in two, four or eight behind a mark, whichever is the least that can
    hold it. -/
def ofSize (n : Nat) : Bytes :=
  if n < 0xfd then ofNatLE 1 n
  else if n ≤ 0xffff then 0xfd :: ofNatLE 2 n
  else if n ≤ 0xffffffff then 0xfe :: ofNatLE 4 n
  else 0xff :: ofNatLE 8 n

/-- A byte string behind its size. -/
def sized (bs : Bytes) : Bytes := ofSize bs.length ++ bs

/-- A list of things behind its size. -/
def sizedList {α : Type} (write : α → Bytes) (xs : List α) : Bytes :=
  ofSize xs.length ++ xs.flatMap write

end Bytes

end SpendScript

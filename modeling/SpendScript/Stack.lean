/-
  The stack of byte strings, top first. Every operation that needs more items than there are fails
  and leaves the stack as it was; only reading a number off the top removes the item before it can
  fail.

  An index is a machine word of 64 bits, and so is the number of items down to it. That matters in one
  place: the largest word has no successor, and a call with this index is broken off instead of being
  answered (`StackError.indexOverflow`). Signed indices can not reach it, so no script can. The number
  of items in a block is a natural number here. Scripts move blocks of up to three items; a direct call
  is only described by the operations on blocks as long as a word counts three such blocks.
-/
import SpendScript.Bytes.Hex
import SpendScript.Number

namespace SpendScript

/-- Why a stack operation failed. -/
inductive StackError where
  | empty
  | tooShallow (required depth : Nat)
  | negativeIndex (n : Int)
  | number (e : Number.Error)
  /-- Not returned by the call, but what breaks it off. -/
  | indexOverflow
  deriving DecidableEq

/-- The wording of a failure. -/
def StackError.message : StackError → String
  | .empty => "attempt to read from an empty stack"
  | .tooShallow required depth =>
    s!"operation requires {required} stack items, but only {depth} are present"
  | .negativeIndex n => s!"negative stack index {n}"
  | .number e => e.message
  | .indexOverflow => "attempt to add with overflow"

/-- Byte strings, the top one first. -/
abbrev Stack := List Bytes

/-- A stack operation. What it did before failing stays done. -/
abbrev StackM := EStateM StackError Stack

/-- The truth of an item: some bit is set besides the sign. -/
def truth (item : Bytes) : Bool :=
  match item.reverse with
  | [] => false
  | last :: below => below.any (· != 0) || last &&& 0x7f != 0

/-- The item that stands for a truth value. -/
def ofTruth (b : Bool) : Bytes := if b then [1] else []

namespace StackM

/-- Fails unless there are `n` items. -/
def require (n : Nat) : StackM Unit := fun s =>
  if s.length < n then .error (.tooShallow n s.length) s else .ok () s

/-- Puts an item on top. -/
def push (item : Bytes) : StackM Unit := fun s => .ok () (item :: s)

/-- Puts the shortest form of a number on top. -/
def pushNumber (n : Int) : StackM Unit := push (Number.encode n)

/-- Puts a length on top, taken as a signed 64-bit word. -/
def pushLength (n : Nat) : StackM Unit := pushNumber (Number.wrap n)

/-- Puts a truth value on top. -/
def pushTruth (b : Bool) : StackM Unit := push (ofTruth b)

/-- Takes the top item off. -/
def pop : StackM Bytes
  | [] => .error .empty []
  | item :: s => .ok item s

/-- Takes the top item off as a truth value. -/
def popTruth : StackM Bool := do
  let item ← pop
  return truth item

/-- Reads an item as a number. -/
def readNumber (minimal : Bool) (max : Nat) (item : Bytes) : StackM Int := fun s =>
  match Number.decode item minimal max with
  | .ok n => .ok n s
  | .error e => .error (.number e) s

/-- Takes the top item off as an arithmetic operand. -/
def popNumber (minimal : Bool) : StackM Int := do
  let item ← pop
  readNumber minimal Number.operandSize item

/-- The item `i` places below the top. The items down to it have to be counted in a word. -/
def item (i : UInt64) : StackM Bytes := fun s =>
  if i + 1 = 0 then .error .indexOverflow s
  else match s[i.toNat]? with
  | some x => .ok x s
  | none => .error (.tooShallow (i.toNat + 1) s.length) s

theorem item_ok {i : UInt64} {x : Bytes} {s s' : Stack} :
    item i s = .ok x s' ↔ i + 1 ≠ 0 ∧ s[i.toNat]? = some x ∧ s' = s := by
  unfold item
  by_cases hi : i + 1 = 0
  · rw [if_pos hi]
    exact iff_of_false (fun h => nomatch h) fun h => h.1 hi
  · rw [if_neg hi]
    rcases s[i.toNat]? with _ | y
    · exact iff_of_false (fun h => nomatch h) fun h => nomatch h.2.1
    · rw [EStateM.Result.ok.injEq, Option.some.injEq, eq_comm (a := s)]
      exact ⟨fun h => ⟨hi, h⟩, fun h => h.2⟩

/-- The item `i` places below the top, of a stack that may be empty. -/
def peek (i : UInt64) : StackM Bytes := fun s =>
  if s.isEmpty then .error .empty s else item i s

/-- The truth of the top item. -/
def peekTruth : StackM Bool := do
  let x ← peek 0
  return truth x

/-- The top item as a number of at most `max` bytes. -/
def peekNumber (minimal : Bool) (max : Nat) : StackM Int := do
  let x ← peek 0
  readNumber minimal max x

/-- Rearranges the stack if it has `n` items. -/
def rearrange (n : Nat) (f : Stack → Stack) : StackM Unit := do
  require n
  modify f

/-- Removes the top `n` items. -/
def drop (n : Nat) : StackM Unit := rearrange n (List.drop n)

/-- Copies the top `n` items. -/
def dup (n : Nat) : StackM Unit := rearrange n fun s => s.take n ++ s

/-- Copies the second block of `n` items to the top. -/
def copyOver (n : Nat) : StackM Unit := rearrange (2 * n) fun s => (s.drop n).take n ++ s

/-- Moves the third block of `n` items to the top. -/
def rot (n : Nat) : StackM Unit :=
  rearrange (3 * n) fun s => (s.drop (2 * n)).take n ++ (s.take (2 * n) ++ s.drop (3 * n))

/-- Exchanges the two topmost blocks of `n` items. -/
def swap (n : Nat) : StackM Unit :=
  rearrange (2 * n) fun s => (s.drop n).take n ++ (s.take n ++ s.drop (2 * n))

/-- Removes the item `i` places below the top and returns it. -/
def nip (i : UInt64) : StackM Bytes := do
  let x ← item i
  modify fun s => s.eraseIdx i.toNat
  return x

/-- An index that must not be negative. -/
def index (i : Int64) : StackM UInt64 := fun s =>
  if i < 0 then .error (.negativeIndex i.toInt) s else .ok i.toUInt64 s

/-- Copies the item `i` places below the top. -/
def pick (i : Int64) : StackM Unit := do
  let x ← item (← index i)
  push x

/-- Moves the item `i` places below the top to the top. -/
def roll (i : Int64) : StackM Unit := do
  let x ← nip (← index i)
  push x

/-- Copies the top item below the second one. -/
def tuck : StackM Unit :=
  rearrange 2 fun s => s.take 2 ++ (s.take 1 ++ s.drop 2)

end StackM

namespace Stack

/-- An item in hexadecimal. -/
def itemText (item : Bytes) : String :=
  if item.isEmpty then "<empty>" else Hex.encode item

/-- The items from the bottom to the top. -/
def text (s : Stack) : String :=
  "[" ++ ", ".intercalate (s.reverse.map itemText) ++ "]"

end Stack

end SpendScript

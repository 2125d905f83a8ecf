/-
  Reading a transaction from bytes. A reader takes bytes off the front; it fails when they run out,
  when a size is not in its least form, when a witness is larger than its bound, and when the flag
  form is used wrongly. A witness is refused by the sizes it states, before the bytes behind them
  are asked for.
-/
import SpendScript.Bytes.Size
import SpendScript.Limit
import SpendScript.Transaction

namespace SpendScript

/-- Why bytes are no transaction. -/
inductive DecodeError where
  | outOfBytes
  | sizeNotMinimal
  | witnessTooLarge (requested : Nat)
  | unknownFlag (flag : Nat)
  | noWitnesses
  | bytesLeft
  deriving DecidableEq

/-- The wording of a failure. -/
def DecodeError.message : DecodeError → String
  | .outOfBytes => "IO error"
  | .sizeNotMinimal => "non-minimal varint"
  | .witnessTooLarge requested =>
    s!"allocation of oversized vector: requested {requested}, maximum {Limit.witnessSize}"
  | .unknownFlag flag => s!"unsupported segwit version: {flag}"
  | .noWitnesses => "parse failed: witness flag set but no witnesses present"
  | .bytesLeft => "parse failed: data not consumed entirely when explicitly deserializing"

/-- Takes bytes off the front and gives what they spell. -/
abbrev Reader (α : Type) := StateT Bytes (Except DecodeError) α

namespace Reader

/-- The next `n` bytes. -/
def bytes (n : Nat) : Reader Bytes := fun bs =>
  let taken := bs.take n
  if taken.length < n then .error .outOfBytes else .ok (taken, bs.drop n)

/-- The next `width` bytes as a little-endian number. -/
def nat (width : Nat) : Reader Nat := do
  return Bytes.natLE (← bytes width)

/-- A number of `width` bytes that needs them: it is at least `least`. -/
def natFrom (width least : Nat) : Reader Nat := do
  let n ← nat width
  if n < least then throw .sizeNotMinimal
  return n

/-- A size in its least form. -/
def size : Reader Nat := do
  match ← nat 1 with
  | 0xfd => natFrom 2 0xfd
  | 0xfe => natFrom 4 0x10000
  | 0xff => natFrom 8 0x100000000
  | n => return n

/-- The same reader `n` times. -/
def times {α : Type} (read : Reader α) : Nat → Reader (List α)
  | 0 => return []
  | n + 1 => do
    let x ← read
    let xs ← times read n
    return x :: xs

/-- A list behind its size. -/
def list {α : Type} (read : Reader α) : Reader (List α) := do
  times read (← size)

/-- A byte string behind its size. -/
def sized : Reader Bytes := do
  bytes (← size)

/-- An input, still without its witness. -/
def input : Reader TxInput := do
  let txid ← bytes 32
  let index ← nat 4
  let script ← sized
  let sequence ← nat 4
  return ⟨⟨txid, UInt32.ofNat index⟩, script, UInt32.ofNat sequence, []⟩

/-- An output. -/
def output : Reader TxOutput := do
  let amount ← nat 8
  let script ← sized
  return ⟨UInt64.ofNat amount, script⟩

/-- Refuses a witness that asks for `requested` bytes; a request counts up to the largest size. -/
def refuseWitness {α : Type} (requested : Nat) : Reader α :=
  throw (.witnessTooLarge (min requested 0xffffffffffffffff))

/-- The next `n` elements of a witness, of which `used` bytes are read. A request counts what the
    elements take behind their sizes, and `places` bytes that say where each element stands. -/
def witnessElements (places : Nat) : Nat → Nat → Reader (List Bytes)
  | _, 0 => return []
  | used, n + 1 => do
    let length ← size
    let used := used + (Bytes.ofSize length).length + length
    if used > Limit.witnessSize then refuseWitness (places + used)
    let element ← bytes length
    let elements ← witnessElements places used n
    return element :: elements

/-- The elements of a witness. The place of an element takes four bytes. -/
def witness : Reader (List Bytes) := do
  let count ← size
  if count > Limit.witnessSize then refuseWitness count
  witnessElements (4 * count) 0 count

/-- The same inputs with a witness read for each. -/
def witnesses : List TxInput → Reader (List TxInput)
  | [] => return []
  | i :: rest => do
    let witness ← witness
    let rest ← witnesses rest
    return { i with witness := witness } :: rest

/-- The inputs and outputs of the flag form, behind the empty input count. -/
def flagged : Reader (List TxInput × List TxOutput) := do
  let flag ← nat 1
  if flag ≠ 1 then throw (.unknownFlag flag)
  let inputs ← list input
  let outputs ← list output
  let inputs ← witnesses inputs
  if !inputs.isEmpty && inputs.all (fun i => i.witness.isEmpty) then throw .noWitnesses
  return (inputs, outputs)

/-- A transaction. -/
def transaction : Reader Transaction := do
  let version := (UInt32.ofNat (← nat 4)).toInt32
  let inputs ← list input
  let (inputs, outputs) ← if inputs.isEmpty then flagged else do
    let outputs ← list output
    pure (inputs, outputs)
  let lockTime ← nat 4
  return ⟨version, inputs, outputs, UInt32.ofNat lockTime⟩

/-- Reads one thing that fills the bytes. -/
def run {α : Type} (read : Reader α) (bs : Bytes) : Except DecodeError α := do
  let (x, rest) ← read bs
  if rest.isEmpty then return x else throw .bytesLeft

end Reader

/-- Reads a transaction that fills the bytes. -/
def Transaction.ofBytes (bs : Bytes) : Except DecodeError Transaction :=
  Reader.run Reader.transaction bs

end SpendScript

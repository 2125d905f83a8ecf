/-
  The two ways an output can be locked. It names the hash of a redeem script, or a block height; in
  both cases the witness shows a signature script of pushes and a redeem script. `classify` tells
  which of the two a locking script is and whether the witness fits it.
-/
import SpendScript.Digest
import SpendScript.ScriptError

namespace SpendScript

/-- How an output is locked. -/
inductive Spend where
  /-- By the hash of the redeem script. -/
  | hashLocked (program : Bytes)
  /-- By a block height. -/
  | lockHeight (height : Nat)
  deriving DecidableEq

namespace Spend

/-- The witness version of a spend. -/
def version : Spend → Nat
  | hashLocked _ => 0
  | lockHeight _ => 10

/-- Whether a height locks the output. -/
def isLockHeight : Spend → Bool
  | hashLocked _ => false
  | lockHeight _ => true

/-- The hash that a script names by pushing nothing and then 20 or 32 bytes. -/
def program? : Script → Option Bytes
  | [version, push] =>
    if version.opcode.value = 0x00 ∧ push.isPush ∧
        (push.data.length = 20 ∨ push.data.length = 32) then
      some push.data
    else none
  | _ => none

/-- The height that a script names by pushing its eight bytes. -/
def height? : Script → Option Nat
  | [push] => if push.opcode.value = 0x08 then some (Bytes.natLE push.data) else none
  | _ => none

/-- A program of 32 bytes is a SHA-256 digest; one of 20 bytes is a RIPEMD-160 digest of it. -/
def commits (program redeem : Bytes) : Bool :=
  if program.length = 32 then Digest.sha256 redeem == program
  else Digest.hash160 redeem == program

/-- The element at a position of the witness, which must be there and not be empty. -/
def element (witness : List Bytes) (position : Nat) : Except WitnessError Bytes :=
  match witness[position]? with
  | none | some [] => .error (.missingElement position)
  | some e => .ok e

/-- The kind of lock that a parsed locking script is, for a given redeem script. -/
def ofScript (locking : Script) (redeem : Bytes) : Except WitnessError Spend :=
  match program? locking with
  | some program =>
    if commits program redeem then .ok (.hashLocked program) else .error (.programMismatch program)
  | none =>
    match height? locking with
    | some height =>
      if Limit.minLockHeight ≤ height ∧ height < Limit.lockHeightBound then
        .ok (.lockHeight height)
      else .error (.unsupportedLockHeight height)
    | none => .error .nonStandard

/-- How a locking script locks an output, if the witness can spend it. -/
def classify (locking : Bytes) (witness : List Bytes) : Except ScriptError Spend := do
  let signature ← (element witness 0).mapError ScriptError.witness
  let redeem ← (element witness 1).mapError ScriptError.witness
  if !Script.isPushOnly signature then throw (.witness .notPushOnly)
  let script ← (Script.parse locking).mapError ScriptError.parse
  (ofScript script redeem).mapError ScriptError.witness

end Spend

end SpendScript

/-
  What a user can ask for: verifying inputs of a transaction, disassembling scripts, or the version
  of the program.
-/
import SpendScript.Command.Arguments
import SpendScript.Flags

namespace SpendScript

namespace Command

/-- Verify a transaction, or one input of it, against the locking scripts it spends. -/
structure VerifyRequest where
  tx : String
  lockingScripts : List String
  amounts : List Nat
  inputIndex : Option Nat
  cacheCapacity : Nat
  flags : Flags
  deriving DecidableEq

/-- Disassemble a script, or the witness of an input of a transaction. -/
structure DisassembleRequest where
  input : String
  witness : Option Nat
  lines : Bool
  deriving DecidableEq

/-- A request. -/
inductive Request where
  | version
  | verify (r : VerifyRequest)
  | disassemble (r : DisassembleRequest)
  deriving DecidableEq

namespace VerifyRequest

/-- The options of the command. -/
def table : OptionTable where
  valued := ["amount", "input-index", "sig-cache-size"]
  switches := ["strict-encoding", "minimal-data", "discourage-upgradable-nops", "check-lock-time",
    "check-sequence", "null-dummy"]

/-- The flags that the switches turn on. -/
def flagsOf (g : Given) : Flags where
  strictEncoding := g.has "strict-encoding"
  minimalData := g.has "minimal-data"
  discourageUpgradableNops := g.has "discourage-upgradable-nops"
  checkLockTime := g.has "check-lock-time"
  checkSequence := g.has "check-sequence"
  nullDummy := g.has "null-dummy"

/-- Reads the request: a transaction and at least one locking script. Amounts are zero and the cache
    holds 1000 signatures unless said otherwise. -/
def ofArguments? (args : List String) : Option VerifyRequest := do
  let g ← scan table args
  let amounts ← g.numbers? "amount" [0]
  let inputIndex ← g.number? "input-index"
  let capacity ← g.number? "sig-cache-size"
  if !g.switchesDistinct then none
  else match g.words with
    | tx :: script :: scripts =>
      some {
        tx := tx
        lockingScripts := script :: scripts
        amounts := amounts
        inputIndex := inputIndex
        cacheCapacity := capacity.getD 1000
        flags := flagsOf g }
    | _ => none

end VerifyRequest

namespace DisassembleRequest

/-- The options of the command. -/
def table : OptionTable where
  valued := ["witness"]
  switches := ["lines"]

/-- Reads the request: one script or transaction. -/
def ofArguments? (args : List String) : Option DisassembleRequest := do
  let g ← scan table args
  let witness ← g.number? "witness"
  if !g.switchesDistinct then none
  else match g.words with
    | [input] => some { input := input, witness := witness, lines := g.has "lines" }
    | _ => none

end DisassembleRequest

/-- Reads a command line, if it makes sense. The first argument is a command or asks for the
    version; of a cluster of short options the first one counts. -/
def Request.ofArguments? : List String → Option Request
  | [] => none
  | first :: rest =>
    if first = "verify" then (VerifyRequest.ofArguments? rest).map .verify
    else if first = "disasm" then (DisassembleRequest.ofArguments? rest).map .disassemble
    else if first = "--version" || first.startsWith "-V" then some .version
    else none

end Command

end SpendScript

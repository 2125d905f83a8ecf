/-
  Answering requests: what is printed and with which status the program ends. Status 0 is success,
  1 a failure that is told on the error stream, 2 a command line that makes no sense.
-/
import SpendScript.Command.Request
import SpendScript.Script.Disassembly
import SpendScript.Transaction.Reader
import SpendScript.Verify

namespace SpendScript

namespace Command

/-- Why a request failed. -/
inductive Error where
  | invalidHex (e : Hex.Error)
  | decode (e : DecodeError)
  | lockingScriptCount (expected got : Nat)
  | amountCount (expected got : Nat)
  | missingInput (index inputs : Nat)
  | verificationFailed (failed total : Nat)
  | parse (e : ParseError)
  deriving DecidableEq

/-- The wording of a failure. -/
def Error.message : Error → String
  | .invalidHex e => "Invalid hex: " ++ e.message
  | .decode e => "Failed to decode transaction: " ++ e.message
  | .lockingScriptCount expected got => s!"Expected {expected} locking scripts, got {got}"
  | .amountCount expected got => s!"Expected 1 or {expected} amounts, got {got}"
  | .missingInput index inputs =>
    s!"Input {index} does not exist, transaction has {inputs} inputs"
  | .verificationFailed failed total => s!"{failed} of {total} inputs failed verification"
  | .parse e => e.message

/-- What a request comes to: the lines it prints, and the failure it ends with, if any. -/
structure Report where
  lines : List String
  failure : Option Error
  deriving DecidableEq

/-- Hexadecimal text, with `0x` in front or not. -/
def readHex (text : String) : Except Error Bytes :=
  let digits := match text.toList with
    | '0' :: 'x' :: digits => String.ofList digits
    | _ => text
  (Hex.decode digits).mapError .invalidHex

/-- A transaction in hexadecimal. -/
def readTransaction (text : String) : Except Error Transaction := do
  let bs ← readHex text
  (Transaction.ofBytes bs).mapError .decode

/-- One amount for every output, or a list that has as many as there are outputs. -/
def spreadAmounts (amounts : List Nat) (count : Nat) : Except Error (List Nat) :=
  match amounts with
  | [amount] => .ok (List.replicate count amount)
  | _ => if amounts.length = count then .ok amounts else .error (.amountCount count amounts.length)

/-- A transaction and the outputs that the verified inputs spend. -/
structure VerifyTask where
  tx : Transaction
  spent : List TxOutput
  inputIndex : Option Nat
  flags : Flags
  cacheCapacity : Nat

/-- How many outputs must be given: one for a single input, else one for each. -/
def expectedOutputs (tx : Transaction) (inputIndex : Option Nat) : Except Error Nat :=
  match inputIndex with
  | none => .ok tx.inputs.length
  | some index =>
    if index < tx.inputs.length then .ok 1 else .error (.missingInput index tx.inputs.length)

/-- Reads what a request names. -/
def VerifyRequest.task (r : VerifyRequest) : Except Error VerifyTask := do
  let tx ← readTransaction r.tx
  let expected ← expectedOutputs tx r.inputIndex
  if r.lockingScripts.length ≠ expected then
    throw (.lockingScriptCount expected r.lockingScripts.length)
  let amounts ← spreadAmounts r.amounts expected
  let scripts ← r.lockingScripts.mapM readHex
  return {
    tx := tx
    spent := List.zipWith (fun amount script => ⟨UInt64.ofNat amount, script⟩) amounts scripts
    inputIndex := r.inputIndex
    flags := r.flags
    cacheCapacity := r.cacheCapacity }

/-- The verdicts that are asked for, each with the place of its input. -/
def VerifyTask.verdicts (t : VerifyTask) : List (Nat × Verdict) :=
  let cache := some (SignatureCache.empty t.cacheCapacity)
  match t.inputIndex, t.spent with
  | some index, [output] =>
    [(index, (Spending.verify ⟨t.tx, index, output.amount⟩ output.script t.flags cache).1)]
  | _, _ =>
    (t.tx.verifyInputs t.spent t.flags cache).1.zipIdx.map fun (verdict, index) => (index, verdict)

/-- A verdict on one line. -/
def verdictLine (index : Nat) (verdict : Verdict) : String :=
  s!"input {index}: " ++
    match verdict with
    | .ok () => "ok"
    | .error e => e.message

/-- Whether a verdict is against the input. -/
def isFailure : Verdict → Bool
  | .ok () => false
  | .error _ => true

/-- Prints the verdicts, and fails if one of them is a failure. -/
def VerifyTask.report (t : VerifyTask) : Report :=
  let verdicts := t.verdicts
  let failed := (verdicts.filter fun v => isFailure v.2).length
  { lines := verdicts.map fun v => verdictLine v.1 v.2
    failure := if failed = 0 then none else some (.verificationFailed failed verdicts.length) }

/-- The scripts that a request names. -/
def DisassembleRequest.scripts (r : DisassembleRequest) : Except Error (List Bytes) :=
  match r.witness with
  | none => do return [← readHex r.input]
  | some index => do
    let tx ← readTransaction r.input
    match tx.inputs[index]? with
    | some i => return i.witness
    | none => throw (.missingInput index tx.inputs.length)

/-- The lines of several scripts, if all of them can be read. -/
def scriptLines (scripts : List Bytes) : Except Error (List String) := do
  let parsed ← scripts.mapM fun bs => (Script.parse bs).mapError Error.parse
  return (parsed.zipIdx.map fun (script, index) => Script.lines index script).flatten

/-- The text of the scripts that a request names. -/
def DisassembleRequest.render (r : DisassembleRequest) : Except Error (List String) := do
  let scripts ← r.scripts
  if r.lines then scriptLines scripts else return scripts.map Script.shortText

/-- The report of lines that may not have come about. -/
def Report.ofLines : Except Error (List String) → Report
  | .ok lines => ⟨lines, none⟩
  | .error e => ⟨[], some e⟩

/-- The answer to a request. -/
def Request.report : Request → Report
  | .version => ⟨["mass-script-cli 0.1.0"], none⟩
  | .verify r =>
    match r.task with
    | .ok t => t.report
    | .error e => ⟨[], some e⟩
  | .disassemble r => Report.ofLines r.render

/-- How the program ends. -/
structure Outcome where
  status : Nat
  stdout : String
  /-- What goes to the error stream; nothing is said of it for a senseless command line. -/
  stderr : Option String
  deriving DecidableEq

/-- A report as output and status. -/
def Report.outcome (r : Report) : Outcome :=
  let stdout := String.join (r.lines.map (· ++ "\n"))
  match r.failure with
  | none => ⟨0, stdout, some ""⟩
  | some e => ⟨1, stdout, some ("Error: " ++ e.message ++ "\n")⟩

/-- Runs a command line. -/
def run (args : List String) : Outcome :=
  match Request.ofArguments? args with
  | some request => request.report.outcome
  | none => ⟨2, "", none⟩

end Command

end SpendScript

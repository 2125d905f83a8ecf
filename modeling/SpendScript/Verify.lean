/-
  Verdicts on the inputs of a transaction. The signature cache is handed from one input to the next.
-/
import SpendScript.Engine.Run

namespace SpendScript

/-- Whether an input is verified, or why not. -/
abbrev Verdict := Except ScriptError Unit

/-- The engine of a spend, whose witness is that of the input. -/
def Engine.ofSpending (s : Spending) (locking : Bytes) (flags : Flags)
    (cache : Option SignatureCache) : Except ScriptError (Engine (Option SignatureCache)) :=
  match s.tx.inputs[s.index]? with
  | none => .error (.witness (.inputIndex s.index s.tx.inputs.length))
  | some i => Engine.ofWitness locking i.witness flags s.checker cache

/-- Verifies that a spend may unlock a script. The cache is handed on. -/
def Spending.verify (s : Spending) (locking : Bytes) (flags : Flags)
    (cache : Option SignatureCache) : Verdict × Option SignatureCache :=
  match Engine.ofSpending s locking flags cache with
  | .error e => (.error e, cache)
  | .ok engine =>
    match engine.execute with
    | .ok () engine => (.ok (), engine.machine.checker)
    | .error e engine => (.error e, engine.machine.checker)

namespace Transaction

/-- Verifies the input at a place, given all spent outputs. -/
def verifyAt (tx : Transaction) (spent : List TxOutput) (flags : Flags) (index : Nat)
    (cache : Option SignatureCache) : Verdict × Option SignatureCache :=
  match spent[index]? with
  | none => (.error (.witness (.inputIndex index spent.length)), cache)
  | some output => Spending.verify ⟨tx, index, output.amount⟩ output.script flags cache

/-- Verifies inputs one after the other. -/
def verifyEach (tx : Transaction) (spent : List TxOutput) (flags : Flags) :
    List Nat → Option SignatureCache → List Verdict × Option SignatureCache
  | [], cache => ([], cache)
  | index :: rest, cache =>
    let (verdict, cache) := tx.verifyAt spent flags index cache
    let (verdicts, cache) := tx.verifyEach spent flags rest cache
    (verdict :: verdicts, cache)

/-- Verifies all inputs, in order. -/
def verifyInputs (tx : Transaction) (spent : List TxOutput) (flags : Flags)
    (cache : Option SignatureCache) : List Verdict × Option SignatureCache :=
  tx.verifyEach spent flags (List.range tx.inputs.length) cache

end Transaction

end SpendScript

/-
  The engine that decides a spend. It runs the two scripts of the witness in order, instruction by
  instruction, on one machine. When an output is locked by a height, the locking script runs after
  them, on the rest of the witness as its stack. At the end the top item must be true, and for a
  spend locked by a hash it must be the only one.

  This file has the single step (`step`) and the final check (`check`). Every step that does not end
  the run leaves fewer instructions to run, which is what whole runs recurse on.
-/
import SpendScript.Checker.Spending
import SpendScript.Machine.Execute
import SpendScript.Script.Disassembly
import SpendScript.Spend

namespace SpendScript

/-- How far an engine has come. -/
inductive Status where
  /-- Nothing has run yet. -/
  | ready
  | running
  /-- All scripts have run and the final check has passed. -/
  | success
  /-- A step or the final check has failed. -/
  | failed
  deriving DecidableEq

/-- An engine at some point of its run. -/
structure Engine (σ : Type) where
  checker : Checker σ
  flags : Flags
  spend : Spend
  locking : Bytes
  witness : List Bytes
  /-- The scripts to run, in order. -/
  scripts : List Script
  scriptIndex : Nat
  /-- The place of the next instruction in the running script. -/
  offset : Nat
  /-- Whether the locking script of a height lock has been added to the scripts. -/
  expanded : Bool
  status : Status
  machine : Machine σ

/-- An action on an engine. -/
abbrev EngineM (σ : Type) := EStateM ScriptError (Engine σ)

namespace Engine

variable {σ : Type}

/-- The engine of a witness that spends a locking script, if it can. -/
def ofWitness (locking : Bytes) (witness : List Bytes) (flags : Flags) (checker : Checker σ)
    (start : σ) : Except ScriptError (Engine σ) := do
  let spend ← Spend.classify locking witness
  let scripts ← (witness.take 2).mapM fun bs => (Script.parse bs).mapError ScriptError.parse
  return {
    checker := checker
    flags := flags
    spend := spend
    locking := locking
    witness := witness
    scripts := scripts
    scriptIndex := 0
    offset := 0
    expanded := false
    status := .ready
    machine := Machine.start start }

/-- What the locking script commits to: the hash, or for a height the script itself. -/
def program (e : Engine σ) : Bytes :=
  match e.spend with
  | .hashLocked program => program
  | .lockHeight _ => e.locking

/-- The running script. -/
def script (e : Engine σ) : Script := e.scripts.getD e.scriptIndex []

/-- The next instruction, if the run is not over. -/
def next? (e : Engine σ) : Option Instruction := e.script[e.offset]?

/-- The error of an engine whose run is over. -/
def pastEnd (e : Engine σ) : ScriptError :=
  .pastEnd e.scriptIndex e.offset e.scripts.length

/-- What instructions of the running script may read. -/
def context (e : Engine σ) : Context σ where
  checker := e.checker
  flags := e.flags
  versionZero := e.spend.version = 0
  script := e.script

/-- The engine with its data stack replaced, bottom item first. -/
def setStack (e : Engine σ) (items : List Bytes) : Engine σ :=
  { e with machine := { e.machine with stack := items.reverse } }

/-- The next instruction as text, behind its position. -/
def nextText (e : Engine σ) : Except ScriptError String :=
  match e.next? with
  | some i => .ok (Script.lineText e.scriptIndex e.offset i)
  | none => .error e.pastEnd

/-- A script as text, one instruction a line. -/
def scriptText (e : Engine σ) (index : Nat) : Except ScriptError String :=
  match e.scripts[index]? with
  | some script => .ok (String.join ((Script.lines index script).map (· ++ "\n")))
  | none => .error (.pastEnd index 0 e.scripts.length)

/-- Checks the stack when all scripts have run: the top item is taken off and must be true. The
    final check of a spend without a restored stack also asks that it is the only one. -/
def check (final : Bool) : EngineM σ Unit := fun e =>
  if e.scriptIndex < e.scripts.length then .error .unfinished e
  else match e.machine.stack with
    | [] => .error .emptyStack e
    | item :: rest =>
      if final && !e.expanded && !rest.isEmpty then .error (.cleanStack (rest.length + 1)) e
      else
        let e := { e with machine := { e.machine with stack := rest } }
        if truth item then .ok () e else .error .scriptFailed e

/-- Whether the locking script has to be added now: both witness scripts of a height lock have
    run. -/
def mustExpand (e : Engine σ) : Bool :=
  e.scriptIndex = 2 && e.spend.isLockHeight && !e.expanded

/-- Adds the locking script to the scripts and the rest of the witness to the stack, if the witness
    scripts have left a true item. -/
def expand : EngineM σ Unit := fun e =>
  match check false e with
  | .error err e => .error err e
  | .ok () e =>
    match Script.parse e.locking with
    | .error err => .error (.parse err) e
    | .ok script =>
      .ok () { e.setStack e.witness.tail with
        scripts := e.scripts ++ [script], expanded := true }

/-- Goes to the next script that is not empty, and tells whether there is none. -/
def enterScript : EngineM σ Bool := fun e =>
  let index := if e.scripts[e.scriptIndex]? = some [] then e.scriptIndex + 1 else e.scriptIndex
  .ok (decide (e.scripts.length ≤ index))
    { e with scriptIndex := index, machine := { e.machine with codeStart := 0 } }

/-- Leaves a script that has run to its end: no conditional may be open, the alt stack is cleared
    and operations are counted anew. -/
def leaveScript : EngineM σ Unit := fun e =>
  if e.machine.branches.isEmpty then
    .ok () { e with
      scriptIndex := e.scriptIndex + 1
      offset := 0
      machine := { e.machine with alt := [], opCount := 0 } }
  else .error .missingEndIf e

/-- Adds the locking script if it has to be added now. -/
def expandIfDue : EngineM σ Unit := fun e => if e.mustExpand then expand e else .ok () e

/-- Goes past the end of the running script, and tells whether it was the last one. -/
def finishScript : EngineM σ Bool := do
  leaveScript
  expandIfDue
  enterScript

/-- Executes one instruction, and tells whether it was the last one. -/
def advance : EngineM σ Bool := fun e =>
  match e.next? with
  | none => .error e.pastEnd e
  | some i =>
    match i.step e.context e.offset e.machine with
    | .error err m => .error err { e with machine := m, status := .running }
    | .ok () m =>
      let e := { e with machine := m, status := .running, offset := e.offset + 1 }
      if e.offset < e.script.length then .ok false e else finishScript e

/-- One step of the run. A failing step marks the engine as failed. -/
def step : EngineM σ Bool := fun e =>
  match advance e with
  | .ok done e => .ok done e
  | .error err e => .error err { e with status := .failed }

/-- The locking script of a height lock, if it can be read. -/
def lockingScript (e : Engine σ) : Script :=
  match Script.parse e.locking with
  | .ok script => script
  | .error _ => []

/-- How many instructions are still to be run. -/
def remaining (e : Engine σ) : Nat :=
  (e.scripts.drop e.scriptIndex).flatten.length - e.offset +
    if e.expanded then 0 else e.lockingScript.length

end Engine

end SpendScript

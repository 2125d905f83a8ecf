/-
  The part of an engine that instructions change: two stacks, the open conditionals, the operation
  count, the start of the signed code, and the state of the checker. What an instruction did before
  it failed stays done.
-/
import SpendScript.Branch
import SpendScript.ScriptError

namespace SpendScript

/-- What instructions read and change. -/
structure Machine (σ : Type) where
  stack : Stack
  alt : Stack
  branches : Branches
  /-- Operations counted in the running script. -/
  opCount : Nat
  /-- Where the code that signatures commit to begins in the running script. -/
  codeStart : Nat
  /-- The state of the checker. -/
  checker : σ

/-- What instructions read and cannot change, the same all through a script. -/
structure Context (σ : Type) where
  checker : Checker σ
  flags : Flags
  /-- Whether the spend has version 0, which restricts public keys. -/
  versionZero : Bool
  /-- The running script. -/
  script : Script

/-- An action on a machine. -/
abbrev MachineM (σ : Type) := EStateM ScriptError (Machine σ)

/-- The machine before its first instruction. -/
def Machine.start {σ : Type} (checker : σ) : Machine σ where
  stack := []
  alt := []
  branches := []
  opCount := 0
  codeStart := 0
  checker := checker

namespace MachineM

variable {σ α : Type}

/-- An action on the data stack. -/
def onStack (f : StackM α) : MachineM σ α := fun m =>
  match f m.stack with
  | .ok a s => .ok a { m with stack := s }
  | .error e s => .error (.stack e) { m with stack := s }

/-- An action on the alt stack. -/
def onAlt (f : StackM α) : MachineM σ α := fun m =>
  match f m.alt with
  | .ok a s => .ok a { m with alt := s }
  | .error e s => .error (.stack e) { m with alt := s }

/-- The result of a computation on numbers. -/
def ofNumber (r : Except Number.Error α) : MachineM σ α :=
  MonadExcept.ofExcept (r.mapError .number)

/-- Goes on if an encoding is accepted. -/
def ofEncoding (r : Except EncodingError Unit) : MachineM σ Unit :=
  MonadExcept.ofExcept (r.mapError .encoding)

/-- Counts operations and fails when there are too many. -/
def countOperations (n : Nat) : MachineM σ Unit := fun m =>
  let m := { m with opCount := m.opCount + n }
  if Limit.operations < m.opCount then .error .tooManyOperations m else .ok () m

/-- Whether instructions run here. -/
def executing : MachineM σ Bool := fun m => .ok m.branches.executing m

/-- Asks the checker about a signature. -/
def askSignature (c : Checker σ) (q : SignatureQuery) : MachineM σ Bool := fun m =>
  match c.checkSignature q m.checker with
  | (.ok valid, s) => .ok valid { m with checker := s }
  | (.error e, s) => .error (.signature e) { m with checker := s }

/-- Asks the checker about an absolute lock. -/
def askLockTime (c : Checker σ) (n : Int) : MachineM σ Bool := fun m =>
  let (reached, s) := c.checkLockTime n m.checker
  .ok reached { m with checker := s }

/-- Asks the checker about a relative lock. -/
def askSequence (c : Checker σ) (n : Int) : MachineM σ Bool := fun m =>
  let (reached, s) := c.checkSequence n m.checker
  .ok reached { m with checker := s }

/-- The bytes that signatures commit to: the running script from the last executed separator on. -/
def scriptCode (ctx : Context σ) : MachineM σ Bytes := fun m =>
  .ok (Script.toBytes (ctx.script.drop m.codeStart)) m

end MachineM

end SpendScript

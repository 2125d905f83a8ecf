/-
  The effect of each instruction. `Instruction.perform` is the effect of its operation;
  `Instruction.execute` puts before it what holds for all of them, in branches taken or not;
  `Instruction.step` adds the bound on both stacks.
-/
import SpendScript.Digest
import SpendScript.Machine.Signatures

namespace SpendScript

variable {σ : Type}

open MachineM StackM

/-- The number that stands for a truth value. -/
def truthNumber (b : Bool) : Int := if b then 1 else 0

/-- A function of one number. -/
def UnaryOp.apply (op : UnaryOp) (a : Int) : Except Number.Error Int :=
  match op with
  | .add1 => Number.add a 1
  | .sub1 => Number.sub a 1
  | .negate => Number.neg a
  | .abs => .ok (Number.abs a)
  | .not => .ok (truthNumber (a = 0))
  | .notEqual0 => .ok (truthNumber (a ≠ 0))

/-- A function of two numbers, the deeper one first. -/
def BinaryOp.apply (op : BinaryOp) (a b : Int) : Except Number.Error Int :=
  match op with
  | .add => Number.add a b
  | .sub => Number.sub a b
  | .boolAnd => .ok (truthNumber (a ≠ 0 ∧ b ≠ 0))
  | .boolOr => .ok (truthNumber (a ≠ 0 ∨ b ≠ 0))
  | .numEqual => .ok (truthNumber (a = b))
  | .numNotEqual => .ok (truthNumber (a ≠ b))
  | .lessThan => .ok (truthNumber (a < b))
  | .greaterThan => .ok (truthNumber (b < a))
  | .lessThanOrEqual => .ok (truthNumber (a ≤ b))
  | .greaterThanOrEqual => .ok (truthNumber (b ≤ a))
  | .min => .ok (Min.min a b)
  | .max => .ok (Max.max a b)

/-- The digest of an item. -/
def HashOp.apply : HashOp → Bytes → Bytes
  | .ripemd160 => Digest.ripemd160
  | .sha1 => Digest.sha1
  | .sha256 => Digest.sha256
  | .hash160 => Digest.hash160
  | .hash256 => Digest.hash256

/-- Opens a conditional. The item that decides it is read only where instructions run. -/
def openBranch (negated : Bool) : MachineM σ Unit := do
  if ← executing then
    let b ← onStack popTruth
    modify fun m => { m with branches := .ofTruth (b != negated) :: m.branches }
  else
    modify fun m => { m with branches := .skipped :: m.branches }

/-- Changes the open conditionals, if one is open. -/
def changeBranch (op : Opcode) (f : Branches → Option Branches) : MachineM σ Unit := fun m =>
  match f m.branches with
  | some bs => .ok () { m with branches := bs }
  | none => .error (.unbalancedConditional op) m

/-- Fails the script unless the answer is yes. -/
def require (op : Opcode) (b : Bool) : MachineM σ Unit :=
  if b then return else throw (.verify op)

/-- Pushes an answer, or fails the script if it is no and `verify` asks for that. -/
def deliver (op : Opcode) (verify b : Bool) : MachineM σ Unit :=
  if verify then require op b else onStack (pushTruth b)

/-- Takes two numbers off the stack, and gives the deeper one first. -/
def popPair (minimal : Bool) : MachineM σ (Int × Int) := do
  let b ← onStack (popNumber minimal)
  let a ← onStack (popNumber minimal)
  return (a, b)

/-- An opcode kept for soft forks does nothing, or is refused where the flags ask for that. -/
def upgradableNop (ctx : Context σ) (op : Opcode) : MachineM σ Unit :=
  if ctx.flags.discourageUpgradableNops then throw (.discouragedNop op) else return

/-- The lock on top of the stack, which may not be negative. It stays there. -/
def peekLock (ctx : Context σ) : MachineM σ Int := do
  let n ← onStack (peekNumber ctx.flags.minimalData Number.lockTimeSize)
  if n < 0 then throw (.negativeLockTime n)
  return n

/-- Compares the lock on top of the stack with the lock time of the transaction. -/
def checkLockTimeVerify (ctx : Context σ) (op : Opcode) : MachineM σ Unit := do
  if !ctx.flags.checkLockTime then upgradableNop ctx op
  else
    let n ← peekLock ctx
    if !(← askLockTime ctx.checker n) then throw .unsatisfiedLockTime

/-- Compares the lock on top of the stack with the sequence number of the input. Bit 31 of the lock
    turns it off. -/
def checkSequenceVerify (ctx : Context σ) (op : Opcode) : MachineM σ Unit := do
  if !ctx.flags.checkSequence then upgradableNop ctx op
  else
    let n ← peekLock ctx
    if !n.toNat.testBit 31 then
      if !(← askSequence ctx.checker n) then throw .unsatisfiedLockTime

/-- The effect of an instruction at `offset` of the running script. -/
def Instruction.perform (ctx : Context σ) (offset : Nat) (i : Instruction) : MachineM σ Unit :=
  let op := i.opcode
  let minimal := ctx.flags.minimalData
  match i.operation with
  | .pushBytes => onStack (push i.data)
  | .pushNum n => onStack (pushNumber n)
  | .nop => return
  | .openIf negated => openBranch negated
  | .elseBranch => changeBranch op Branches.toggle?
  | .endIf => changeBranch op Branches.close?
  | .verify => do require op (← onStack popTruth)
  | .returnEarly => throw .earlyReturn
  | .toAltStack => do
    let x ← onStack pop
    onAlt (push x)
  | .fromAltStack => do
    let x ← onAlt pop
    onStack (push x)
  | .drop n => onStack (drop n)
  | .dup n => onStack (dup n)
  | .copyOver n => onStack (copyOver n)
  | .rot n => onStack (rot n)
  | .swap n => onStack (swap n)
  | .ifDup => do
    if ← onStack peekTruth then onStack (dup 1)
  | .depth => do
    let m ← get
    onStack (pushLength m.stack.length)
  | .nip => do
    let _ ← onStack (nip 1)
  | .pick => do
    let n ← onStack (popNumber minimal)
    onStack (pick (Int64.ofInt n))
  | .roll => do
    let n ← onStack (popNumber minimal)
    onStack (roll (Int64.ofInt n))
  | .tuck => onStack tuck
  | .size => do
    let x ← onStack (peek 0)
    onStack (pushLength x.length)
  | .equal => do
    let x ← onStack pop
    let y ← onStack pop
    onStack (pushTruth (x = y))
  | .equalVerify => do
    let x ← onStack pop
    let y ← onStack pop
    require op (x = y)
  | .unary f => do
    let a ← onStack (popNumber minimal)
    let n ← ofNumber (f.apply a)
    onStack (pushNumber n)
  | .binary f => do
    let (a, b) ← popPair minimal
    let n ← ofNumber (f.apply a b)
    onStack (pushNumber n)
  | .numEqualVerify => do
    let (a, b) ← popPair minimal
    require op (a = b)
  | .within => do
    let (low, high) ← popPair minimal
    let x ← onStack (popNumber minimal)
    onStack (pushTruth (low ≤ x ∧ x < high))
  | .hash f => do
    let x ← onStack pop
    onStack (push (f.apply x))
  | .codeSeparator => modify fun m => { m with codeStart := offset + 1 }
  | .checkSig verify => do deliver op verify (← checkSingle ctx)
  | .checkMultiSig verify => do deliver op verify (← checkMultiple ctx)
  | .checkLockTimeVerify => checkLockTimeVerify ctx op
  | .checkSequenceVerify => checkSequenceVerify ctx op
  | .upgradableNop => upgradableNop ctx op
  | .disabled => throw (.disabledOpcode op)
  | .alwaysIllegal | .reserved => throw (.reservedOpcode op)
  | .invalid => throw (.invalidOpcode op)

/-- The limits that hold in every branch: a push is not too long, and any other instruction is one
    more operation. -/
def Instruction.checkLimits (i : Instruction) : MachineM σ Unit :=
  if i.isPush then
    if Limit.elementSize < i.data.length then throw (.elementTooBig i.data.length) else return
  else countOperations 1

/-- Refuses an instruction that is not the shortest push of its operand. -/
def Instruction.checkMinimalPush (i : Instruction) : Except ScriptError Unit :=
  if i.isMinimalPush then .ok () else .error (.notMinimalPush i.opcode i.data.length)

/-- Where the flags ask for it, an instruction that pushes its operand must be the shortest one. -/
def Instruction.checkMinimal (ctx : Context σ) (i : Instruction) : MachineM σ Unit :=
  if ctx.flags.minimalData && decide (i.opcode.value ≤ Opcode.lastDataPush) then
    MonadExcept.ofExcept i.checkMinimalPush
  else return

/-- Executes an instruction. In a branch that is passed over, only the limits apply, and the
    conditionals are kept track of. -/
def Instruction.execute (ctx : Context σ) (offset : Nat) (i : Instruction) : MachineM σ Unit := do
  if i.isDisabled then throw (.disabledOpcode i.opcode)
  if i.isAlwaysIllegal then throw (.reservedOpcode i.opcode)
  i.checkLimits
  if ← executing then
    i.checkMinimal ctx
    i.perform ctx offset
  else if i.isConditional then i.perform ctx offset

/-- Fails if there are too many items on both stacks together. -/
def checkDepth : MachineM σ Unit := fun m =>
  let items := m.stack.length + m.alt.length
  if Limit.stackItems < items then .error (.stackOverflow items) m else .ok () m

/-- Executes an instruction within the bound on the stacks. -/
def Instruction.step (ctx : Context σ) (offset : Nat) (i : Instruction) : MachineM σ Unit := do
  i.execute ctx offset
  checkDepth

end SpendScript

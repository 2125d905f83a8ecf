import SpendScript.Chain.Store
import SpendScript.Main
import SpendScript.Proofs.Machine.Coupling
import SpendScript.Proofs.Machine.CoupledInstruction
import SpendScript.Proofs.Machine.Sequence
import SpendScript.Proofs.Engine.Coupling
import SpendScript.Proofs.Engine.Recording
import SpendScript.Proofs.SoftFork
import SpendScript.Proofs.CacheTransparency
import SpendScript.Proofs.Machine.Conditionals
import SpendScript.Proofs.Machine.Pushes
import SpendScript.Proofs.Script.RoundTrip
import SpendScript.Proofs.Assignment
import SpendScript.Proofs.Engine.Construction
import SpendScript.Proofs.Engine.Phases
import SpendScript.Proofs.Machine.MultiSig
import SpendScript.Proofs.MultiSigSpend
import SpendScript.Proofs.Engine.Walk
import SpendScript.Proofs.Machine.Frame
import SpendScript.Proofs.Malleability
import SpendScript.Proofs.HeightSpend
import SpendScript.Proofs.StaticForm
import SpendScript.Proofs.Engine.Reached
import SpendScript.Proofs.SignedCode
import SpendScript.Proofs.Script.Grammar
import SpendScript.Proofs.Chain.Linked
import SpendScript.Proofs.Chain.History
import SpendScript.Proofs.Outcome
import SpendScript.Proofs.StrictEncoding
import SpendScript.Proofs.Machine.Records
import SpendScript.Proofs.Machine.CheckedSignatures
import SpendScript.Proofs.CheckedSignatures
import SpendScript.Proofs.Machine.StackSize
import SpendScript.Proofs.Machine.Failure
import SpendScript.Proofs.Machine.StackFrame
import SpendScript.Proofs.Machine.Stuck
import SpendScript.Proofs.Engine.Calls
import SpendScript.Proofs.Engine.Dead
import SpendScript.Proofs.FinalFailure
import SpendScript.Proofs.StackBound
import SpendScript.Proofs.Halting
import SpendScript.Proofs.StrictEncoding.Acceptance
import SpendScript.Proofs.Machine.KeySearch
import SpendScript.Proofs.Machine.OneOfOne
import SpendScript.Proofs.VerifyModes
import SpendScript.Proofs.Number.Codec
import SpendScript.Proofs.Machine.Arithmetic
import SpendScript.Proofs.Arithmetic
import SpendScript.Proofs.Machine.OperationCount
import SpendScript.Proofs.OperationCount
import SpendScript.Proofs.LockingForms
import SpendScript.Proofs.HashTypeCommitment
import SpendScript.Proofs.RelativeLock
import SpendScript.Proofs.SignatureScript
import SpendScript.Proofs.Chain.Updates
import SpendScript.Proofs.AbsoluteLock
import SpendScript.Proofs.Chain.HeightRange
import SpendScript.Proofs.RecentSignatures
import SpendScript.Proofs.BackedCache
import SpendScript.Proofs.StackBlocks
import SpendScript.Proofs.Script.CutShort
import SpendScript.Proofs.Opcode.Name
import SpendScript.Proofs.Disassembly
import SpendScript.Proofs.Machine.ItemSize
import SpendScript.Proofs.ElementSize
import SpendScript.Proofs.Number.Truth
import SpendScript.Proofs.Decisions
import SpendScript.Proofs.Machine.BranchShape
import SpendScript.Proofs.ConditionalShape
import SpendScript.Proofs.Opcode.Table
import SpendScript.Proofs.SideBySide

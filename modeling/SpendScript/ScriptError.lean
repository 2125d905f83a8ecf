/-
  Everything that can go wrong when an input is verified: its witness does not fit the locking
  script, an instruction fails, or the final stack is not what it should be.
-/
import SpendScript.Checker
import SpendScript.Script.Parse
import SpendScript.Stack
import SpendScript.StrictEncoding

namespace SpendScript

/-- Why a witness cannot spend an output. -/
inductive WitnessError where
  | inputIndex (index inputs : Nat)
  | missingElement (position : Nat)
  | notPushOnly
  | nonStandard
  | programMismatch (program : Bytes)
  | unsupportedLockHeight (height : Nat)
  deriving DecidableEq

/-- The wording of a failure. -/
def WitnessError.message : WitnessError → String
  | .inputIndex index inputs =>
    s!"input index {index} out of range, transaction has {inputs} inputs"
  | .missingElement position => s!"witness element {position} is missing or empty"
  | .notPushOnly => "witness signature script is not push only"
  | .nonStandard => "nonstandard locking script"
  | .programMismatch program =>
    "witness program " ++ Hex.encode program ++ " does not commit to the redeem script"
  | .unsupportedLockHeight height =>
    s!"lock height {height} unsupported, only block heights in [{Limit.minLockHeight}, " ++
      s!"{Limit.lockHeightBound}) are"

/-- Why an input is not verified. -/
inductive ScriptError where
  | parse (e : ParseError)
  | witness (e : WitnessError)
  | pastEnd (scriptIndex offset scriptCount : Nat)
  | disabledOpcode (op : Opcode)
  | reservedOpcode (op : Opcode)
  | invalidOpcode (op : Opcode)
  | tooManyOperations
  | elementTooBig (size : Nat)
  | stackOverflow (items : Nat)
  | missingEndIf
  | unbalancedConditional (op : Opcode)
  | notMinimalPush (op : Opcode) (length : Nat)
  | earlyReturn
  | verify (op : Opcode)
  | unfinished
  | cleanStack (items : Nat)
  | emptyStack
  | scriptFailed
  | stack (e : StackError)
  | number (e : Number.Error)
  | discouragedNop (op : Opcode)
  | encoding (e : EncodingError)
  | signature (e : SignatureError)
  | publicKeyCount (n : Int)
  | signatureCount (count : Int) (max : Nat)
  | dummyNotEmpty (length : Nat)
  | negativeLockTime (n : Int)
  | unsatisfiedLockTime
  deriving DecidableEq

/-- The wording of a failure. -/
def ScriptError.message : ScriptError → String
  | .parse e => e.message
  | .witness e => e.message
  | .pastEnd scriptIndex offset scriptCount =>
    s!"past input scripts {scriptIndex}:{offset} ({scriptCount} scripts)"
  | .disabledOpcode op => s!"attempt to execute disabled opcode {op.name}"
  | .reservedOpcode op => s!"attempt to execute reserved opcode {op.name}"
  | .invalidOpcode op => s!"attempt to execute invalid opcode {op.name}"
  | .tooManyOperations => s!"exceeded max operation limit of {Limit.operations}"
  | .elementTooBig size => s!"element size {size} exceeds max allowed size {Limit.elementSize}"
  | .stackOverflow items => s!"combined stack size {items} exceeds limit of {Limit.stackItems}"
  | .missingEndIf => "end of script reached in conditional execution"
  | .unbalancedConditional op =>
    s!"encountered {op.name} with no matching opcode to begin conditional execution"
  | .notMinimalPush op length =>
    s!"data push of {length} bytes encoded with non-minimal opcode {op.name}"
  | .earlyReturn => "script returned early"
  | .verify op => s!"{op.name} failed"
  | .unfinished => "error check when script unfinished"
  | .cleanStack items => s!"stack contains {items} unexpected items"
  | .emptyStack => "stack empty at end of execution"
  | .scriptFailed => "script terminated with a false stack element"
  | .stack e => e.message
  | .number e => e.message
  | .discouragedNop op => s!"{op.name} reserved for soft-fork upgrades"
  | .encoding e => e.message
  | .signature e => e.message
  | .publicKeyCount n => s!"too many pubkeys: {n}"
  | .signatureCount count max =>
    s!"invalid signature count {count}, expected in the range of [0, {max}]"
  | .dummyNotEmpty length => s!"multisig dummy argument has length {length} instead of 0"
  | .negativeLockTime n => s!"negative lock time: {n}"
  | .unsatisfiedLockTime => "required lock time has not been reached"

end SpendScript

/-
  What an engine asks about the spending transaction: whether a signature is valid, and whether lock
  times have passed. A checker answers from a state of its own, which it may change.
-/
import SpendScript.Curve.Signature

namespace SpendScript

/-- Why no digest could be computed for a signature. -/
inductive SignatureError where
  | sigHash (text : String)
  deriving DecidableEq

/-- The wording of a failure. -/
def SignatureError.message : SignatureError → String
  | .sigHash text => "failed to compute signature hash: " ++ text

/-- A signature to be checked over the spending transaction. -/
structure SignatureQuery where
  signature : Signature
  hashType : UInt32
  key : PublicKey
  scriptCode : Bytes
  deriving DecidableEq

/-- A question to a checker. -/
inductive Query where
  | signature (q : SignatureQuery)
  | lockTime (n : Int)
  | sequence (n : Int)
  deriving DecidableEq

/-- Answers the questions of an engine from a state `σ`. -/
structure Checker (σ : Type) where
  checkSignature : SignatureQuery → σ → Except SignatureError Bool × σ
  checkLockTime : Int → σ → Bool × σ
  checkSequence : Int → σ → Bool × σ

namespace Checker

/-- Gives fixed answers: those of a predicate on signatures, and one for each kind of lock. -/
def ofPredicate (valid : SignatureQuery → Bool) (lockTime sequence : Bool) : Checker Unit where
  checkSignature q s := (.ok (valid q), s)
  checkLockTime _ s := (lockTime, s)
  checkSequence _ s := (sequence, s)

/-- Accepts everything. -/
def accepting : Checker Unit := ofPredicate (fun _ => true) true true

/-- Answers signature checks from a list, in order, and with no once it is used up. -/
def scripted (lockTime sequence : Bool) : Checker (List (Except SignatureError Bool)) where
  checkSignature _
    | [] => (.ok false, [])
    | answer :: rest => (answer, rest)
  checkLockTime _ s := (lockTime, s)
  checkSequence _ s := (sequence, s)

/-- Answers as another checker does and keeps the questions, the latest first. -/
def recording {σ : Type} (c : Checker σ) : Checker (σ × List Query) where
  checkSignature q s :=
    let (answer, inner) := c.checkSignature q s.1
    (answer, inner, .signature q :: s.2)
  checkLockTime n s :=
    let (answer, inner) := c.checkLockTime n s.1
    (answer, inner, .lockTime n :: s.2)
  checkSequence n s :=
    let (answer, inner) := c.checkSequence n s.1
    (answer, inner, .sequence n :: s.2)

end Checker

end SpendScript

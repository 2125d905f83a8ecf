/-
  The checker of a real spend: one input of a transaction and the amount it spends. Signatures are
  checked over the input's digest, with a cache of valid ones if there is one; lock times are
  compared with those of the transaction.
-/
import SpendScript.Checker
import SpendScript.SignatureCache
import SpendScript.Transaction.SigHash

namespace SpendScript

/-- An input of a transaction and the amount of the output it spends. -/
structure Spending where
  tx : Transaction
  index : Nat
  amount : UInt64

namespace Spending

/-- Lock times from here on are points in time, below it they are heights. -/
def timeThreshold : Nat := 500000000

/-- The sequence number that opts out of lock times. -/
def finalSequence : UInt32 := 0xffffffff

/-- Relative locks from here on are in units of time, below it in blocks. -/
def sequenceTimeFlag : Nat := 0x400000

/-- The bits of a sequence number that make up a relative lock. -/
def sequenceMask : Nat := 0x40ffff

/-- The sequence number of the input, if there is such an input. -/
def sequence? (s : Spending) : Option UInt32 := s.tx.inputs[s.index]?.map (·.sequence)

/-- The required lock is of the same kind as the actual one and does not exceed it. -/
def reached (threshold actual required : Int) : Bool :=
  decide (actual < threshold ↔ required < threshold) && decide (required ≤ actual)

/-- An absolute lock has passed, and the input takes part in locking. -/
def lockTimeReached (s : Spending) (required : Int) : Bool :=
  reached timeThreshold s.tx.lockTime.toNat required &&
    match s.sequence? with
    | some n => n ≠ finalSequence
    | none => false

/-- The bits of a number, as a 64-bit word, that the mask keeps. -/
def masked (n : Int) : Nat := (n % 18446744073709551616).toNat &&& sequenceMask

/-- A relative lock has passed: the transaction is of version 2 or later, the input takes part in
    relative locking, and its own lock is at least the required one. -/
def sequenceReached (s : Spending) (required : Int) : Bool :=
  if s.tx.version < 2 then false
  else match s.sequence? with
    | none => false
    | some n =>
      !n.toNat.testBit 31 && reached sequenceTimeFlag (masked n.toNat) (masked required)

/-- The digest that a query's signature is checked against. -/
def digest? (s : Spending) (q : SignatureQuery) : Option Bytes :=
  s.tx.sigHash? s.index q.scriptCode s.amount (.ofNumber q.hashType)

/-- The answer about a signature of a digest. A cache answers what it knows and learns the
    signatures found valid. -/
def checkDigest (digest : Bytes) (q : SignatureQuery) :
    Option SignatureCache → Bool × Option SignatureCache
  | none => (q.signature.isValid digest q.key, none)
  | some cache =>
    let (known, cache) := cache.lookup digest q.signature q.key
    if known then (true, some cache)
    else if q.signature.isValid digest q.key then
      (true, some (cache.add digest q.signature q.key))
    else (false, some cache)

/-- The checker of the spend, whose state is the cache. -/
def checker (s : Spending) : Checker (Option SignatureCache) where
  checkSignature q cache :=
    match s.digest? q with
    | none => (.error (.sigHash "invalid input index"), cache)
    | some digest =>
      let (valid, cache) := checkDigest digest q cache
      (.ok valid, cache)
  checkLockTime n cache := (s.lockTimeReached n, cache)
  checkSequence n cache := (s.sequenceReached n, cache)

end Spending

end SpendScript

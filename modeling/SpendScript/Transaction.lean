/-
  Transactions: inputs that spend earlier outputs and show a witness for each, and new outputs.
-/
import SpendScript.Bytes

namespace SpendScript

/-- Which output an input spends: a transaction by its identifier, an output by its place. -/
structure OutPoint where
  txid : Bytes
  index : UInt32
  deriving DecidableEq

/-- An input. -/
structure TxInput where
  outPoint : OutPoint
  script : Bytes
  sequence : UInt32
  /-- The elements that show the right to spend. -/
  witness : List Bytes
  deriving DecidableEq

/-- An output: an amount and the script that locks it. -/
structure TxOutput where
  amount : UInt64
  script : Bytes
  deriving DecidableEq

/-- A transaction. -/
structure Transaction where
  version : Int32
  inputs : List TxInput
  outputs : List TxOutput
  lockTime : UInt32
  deriving DecidableEq

end SpendScript

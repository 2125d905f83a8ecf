/-
  What a signature of an input commits to. The hash type says which inputs and outputs are covered;
  the message (`preimage`) spells them together with the script code, the amount and the hash type,
  and the signature is one of its double SHA-256.
-/
import SpendScript.Digest
import SpendScript.Transaction.Writer

namespace SpendScript

/-- Which outputs are covered. -/
inductive Coverage where
  | all
  | none
  /-- The output at the place of the input. -/
  | single
  deriving DecidableEq

/-- What a signature covers. -/
structure HashType where
  coverage : Coverage
  /-- Other inputs may change. -/
  anyoneCanPay : Bool
  deriving DecidableEq

namespace HashType

/-- The meaning of a hash type as written. Undefined values cover all outputs, and keep the high
    bit of the lowest byte. -/
def ofNumber (t : UInt32) : HashType :=
  let anyoneCanPay := t &&& 0x80 != 0
  match (t &&& 0x1f).toNat with
  | 2 => ⟨.none, anyoneCanPay⟩
  | 3 => ⟨.single, anyoneCanPay⟩
  | _ => ⟨.all, anyoneCanPay⟩

/-- The defined number of a hash type. -/
def toNumber (t : HashType) : Nat :=
  (match t.coverage with | .all => 1 | .none => 2 | .single => 3) +
    if t.anyoneCanPay then 0x80 else 0

end HashType

namespace Transaction

/-- The digest that stands for what is not covered. -/
def uncovered : Bytes := List.replicate 32 0

/-- The digest of the spent out points. -/
def outPointsDigest (tx : Transaction) (t : HashType) : Bytes :=
  if t.anyoneCanPay then uncovered
  else Digest.hash256 (tx.inputs.flatMap fun i => i.outPoint.toBytes)

/-- The digest of the sequence numbers. -/
def sequencesDigest (tx : Transaction) (t : HashType) : Bytes :=
  if t.anyoneCanPay || t.coverage ≠ .all then uncovered
  else Digest.hash256 (tx.inputs.flatMap fun i => Bytes.ofNatLE 4 i.sequence.toNat)

/-- The digest of the covered outputs. -/
def outputsDigest (tx : Transaction) (index : Nat) (t : HashType) : Bytes :=
  match t.coverage with
  | .all => Digest.hash256 (tx.outputs.flatMap TxOutput.toBytes)
  | .none => uncovered
  | .single =>
    match tx.outputs[index]? with
    | some o => Digest.hash256 o.toBytes
    | none => uncovered

/-- The message that a signature of input `index` commits to, if there is such an input. -/
def preimage? (tx : Transaction) (index : Nat) (scriptCode : Bytes) (amount : UInt64)
    (t : HashType) : Option Bytes :=
  tx.inputs[index]?.map fun i =>
    tx.versionBytes ++ tx.outPointsDigest t ++ tx.sequencesDigest t ++ i.outPoint.toBytes ++
      Bytes.sized scriptCode ++ Bytes.ofNatLE 8 amount.toNat ++
      Bytes.ofNatLE 4 i.sequence.toNat ++ tx.outputsDigest index t ++
      Bytes.ofNatLE 4 tx.lockTime.toNat ++ Bytes.ofNatLE 4 t.toNumber

/-- The digest that a signature of input `index` is checked against. -/
def sigHash? (tx : Transaction) (index : Nat) (scriptCode : Bytes) (amount : UInt64)
    (t : HashType) : Option Bytes :=
  (tx.preimage? index scriptCode amount t).map Digest.hash256

end Transaction

end SpendScript

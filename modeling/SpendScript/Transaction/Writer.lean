/-
  The bytes of a transaction. Numbers are little-endian; lists and byte strings follow their size.
  Witnesses are written after the outputs, behind a flag that stands where the input count would be.
-/
import SpendScript.Bytes.Size
import SpendScript.Transaction

namespace SpendScript

/-- The bytes of an out point. -/
def OutPoint.toBytes (o : OutPoint) : Bytes := o.txid ++ Bytes.ofNatLE 4 o.index.toNat

/-- The bytes of an input, without its witness. -/
def TxInput.toBytes (i : TxInput) : Bytes :=
  i.outPoint.toBytes ++ Bytes.sized i.script ++ Bytes.ofNatLE 4 i.sequence.toNat

/-- The bytes of an output. -/
def TxOutput.toBytes (o : TxOutput) : Bytes :=
  Bytes.ofNatLE 8 o.amount.toNat ++ Bytes.sized o.script

namespace Transaction

/-- The version as four bytes. -/
def versionBytes (tx : Transaction) : Bytes := Bytes.ofNatLE 4 tx.version.toUInt32.toNat

/-- Whether the flag form is needed: some input has a witness, or an input count of zero would be
    taken for the flag. -/
def needsFlag (tx : Transaction) : Bool :=
  tx.inputs.isEmpty || tx.inputs.any fun i => !i.witness.isEmpty

/-- The bytes of a transaction. -/
def toBytes (tx : Transaction) : Bytes :=
  let inputs := Bytes.sizedList TxInput.toBytes tx.inputs
  let outputs := Bytes.sizedList TxOutput.toBytes tx.outputs
  let lockTime := Bytes.ofNatLE 4 tx.lockTime.toNat
  if tx.needsFlag then
    let witnesses := tx.inputs.flatMap fun i => Bytes.sizedList Bytes.sized i.witness
    tx.versionBytes ++ [0x00, 0x01] ++ inputs ++ outputs ++ witnesses ++ lockTime
  else
    tx.versionBytes ++ inputs ++ outputs ++ lockTime

end Transaction

end SpendScript

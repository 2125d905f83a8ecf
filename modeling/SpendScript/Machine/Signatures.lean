/-
  Signature checks. A signature item is a DER signature followed by its hash type. Checking several
  of them goes through the keys once: each key is tried with the first signature that has no key
  yet, and the search ends when there are fewer keys left than signatures.
-/
import SpendScript.Machine

namespace SpendScript

variable {σ : Type}

open MachineM StackM

/-- Checks a signature item against a key item over given code. An empty signature is a valid way to
    fail; one that is malformed fails the script. -/
def checkPair (ctx : Context σ) (code item key : Bytes) : MachineM σ Bool :=
  match item.getLast? with
  | none => return false
  | some hashType => do
    let sig := item.dropLast
    ofEncoding (StrictEncoding.checkHashType hashType ctx.flags)
    ofEncoding (StrictEncoding.checkSignature sig)
    ofEncoding (StrictEncoding.checkPublicKey key ctx.versionZero ctx.flags)
    match Signature.ofDer? sig, PublicKey.ofBytes? key with
    | some signature, some publicKey =>
      askSignature ctx.checker ⟨signature, UInt32.ofNat hashType.toNat, publicKey, code⟩
    | _, _ => return false

/-- Checks one signature: the key is on top and the signature below it. The code is read once the
    encodings have been accepted. -/
def checkSingle (ctx : Context σ) : MachineM σ Bool := do
  let key ← onStack pop
  let item ← onStack pop
  match item.getLast? with
  | none => return false
  | some hashType => do
    let sig := item.dropLast
    ofEncoding (StrictEncoding.checkHashType hashType ctx.flags)
    ofEncoding (StrictEncoding.checkSignature sig)
    ofEncoding (StrictEncoding.checkPublicKey key ctx.versionZero ctx.flags)
    let code ← scriptCode ctx
    match Signature.ofDer? sig, PublicKey.ofBytes? key with
    | some signature, some publicKey =>
      askSignature ctx.checker ⟨signature, UInt32.ofNat hashType.toNat, publicKey, code⟩
    | _, _ => return false

/-- The code does not depend on what an encoding check says. -/
theorem scriptCode_ofEncoding {α : Type} (ctx : Context σ) (r : Except EncodingError Unit)
    (f : Bytes → MachineM σ α) :
    (scriptCode ctx >>= fun code => ofEncoding r >>= fun _ => f code) =
      ofEncoding r >>= fun _ => scriptCode ctx >>= f := by
  funext m
  cases r <;> rfl

/-- A single check is a check of the pair on top of the stack, over the code of the script. -/
theorem checkSingle_eq (ctx : Context σ) :
    checkSingle ctx = (do
      let key ← onStack pop
      let item ← onStack pop
      let code ← scriptCode ctx
      checkPair ctx code item key) := by
  unfold checkSingle checkPair
  refine bind_congr fun key => bind_congr fun item => ?_
  cases item.getLast? with
  | none => rfl
  | some hashType => simp only [scriptCode_ofEncoding]

/-- Whether the signatures belong to some of the keys, in the same order. -/
def matchKeys (ctx : Context σ) (code : Bytes) : List Bytes → List Bytes → MachineM σ Bool
  | [], _ => return true
  | _ :: _, [] => return false
  | item :: items, key :: keys => do
    if keys.length < items.length then return false
    if ← checkPair ctx code item key then matchKeys ctx code items keys
    else matchKeys ctx code (item :: items) keys

/-- Takes `n` items off the stack, the top one first. -/
def popItems (n : Nat) : MachineM σ (List Bytes) :=
  (List.range n).mapM fun _ => onStack pop

/-- The number of keys on top of the stack. Every key counts as an operation. -/
def popKeyCount (ctx : Context σ) : MachineM σ Nat := do
  let n ← onStack (popNumber ctx.flags.minimalData)
  if n < 0 ∨ Limit.keys < n then throw (.publicKeyCount n)
  countOperations n.toNat
  return n.toNat

/-- The number of signatures on top of the stack, at most the number of keys. -/
def popSignatureCount (ctx : Context σ) (keyCount : Nat) : MachineM σ Nat := do
  let n ← onStack (popNumber ctx.flags.minimalData)
  if n < 0 ∨ keyCount < n then throw (.signatureCount n keyCount)
  return n.toNat

/-- Checks several signatures. From the top down there are the number of keys, the keys, the number
    of signatures, the signatures, and one item that has no use. -/
def checkMultiple (ctx : Context σ) : MachineM σ Bool := do
  let keyCount ← popKeyCount ctx
  let keys ← popItems keyCount
  let signatureCount ← popSignatureCount ctx keyCount
  let items ← popItems signatureCount
  let dummy ← onStack pop
  if ctx.flags.nullDummy && !dummy.isEmpty then throw (.dummyNotEmpty dummy.length)
  matchKeys ctx (← scriptCode ctx) items keys

end SpendScript

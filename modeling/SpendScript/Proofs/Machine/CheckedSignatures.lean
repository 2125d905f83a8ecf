/-
  What is checked before the checker is asked about a signature. A question comes from an item and a
  key that have both been accepted (`Checked`). This holds for every pair that a check of several
  signatures tries, and no matter whether the instruction succeeds: all pairs go through the same
  check, which asks nothing or asks about what it has accepted (`stateOf_checkPair`). The items and
  keys are those that the instruction finds on the stack (`Instruction.checked_of_step`).
-/
import Mathlib.Data.List.Basic
import SpendScript.Proofs.Machine.Records
import SpendScript.Proofs.StrictEncoding

namespace SpendScript

variable {σ α : Type}

/-! ## One pair -/

/-- A question about a signature comes from bytes that have passed the checks: the signature without
    its hash type, the hash type, and the key. -/
structure Checked (flags : Flags) (versionZero : Prop) (sig : Bytes) (hashType : UInt8)
    (key : Bytes) (q : SignatureQuery) : Prop where
  accepted : StrictEncoding.checkSignature sig = .ok ()
  form : ∃ r s, sig = StrictEncoding.der r s ∧ s ≤ Curve.order / 2
  signature : Signature.ofDer? sig = some q.signature
  passedOn : q.hashType = UInt32.ofNat hashType.toNat
  publicKey : PublicKey.ofBytes? key = some q.key
  defined : flags.strictEncoding = true →
    hashType &&& 0x7f = 1 ∨ hashType &&& 0x7f = 2 ∨ hashType &&& 0x7f = 3
  kind : flags.strictEncoding = true →
    (key.length = 33 ∧ (key.head? = some 0x02 ∨ key.head? = some 0x03)) ∨
      (key.length = 65 ∧ key.head? = some 0x04)
  compressed : versionZero →
    key.length = 33 ∧ (key.head? = some 0x02 ∨ key.head? = some 0x03)

/-- The question comes from a signature and a key among these items. -/
def TakenFrom (items : List Bytes) (flags : Flags) (versionZero : Prop) (q : SignatureQuery) : Prop :=
  ∃ sig hashType key, sig ++ [hashType] ∈ items ∧ key ∈ items ∧
    Checked flags versionZero sig hashType key q

/-- What is refused changes nothing. -/
theorem stateOf_ofEncoding_bind {r : Except EncodingError Unit} {f : Unit → MachineM σ α}
    {m : Machine σ} :
    stateOf ((MachineM.ofEncoding r >>= f) m) = m ∨
      r = .ok () ∧ stateOf ((MachineM.ofEncoding r >>= f) m) = stateOf (f () m) := by
  cases r with
  | ok _ => exact Or.inr ⟨rfl, rfl⟩
  | error e => exact Or.inl rfl

/-- Nothing is asked about a pair, or the question is about what has been accepted. -/
theorem stateOf_checkPair (ctx : Context σ) (code item key : Bytes) (m : Machine σ) :
    stateOf (checkPair ctx code item key m) = m ∨
      ∃ sig hashType q, item = sig ++ [hashType] ∧
        Checked ctx.flags (ctx.versionZero = true) sig hashType key q ∧
        stateOf (checkPair ctx code item key m) =
          { m with checker := (ctx.checker.checkSignature q m.checker).2 } := by
  unfold checkPair
  rcases List.eq_nil_or_concat' item with rfl | ⟨sig, hashType, rfl⟩
  · exact Or.inl rfl
  rw [List.getLast?_concat, List.dropLast_concat]
  rcases stateOf_ofEncoding_bind with hstate | ⟨htype, hstate⟩
  · exact Or.inl hstate
  rw [hstate]
  rcases stateOf_ofEncoding_bind with hstate | ⟨hsig, hstate⟩
  · exact Or.inl hstate
  rw [hstate]
  rcases stateOf_ofEncoding_bind with hstate | ⟨hkey, hstate⟩
  · exact Or.inl hstate
  rw [hstate]
  cases hread : Signature.ofDer? sig with
  | none => exact Or.inl rfl
  | some signature =>
    cases hpublic : PublicKey.ofBytes? key with
    | none => exact Or.inl rfl
    | some publicKey =>
      rw [StrictEncoding.checkHashType_ok] at htype
      simp only [StrictEncoding.checkPublicKey_ok, StrictEncoding.isCompressed_iff,
        StrictEncoding.isUncompressed_iff] at hkey
      refine Or.inr ⟨sig, hashType, ⟨signature, UInt32.ofNat hashType.toNat, publicKey, code⟩, rfl,
        ?_, ?_⟩
      · exact ⟨hsig, StrictEncoding.eq_der_of_checkSignature hsig, hread, rfl, hpublic, htype,
          hkey.2, hkey.1⟩
      · exact MachineM.stateOf_askSignature ctx.checker _ m

/-! ## The questions of one instruction -/

section Records

variable {c : Checker σ} {ctx : Context (σ × List Query)} {before : List Query}
  {Q : SignatureQuery → Prop} {items : List Bytes} {m : Machine (σ × List Query)}

/-- All that is left on the stack are some of the items, and the questions are as `Q` says. -/
def Drawn (items : List Bytes) (before : List Query) (Q : SignatureQuery → Prop)
    (m : Machine (σ × List Query)) : Prop :=
  (∀ x ∈ m.stack, x ∈ items) ∧ Records before Q m

theorem preserves_of_tail {f : StackM α} (hf : ∀ s, stateOf (f s) = s.tail) :
    Preserves (Drawn (σ := σ) items before Q) (MachineM.onStack f) := by
  rintro m ⟨hstack, hrecords⟩
  rw [MachineM.stateOf_onStack, hf]
  exact ⟨fun x hx => hstack x (List.mem_of_mem_tail hx), hrecords⟩

/-- Signature checks take their signatures and keys from the items. -/
theorem draws_drawn (hc : ctx.checker = c.recording) :
    Draws ctx (fun _ => True) (· ∈ items)
      (Drawn items before (TakenFrom items ctx.flags (ctx.versionZero = true))) where
  pop := preserves_of_tail fun s => by cases s <;> rfl
  number minimal := by
    refine preserves_of_tail fun s => ?_
    cases s with
    | nil => rfl
    | cons x s =>
      change stateOf (StackM.readNumber minimal Number.operandSize x s) = s
      unfold StackM.readNumber
      split <;> rfl
  count n := by
    rintro m ⟨hstack, hrecords⟩
    rw [MachineM.stateOf_countOperations]
    exact ⟨hstack, hrecords⟩
  item _ h := h.1
  code _ _ := trivial
  pair {code item key} _ hitem hkey := by
    rintro m ⟨hstack, hrecords⟩
    rcases stateOf_checkPair ctx code item key m with hstate | ⟨sig, hashType, q, rfl, hq, hstate⟩
    · rw [hstate]
      exact ⟨hstack, hrecords⟩
    · rw [hstate]
      refine ⟨hstack, hrecords.cons (.signature q) (fun q' heq => ?_) (by rw [hc]; rfl)⟩
      cases heq
      exact ⟨sig, hashType, key, hitem, hkey, hq⟩

namespace Instruction

variable {offset : Nat} {i : Instruction}

/-- The answer of a signature check is delivered without a further question. -/
theorem records_deliver (hc : ctx.checker = c.recording) {x : MachineM (σ × List Query) Bool}
    (hx : Preserves (Drawn items before Q) x) (op : Opcode) (verify : Bool)
    (hm : Drawn items before Q m) :
    Records before Q (stateOf ((x >>= deliver op verify) m)) := by
  rcases stateOf_bind x (deliver op verify) m with hstate | ⟨b, -, hstate⟩
  · rw [hstate]
    exact (hx m hm).2
  · rw [hstate]
    exact (frame_records hc).quiet.deliver op verify b _ (hx m hm).2

/-- A signature check asks about what it takes off the stack. -/
theorem records_perform (hc : ctx.checker = c.recording)
    (hcheck : i.operation.isSignatureCheck = true) :
    Records m.checker.2 (TakenFrom m.stack ctx.flags (ctx.versionZero = true))
      (stateOf (i.perform ctx offset m)) := by
  have hdrawn : Draws ctx (fun _ => True) (· ∈ m.stack) (Drawn m.stack m.checker.2
      (TakenFrom m.stack ctx.flags (ctx.versionZero = true))) := draws_drawn hc
  have hm : Drawn m.stack m.checker.2 (TakenFrom m.stack ctx.flags (ctx.versionZero = true)) m :=
    ⟨fun _ hx => hx, records_start _ m⟩
  unfold perform
  dsimp only
  obtain ⟨verify, hop | hop⟩ := Operation.eq_of_isSignatureCheck hcheck
  · rw [hop]
    exact records_deliver hc hdrawn.checkSingle _ verify hm
  · rw [hop]
    exact records_deliver hc hdrawn.checkMultiple _ verify hm

/-- **The questions of one instruction.** Only signature checks ask about signatures, and what they
    ask about is checked and comes from the stack that they find. -/
theorem checked_of_step (hc : ctx.checker = c.recording) (offset : Nat) (i : Instruction)
    (m : Machine (σ × List Query)) :
    Records m.checker.2
      (fun q => i.operation.isSignatureCheck = true ∧
        TakenFrom m.stack ctx.flags (ctx.versionZero = true) q)
      (stateOf (i.step ctx offset m)) := by
  by_cases hcheck : i.operation.isSignatureCheck = true
  · obtain ⟨k, hstate | hstate⟩ := i.stateOf_step ctx offset m
    · rw [hstate]
      exact records_start _ m
    · rw [hstate]
      exact (records_perform hc hcheck).imp fun q hq => ⟨hcheck, hq⟩
  · refine (frame_records hc).step (fun h => absurd h hcheck) (fun _ _ _ h => h) (fun _ _ h => h) m ?_
    exact records_start _ m

end Instruction

end Records

end SpendScript

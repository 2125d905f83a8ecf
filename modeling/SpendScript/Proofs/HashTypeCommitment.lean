/-
  What a signature commits to of its hash type. The message of a signature ends with four bytes of a hash
  type (`Transaction.preimage?`). They are those of its meaning, not of the number as written, so numbers of
  one meaning have one message (`Spending.message?_eq_iff`), and only the six defined ones stand at the end
  of their own (`Spending.ends_iff`).

  Strict encoding lets only defined hash types through. Under it, whatever an engine goes through, a
  signature is checked against a message that ends with the byte it came with
  (`Engine.hashType_committed`). Without it the byte can be exchanged for another of the same meaning
  (`Spending.message?_zero_one`).
-/
import SpendScript.Proofs.CacheTransparency
import SpendScript.Proofs.CheckedSignatures

namespace SpendScript

/-- What ends with a number at a width tells the number, if it fits. -/
theorem Bytes.eq_of_append_ofNatLE {width n n' : Nat} {front front' : Bytes}
    (hn : n < capacity width) (hn' : n' < capacity width)
    (h : front ++ ofNatLE width n = front' ++ ofNatLE width n') : n = n' := by
  obtain ⟨-, hend⟩ := List.append_inj' h (by simp only [length_ofNatLE])
  have hread := congrArg natLE hend
  rwa [natLE_ofNatLE, natLE_ofNatLE, Nat.mod_eq_of_lt hn, Nat.mod_eq_of_lt hn'] at hread

namespace HashType

/-! ## Numbers and meanings -/

/-- The hash types that are written as what they mean. -/
def defined : List UInt32 := [0x01, 0x02, 0x03, 0x81, 0x82, 0x83]

theorem toNumber_inj {a b : HashType} (h : a.toNumber = b.toNumber) : a = b := by
  obtain ⟨_ | _ | _, _ | _⟩ := a <;> obtain ⟨_ | _ | _, _ | _⟩ := b <;> first | rfl | cases h

theorem toNumber_lt (t : HashType) : t.toNumber < Bytes.capacity 4 := by
  obtain ⟨_ | _ | _, _ | _⟩ := t <;> decide

/-- A number stands for its own meaning just when it is defined. -/
theorem toNumber_ofNumber_iff {t : UInt32} : (ofNumber t).toNumber = t.toNat ↔ t ∈ defined := by
  constructor
  · intro h
    have hmem (a : HashType) : UInt32.ofNat a.toNumber ∈ defined := by
      obtain ⟨_ | _ | _, _ | _⟩ := a <;> decide
    have ht := hmem (ofNumber t)
    rwa [h, UInt32.ofNat_toNat] at ht
  · intro h
    simp only [defined, List.mem_cons, List.not_mem_nil, or_false] at h
    rcases h with rfl | rfl | rfl | rfl | rfl | rfl <;> decide

/-- What strict encoding lets through is defined. -/
theorem mem_defined_of_byte {b : UInt8} (h : b &&& 0x7f = 1 ∨ b &&& 0x7f = 2 ∨ b &&& 0x7f = 3) :
    UInt32.ofNat b.toNat ∈ defined := by
  have hall := Opcode.forall_of_table
    (p := fun op => decide (op.byte &&& 0x7f = 1 ∨ op.byte &&& 0x7f = 2 ∨ op.byte &&& 0x7f = 3 →
      UInt32.ofNat op.byte.toNat ∈ defined))
    (by decide +kernel) ⟨b⟩
  exact of_decide_eq_true hall h

end HashType

namespace Spending

variable {s : Spending} {code : Bytes} {t t' : UInt32}

/-! ## Messages -/

/-- The message whose double SHA-256 a signature over the code is checked against. -/
def message? (s : Spending) (code : Bytes) (t : UInt32) : Option Bytes :=
  s.tx.preimage? s.index code s.amount (.ofNumber t)

theorem digest?_eq (q : SignatureQuery) :
    s.digest? q = (s.message? q.scriptCode q.hashType).map Digest.hash256 := rfl

/-- An input that is there has a message for every hash type, with the number of its meaning at the end. -/
theorem exists_message (hindex : s.index < s.tx.inputs.length) (code : Bytes) (t : UInt32) :
    ∃ front, s.message? code t =
      some (front ++ Bytes.ofNatLE 4 (HashType.ofNumber t).toNumber) := by
  have hinput : s.tx.inputs[s.index]? = some s.tx.inputs[s.index] := List.getElem?_eq_getElem hindex
  unfold message? Transaction.preimage?
  rw [hinput]
  exact ⟨_, rfl⟩

theorem message?_eq_iff (hindex : s.index < s.tx.inputs.length) :
    s.message? code t' = s.message? code t ↔ HashType.ofNumber t' = HashType.ofNumber t := by
  constructor
  · intro h
    obtain ⟨front, hmessage⟩ := exists_message hindex code t
    obtain ⟨front', hmessage'⟩ := exists_message hindex code t'
    rw [hmessage, hmessage', Option.some.injEq] at h
    exact HashType.toNumber_inj
      (Bytes.eq_of_append_ofNatLE (HashType.toNumber_lt _) (HashType.toNumber_lt _) h)
  · intro h
    unfold message?
    rw [h]

/-- A message ends with its hash type as written just when that is defined. -/
theorem ends_iff (front : Bytes) :
    Bytes.ofNatLE 4 t.toNat <:+ front ++ Bytes.ofNatLE 4 (HashType.ofNumber t).toNumber ↔
      t ∈ HashType.defined := by
  rw [← HashType.toNumber_ofNumber_iff]
  constructor
  · rintro ⟨front', h⟩
    exact (Bytes.eq_of_append_ofNatLE t.toNat_lt (HashType.toNumber_lt _) h).symm
  · intro h
    rw [h]
    exact List.suffix_append front _

/-- A checker that can trust its cache answers for the message of the question. -/
theorem checkSignature_message {q : SignatureQuery} {message : Bytes}
    (hmessage : s.message? q.scriptCode q.hashType = some message)
    {cache : Option SignatureCache} (hcache : Trusted cache) :
    (s.checker.checkSignature q cache).1 =
      .ok (q.signature.isValid (Digest.hash256 message) q.key) := by
  have hdigest : s.digest? q = some (Digest.hash256 message) := by
    rw [digest?_eq, hmessage]
    rfl
  unfold checker
  dsimp only
  rw [hdigest]
  exact congrArg Except.ok (checkDigest_trusted _ q hcache).1

/-- What has been checked under strict encoding has a message that ends with its own byte. -/
theorem ends_of_checked {F : Flags} {versionZero : Prop} {sig key : Bytes} {b : UInt8}
    {q : SignatureQuery} (hindex : s.index < s.tx.inputs.length) (hstrict : F.strictEncoding = true)
    (hq : Checked F versionZero sig b key q) :
    ∃ message, s.message? q.scriptCode q.hashType = some message ∧
      Bytes.ofNatLE 4 b.toNat <:+ message := by
  obtain ⟨front, hmessage⟩ := exists_message hindex q.scriptCode q.hashType
  have hdefined : q.hashType ∈ HashType.defined := by
    rw [hq.passedOn]
    exact HashType.mem_defined_of_byte (hq.defined hstrict)
  have hbyte : q.hashType.toNat = b.toNat := by
    rw [hq.passedOn, UInt32.toNat_ofNat_of_lt' (Nat.lt_trans b.toNat_lt (by decide))]
  refine ⟨_, hmessage, ?_⟩
  rw [← hbyte]
  exact (ends_iff front).2 hdefined

/-- A spend by the only input of a transaction. -/
def coinSpend : Spending where
  tx :=
    { version := 2
      inputs := [⟨⟨List.replicate 32 0, 0⟩, [], 0xffffffff, []⟩]
      outputs := []
      lockTime := 0 }
  index := 0
  amount := 50000

/-- Hash types 0 and 1 have one message. It ends with 1, and a signature of it is valid for both. -/
theorem message?_zero_one :
    ∃ message, coinSpend.message? [0xac] 0 = some message ∧
      coinSpend.message? [0xac] 1 = some message ∧
      ¬ Bytes.ofNatLE 4 0 <:+ message ∧
      ∀ signature key,
        (coinSpend.checker.checkSignature ⟨signature, 0, key, [0xac]⟩ none).1 =
          (coinSpend.checker.checkSignature ⟨signature, 1, key, [0xac]⟩ none).1 := by
  have hindex : coinSpend.index < coinSpend.tx.inputs.length := by decide
  obtain ⟨front, hmessage⟩ := exists_message hindex [0xac] 0
  have hsame : coinSpend.message? [0xac] 1 = coinSpend.message? [0xac] 0 :=
    (message?_eq_iff hindex).2 (by decide)
  have hmessage' := hsame.trans hmessage
  have hnone : Trusted none := fun c hc => nomatch hc
  refine ⟨_, hmessage, hmessage', fun hend => ?_, fun signature key => ?_⟩
  · exact absurd ((ends_iff (t := 0) front).1 hend) (by decide)
  · exact (checkSignature_message (q := ⟨signature, 0, key, [0xac]⟩) hmessage hnone).trans
      (checkSignature_message (q := ⟨signature, 1, key, [0xac]⟩) hmessage' hnone).symm

end Spending

/-! ## Engines -/

namespace Engine

/-- **Hash types.** A signature is checked against a message that ends with the number of what its hash
    type means. Hash types have one message just when they mean the same, and a hash type stands at the
    end of its own message just when it is defined. In an engine the hash type is the last byte of an item
    on the stack; under strict encoding it is always defined, so the message ends with it. -/
theorem hashType_committed {s : Spending} (hindex : s.index < s.tx.inputs.length) :
    (∀ code t, ∃ message, s.message? code t = some message ∧
      Bytes.ofNatLE 4 (HashType.ofNumber t).toNumber <:+ message ∧
      (Bytes.ofNatLE 4 t.toNat <:+ message ↔ t ∈ HashType.defined) ∧
      (∀ t', s.message? code t' = some message ↔ HashType.ofNumber t' = HashType.ofNumber t) ∧
      ∀ q cache, q.scriptCode = code → q.hashType = t → Trusted cache →
        (s.checker.checkSignature q cache).1 =
          .ok (q.signature.isValid (Digest.hash256 message) q.key)) ∧
    ∀ locking witness F cache e f, ofWitness locking witness F s.checker cache = .ok e →
      Visits e.recorded f →
      ∃ asked, (stateOf (step f)).machine.checker.2 = asked ++ f.machine.checker.2 ∧
        ∀ q, .signature q ∈ asked → ∃ sig b, sig ++ [b] ∈ f.machine.stack ∧
          q.hashType = UInt32.ofNat b.toNat ∧
          (F.strictEncoding = true → ∃ message,
            s.message? q.scriptCode q.hashType = some message ∧
              Bytes.ofNatLE 4 b.toNat <:+ message) := by
  refine ⟨fun code t => ?_, fun locking witness F cache e f he hf => ?_⟩
  · obtain ⟨front, hmessage⟩ := Spending.exists_message hindex code t
    refine ⟨_, hmessage, List.suffix_append front _, Spending.ends_iff front, fun t' => ?_, ?_⟩
    · rw [← hmessage]
      exact Spending.message?_eq_iff hindex
    · rintro q cache rfl rfl hcache
      exact Spending.checkSignature_message hmessage hcache
  · obtain ⟨-, -, -, hflags, hchecker, -⟩ := settings_of_ofWitness he
    have hrecorded : e.recorded.Settled s.checker.recording F e.spend :=
      ⟨congrArg Checker.recording hchecker, hflags, rfl⟩
    obtain ⟨asked, hasked, hall⟩ := (hf.settled hrecorded).records_step
    refine ⟨asked, hasked, fun q hq => ?_⟩
    obtain ⟨-, sig, b, key, hitem, -, hchecked⟩ := hall q hq
    exact ⟨sig, b, hitem, hchecked.passedOn,
      fun hstrict => Spending.ends_of_checked hindex hstrict hchecked⟩

/-- A signature with hash type 0x83, and the script that checks it against the key with x 1. -/
def oneKeyWitness : List Bytes :=
  [[0x09, 0x30, 0x06, 0x02, 0x01, 0x01, 0x02, 0x01, 0x01, 0x83],
    [0x21, 0x02] ++ List.replicate 31 0 ++ [1, 0xac, 0x61]]

/-- The third step of this spend checks the signature, against a message that ends with the hash type. -/
theorem hashType_committed_oneKey :
    ∃ e : Engine (Option SignatureCache),
      ofWitness [0x08, 0xd0, 0x07, 0, 0, 0, 0, 0, 0] oneKeyWitness { strictEncoding := true }
        Spending.coinSpend.checker none = .ok e ∧
      (reached 3 e.recorded).signatureChecks.map SignatureQuery.hashType = [0x83] ∧
      ∀ q, .signature q ∈ (reached 3 e.recorded).machine.checker.2 →
        ∃ sig b message, sig ++ [b] ∈ (reached 2 e.recorded).machine.stack ∧
          Spending.coinSpend.message? q.scriptCode q.hashType = some message ∧
          Bytes.ofNatLE 4 b.toNat <:+ message := by
  have hrun : (do
      let e ← ofWitness [0x08, 0xd0, 0x07, 0, 0, 0, 0, 0, 0] oneKeyWitness
        { strictEncoding := true } Spending.coinSpend.checker none
      return ((reached 2 e.recorded).machine.checker.2,
        (reached 3 e.recorded).signatureChecks.map SignatureQuery.hashType)) =
          .ok ([], [0x83]) := by
    decide +kernel
  obtain ⟨e, he, hcomputed⟩ := except_bind_ok.1 hrun
  obtain ⟨hbefore, htypes⟩ : (reached 2 e.recorded).machine.checker.2 = [] ∧
      (reached 3 e.recorded).signatureChecks.map SignatureQuery.hashType = [0x83] := by
    simpa using Except.ok.inj hcomputed
  have hindex : Spending.coinSpend.index < Spending.coinSpend.tx.inputs.length := by decide
  obtain ⟨asked, hasked, hall⟩ :=
    (hashType_committed hindex).2 _ _ _ _ e _ he (visits_reached e.recorded 2)
  rw [hbefore, List.append_nil] at hasked
  refine ⟨e, he, htypes, fun q hq => ?_⟩
  rw [show (reached 3 e.recorded).machine.checker.2 = asked from hasked] at hq
  obtain ⟨sig, b, hitem, -, hends⟩ := hall q hq
  obtain ⟨message, hmessage, hend⟩ := hends rfl
  exact ⟨sig, b, message, hitem, hmessage, hend⟩

end Engine

end SpendScript

/-
  Multiple signature checks under a checker that answers by a fixed predicate. The search through
  the keys is greedy: a signature that could have gone with a later key goes with the first that
  fits. Still it finds an assignment in order whenever there is one (`matchKeys_ok`), since the
  signatures after it have all the more keys left.
-/
import SpendScript.Proofs.Assignment
import SpendScript.Proofs.Machine.Success
import SpendScript.Proofs.StrictEncoding.Acceptance

namespace SpendScript

variable {σ : Type}

/-- The checker answers about signatures by a fixed predicate, whatever its state. -/
def Checker.Answers (c : Checker σ) (V : SignatureQuery → Bool) : Prop :=
  ∀ q s, (c.checkSignature q s).1 = .ok (V q)

/-- The item is a signature written from two numbers, in at most 72 bytes and with a low S, and a hash
    type, and the predicate accepts it for the key. That is the form which the strict check accepts
    (`StrictEncoding.checkSignature_ok`). -/
def Signs (V : SignatureQuery → Bool) (code item key : Bytes) : Prop :=
  ∃ r s hashType signature publicKey,
    item = StrictEncoding.der r s ++ [hashType] ∧
    (StrictEncoding.der r s).length ≤ 72 ∧ s ≤ StrictEncoding.halfOrder ∧
    Signature.ofDer? (StrictEncoding.der r s) = some signature ∧
    PublicKey.ofBytes? key = some publicKey ∧
    V ⟨signature, UInt32.ofNat hashType.toNat, publicKey, code⟩ = true

/-- The item and the key have the forms that are asked of them. Nothing is asked of them where the
    item is empty. -/
def PairEncoded (ctx : Context σ) (item key : Bytes) : Prop :=
  ∀ body hashType, item = body ++ [hashType] →
    StrictEncoding.checkHashType hashType ctx.flags = .ok () ∧
    StrictEncoding.checkSignature body = .ok () ∧
    StrictEncoding.checkPublicKey key ctx.versionZero ctx.flags = .ok ()

open MachineM StackM

/-! ## One signature -/

variable {ctx : Context σ} {V : SignatureQuery → Bool} {code : Bytes} {m m' : Machine σ} {b : Bool}

/-- The state of the checker after questions about signatures, one after the other. -/
def Checker.afterAll (c : Checker σ) (asked : List SignatureQuery) (s : σ) : σ :=
  asked.foldl (fun s q => (c.checkSignature q s).2) s

theorem askSignature_answers (hc : ctx.checker.Answers V) (q : SignatureQuery) :
    askSignature ctx.checker q m =
      .ok (V q) { m with checker := ctx.checker.afterAll [q] m.checker } := by
  have hanswer : ctx.checker.checkSignature q m.checker =
      (.ok (V q), ctx.checker.afterAll [q] m.checker) :=
    Prod.ext (hc q m.checker) rfl
  unfold askSignature
  rw [hanswer]

/-- What is left of a check of a signature once its encodings are accepted. -/
def askPair (ctx : Context σ) (code body key : Bytes) (hashType : UInt8) : MachineM σ Bool :=
  match Signature.ofDer? body, PublicKey.ofBytes? key with
  | some signature, some publicKey =>
    askSignature ctx.checker ⟨signature, UInt32.ofNat hashType.toNat, publicKey, code⟩
  | _, _ => return false

theorem askPair_ok (hc : ctx.checker.Answers V) (code body key : Bytes) (hashType : UInt8) :
    ∃ b s, askPair ctx code body key hashType m = .ok b { m with checker := s } ∧
      (b = true ↔ ∃ signature publicKey, Signature.ofDer? body = some signature ∧
        PublicKey.ofBytes? key = some publicKey ∧
        V ⟨signature, UInt32.ofNat hashType.toNat, publicKey, code⟩ = true) := by
  unfold askPair
  rcases hs : Signature.ofDer? body with _ | signature
  · refine ⟨false, m.checker, rfl, ?_⟩
    simp
  · rcases hk : PublicKey.ofBytes? key with _ | publicKey
    · refine ⟨false, m.checker, rfl, ?_⟩
      simp
    · refine ⟨_, _, askSignature_answers hc _, ?_⟩
      simp

theorem checkPair_concat_ok {body key : Bytes} {hashType : UInt8} :
    checkPair ctx code (body ++ [hashType]) key m = .ok b m' ↔
      (StrictEncoding.checkHashType hashType ctx.flags = .ok () ∧
        StrictEncoding.checkSignature body = .ok () ∧
        StrictEncoding.checkPublicKey key ctx.versionZero ctx.flags = .ok ()) ∧
      askPair ctx code body key hashType m = .ok b m' := by
  unfold checkPair
  rw [List.getLast?_concat, List.dropLast_concat]
  simp only [bind_ok, ofEncoding_ok]
  constructor
  · rintro ⟨_, m₁, ⟨hh, rfl⟩, _, m₂, ⟨hs, rfl⟩, _, m₃, ⟨hk, rfl⟩, h⟩
    exact ⟨⟨hh, hs, hk⟩, h⟩
  · rintro ⟨⟨hh, hs, hk⟩, h⟩
    exact ⟨(), m, ⟨hh, rfl⟩, (), m, ⟨hs, rfl⟩, (), m, ⟨hk, rfl⟩, h⟩

theorem encoded_of_checkPair_ok {item key : Bytes} (h : checkPair ctx code item key m = .ok b m') :
    PairEncoded ctx item key := by
  rintro body hashType rfl
  exact (checkPair_concat_ok.1 h).1

/-- A pair with the forms that are asked of it gets the answer of the predicate; the checker may
    have another state then. -/
theorem checkPair_ok_of_encoded (hc : ctx.checker.Answers V) (code : Bytes) {item key : Bytes}
    (h : PairEncoded ctx item key) :
    ∃ b s, checkPair ctx code item key m = .ok b { m with checker := s } ∧
      (b = true ↔ Signs V code item key) := by
  rcases List.eq_nil_or_concat' item with rfl | ⟨body, hashType, rfl⟩
  · refine ⟨false, m.checker, rfl, ?_⟩
    constructor
    · intro hb
      cases hb
    · rintro ⟨r, s, hashType, -, -, hnil, -⟩
      exact absurd hnil.symm (List.concat_ne_nil hashType (StrictEncoding.der r s))
  · obtain ⟨b, s, hask, hb⟩ := askPair_ok (m := m) hc code body key hashType
    have hencoded := h body hashType rfl
    refine ⟨b, s, checkPair_concat_ok.2 ⟨hencoded, hask⟩, hb.trans ?_⟩
    constructor
    · rintro ⟨signature, publicKey, hs, hk, hv⟩
      obtain ⟨r, s, rfl, hlength, hlow⟩ := StrictEncoding.checkSignature_ok.1 hencoded.2.1
      exact ⟨r, s, hashType, signature, publicKey, rfl, hlength, hlow, hs, hk, hv⟩
    · rintro ⟨r, s, hashType', signature, publicKey, hitem, -, -, hs, hk, hv⟩
      obtain ⟨rfl, rfl⟩ := List.append_singleton_inj.1 hitem
      exact ⟨signature, publicKey, hs, hk, hv⟩

/-! ## The search through the keys -/

/-- The search answers yes just when the signatures have keys in order. -/
theorem matchKeys_ok (hc : ctx.checker.Answers V) {items keys : List Bytes}
    (h : matchKeys ctx code items keys m = .ok b m') :
    (b = true ↔ List.SublistForall₂ (Signs V code) items keys) ∧
      ∃ s, m' = { m with checker := s } := by
  induction keys generalizing items m with
  | nil =>
    rcases items with _ | ⟨item, items⟩
    · cases h
      exact ⟨⟨fun _ => .nil, fun _ => rfl⟩, m'.checker, rfl⟩
    · cases h
      refine ⟨⟨fun hb => absurd hb Bool.false_ne_true, fun hs => ?_⟩, m'.checker, rfl⟩
      exact absurd (length_le_of_sublistForall₂ hs) (Nat.not_succ_le_zero _)
  | cons key keys ih =>
    rcases items with _ | ⟨item, items⟩
    · cases h
      exact ⟨⟨fun _ => .nil, fun _ => rfl⟩, m'.checker, rfl⟩
    · unfold matchKeys at h
      by_cases hlt : keys.length < items.length
      · rw [if_pos hlt] at h
        cases h
        refine ⟨⟨fun hb => absurd hb Bool.false_ne_true, fun hs => ?_⟩, m'.checker, rfl⟩
        have hle := length_le_of_sublistForall₂ hs
        simp only [List.length_cons] at hle
        omega
      · rw [if_neg hlt, bind_ok] at h
        obtain ⟨fits, m₁, hpair, hrest⟩ := h
        obtain ⟨b', s, hpair', hfits⟩ :=
          checkPair_ok_of_encoded hc code (encoded_of_checkPair_ok hpair)
        rw [hpair', EStateM.Result.ok.injEq] at hpair
        obtain ⟨rfl, rfl⟩ := hpair
        rcases b' with _ | _
        · have hmisfit : ¬ Signs V code item key := fun hs => Bool.false_ne_true (hfits.2 hs)
          rw [sublistForall₂_cons_of_misfit hmisfit]
          exact ih (m := { m with checker := s }) hrest
        · rw [sublistForall₂_cons_of_fits (hfits.1 rfl)]
          exact ih (m := { m with checker := s }) hrest

/-- The search comes to its end where all pairs have the forms that are asked of them. -/
theorem matchKeys_of_encoded (hc : ctx.checker.Answers V) (code : Bytes) {items keys : List Bytes}
    (h : ∀ item ∈ items, ∀ key ∈ keys, PairEncoded ctx item key) :
    ∃ b m', matchKeys ctx code items keys m = .ok b m' := by
  induction keys generalizing items m with
  | nil =>
    rcases items with _ | ⟨item, items⟩
    · exact ⟨true, m, rfl⟩
    · exact ⟨false, m, rfl⟩
  | cons key keys ih =>
    rcases items with _ | ⟨item, items⟩
    · exact ⟨true, m, rfl⟩
    · unfold matchKeys
      by_cases hlt : keys.length < items.length
      · rw [if_pos hlt]
        exact ⟨false, m, rfl⟩
      · rw [if_neg hlt]
        obtain ⟨fits, s, hpair, -⟩ := checkPair_ok_of_encoded (m := m) hc code
          (h item List.mem_cons_self key List.mem_cons_self)
        have hkeys : ∀ i ∈ item :: items, ∀ k ∈ keys, PairEncoded ctx i k := fun i hi k hk =>
          h i hi k (List.mem_cons_of_mem key hk)
        have hitems : ∀ i ∈ items, ∀ k ∈ keys, PairEncoded ctx i k := fun i hi =>
          hkeys i (List.mem_cons_of_mem item hi)
        rcases fits with _ | _
        · obtain ⟨b, m', hrest⟩ := ih (m := { m with checker := s }) hkeys
          exact ⟨b, m', bind_ok.2 ⟨false, _, hpair, hrest⟩⟩
        · obtain ⟨b, m', hrest⟩ := ih (m := { m with checker := s }) hitems
          exact ⟨b, m', bind_ok.2 ⟨true, _, hpair, hrest⟩⟩

/-! ## What the check takes off the stack -/

theorem popNumber_ok {minimal : Bool} {k : Int} :
    onStack (popNumber minimal) m = .ok k m' ↔
      ∃ x s, m.stack = x :: s ∧ Number.decode x minimal Number.operandSize = .ok k ∧
        m' = { m with stack := s } := by
  have hread (x : Bytes) (s s' : Stack) :
      readNumber minimal Number.operandSize x s = .ok k s' ↔
        Number.decode x minimal Number.operandSize = .ok k ∧ s' = s := by
    unfold readNumber
    rcases Number.decode x minimal Number.operandSize with e | j
    · constructor
      · intro h
        cases h
      · rintro ⟨h, -⟩
        cases h
    · constructor
      · intro h
        cases h
        exact ⟨rfl, rfl⟩
      · rintro ⟨h, rfl⟩
        cases h
        rfl
  rw [onStack_ok]
  unfold popNumber
  simp only [bind_ok, pop_ok, hread]
  constructor
  · rintro ⟨s, ⟨x, _, hs, hd, rfl⟩, rfl⟩
    exact ⟨x, s, hs, hd, rfl⟩
  · rintro ⟨x, s, hs, hd, rfl⟩
    exact ⟨s, ⟨x, s, hs, hd, rfl⟩, rfl⟩

/-- A number that is at least zero and at most `max` is that of a natural number. -/
theorem toNat_of_bounds {k : Int} {max : Nat} (h : ¬ (k < 0 ∨ (max : Int) < k)) :
    k = (k.toNat : Int) ∧ k.toNat ≤ max := by
  omega

theorem popKeyCount_ok {n : Nat} :
    popKeyCount ctx m = .ok n m' ↔
      ∃ x s, m.stack = x :: s ∧
        Number.decode x ctx.flags.minimalData Number.operandSize = .ok (n : Int) ∧
        n ≤ Limit.keys ∧ m.opCount + n ≤ Limit.operations ∧
        m' = { m with stack := s, opCount := m.opCount + n } := by
  unfold popKeyCount
  simp only [bind_ok, popNumber_ok, guard_ok, countOperations_ok, pure_ok]
  constructor
  · rintro ⟨k, m₁, ⟨x, s, hs, hd, rfl⟩, hk, _, m₂, ⟨hle, rfl⟩, rfl, rfl⟩
    obtain ⟨hnat, hmax⟩ := toNat_of_bounds hk
    rw [hnat] at hd
    exact ⟨x, s, hs, hd, hmax, hle, rfl⟩
  · rintro ⟨x, s, hs, hd, hmax, hle, rfl⟩
    have hk : ¬ ((n : Int) < 0 ∨ (Limit.keys : Int) < n) := by omega
    exact ⟨n, _, ⟨x, s, hs, hd, rfl⟩, hk, (), _, ⟨hle, rfl⟩, rfl, rfl⟩

theorem popSignatureCount_ok {n keyCount : Nat} :
    popSignatureCount ctx keyCount m = .ok n m' ↔
      ∃ x s, m.stack = x :: s ∧
        Number.decode x ctx.flags.minimalData Number.operandSize = .ok (n : Int) ∧
        n ≤ keyCount ∧ m' = { m with stack := s } := by
  unfold popSignatureCount
  simp only [bind_ok, popNumber_ok, guard_ok, pure_ok]
  constructor
  · rintro ⟨k, m₁, ⟨x, s, hs, hd, rfl⟩, hk, rfl, rfl⟩
    obtain ⟨hnat, hmax⟩ := toNat_of_bounds hk
    rw [hnat] at hd
    exact ⟨x, s, hs, hd, hmax, rfl⟩
  · rintro ⟨x, s, hs, hd, hmax, rfl⟩
    have hk : ¬ ((n : Int) < 0 ∨ (keyCount : Int) < n) := by omega
    exact ⟨n, _, ⟨x, s, hs, hd, rfl⟩, hk, rfl, rfl⟩

theorem scriptCode_ok {code : Bytes} :
    scriptCode ctx m = .ok code m' ↔
      code = Script.toBytes (ctx.script.drop m.codeStart) ∧ m' = m := by
  unfold scriptCode
  rw [EStateM.Result.ok.injEq]
  exact and_congr eq_comm eq_comm

/-- Where all that the check takes off the stack is in its place, the search decides. -/
theorem checkMultiple_of_stack {x y dummy : Bytes} {keys items : List Bytes} {rest : Stack}
    (hs : m.stack = x :: (keys ++ y :: (items ++ dummy :: rest)))
    (hx : Number.decode x ctx.flags.minimalData Number.operandSize = .ok (keys.length : Int))
    (hn : keys.length ≤ Limit.keys) (hcount : m.opCount + keys.length ≤ Limit.operations)
    (hy : Number.decode y ctx.flags.minimalData Number.operandSize = .ok (items.length : Int))
    (hk : items.length ≤ keys.length) (hd : ctx.flags.nullDummy = true → dummy = []) :
    checkMultiple ctx m =
      matchKeys ctx (Script.toBytes (ctx.script.drop m.codeStart)) items keys
        { m with stack := rest, opCount := m.opCount + keys.length } := by
  have hkeyCount : popKeyCount ctx m = .ok keys.length
      { m with
        stack := keys ++ y :: (items ++ dummy :: rest)
        opCount := m.opCount + keys.length } :=
    popKeyCount_ok.2 ⟨x, _, hs, hx, hn, hcount, rfl⟩
  have hkeys : popItems keys.length
      { m with
        stack := keys ++ y :: (items ++ dummy :: rest)
        opCount := m.opCount + keys.length } = .ok keys
      { m with stack := y :: (items ++ dummy :: rest), opCount := m.opCount + keys.length } :=
    popItems_ok.2 ⟨rfl, _, rfl, rfl⟩
  have hitemCount : popSignatureCount ctx keys.length
      { m with stack := y :: (items ++ dummy :: rest), opCount := m.opCount + keys.length } =
      .ok items.length
        { m with stack := items ++ dummy :: rest, opCount := m.opCount + keys.length } :=
    popSignatureCount_ok.2 ⟨y, _, rfl, hy, hk, rfl⟩
  have hitems : popItems items.length
      { m with stack := items ++ dummy :: rest, opCount := m.opCount + keys.length } = .ok items
      { m with stack := dummy :: rest, opCount := m.opCount + keys.length } :=
    popItems_ok.2 ⟨rfl, _, rfl, rfl⟩
  have hguard : ¬ (ctx.flags.nullDummy && !dummy.isEmpty) = true := by
    simpa using hd
  unfold checkMultiple
  rw [bind_eq_of_ok hkeyCount, bind_eq_of_ok hkeys, bind_eq_of_ok hitemCount,
    bind_eq_of_ok hitems, bind_eq_of_ok (onStack_pop_ok.2 ⟨rest, rfl, rfl⟩), if_neg hguard]
  rfl

/-- The whole check: the numbers of keys and signatures, the keys and signatures themselves and one
    further item come off the stack, and the search decides. -/
theorem checkMultiple_ok :
    checkMultiple ctx m = .ok b m' ↔
      ∃ x keys y items dummy rest,
        m.stack = x :: (keys ++ y :: (items ++ dummy :: rest)) ∧
        Number.decode x ctx.flags.minimalData Number.operandSize = .ok (keys.length : Int) ∧
        keys.length ≤ Limit.keys ∧ m.opCount + keys.length ≤ Limit.operations ∧
        Number.decode y ctx.flags.minimalData Number.operandSize = .ok (items.length : Int) ∧
        items.length ≤ keys.length ∧ (ctx.flags.nullDummy = true → dummy = []) ∧
        matchKeys ctx (Script.toBytes (ctx.script.drop m.codeStart)) items keys
          { m with stack := rest, opCount := m.opCount + keys.length } = .ok b m' := by
  constructor
  · have hdummy (d : Bytes) : ¬ (ctx.flags.nullDummy && !d.isEmpty) = true ↔
        (ctx.flags.nullDummy = true → d = []) := by
      rcases ctx.flags.nullDummy with _ | _ <;> simp
    unfold checkMultiple
    simp only [bind_ok, popKeyCount_ok, popItems_ok, popSignatureCount_ok, onStack_pop_ok, guard_ok,
      hdummy, scriptCode_ok]
    rintro ⟨n, _, ⟨x, s₁, hs, hx, hn, hcount, rfl⟩, keys, _, ⟨hkeys, s₂, hs₁, rfl⟩, k, _,
      ⟨y, s₃, hs₂, hy, hk, rfl⟩, items, _, ⟨hitems, s₄, hs₃, rfl⟩, dummy, _, ⟨rest, hs₄, rfl⟩,
      hd, code, _, ⟨rfl, rfl⟩, hmatch⟩
    have hstack : m.stack = x :: (keys ++ y :: (items ++ dummy :: rest)) := by
      rw [hs, show s₁ = keys ++ s₂ from hs₁, show s₂ = y :: s₃ from hs₂,
        show s₃ = items ++ s₄ from hs₃, show s₄ = dummy :: rest from hs₄]
    rw [← hkeys] at hx hn hcount hk hmatch
    rw [← hitems] at hy hk
    exact ⟨x, keys, y, items, dummy, rest, hstack, hx, hn, hcount, hy, hk, hd, hmatch⟩
  · rintro ⟨x, keys, y, items, dummy, rest, hs, hx, hn, hcount, hy, hk, hd, hmatch⟩
    rw [checkMultiple_of_stack hs hx hn hcount hy hk hd]
    exact hmatch

/-- CHECKMULTISIG, where instructions run: one more operation, the check, and its answer on the
    stack. -/
theorem step_checkMultiSig_ok {offset : Nat} {i : Instruction} (hi : i.opcode.byte = 0xae)
    (hx : m.branches.executing = true) :
    i.step ctx offset m = .ok () m' ↔
      m.opCount + 1 ≤ Limit.operations ∧
        ∃ b m₁, checkMultiple ctx { m with opCount := m.opCount + 1 } = .ok b m₁ ∧
          m' = { m₁ with stack := ofTruth b :: m₁.stack } ∧
          m'.stack.length + m'.alt.length ≤ Limit.stackItems := by
  have hop : i.opcode = ⟨0xae⟩ := congrArg Opcode.mk hi
  have hoperation : i.operation = .checkMultiSig false := by
    unfold Instruction.operation
    rw [hop]
    rfl
  have hallowed : i.Allowed := by
    refine Instruction.allowed_of_operation ?_ ?_ <;> rw [hoperation] <;> decide
  have hpush : ¬ i.isPush = true := by
    unfold Instruction.isPush
    rw [hop]
    decide
  have hmin : i.MinimalFor ctx.flags := Instruction.minimalFor_of_not_isPush hpush
  have hperform (m₁ : Machine σ) : i.perform ctx offset m₁ = .ok () m' ↔
      ∃ b m₂, checkMultiple ctx m₁ = .ok b m₂ ∧
        m' = { m₂ with stack := ofTruth b :: m₂.stack } := by
    unfold Instruction.perform
    dsimp only
    rw [hoperation]
    change (checkMultiple ctx >>= fun b => onStack (pushTruth b)) m₁ = .ok () m' ↔ _
    rw [bind_ok]
    refine exists_congr fun b => exists_congr fun m₂ => and_congr_right' ?_
    change EStateM.Result.ok () { m₂ with stack := ofTruth b :: m₂.stack } = .ok () m' ↔ _
    rw [EStateM.Result.ok.injEq]
    exact ⟨fun h => h.2.symm, fun h => ⟨rfl, h.symm⟩⟩
  rw [Instruction.step_ok_of_executing hx, Instruction.counted_of_not_isPush hpush,
    Instruction.within_of_not_isPush hpush, hperform]
  constructor
  · rintro ⟨⟨-, hle, -, b, m₂, hcheck, heq⟩, hd⟩
    exact ⟨hle, b, m₂, hcheck, heq, hd⟩
  · rintro ⟨hle, b, m₂, hcheck, heq, hd⟩
    exact ⟨⟨hallowed, hle, hmin, b, m₂, hcheck, heq⟩, hd⟩

end SpendScript

/-
  The search for keys as the list of the pairs that it tries (`attempts`). For a checker that answers
  by a fixed predicate the search is nothing but the check of these pairs, one after the other, and
  its answer says whether the signatures have keys in order (`matchKeys_eq_attempts`). No key is
  tried twice, so there are at most as many questions as keys. All of them come from pairs that were
  tried: the state of the checker is the one that they leave (`forM_checkPair_asks`). Together with
  what comes off the stack this is the whole check (`checkMultiple_finds`).
-/
import SpendScript.Proofs.Machine.MultiSig

namespace SpendScript

variable {σ : Type}

/-! ## What a pair asks -/

/-- The question that a pair leads to. There is none if the item is empty, or if signature or key
    cannot be read. -/
def question? (code item key : Bytes) : Option SignatureQuery :=
  match item.getLast?, Signature.ofDer? item.dropLast, PublicKey.ofBytes? key with
  | some hashType, some signature, some publicKey =>
    some ⟨signature, UInt32.ofNat hashType.toNat, publicKey, code⟩
  | _, _, _ => none

/-- The item is a signature with its hash type that can be read and that the predicate accepts for
    the key. -/
def Verifies (V : SignatureQuery → Bool) (code item key : Bytes) : Prop :=
  ∃ body hashType signature publicKey,
    item = body ++ [hashType] ∧
    Signature.ofDer? body = some signature ∧
    PublicKey.ofBytes? key = some publicKey ∧
    V ⟨signature, UInt32.ofNat hashType.toNat, publicKey, code⟩ = true

theorem question?_nil (code key : Bytes) : question? code [] key = none := rfl

theorem question?_concat (code body key : Bytes) (hashType : UInt8) :
    question? code (body ++ [hashType]) key =
      match Signature.ofDer? body, PublicKey.ofBytes? key with
      | some signature, some publicKey =>
        some ⟨signature, UInt32.ofNat hashType.toNat, publicKey, code⟩
      | _, _ => none := by
  unfold question?
  rw [List.getLast?_concat, List.dropLast_concat]
  rcases Signature.ofDer? body with _ | signature
  · rfl
  · rcases PublicKey.ofBytes? key with _ | publicKey <;> rfl

/-- A pair fits when its question is answered with yes. -/
theorem verifies_iff {V : SignatureQuery → Bool} {code item key : Bytes} :
    Verifies V code item key ↔ (question? code item key).any V = true := by
  rcases List.eq_nil_or_concat' item with rfl | ⟨body, hashType, rfl⟩
  · simp [Verifies, question?_nil]
  · rw [question?_concat]
    rcases hs : Signature.ofDer? body with _ | signature
    · simp [Verifies, hs]
    · rcases hk : PublicKey.ofBytes? key with _ | publicKey
      · simp [Verifies, hk]
      · simp [Verifies, hs, hk]

instance (V : SignatureQuery → Bool) (code item key : Bytes) :
    Decidable (Verifies V code item key) := decidable_of_iff _ verifies_iff.symm

/-! ## The pairs that are tried -/

/-- The pairs that the search tries, in order. It moves on to the next key after every try, and to
    the next signature after one that fits, and stops when there are fewer keys than signatures. -/
def attempts (V : SignatureQuery → Bool) (code : Bytes) :
    List Bytes → List Bytes → List (Bytes × Bytes)
  | [], _ => []
  | _ :: _, [] => []
  | item :: items, key :: keys =>
    if keys.length < items.length then []
    else (item, key) ::
      if Verifies V code item key then attempts V code items keys
      else attempts V code (item :: items) keys

variable {ctx : Context σ} {V : SignatureQuery → Bool} {code : Bytes}

/-- The keys are tried one after the other, each of them once, until the search ends. -/
theorem keys_attempts (V : SignatureQuery → Bool) (code : Bytes) (items keys : List Bytes) :
    (attempts V code items keys).map Prod.snd <+: keys := by
  induction keys generalizing items with
  | nil => cases items <;> exact List.prefix_rfl
  | cons key keys ih =>
    cases items with
    | nil => exact List.nil_prefix
    | cons item items =>
      unfold attempts
      split
      · exact List.nil_prefix
      · rw [List.map_cons, List.prefix_cons_inj]
        split
        · exact ih items
        · exact ih (item :: items)

/-! ## The check of a pair -/

theorem decide_verifies (V : SignatureQuery → Bool) (code item key : Bytes) :
    decide (Verifies V code item key) = (question? code item key).any V := by
  rw [Bool.eq_iff_iff, decide_eq_true_iff]
  exact verifies_iff

/-- A pair whose encodings are accepted asks its question and no other, and the answer is whether it
    fits. -/
theorem checkPair_asks (hc : ctx.checker.Answers V) (code : Bytes) {item key : Bytes}
    (h : PairEncoded ctx item key) (m : Machine σ) :
    checkPair ctx code item key m = .ok (decide (Verifies V code item key))
      { m with checker := ctx.checker.afterAll (question? code item key).toList m.checker } := by
  rw [decide_verifies]
  rcases List.eq_nil_or_concat' item with rfl | ⟨body, hashType, rfl⟩
  · rfl
  · refine checkPair_concat_ok.2 ⟨h body hashType rfl, ?_⟩
    rw [question?_concat]
    unfold askPair
    rcases Signature.ofDer? body with _ | signature
    · rfl
    · rcases PublicKey.ofBytes? key with _ | publicKey
      · rfl
      · exact askSignature_answers hc _

/-- A check of a pair that comes to an answer tells whether the pair fits. -/
theorem eq_of_checkPair_ok (hc : ctx.checker.Answers V) {item key : Bytes} {m m' : Machine σ}
    {b : Bool} (h : checkPair ctx code item key m = .ok b m') :
    b = decide (Verifies V code item key) := by
  rw [checkPair_asks hc code (encoded_of_checkPair_ok h), EStateM.Result.ok.injEq] at h
  exact h.1.symm

/-! ## The search, try by try -/

theorem discard_of_ok {x : MachineM σ Bool} {m m' : Machine σ} {b : Bool} (h : x m = .ok b m') :
    discard x m = .ok () m' := by
  change EStateM.map _ _ m = _
  simp only [EStateM.map, h]

theorem discard_of_error {x : MachineM σ Bool} {m m' : Machine σ} {e : ScriptError}
    (h : x m = .error e m') : discard x m = .error e m' := by
  change EStateM.map _ _ m = _
  simp only [EStateM.map, h]

/-- What comes after the check of a pair may take its answer as known. -/
theorem checkPair_bind {α : Type} (hc : ctx.checker.Answers V) (code item key : Bytes)
    (f : Bool → MachineM σ α) :
    checkPair ctx code item key >>= f =
      discard (checkPair ctx code item key) >>= fun _ => f (decide (Verifies V code item key)) := by
  funext m
  rcases h : checkPair ctx code item key m with ⟨b, m'⟩ | ⟨e, m'⟩
  · rw [bind_eq_of_ok h, bind_eq_of_ok (discard_of_ok h), eq_of_checkPair_ok hc h]
  · rw [bind_eq_of_error h, bind_eq_of_error (discard_of_error h)]

/-- **The search checks the pairs of `attempts`,** one after the other, and its answer is whether the
    signatures have keys in order. Where the encodings of a pair are refused, that is its failure. -/
theorem matchKeys_eq_attempts (hc : ctx.checker.Answers V) (code : Bytes) (items keys : List Bytes) :
    ∃ b, (b = true ↔ List.SublistForall₂ (Verifies V code) items keys) ∧
      matchKeys ctx code items keys = (do
        (attempts V code items keys).forM fun p => discard (checkPair ctx code p.1 p.2)
        return b) := by
  induction keys generalizing items with
  | nil =>
    cases items with
    | nil => exact ⟨true, by simp [List.SublistForall₂.nil], rfl⟩
    | cons item items =>
      refine ⟨false, ?_, rfl⟩
      simp only [Bool.false_eq_true, false_iff]
      intro h
      exact absurd (length_le_of_sublistForall₂ h) (Nat.not_succ_le_zero _)
  | cons key keys ih =>
    cases items with
    | nil => exact ⟨true, by simp [List.SublistForall₂.nil], rfl⟩
    | cons item items =>
      unfold matchKeys attempts
      by_cases hlt : keys.length < items.length
      · rw [if_pos hlt, if_pos hlt]
        refine ⟨false, ?_, rfl⟩
        simp only [Bool.false_eq_true, false_iff]
        intro h
        have hle := length_le_of_sublistForall₂ h
        simp only [List.length_cons] at hle
        omega
      · rw [if_neg hlt, if_neg hlt]
        by_cases hfits : Verifies V code item key
        · obtain ⟨b, hb, hrest⟩ := ih items
          refine ⟨b, by rw [sublistForall₂_cons_of_fits hfits, hb], ?_⟩
          rw [if_pos hfits, checkPair_bind hc, decide_eq_true hfits, if_pos rfl, hrest,
            List.forM, bind_assoc]
        · obtain ⟨b, hb, hrest⟩ := ih (item :: items)
          refine ⟨b, by rw [sublistForall₂_cons_of_misfit hfits, hb], ?_⟩
          rw [if_neg hfits, checkPair_bind hc, decide_eq_false hfits, if_neg Bool.false_ne_true,
            hrest, List.forM, bind_assoc]

/-! ## The questions of a search -/

theorem Checker.afterAll_append (c : Checker σ) (asked more : List SignatureQuery) (s : σ) :
    c.afterAll (asked ++ more) s = c.afterAll more (c.afterAll asked s) :=
  List.foldl_append

/-- A checker that keeps its questions has kept just these, the latest first. -/
theorem Checker.afterAll_recording (c : Checker σ) (asked : List SignatureQuery)
    (s : σ × List Query) :
    c.recording.afterAll asked s =
      (c.afterAll asked s.1, (asked.map Query.signature).reverse ++ s.2) := by
  induction asked generalizing s with
  | nil => rfl
  | cons q asked ih =>
    change c.recording.afterAll asked (c.recording.checkSignature q s).2 = _
    rw [ih, List.map_cons, List.reverse_cons, List.append_assoc]
    rfl

/-- What pairs ask about, in order. -/
def questions (code : Bytes) (pairs : List (Bytes × Bytes)) : List SignatureQuery :=
  pairs.filterMap fun p => question? code p.1 p.2

theorem questions_cons (code : Bytes) (p : Bytes × Bytes) (pairs : List (Bytes × Bytes)) :
    questions code (p :: pairs) = (question? code p.1 p.2).toList ++ questions code pairs := by
  unfold questions
  rw [List.filterMap_cons]
  rcases question? code p.1 p.2 with _ | q <;> rfl

/-- Pairs whose encodings are accepted ask their questions, one after the other. -/
theorem forM_checkPair_asks (hc : ctx.checker.Answers V) (code : Bytes)
    {pairs : List (Bytes × Bytes)} (h : ∀ p ∈ pairs, PairEncoded ctx p.1 p.2) (m : Machine σ) :
    (pairs.forM fun p => discard (checkPair ctx code p.1 p.2)) m =
      .ok () { m with checker := ctx.checker.afterAll (questions code pairs) m.checker } := by
  induction pairs generalizing m with
  | nil => rfl
  | cons p pairs ih =>
    obtain ⟨hp, hpairs⟩ := List.forall_mem_cons.1 h
    rw [List.forM, bind_eq_of_ok (discard_of_ok (checkPair_asks hc code hp m)), ih hpairs,
      questions_cons, Checker.afterAll_append]

/-- **The search finds keys in order just when there are such keys.** From the bottom up the stack
    holds an item without use, the signatures, their number, the keys and their number. If the pairs
    that are tried are encoded as the flags ask, the check takes all this off, and answers whether
    each signature can be given a key that verifies it, at ever later positions. It tries no key
    twice, and asks the checker one question at most about each, and nothing else. -/
theorem checkMultiple_finds (hc : ctx.checker.Answers V) {m : Machine σ} {unused x y : Bytes}
    {signatures keys : List Bytes} {rest : Stack}
    (hstack : m.stack = (unused :: (signatures ++ x :: (keys ++ [y]))).reverse ++ rest)
    (hx : Number.decode x ctx.flags.minimalData Number.operandSize =
      .ok (signatures.length : Int))
    (hy : Number.decode y ctx.flags.minimalData Number.operandSize = .ok (keys.length : Int))
    (hle : signatures.length ≤ keys.length) (hkeys : keys.length ≤ 20)
    (hcount : m.opCount + keys.length ≤ Limit.operations)
    (hunused : ctx.flags.nullDummy = true → unused = [])
    (hcode : code = Script.toBytes (ctx.script.drop m.codeStart))
    (hencoded : ∀ p ∈ attempts V code signatures.reverse keys.reverse, PairEncoded ctx p.1 p.2) :
    ∃ b asked,
      checkMultiple ctx m = .ok b
        { m with
          stack := rest
          opCount := m.opCount + keys.length
          checker := ctx.checker.afterAll asked m.checker } ∧
      m.stack.length = rest.length + (keys.length + signatures.length + 3) ∧
      (b = true ↔ ∃ position : Fin signatures.length → Fin keys.length, StrictMono position ∧
        ∀ i, Verifies V code (signatures.get i) (keys.get (position i))) ∧
      asked.length ≤ keys.length ∧
      asked = questions code (attempts V code signatures.reverse keys.reverse) ∧
      (attempts V code signatures.reverse keys.reverse).map Prod.snd <+: keys.reverse ∧
      matchKeys ctx code signatures.reverse keys.reverse = (do
        (attempts V code signatures.reverse keys.reverse).forM fun p =>
          discard (checkPair ctx code p.1 p.2)
        return b) := by
  have htop : m.stack =
      y :: (keys.reverse ++ x :: (signatures.reverse ++ unused :: rest)) := by
    rw [hstack]
    simp
  obtain ⟨b, hb, hsearch⟩ := matchKeys_eq_attempts hc code signatures.reverse keys.reverse
  have hprefix := keys_attempts V code signatures.reverse keys.reverse
  refine ⟨b, _, ?_, ?_, ?_, ?_, rfl, hprefix, hsearch⟩
  · refine checkMultiple_ok.2 ⟨y, keys.reverse, x, signatures.reverse, unused, rest, htop, ?_⟩
    simp only [List.length_reverse]
    refine ⟨hy, hkeys, hcount, hx, hle, hunused, ?_⟩
    rw [← hcode, hsearch, bind_eq_of_ok (forM_checkPair_asks hc code hencoded _)]
    rfl
  · rw [htop]
    simp
    omega
  · rw [hb, sublistForall₂_reverse, sublistForall₂_iff_positions]
  · have htried := hprefix.length_le
    rw [List.length_map, List.length_reverse] at htried
    exact Nat.le_trans (List.length_filterMap_le _ _) htried

/-- A point with x = 1; the mark says which one. -/
def keyOfOne (mark : UInt8) : Bytes := mark :: (List.replicate 31 0 ++ [1])

/-- The signature whose numbers are 1. -/
def ones : Bytes := [0x30, 0x06, 0x02, 0x01, 0x01, 0x02, 0x01, 0x01]

/-- Hash type 1 goes with even keys and hash type 2 with odd ones. -/
def byParity (q : SignatureQuery) : Bool := (q.hashType == 1) == (q.key.y % 2 == 0)

/-- A script whose signatures are checked by parity. The questions are kept. -/
def parityContext : Context (Unit × List Query) where
  checker := (Checker.ofPredicate byParity false false).recording
  flags := { strictEncoding := true, nullDummy := true }
  versionZero := true
  script := [⟨⟨0xae⟩, []⟩]

theorem pairEncoded_parity {hashType mark : UInt8} (htype : hashType = 1 ∨ hashType = 2)
    (hmark : mark = 2 ∨ mark = 3) :
    PairEncoded parityContext (ones ++ [hashType]) (keyOfOne mark) := by
  intro body hashType' hbody
  obtain ⟨rfl, rfl⟩ := List.append_singleton_inj.1 hbody
  refine ⟨?_, by decide, ?_⟩
  · rcases htype with rfl | rfl <;> decide
  · rcases hmark with rfl | rfl <;> decide

/-- Two signatures for three keys, above an item that is not theirs. -/
def twoOfThree : Machine (Unit × List Query) :=
  { Machine.start ((), []) with
    stack := ([] :: ([ones ++ [1], ones ++ [2]] ++
      [2] :: ([keyOfOne 2, keyOfOne 3, keyOfOne 2] ++ [[3]]))).reverse ++ [[7]] }

/-- The last signature does not go with the last key, and the search finds the keys before it. It
    has asked three questions then. -/
theorem checkMultiple_finds_evenOddEven :
    ∃ log,
      checkMultiple parityContext twoOfThree =
        .ok true { twoOfThree with stack := [[7]], opCount := 3, checker := ((), log) } ∧
      log.length = 3 := by
  have hattempts : attempts byParity [0xae] [ones ++ [1], ones ++ [2]].reverse
      [keyOfOne 2, keyOfOne 3, keyOfOne 2].reverse =
        [(ones ++ [2], keyOfOne 2), (ones ++ [2], keyOfOne 3), (ones ++ [1], keyOfOne 2)] := by
    decide +kernel
  have hencoded : ∀ p ∈ attempts byParity [0xae] [ones ++ [1], ones ++ [2]].reverse
      [keyOfOne 2, keyOfOne 3, keyOfOne 2].reverse, PairEncoded parityContext p.1 p.2 := by
    rw [hattempts]
    simp only [List.forall_mem_cons, List.not_mem_nil, false_imp_iff, implies_true, and_true]
    exact ⟨pairEncoded_parity (Or.inr rfl) (Or.inl rfl),
      pairEncoded_parity (Or.inr rfl) (Or.inr rfl), pairEncoded_parity (Or.inl rfl) (Or.inl rfl)⟩
  have hanswers : parityContext.checker.Answers byParity := fun _ _ => rfl
  obtain ⟨b, asked, hrun, -, hb, -, hasked, -, -⟩ :=
    checkMultiple_finds hanswers (m := twoOfThree) rfl (by decide) (by decide)
      (by decide) (by decide) (by decide) (fun _ => rfl) rfl hencoded
  have hfound : b = true := by
    rw [hb]
    refine ⟨Fin.castLE (by decide), Fin.strictMono_castLE (by decide), ?_⟩
    decide +kernel
  have hlength : asked.length = 3 := by
    rw [hasked]
    show (questions [0xae] (attempts byParity [0xae] [ones ++ [1], ones ++ [2]].reverse
      [keyOfOne 2, keyOfOne 3, keyOfOne 2].reverse)).length = 3
    rw [hattempts]
    decide +kernel
  have hlog : parityContext.checker.afterAll asked twoOfThree.checker =
      ((), (asked.map Query.signature).reverse) := by
    have hkept := Checker.afterAll_recording (Checker.ofPredicate byParity false false) asked ((), [])
    rw [List.append_nil] at hkept
    exact hkept
  rw [hfound, hlog] at hrun
  refine ⟨_, hrun, ?_⟩
  rw [List.length_reverse, List.length_map, hlength]

end SpendScript

/-
  How instructions fail. An instruction that is refused (`Instruction.Refused`) fails before it is
  performed; any other one fails as what it performs does (`Instruction.execute_of_not_refused`), or
  because it leaves too many items. The error says something about the machine that is left (`Told`,
  `Explained`): an empty stack has no items, and operations that were too many stay counted. No result
  is out of range, only counting finds too many operations, and none is an error of making an engine or
  of using one that has nothing left to run.
-/
import SpendScript.Proofs.Machine.Arithmetic
import SpendScript.Proofs.Machine.StackSize
import SpendScript.Proofs.Opcode

namespace SpendScript

section Actions

variable {ε ρ α β : Type} {Q : ε → ρ → Prop}

/-- Every error of the action, with the state that it leaves, satisfies `Q`. -/
def Raises (Q : ε → ρ → Prop) (x : EStateM ε ρ α) : Prop := ∀ s e s', x s = .error e s' → Q e s'

theorem raises_pure (a : α) : Raises Q (pure a : EStateM ε ρ α) := fun _ _ _ h => nomatch h

theorem raises_throw {e : ε} (h : ∀ s, Q e s) : Raises Q (throw e : EStateM ε ρ α) := by
  intro s e' s' he
  cases he
  exact h s

theorem Raises.bind {x : EStateM ε ρ α} {f : α → EStateM ε ρ β} (h : Raises Q x)
    (hf : ∀ a, Raises Q (f a)) : Raises Q (x >>= f) := by
  intro s e s'' he
  rcases bind_error.1 he with hx | ⟨a, s', -, hrest⟩
  · exact h s e s'' hx
  · exact hf a s' e s'' hrest

theorem raises_ite {p : Prop} [Decidable p] {x y : EStateM ε ρ α} (h : Raises Q x)
    (h' : Raises Q y) : Raises Q (if p then x else y) := by
  by_cases hp : p
  · rw [if_pos hp]
    exact h
  · rw [if_neg hp]
    exact h'

theorem raises_guard {p : Prop} [Decidable p] {e : ε} {x : EStateM ε ρ α} (he : ∀ s, Q e s)
    (h : Raises Q x) : Raises Q (if p then (throw e) >>= fun _ : PUnit => x else x) :=
  raises_ite ((raises_throw he).bind fun _ => h) h

theorem raises_ofExcept {ι : Type} (r : Except ι α) {wrap : ι → ε} (h : ∀ e s, Q (wrap e) s) :
    Raises Q (MonadExcept.ofExcept (r.mapError wrap) : EStateM ε ρ α) := by
  cases r with
  | ok a => exact raises_pure a
  | error e => exact raises_throw (h e)

end Actions

variable {σ α : Type} {ctx : Context σ} {offset : Nat} {i : Instruction} {op : Operation}
  {m m' : Machine σ} {err : ScriptError}

/-- The errors of making an engine, and of using one that has nothing left to run or has not run. -/
def ScriptError.isMisuse : ScriptError → Bool
  | .parse _ | .witness _ | .pastEnd .. | .unfinished => true
  | _ => false

/-- The errors of instructions that say nothing about the machine. -/
def ScriptError.isPlain : ScriptError → Bool
  | .tooManyOperations | .stack _ => false
  | err => !err.isMisuse

/-- What the error of an instruction says about the machine that it leaves. -/
structure Explained (op : Operation) (err : ScriptError) (m : Machine σ) : Prop where
  misuse : err.isMisuse = false
  operations : err = .tooManyOperations → Limit.operations < m.opCount
  /-- Only what comes back from the alt stack is missed there. -/
  empty : err = .stack .empty → op ≠ .fromAltStack → m.stack = []

/-- A result that 64 bits cannot hold. -/
def ScriptError.isNumber : ScriptError → Bool
  | .number _ => true
  | _ => false

/-- All that an instruction tells by failing. Operations can be too many only where they are
    counted. -/
inductive Told (op : Operation) (counting : Bool) : ScriptError → Machine σ → Prop
  | stack {e : StackError} {m : Machine σ} (h : e = .empty → op ≠ .fromAltStack → m.stack = []) :
      Told op counting (.stack e) m
  | operations {m : Machine σ} (hc : counting = true) (h : Limit.operations < m.opCount) :
      Told op counting .tooManyOperations m
  | plain {err : ScriptError} {m : Machine σ} (h : err.isPlain = true)
      (hn : err.isNumber = false) : Told op counting err m

variable {counting : Bool}

theorem Told.mono {counting' : Bool} (h : Told op counting err m)
    (hc : counting = true → counting' = true) : Told op counting' err m := by
  cases h with
  | stack h => exact .stack h
  | operations hcounting h => exact .operations (hc hcounting) h
  | plain h hn => exact .plain h hn

theorem Told.isNumber (h : Told op counting err m) : err.isNumber = false := by
  cases h with
  | stack | operations => rfl
  | plain _ hn => exact hn

theorem Told.ne_tooManyOperations (h : Told op false err m) : err ≠ .tooManyOperations := by
  rintro rfl
  cases h with
  | operations hc => cases hc
  | plain h => cases h

theorem Told.explained (h : Told op counting err m) : Explained op err m := by
  cases h with
  | stack h => exact ⟨rfl, (fun h => nomatch h), fun heq => h (ScriptError.stack.inj heq)⟩
  | operations _ h => exact ⟨rfl, fun _ => h, fun h => nomatch h⟩
  | plain h =>
    refine ⟨?_, ?_, ?_⟩
    · cases err <;> first | rfl | cases h
    · rintro rfl
      cases h
    · rintro rfl
      cases h

/-! ## Stacks -/

/-- A stack operation finds the stack empty only if it is. -/
abbrev FindsEmpty (f : StackM α) : Prop := Raises (fun e s => e = .empty → s = []) f

namespace StackM

theorem findsEmpty_push (x : Bytes) : FindsEmpty (push x) := fun _ _ _ h => nomatch h

theorem findsEmpty_pop : FindsEmpty pop := by
  intro s e s' h he
  rcases s with _ | ⟨x, s⟩ <;> cases h
  rfl

theorem findsEmpty_readNumber (minimal : Bool) (max : Nat) (x : Bytes) :
    FindsEmpty (readNumber minimal max x) := by
  intro s e s' h he
  unfold readNumber at h
  cases hd : Number.decode x minimal max <;> rw [hd] at h <;> cases h
  cases he

theorem findsEmpty_popTruth : FindsEmpty popTruth :=
  findsEmpty_pop.bind fun x => raises_pure (truth x)

theorem findsEmpty_popNumber (minimal : Bool) : FindsEmpty (popNumber minimal) :=
  findsEmpty_pop.bind fun x => findsEmpty_readNumber minimal _ x

theorem findsEmpty_popNumbers (minimal : Bool) (n : Nat) : FindsEmpty (popNumbers minimal n) := by
  induction n with
  | zero => exact raises_pure []
  | succ n ih =>
    exact (findsEmpty_popNumber minimal).bind fun b => ih.bind fun below => raises_pure _

theorem findsEmpty_item (i : UInt64) : FindsEmpty (item i) := by
  intro s e s' h he
  unfold item at h
  split at h
  · cases h
    cases he
  · cases hs : s[i.toNat]? <;> rw [hs] at h <;> cases h
    cases he

theorem findsEmpty_peek (i : UInt64) : FindsEmpty (peek i) := by
  intro s e s' h he
  unfold peek at h
  split at h
  · next hs =>
    cases h
    exact List.isEmpty_iff.1 hs
  · exact findsEmpty_item i s e s' h he

theorem findsEmpty_peekTruth : FindsEmpty peekTruth :=
  (findsEmpty_peek 0).bind fun x => raises_pure (truth x)

theorem findsEmpty_peekNumber (minimal : Bool) (max : Nat) : FindsEmpty (peekNumber minimal max) :=
  (findsEmpty_peek 0).bind fun x => findsEmpty_readNumber minimal max x

theorem findsEmpty_rearrange (n : Nat) (f : Stack → Stack) : FindsEmpty (rearrange n f) := by
  refine Raises.bind ?_ fun _ _ _ _ h => nomatch h
  intro s e s' h he
  unfold require at h
  split at h <;> cases h
  cases he

theorem findsEmpty_nip (i : UInt64) : FindsEmpty (nip i) :=
  (findsEmpty_item i).bind fun x => Raises.bind (fun _ _ _ h => nomatch h) fun _ => raises_pure x

theorem findsEmpty_index (i : Int64) : FindsEmpty (index i) := by
  intro s e s' h he
  unfold index at h
  split at h <;> cases h
  cases he

theorem findsEmpty_pick (i : Int64) : FindsEmpty (pick i) :=
  (findsEmpty_index i).bind fun n => (findsEmpty_item n).bind findsEmpty_push

theorem findsEmpty_roll (i : Int64) : FindsEmpty (roll i) :=
  (findsEmpty_index i).bind fun n => (findsEmpty_nip n).bind findsEmpty_push

end StackM

open MachineM StackM

/-! ## The parts of a machine -/

theorem told_onStack {f : StackM α} (h : FindsEmpty f) :
    Raises (Told op counting) (onStack f : MachineM σ α) := by
  intro m err m' he
  obtain ⟨e, s, hf, rfl, rfl⟩ := exists_of_onStack_error he
  exact .stack fun hempty _ => h m.stack e s hf hempty

theorem countOperations_error {n : Nat} :
    (countOperations n m : EStateM.Result _ _ Unit) = .error err m' ↔
      Limit.operations < m.opCount + n ∧ err = .tooManyOperations ∧
        m' = { m with opCount := m.opCount + n } := by
  unfold countOperations
  dsimp only
  by_cases hn : Limit.operations < m.opCount + n
  · rw [if_pos hn, EStateM.Result.error.injEq]
    exact ⟨fun ⟨herr, hm⟩ => ⟨hn, herr.symm, hm.symm⟩, fun ⟨_, herr, hm⟩ => ⟨herr.symm, hm.symm⟩⟩
  · rw [if_neg hn]
    exact ⟨(fun h => nomatch h), fun h => absurd h.1 hn⟩

theorem told_countOperations (n : Nat) :
    Raises (Told op true) (countOperations n : MachineM σ Unit) := by
  intro m err m' h
  obtain ⟨hexceeds, rfl, rfl⟩ := countOperations_error.1 h
  exact .operations rfl hexceeds

theorem told_askSignature (c : Checker σ) (q : SignatureQuery) :
    Raises (Told op counting) (askSignature c q) := by
  intro m err m' h
  unfold askSignature at h
  split at h <;> cases h
  exact .plain rfl rfl

theorem told_ofEncoding (r : Except EncodingError Unit) :
    Raises (Told op counting) (ofEncoding r : MachineM σ Unit) :=
  raises_ofExcept r fun _ _ => .plain rfl rfl

theorem told_throw (h : err.isPlain = true) (hn : err.isNumber = false) :
    Raises (Told op counting) (throw err : MachineM σ α) := raises_throw fun _ => .plain h hn

/-! ## Signature checks -/

theorem told_checkPair (code item key : Bytes) :
    Raises (Told op counting) (checkPair ctx code item key) := by
  unfold checkPair
  cases item.getLast? with
  | none => exact raises_pure false
  | some hashType =>
    refine (told_ofEncoding _).bind fun _ => (told_ofEncoding _).bind fun _ => ?_
    refine (told_ofEncoding _).bind fun _ => ?_
    cases Signature.ofDer? item.dropLast with
    | none => exact raises_pure false
    | some signature =>
      cases PublicKey.ofBytes? key with
      | none => exact raises_pure false
      | some publicKey => exact told_askSignature ctx.checker _

theorem told_scriptCode : Raises (Told op counting) (scriptCode ctx) := fun _ _ _ h => nomatch h

theorem told_checkSingle : Raises (Told op counting) (checkSingle ctx) := by
  rw [checkSingle_eq]
  exact (told_onStack findsEmpty_pop).bind fun key =>
    (told_onStack findsEmpty_pop).bind fun item =>
      told_scriptCode.bind fun code => told_checkPair code item key

theorem told_matchKeys (code : Bytes) (items keys : List Bytes) :
    Raises (Told op counting) (matchKeys ctx code items keys) := by
  induction keys generalizing items with
  | nil => cases items <;> exact raises_pure _
  | cons key keys ih =>
    cases items with
    | nil => exact raises_pure true
    | cons item items =>
      unfold matchKeys
      refine raises_ite (raises_pure false) ?_
      refine (told_checkPair code item key).bind fun valid => ?_
      exact raises_ite (ih items) (ih (item :: items))

theorem told_popItems (n : Nat) : Raises (Told op counting) (popItems n : MachineM σ _) := by
  unfold popItems
  induction List.range n with
  | nil => exact raises_pure []
  | cons i is ih =>
    rw [List.mapM_cons]
    exact (told_onStack findsEmpty_pop).bind fun x => ih.bind fun xs => raises_pure (x :: xs)

/-- Once the keys have been counted, there are not too many operations. -/
theorem told_of_checkMultiple (h : checkMultiple ctx m = .error err m') :
    popKeyCount ctx m = .error err m' ∨ Told op counting err m' := by
  have hsignatures (k : Nat) : Raises (Told op counting) (popSignatureCount ctx k) := by
    refine (told_onStack (findsEmpty_popNumber _)).bind fun n => ?_
    exact raises_guard (fun _ => .plain rfl rfl) (raises_pure _)
  unfold checkMultiple at h
  refine (bind_error.1 h).imp_right fun ⟨keyCount, m₁, _, hrest⟩ => ?_
  refine ((told_popItems keyCount).bind fun keys => ?_) m₁ err m' hrest
  refine (hsignatures keyCount).bind fun signatureCount => ?_
  refine (told_popItems signatureCount).bind fun items => ?_
  refine (told_onStack findsEmpty_pop).bind fun dummy => ?_
  refine raises_guard (fun _ => .plain rfl rfl) ?_
  exact told_scriptCode.bind fun code => told_matchKeys code items keys

theorem told_popKeyCount : Raises (Told op true) (popKeyCount ctx) := by
  refine (told_onStack (findsEmpty_popNumber _)).bind fun n => ?_
  refine raises_guard (fun _ => .plain rfl rfl) ?_
  exact (told_countOperations _).bind fun _ => raises_pure _

theorem told_checkMultiple : Raises (Told op true) (checkMultiple ctx) :=
  fun m err m' h => (told_of_checkMultiple h).elim (told_popKeyCount m err m') id

/-! ## Instructions -/

theorem told_require (o : Opcode) (b : Bool) :
    Raises (Told op counting) (require o b : MachineM σ Unit) :=
  raises_ite (raises_pure ()) (told_throw rfl rfl)

theorem told_deliver (o : Opcode) (verify b : Bool) :
    Raises (Told op counting) (deliver o verify b : MachineM σ Unit) :=
  raises_ite (told_require o b) (told_onStack (findsEmpty_push _))

theorem told_upgradableNop (o : Opcode) : Raises (Told op counting) (upgradableNop ctx o) :=
  raises_ite (told_throw rfl rfl) (raises_pure ())

theorem told_peekLock : Raises (Told op counting) (peekLock ctx) := by
  refine (told_onStack (findsEmpty_peekNumber _ _)).bind fun n => ?_
  exact raises_guard (fun _ => .plain rfl rfl) (raises_pure n)

/-- A lock that has not been reached. -/
theorem told_unsatisfied (b : Bool) : Raises (Told op counting)
    (if !b then throw .unsatisfiedLockTime else pure () : MachineM σ Unit) :=
  raises_ite (told_throw rfl rfl) (raises_pure ())

theorem told_checkLockTimeVerify (o : Opcode) :
    Raises (Told op counting) (checkLockTimeVerify ctx o) := by
  have hask (n : Int) : Raises (Told op counting) (askLockTime ctx.checker n) := fun _ _ _ h => nomatch h
  exact raises_ite (told_upgradableNop o) (told_peekLock.bind fun n =>
    (hask n).bind fun b => told_unsatisfied b)

theorem told_checkSequenceVerify (o : Opcode) :
    Raises (Told op counting) (checkSequenceVerify ctx o) := by
  have hask (n : Int) : Raises (Told op counting) (askSequence ctx.checker n) := fun _ _ _ h => nomatch h
  exact raises_ite (told_upgradableNop o) (told_peekLock.bind fun n =>
    raises_ite ((hask n).bind fun b => told_unsatisfied b) (raises_pure ()))

theorem told_executing : Raises (Told op counting) (executing : MachineM σ Bool) :=
  fun _ _ _ h => nomatch h

theorem told_openBranch (negated : Bool) :
    Raises (Told op counting) (openBranch negated : MachineM σ Unit) := by
  have hpush (b : Branch) : Raises (Told op counting)
      (modify fun m => { m with branches := b :: m.branches } : MachineM σ Unit) :=
    fun _ _ _ h => nomatch h
  refine told_executing.bind fun _ => raises_ite ?_ (hpush _)
  exact (told_onStack findsEmpty_popTruth).bind fun _ => hpush _

theorem told_changeBranch (o : Opcode) (f : Branches → Option Branches) :
    Raises (Told op counting) (changeBranch o f : MachineM σ Unit) := by
  intro m err m' h
  unfold changeBranch at h
  split at h <;> cases h
  exact .plain rfl rfl

/-- Whatever is computed from operands, only `verify` can fail. -/
theorem told_delivered (o : Opcode) (ks : List Int) :
    Raises (Told op counting) (delivered (op.compute o ks) : MachineM σ Unit) := by
  intro m err m' h
  unfold delivered at h
  split at h
  · cases h
  · next hr =>
    cases h
    unfold Operation.compute at hr
    split at hr
    case h_3 =>
      split at hr
      · cases hr
      · cases hr
        exact .plain rfl rfl
    all_goals cases hr

/-- Too many items are an error of their own. -/
theorem told_checkDepth : Raises (Told op counting) (checkDepth : MachineM σ Unit) := by
  intro m err m' h
  unfold checkDepth at h
  dsimp only at h
  split at h <;> cases h
  exact .plain rfl rfl

namespace Instruction

theorem told_perform :
    Raises (Told i.operation i.operation.countsKeys) (i.perform ctx offset) := by
  cases harity : i.operation.arity? with
  | some n =>
    rw [perform_of_arity harity]
    exact (told_onStack (findsEmpty_popNumbers _ n)).bind fun ks => told_delivered _ ks
  | none =>
    unfold perform
    dsimp only
    cases hop : i.operation with
    | unary | binary | numEqualVerify | within =>
      rw [hop] at harity
      cases harity
    | pushBytes | pushNum => exact told_onStack (findsEmpty_push _)
    | nop => exact raises_pure ()
    | openIf negated => exact told_openBranch negated
    | elseBranch | endIf => exact told_changeBranch _ _
    | verify => exact (told_onStack findsEmpty_popTruth).bind fun b => told_require _ b
    | toAltStack =>
      exact (told_onStack findsEmpty_pop).bind fun x => fun _ _ _ h => nomatch h
    | fromAltStack =>
      refine Raises.bind ?_ fun x => told_onStack (findsEmpty_push x)
      intro m err m' h
      obtain ⟨e, s, -, rfl, -⟩ := exists_of_onAlt_error h
      exact .stack fun _ hne => absurd rfl hne
    | drop | dup | copyOver | rot | swap | tuck =>
      exact told_onStack (findsEmpty_rearrange _ _)
    | ifDup =>
      exact (told_onStack findsEmpty_peekTruth).bind fun _ =>
        raises_ite (told_onStack (findsEmpty_rearrange _ _)) (raises_pure ())
    | depth => exact fun m => told_onStack (findsEmpty_push _) m
    | nip => exact (told_onStack (findsEmpty_nip 1)).bind fun _ => raises_pure ()
    | pick =>
      exact (told_onStack (findsEmpty_popNumber _)).bind fun n =>
        told_onStack (findsEmpty_pick _)
    | roll =>
      exact (told_onStack (findsEmpty_popNumber _)).bind fun n =>
        told_onStack (findsEmpty_roll _)
    | size =>
      exact (told_onStack (findsEmpty_peek 0)).bind fun x => told_onStack (findsEmpty_push _)
    | equal =>
      exact (told_onStack findsEmpty_pop).bind fun _ => (told_onStack findsEmpty_pop).bind
        fun _ => told_onStack (findsEmpty_push _)
    | equalVerify =>
      exact (told_onStack findsEmpty_pop).bind fun _ => (told_onStack findsEmpty_pop).bind
        fun _ => told_require _ _
    | hash f => exact (told_onStack findsEmpty_pop).bind fun x => told_onStack (findsEmpty_push _)
    | codeSeparator => exact fun _ _ _ h => nomatch h
    | checkSig verify => exact told_checkSingle.bind fun b => told_deliver _ verify b
    | checkMultiSig verify => exact told_checkMultiple.bind fun b => told_deliver _ verify b
    | checkLockTimeVerify => exact told_checkLockTimeVerify _
    | checkSequenceVerify => exact told_checkSequenceVerify _
    | upgradableNop => exact told_upgradableNop _
    | returnEarly | disabled | alwaysIllegal | reserved | invalid =>
      exact told_throw rfl rfl

theorem not_isPush_of_countsKeys (h : i.operation.countsKeys = true) : ¬ i.isPush = true :=
  Opcode.not_isPush_of rfl (fun _ => rfl) rfl h

/-- Pushes are not counted. -/
theorem told_checkLimits : Raises (Told op (!i.isPush)) (i.checkLimits : MachineM σ Unit) := by
  unfold checkLimits
  by_cases hp : i.isPush = true
  · rw [if_pos hp]
    exact raises_ite (told_throw rfl rfl) (raises_pure ())
  · rw [if_neg hp, Bool.eq_false_iff.2 hp]
    exact told_countOperations 1

theorem told_checkMinimal : Raises (Told op counting) (i.checkMinimal ctx) := by
  refine raises_ite ?_ (raises_pure ())
  unfold checkMinimalPush
  split
  · exact raises_pure ()
  · exact told_throw rfl rfl

theorem told_step : Raises (Told i.operation (!i.isPush)) (i.step ctx offset) := by
  have hperform : Raises (Told i.operation (!i.isPush)) (i.perform ctx offset) :=
    fun m err m' h => (told_perform m err m' h).mono fun hcounts =>
      Bool.not_eq_true' _ ▸ Bool.eq_false_iff.2 (not_isPush_of_countsKeys hcounts)
  refine Raises.bind ?_ fun _ => told_checkDepth
  refine raises_guard (fun _ => .plain rfl rfl) ?_
  refine raises_guard (fun _ => .plain rfl rfl) ?_
  refine told_checkLimits.bind fun _ => told_executing.bind fun _ => raises_ite ?_ ?_
  · exact told_checkMinimal.bind fun _ => hperform
  · exact raises_ite hperform (raises_pure ())

/-- **What an error says.** -/
theorem explained_step : Raises (Explained i.operation) (i.step ctx offset) :=
  fun m err m' h => (told_step m err m' h).explained

/-! ## Before an instruction is performed -/

/-- The instruction fails before it is performed. -/
def Refused (ctx : Context σ) (i : Instruction) (m : Machine σ) : Prop :=
  ¬ i.Allowed ∨ ¬ i.Within m ∨ m.branches.executing = true ∧ ¬ i.MinimalFor ctx.flags

theorem Refused.mono (h : i.Refused ctx m) (hb : m'.branches = m.branches)
    (ho : m.opCount ≤ m'.opCount) : i.Refused ctx m' := by
  rcases h with ha | hw | ⟨hx, hmin⟩
  · exact Or.inl ha
  · refine Or.inr (Or.inl fun hw' => hw ?_)
    unfold Within at hw' ⊢
    split
    · next hp =>
      rw [if_pos hp] at hw'
      exact hw'
    · next hp =>
      rw [if_neg hp] at hw'
      omega
  · exact Or.inr (Or.inr ⟨hb ▸ hx, hmin⟩)

/-- Above the push range only the count can refuse what is allowed. -/
theorem not_refused_of_not_isPush (ha : i.Allowed) (hp : ¬ i.isPush = true)
    (hcount : m.opCount + 1 ≤ Limit.operations) : ¬ i.Refused ctx m := by
  rintro (hallowed | hwithin | ⟨-, hminimal⟩)
  · exact hallowed ha
  · exact hwithin ((within_of_not_isPush hp).2 hcount)
  · exact hminimal (minimalFor_of_not_isPush hp)

theorem execute_of_allowed (ha : i.Allowed) : i.execute ctx offset = (do
    i.checkLimits
    if ← executing then
      i.checkMinimal ctx
      i.perform ctx offset
    else if i.isConditional then i.perform ctx offset : MachineM σ Unit) := by
  unfold execute
  rw [ha.1, ha.2]
  rfl

/-- An instruction that is refused changes the operation count only. -/
theorem execute_of_refused (offset : Nat) (h : i.Refused ctx m) :
    ∃ err k, i.execute ctx offset m = .error err { m with opCount := m.opCount + k } := by
  by_cases ha : i.Allowed
  · rw [execute_of_allowed ha]
    obtain ⟨k, hk⟩ := i.stateOf_checkLimits m
    rcases hl : i.checkLimits m with ⟨_, m₁⟩ | ⟨err, m₁⟩
    · obtain ⟨hw, -⟩ := checkLimits_ok.1 hl
      rw [hl] at hk
      obtain rfl : m₁ = { m with opCount := m.opCount + k } := hk
      obtain ⟨hx, hmin⟩ := (h.resolve_left (not_not_intro ha)).resolve_left (not_not_intro hw)
      rw [bind_eq_of_ok hl]
      change ∃ err k', (if m.branches.executing then _ else _ : MachineM σ Unit) _ = _
      rw [if_pos hx]
      rcases hm : i.checkMinimal ctx { m with opCount := m.opCount + k } with ⟨_, m₂⟩ | ⟨err, m₂⟩
      · exact absurd (checkMinimal_ok.1 hm).1 hmin
      · have hstate := i.stateOf_checkMinimal ctx { m with opCount := m.opCount + k }
        rw [hm] at hstate
        obtain rfl : m₂ = { m with opCount := m.opCount + k } := hstate
        exact ⟨err, k, bind_eq_of_error hm⟩
    · rw [hl] at hk
      obtain rfl : m₁ = { m with opCount := m.opCount + k } := hk
      exact ⟨err, k, bind_eq_of_error hl⟩
  · unfold execute
    by_cases hd : i.isDisabled = true
    · rw [if_pos hd]
      exact ⟨_, 0, rfl⟩
    · rcases hi : i.isAlwaysIllegal with _ | _
      · exact absurd ⟨Bool.eq_false_iff.2 hd, hi⟩ ha
      · rw [if_neg hd]
        exact ⟨_, 0, rfl⟩

/-- Any other one is performed where instructions run, and in other branches if it is a
    conditional. -/
theorem execute_of_not_refused (offset : Nat) (h : ¬ i.Refused ctx m) :
    i.execute ctx offset m =
      if m.branches.executing = true ∨ i.isConditional = true then
        i.perform ctx offset (i.counted m)
      else .ok () (i.counted m) := by
  unfold Refused at h
  rw [not_or, not_or, Classical.not_not, Classical.not_not, not_and, Classical.not_not] at h
  obtain ⟨ha, hw, hmin⟩ := h
  have hlimits : i.checkLimits m = .ok () (i.counted m) := checkLimits_ok.2 ⟨hw, rfl⟩
  rw [execute_of_allowed ha, bind_eq_of_ok hlimits]
  change (if (i.counted m).branches.executing then _ else _ : MachineM σ Unit) _ = _
  rw [counted_branches]
  by_cases hx : m.branches.executing = true
  · have hminimal : i.checkMinimal ctx (i.counted m) = .ok () (i.counted m) :=
      checkMinimal_ok.2 ⟨hmin hx, rfl⟩
    rw [if_pos hx, if_pos (Or.inl hx)]
    exact bind_eq_of_ok hminimal
  · rw [if_neg hx]
    by_cases hc : i.isConditional = true
    · rw [if_pos hc, if_pos (Or.inr hc)]
    · rw [if_neg hc, if_neg (not_or.2 ⟨hx, hc⟩)]
      rfl

/-- Where instructions run, an operation that may be counted is performed. -/
theorem execute_of_counted (offset : Nat) (ha : i.Allowed) (hp : ¬ i.isPush = true)
    (hx : m.branches.executing = true) (hcount : m.opCount < Limit.operations) :
    i.execute ctx offset m = i.perform ctx offset { m with opCount := m.opCount + 1 } := by
  rw [execute_of_not_refused offset (not_refused_of_not_isPush ha hp hcount), if_pos (Or.inl hx),
    counted_of_not_isPush hp]

end Instruction

end SpendScript

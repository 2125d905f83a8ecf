/-
  How many items instructions leave on the stacks. Eight operations can leave more than they find, and
  never leave fewer (`Operation.grows`, `Instruction.items_le_execute`). The others never leave more,
  whether they succeed or fail (`Instruction.items_execute_le`). So an instruction that overflows a
  stack within the bound is one of the eight (`Instruction.grows_of_overflow`).
-/
import SpendScript.Proofs.Machine.Frame

namespace SpendScript

section Actions

variable {ε ρ α β : Type} {size : ρ → Nat} {d k : Int}

/-- The action leaves at most `d` more than it finds, and no more at all where it fails. -/
structure Changes (size : ρ → Nat) (d : Int) (x : EStateM ε ρ α) : Prop where
  ok : ∀ {s a s'}, x s = .ok a s' → (size s' : Int) ≤ size s + d
  error : ∀ {s e s'}, x s = .error e s' → size s' ≤ size s

theorem changes_pure (a : α) : Changes size 0 (pure a : EStateM ε ρ α) := by
  constructor
  · intro s b s' h
    obtain ⟨-, rfl⟩ := pure_ok.1 h
    omega
  · intro s e s' h
    cases h

theorem changes_throw (e : ε) : Changes size d (throw e : EStateM ε ρ α) := by
  constructor <;> intro s _ s' h <;> cases h
  exact Nat.le_refl _

/-- What the first action leaves is there for the second one, which may fail. -/
theorem Changes.bind {x : EStateM ε ρ α} {f : α → EStateM ε ρ β} (h : Changes size d x)
    (hd : d ≤ 0) (hf : ∀ a, Changes size k (f a)) : Changes size (d + k) (x >>= f) := by
  constructor
  · intro s b s'' hb
    obtain ⟨a, s', hx, hrest⟩ := bind_ok.1 hb
    have h₁ := h.ok hx
    have h₂ := (hf a).ok hrest
    omega
  · intro s e s'' he
    rcases bind_error.1 he with hx | ⟨a, s', hx, hrest⟩
    · exact h.error hx
    · have h₁ := h.ok hx
      have h₂ := (hf a).error hrest
      omega

theorem Changes.seq {x : EStateM ε ρ α} {f : α → EStateM ε ρ β} (h : Changes size 0 x)
    (hf : ∀ a, Changes size d (f a)) : Changes size d (x >>= f) := by
  have hbind := h.bind (Int.le_refl 0) hf
  rw [Int.zero_add] at hbind
  exact hbind

theorem Changes.mono {x : EStateM ε ρ α} (h : Changes size d x) (hd : d ≤ k) :
    Changes size k x :=
  ⟨fun hx => Int.le_trans (h.ok hx) (by omega), h.error⟩

theorem changes_ite {p : Prop} [Decidable p] {x y : EStateM ε ρ α} (h : Changes size d x)
    (h' : Changes size d y) : Changes size d (if p then x else y) := by
  by_cases hp : p
  · rw [if_pos hp]
    exact h
  · rw [if_neg hp]
    exact h'

theorem changes_guard {p : Prop} [Decidable p] {e : ε} {x : EStateM ε ρ α} (h : Changes size d x) :
    Changes size d (if p then (throw e) >>= fun _ : PUnit => x else x) := by
  have hthrow : Changes size 0 (throw e : EStateM ε ρ PUnit) := changes_throw e
  exact changes_ite (hthrow.seq fun _ => h) h

theorem changes_ofExcept {ι : Type} (r : Except ι α) (wrap : ι → ε) :
    Changes size 0 (MonadExcept.ofExcept (r.mapError wrap) : EStateM ε ρ α) := by
  cases r with
  | ok a => exact changes_pure a
  | error e => exact changes_throw (wrap e)

theorem Changes.stateOf_le {x : EStateM ε ρ α} (h : Changes size 0 x) (s : ρ) :
    size (stateOf (x s)) ≤ size s := by
  rcases hx : x s with ⟨a, s'⟩ | ⟨e, s'⟩
  · have hle := h.ok hx
    change size s' ≤ size s
    omega
  · exact h.error hx

theorem changes_of_le {x : EStateM ε ρ α} (h : ∀ s, size (stateOf (x s)) ≤ size s) :
    Changes size 0 x := by
  constructor
  · intro s a s' hx
    have hs := h s
    rw [hx] at hs
    change size s' ≤ size s at hs
    omega
  · intro s e s' hx
    have hs := h s
    rw [hx] at hs
    exact hs

/-- An action that changes something else. -/
theorem changes_of_eq {x : EStateM ε ρ α} (h : ∀ s, size (stateOf (x s)) = size s) :
    Changes size 0 x := changes_of_le fun s => Nat.le_of_eq (h s)

end Actions

variable {σ α : Type} {ctx : Context σ} {offset : Nat} {i : Instruction} {m m' : Machine σ}

/-- The items on both stacks. -/
def Machine.items (m : Machine σ) : Nat := m.stack.length + m.alt.length

/-- The operations that can leave more items than they find. -/
def Operation.grows : Operation → Bool
  | pushBytes | pushNum _ | dup _ | copyOver _ | ifDup | depth | tuck | size => true
  | _ => false

/-! ## Stacks -/

namespace StackM

theorem changes_push (x : Bytes) : Changes List.length 1 (push x) := by
  constructor <;> intro s _ s' h <;> cases h
  exact Int.le_refl _

theorem changes_pop : Changes List.length (-1) pop := by
  constructor <;> intro s _ s' h <;> rcases s with _ | ⟨x, s⟩ <;> cases h
  · rw [List.length_cons]
    omega
  · exact Nat.le_refl _

theorem stateOf_readNumber (minimal : Bool) (max : Nat) (x : Bytes) (s : Stack) :
    stateOf (readNumber minimal max x s) = s := by
  unfold readNumber
  cases Number.decode x minimal max <;> rfl

theorem changes_readNumber (minimal : Bool) (max : Nat) (x : Bytes) :
    Changes List.length 0 (readNumber minimal max x) :=
  changes_of_eq fun s => congrArg List.length (stateOf_readNumber minimal max x s)

theorem changes_popTruth : Changes List.length (-1) popTruth :=
  changes_pop.bind (by decide) fun x => changes_pure (truth x)

theorem changes_popNumber (minimal : Bool) : Changes List.length (-1) (popNumber minimal) :=
  changes_pop.bind (by decide) fun x => changes_readNumber minimal _ x

theorem stateOf_item (i : UInt64) (s : Stack) : stateOf (item i s) = s := by
  unfold item
  split
  · rfl
  · cases s[i.toNat]? <;> rfl

theorem stateOf_peek (i : UInt64) (s : Stack) : stateOf (peek i s) = s := by
  unfold peek
  split
  · rfl
  · exact stateOf_item i s

theorem changes_item (i : UInt64) : Changes List.length 0 (item i) :=
  changes_of_eq fun s => congrArg List.length (stateOf_item i s)

theorem changes_peek (i : UInt64) : Changes List.length 0 (peek i) :=
  changes_of_eq fun s => congrArg List.length (stateOf_peek i s)

theorem changes_peekNumber (minimal : Bool) (max : Nat) :
    Changes List.length 0 (peekNumber minimal max) :=
  (changes_peek 0).seq fun x => changes_readNumber minimal max x

theorem stateOf_rearrange (n : Nat) (f : Stack → Stack) (s : Stack) :
    stateOf (rearrange n f s) = s ∨ n ≤ s.length ∧ stateOf (rearrange n f s) = f s := by
  unfold rearrange require
  by_cases hn : s.length < n
  · left
    simp only [Bind.bind, EStateM.bind, if_pos hn]
    rfl
  · right
    simp only [Bind.bind, EStateM.bind, if_neg hn]
    exact ⟨Nat.le_of_not_lt hn, rfl⟩

theorem changes_rearrange {n : Nat} {f : Stack → Stack}
    (hf : ∀ s, n ≤ s.length → (f s).length ≤ s.length) :
    Changes List.length 0 (rearrange n f) := by
  refine changes_of_le fun s => ?_
  rcases stateOf_rearrange n f s with hs | ⟨hn, hs⟩
  · exact Nat.le_of_eq (congrArg List.length hs)
  · rw [hs]
    exact hf s hn

theorem changes_nip (i : UInt64) : Changes List.length 0 (nip i) := by
  have herase : Changes List.length 0 (modify fun s => s.eraseIdx i.toNat : StackM Unit) :=
    changes_of_le fun s => List.length_eraseIdx_le s i.toNat
  exact (changes_item i).seq fun x => herase.seq fun _ => changes_pure x

theorem stateOf_index (i : Int64) (s : Stack) : stateOf (index i s) = s := by
  unfold index
  split <;> rfl

theorem changes_index (i : Int64) : Changes List.length 0 (index i) :=
  changes_of_eq fun s => congrArg List.length (stateOf_index i s)

theorem changes_pick (i : Int64) : Changes List.length 1 (pick i) :=
  (changes_index i).seq fun n =>
    (changes_item n).seq changes_push

theorem changes_roll (i : Int64) : Changes List.length 1 (roll i) :=
  (changes_index i).seq fun n =>
    (changes_nip n).seq changes_push

end StackM

/-! ## The parts of a machine -/

namespace MachineM

variable {d : Int}

theorem exists_of_onStack_error {f : StackM α} {err : ScriptError}
    (h : onStack f m = .error err m') :
    ∃ e s, f m.stack = .error e s ∧ err = .stack e ∧ m' = { m with stack := s } := by
  unfold onStack at h
  rcases hf : f m.stack with ⟨a, s⟩ | ⟨e, s⟩ <;> rw [hf] at h <;> cases h
  exact ⟨e, s, rfl, rfl, rfl⟩

theorem exists_of_onAlt_error {f : StackM α} {err : ScriptError} (h : onAlt f m = .error err m') :
    ∃ e s, f m.alt = .error e s ∧ err = .stack e ∧ m' = { m with alt := s } := by
  unfold onAlt at h
  rcases hf : f m.alt with ⟨a, s⟩ | ⟨e, s⟩ <;> rw [hf] at h <;> cases h
  exact ⟨e, s, rfl, rfl, rfl⟩

theorem exists_of_onAlt_ok {f : StackM α} {a : α} (h : onAlt f m = .ok a m') :
    ∃ s, f m.alt = .ok a s ∧ m' = { m with alt := s } := by
  unfold onAlt at h
  rcases hf : f m.alt with ⟨b, s⟩ | ⟨e, s⟩ <;> rw [hf] at h <;> cases h
  exact ⟨s, rfl, rfl⟩

theorem changes_onStack {f : StackM α} (h : Changes List.length d f) :
    Changes Machine.items d (onStack f : MachineM σ α) := by
  constructor
  · intro m a m' hm
    obtain ⟨s, hf, rfl⟩ := onStack_ok.1 hm
    have hle := h.ok hf
    simp only [Machine.items]
    omega
  · intro m e m' hm
    obtain ⟨e, s, hf, -, rfl⟩ := exists_of_onStack_error hm
    exact Nat.add_le_add_right (h.error hf) _

theorem changes_onAlt {f : StackM α} (h : Changes List.length d f) :
    Changes Machine.items d (onAlt f : MachineM σ α) := by
  constructor
  · intro m a m' hm
    obtain ⟨s, hf, rfl⟩ := exists_of_onAlt_ok hm
    have hle := h.ok hf
    simp only [Machine.items]
    omega
  · intro m e m' hm
    obtain ⟨e, s, hf, -, rfl⟩ := exists_of_onAlt_error hm
    exact Nat.add_le_add_left (h.error hf) _

theorem changes_countOperations (n : Nat) :
    Changes Machine.items 0 (countOperations n : MachineM σ Unit) :=
  changes_of_eq fun m => by rw [stateOf_countOperations]; rfl

theorem changes_askSignature (c : Checker σ) (q : SignatureQuery) :
    Changes Machine.items 0 (askSignature c q) :=
  changes_of_eq fun m => by rw [stateOf_askSignature]; rfl

end MachineM

open MachineM StackM

/-! ## Signature checks -/

theorem changes_checkPair (code item key : Bytes) :
    Changes Machine.items 0 (checkPair ctx code item key) := by
  unfold checkPair
  cases item.getLast? with
  | none => exact changes_pure false
  | some hashType =>
    refine (changes_ofExcept _ _).seq fun _ => ?_
    refine (changes_ofExcept _ _).seq fun _ => ?_
    refine (changes_ofExcept _ _).seq fun _ => ?_
    cases Signature.ofDer? item.dropLast with
    | none => exact changes_pure false
    | some signature =>
      cases PublicKey.ofBytes? key with
      | none => exact changes_pure false
      | some publicKey => exact changes_askSignature ctx.checker _

theorem changes_scriptCode : Changes Machine.items 0 (scriptCode ctx) :=
  changes_of_eq fun _ => rfl

/-- The key and the signature are taken off. -/
theorem changes_checkSingle : Changes Machine.items (-2) (checkSingle ctx) := by
  rw [checkSingle_eq]
  refine (changes_onStack changes_pop).bind (k := -1) (by decide) fun key => ?_
  refine (changes_onStack changes_pop).bind (k := 0) (by decide) fun item => ?_
  exact changes_scriptCode.seq fun code => changes_checkPair code item key

theorem changes_matchKeys (code : Bytes) (items keys : List Bytes) :
    Changes Machine.items 0 (matchKeys ctx code items keys) := by
  induction keys generalizing items with
  | nil => cases items <;> exact changes_pure _
  | cons key keys ih =>
    cases items with
    | nil => exact changes_pure true
    | cons item items =>
      unfold matchKeys
      refine changes_ite (changes_pure false) ?_
      refine (changes_checkPair code item key).seq fun valid => ?_
      exact changes_ite (ih items) (ih (item :: items))

theorem changes_popItems (n : Nat) : Changes Machine.items 0 (popItems n : MachineM σ _) := by
  unfold popItems
  induction List.range n with
  | nil => exact changes_pure []
  | cons i is ih =>
    rw [List.mapM_cons]
    have hpop : Changes Machine.items 0 (onStack pop : MachineM σ Bytes) :=
      (changes_onStack changes_pop).mono (by decide)
    exact hpop.seq fun x =>
      ih.seq fun xs => changes_pure (x :: xs)

/-- At least the numbers of keys and signatures and the item without use are taken off. -/
theorem changes_checkMultiple : Changes Machine.items (-3) (checkMultiple ctx) := by
  have hkeys : Changes Machine.items (-1) (popKeyCount ctx) := by
    refine (changes_onStack (changes_popNumber _)).bind (k := 0) (by decide) fun n => ?_
    exact changes_guard
      ((changes_countOperations _).seq fun _ => changes_pure _)
  have hsignatures (k : Nat) : Changes Machine.items (-1) (popSignatureCount ctx k) :=
    (changes_onStack (changes_popNumber _)).bind (k := 0) (by decide) fun n =>
      changes_guard (changes_pure _)
  refine hkeys.bind (k := -2) (by decide) fun keyCount => ?_
  refine (changes_popItems keyCount).seq fun keys => ?_
  refine (hsignatures keyCount).bind (k := -1) (by decide) fun signatureCount => ?_
  refine (changes_popItems signatureCount).seq fun items => ?_
  refine (changes_onStack changes_pop).bind (k := 0) (by decide) fun dummy => ?_
  exact changes_guard
    (changes_scriptCode.seq fun code => changes_matchKeys code items keys)

/-! ## Instructions -/

theorem changes_require (op : Opcode) (b : Bool) :
    Changes Machine.items 0 (require op b : MachineM σ Unit) :=
  changes_ite (changes_pure ()) (changes_throw _)

theorem changes_deliver (op : Opcode) (verify b : Bool) :
    Changes Machine.items 1 (deliver op verify b : MachineM σ Unit) :=
  changes_ite ((changes_require op b).mono (by decide)) (changes_onStack (changes_push _))

theorem changes_popPair (minimal : Bool) :
    Changes Machine.items (-2) (popPair minimal : MachineM σ _) :=
  (changes_onStack (changes_popNumber minimal)).bind (k := -1) (by decide) fun _ =>
    (changes_onStack (changes_popNumber minimal)).bind (k := 0) (by decide) fun _ => changes_pure _

theorem changes_upgradableNop (op : Opcode) : Changes Machine.items 0 (upgradableNop ctx op) :=
  changes_ite (changes_throw _) (changes_pure ())

theorem changes_peekLock : Changes Machine.items 0 (peekLock ctx) :=
  (changes_onStack (changes_peekNumber _ _)).seq fun n =>
    changes_guard (changes_pure n)

theorem changes_checkLockTimeVerify (op : Opcode) :
    Changes Machine.items 0 (checkLockTimeVerify ctx op) := by
  have hask (n : Int) : Changes Machine.items 0 (askLockTime ctx.checker n) :=
    changes_of_eq fun _ => rfl
  refine changes_ite (changes_upgradableNop op) ?_
  refine changes_peekLock.seq fun n => ?_
  exact (hask n).seq fun _ =>
    changes_ite (changes_throw _) (changes_pure ())

theorem changes_checkSequenceVerify (op : Opcode) :
    Changes Machine.items 0 (checkSequenceVerify ctx op) := by
  have hask (n : Int) : Changes Machine.items 0 (askSequence ctx.checker n) :=
    changes_of_eq fun _ => rfl
  refine changes_ite (changes_upgradableNop op) ?_
  refine changes_peekLock.seq fun n => ?_
  refine changes_ite ?_ (changes_pure ())
  exact (hask n).seq fun _ =>
    changes_ite (changes_throw _) (changes_pure ())

theorem changes_openBranch (negated : Bool) :
    Changes Machine.items 0 (openBranch negated : MachineM σ Unit) := by
  have hpush (b : Branch) : Changes Machine.items 0
      (modify fun m => { m with branches := b :: m.branches } : MachineM σ Unit) :=
    changes_of_eq fun _ => rfl
  have hexecuting : Changes Machine.items 0 (executing : MachineM σ Bool) :=
    changes_of_eq fun _ => rfl
  refine hexecuting.seq fun _ => changes_ite ?_ (hpush _)
  exact ((changes_onStack changes_popTruth).bind (k := 0) (by decide) fun _ => hpush _).mono
    (by decide)

theorem changes_changeBranch (op : Opcode) (f : Branches → Option Branches) :
    Changes Machine.items 0 (changeBranch op f : MachineM σ Unit) := by
  refine changes_of_eq fun m => ?_
  unfold changeBranch
  cases f m.branches <;> rfl

namespace Instruction

/-- What these operations leave is at most what they find. -/
theorem changes_perform (hi : i.operation.grows = false) :
    Changes Machine.items 0 (i.perform ctx offset) := by
  unfold perform
  dsimp only
  cases hop : i.operation with
  | pushBytes | pushNum | dup | copyOver | ifDup | depth | tuck | size =>
    rw [hop] at hi
    cases hi
  | nop => exact changes_pure ()
  | openIf negated => exact changes_openBranch negated
  | elseBranch | endIf => exact changes_changeBranch _ _
  | verify =>
    exact ((changes_onStack changes_popTruth).bind (by decide) fun b => changes_require _ b).mono
      (by decide)
  | toAltStack =>
    exact (changes_onStack changes_pop).bind (by decide) fun x => changes_onAlt (changes_push x)
  | fromAltStack =>
    exact (changes_onAlt changes_pop).bind (by decide) fun x => changes_onStack (changes_push x)
  | drop n =>
    refine changes_onStack (changes_rearrange fun s _ => ?_)
    rw [List.length_drop]
    omega
  | rot n | swap n =>
    refine changes_onStack (changes_rearrange fun s hs => ?_)
    simp only [List.length_append, List.length_take, List.length_drop]
    omega
  | nip => exact (changes_onStack (changes_nip 1)).seq fun _ => changes_pure ()
  | pick =>
    exact (changes_onStack (changes_popNumber _)).bind (by decide) fun n =>
      changes_onStack (changes_pick _)
  | roll =>
    exact (changes_onStack (changes_popNumber _)).bind (by decide) fun n =>
      changes_onStack (changes_roll _)
  | equal =>
    exact ((changes_onStack changes_pop).bind (k := 0) (by decide) fun x =>
      (changes_onStack changes_pop).bind (by decide) fun y => changes_onStack (changes_push _)).mono
        (by decide)
  | equalVerify =>
    exact ((changes_onStack changes_pop).bind (k := -1) (by decide) fun x =>
      (changes_onStack changes_pop).bind (by decide) fun y => changes_require _ _).mono (by decide)
  | unary f =>
    exact (changes_onStack (changes_popNumber _)).bind (k := 1) (by decide) fun a =>
      (changes_ofExcept _ _).seq fun n => changes_onStack (changes_push _)
  | binary f =>
    exact ((changes_popPair _).bind (k := 1) (by decide) fun p =>
      (changes_ofExcept _ _).seq fun n =>
        changes_onStack (changes_push _)).mono (by decide)
  | numEqualVerify =>
    exact ((changes_popPair _).bind (k := 0) (by decide) fun p => changes_require _ _).mono
      (by decide)
  | within =>
    exact ((changes_popPair _).bind (k := 0) (by decide) fun p =>
      (changes_onStack (changes_popNumber _)).bind (by decide) fun x =>
        changes_onStack (changes_push _)).mono (by decide)
  | hash f =>
    exact (changes_onStack changes_pop).bind (by decide) fun x => changes_onStack (changes_push _)
  | codeSeparator => exact changes_of_eq fun _ => rfl
  | checkSig verify =>
    exact (changes_checkSingle.bind (k := 1) (by decide) fun b => changes_deliver _ verify b).mono
      (by decide)
  | checkMultiSig verify =>
    exact (changes_checkMultiple.bind (k := 1) (by decide) fun b => changes_deliver _ verify b).mono
      (by decide)
  | checkLockTimeVerify => exact changes_checkLockTimeVerify _
  | checkSequenceVerify => exact changes_checkSequenceVerify _
  | upgradableNop => exact changes_upgradableNop _
  | returnEarly | disabled | alwaysIllegal | reserved | invalid => exact changes_throw _

/-- What the other operations leave is at least what they find. -/
theorem preserves_perform (hi : i.operation.grows = true) (k : Nat) :
    Preserves (fun m => k ≤ m.items) (i.perform ctx offset) := by
  have hstack {α : Type} {f : StackM α} (hf : ∀ s, s.length ≤ (stateOf (f s)).length) :
      Preserves (fun m => k ≤ m.items) (onStack f : MachineM σ α) := by
    intro m hm
    rw [stateOf_onStack]
    exact Nat.le_trans hm (Nat.add_le_add_right (hf m.stack) _)
  have hpush (x : Bytes) : Preserves (fun m => k ≤ m.items) (onStack (push x) : MachineM σ Unit) :=
    hstack fun s => Nat.le_succ s.length
  have hcopy {n : Nat} {f : Stack → Stack} (hf : ∀ s, n ≤ s.length → s.length ≤ (f s).length) :
      Preserves (fun m => k ≤ m.items) (onStack (rearrange n f) : MachineM σ Unit) := by
    refine hstack fun s => ?_
    rcases stateOf_rearrange n f s with hs | ⟨hn, hs⟩
    · exact Nat.le_of_eq (congrArg List.length hs.symm)
    · rw [hs]
      exact hf s hn
  have hpeek (s : Stack) : s.length ≤ (stateOf (peek 0 s)).length :=
    Nat.le_of_eq (congrArg List.length (stateOf_peek 0 s).symm)
  unfold perform
  dsimp only
  cases hop : i.operation with
  | pushBytes | pushNum => exact hpush _
  | dup n | copyOver n =>
    refine hcopy fun s _ => ?_
    rw [List.length_append]
    omega
  | ifDup =>
    have hdup : Preserves (fun m => k ≤ m.items) (onStack (dup 1) : MachineM σ Unit) := by
      refine hcopy fun s _ => ?_
      rw [List.length_append]
      omega
    have htruth : Preserves (fun m => k ≤ m.items) (onStack peekTruth : MachineM σ Bool) := by
      refine hstack fun s => ?_
      rcases stateOf_bind (peek 0) (fun x => pure (truth x)) s with hs | ⟨_, -, hs⟩
      · exact hs ▸ hpeek s
      · exact hs ▸ hpeek s
    exact htruth.bind fun _ => preserves_ite hdup (preserves_pure ())
  | depth => exact fun m hm => hpush _ m hm
  | tuck =>
    refine hcopy fun s hs => ?_
    simp only [List.length_append, List.length_take, List.length_drop]
    omega
  | size => exact (hstack hpeek).bind fun x => hpush _
  | _ =>
    rw [hop] at hi
    cases hi

/-- Most operations leave at most the items that they find, whether they succeed or fail. -/
theorem items_execute_le (hi : i.operation.grows = false) (ctx : Context σ) (offset : Nat)
    (m : Machine σ) :
    (stateOf (i.execute ctx offset m)).items ≤ m.items := by
  obtain ⟨k, hstate | hstate⟩ := i.stateOf_execute ctx offset m
  · rw [hstate]
    exact Nat.le_refl _
  · rw [hstate]
    exact (changes_perform hi).stateOf_le _

/-- The others leave at least those. -/
theorem items_le_execute (hi : i.operation.grows = true) (ctx : Context σ) (offset : Nat)
    (m : Machine σ) :
    m.items ≤ (stateOf (i.execute ctx offset m)).items := by
  obtain ⟨k, hstate | hstate⟩ := i.stateOf_execute ctx offset m
  · rw [hstate]
    exact Nat.le_refl _
  · rw [hstate]
    exact preserves_perform hi m.items _ (Nat.le_refl _)

/-- An instruction that leaves too many items where there were not too many has put some there. -/
theorem grows_of_overflow (h : i.execute ctx offset m = .ok () m')
    (hm : m.items ≤ Limit.stackItems) (hm' : Limit.stackItems < m'.items) :
    i.operation.grows = true := by
  rcases hi : i.operation.grows with _ | _
  · have hle := items_execute_le hi ctx offset m
    rw [h] at hle
    change m'.items ≤ m.items at hle
    omega
  · rfl

end Instruction

end SpendScript

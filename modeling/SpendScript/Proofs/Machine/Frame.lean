/-
  What instructions keep. An action preserves an invariant when the invariant holds after it
  whenever it holds before, whether the action succeeds or fails. `Frame` lists the changes that
  an invariant has to bear: those of the stacks and of the operation count, and the questions to the
  checker. The only other changes are those of the open conditionals and of the start of the signed
  code, which few instructions make; an invariant that bears all that an instruction can do holds
  after its step (`Frame.step`). What an instruction performs changes the operation count only where
  it counts keys, so an invariant that does not bear that is kept by all others (`Quiet.perform`). For
  signature checks alone `Draws` asks for less, and says where the signatures and keys come from.
-/
import SpendScript.Proofs.Machine.Success

namespace SpendScript

section Actions

variable {ε ρ α β : Type} {I : ρ → Prop}

/-- The state that a computation leaves, whether it succeeds or fails. -/
def stateOf : EStateM.Result ε ρ α → ρ
  | .ok _ s => s
  | .error _ s => s

/-- A sequence leaves what its first part leaves, or what its second part makes of that. -/
theorem stateOf_bind (x : EStateM ε ρ α) (f : α → EStateM ε ρ β) (s : ρ) :
    stateOf ((x >>= f) s) = stateOf (x s) ∨
      ∃ a, x s = .ok a (stateOf (x s)) ∧
        stateOf ((x >>= f) s) = stateOf (f a (stateOf (x s))) := by
  simp only [Bind.bind, EStateM.bind]
  cases x s with
  | ok a t => exact Or.inr ⟨a, rfl, rfl⟩
  | error e t => exact Or.inl rfl

/-- Where the invariant holds before the action, it holds after it. -/
def Preserves (I : ρ → Prop) (x : EStateM ε ρ α) : Prop := ∀ s, I s → I (stateOf (x s))

theorem preserves_pure (a : α) : Preserves I (pure a : EStateM ε ρ α) := fun _ h => h

theorem preserves_throw (e : ε) : Preserves I (throw e : EStateM ε ρ α) := fun _ h => h

/-- The second part of a sequence only has to bear the answers that the first part can give. -/
theorem Preserves.bind_of {x : EStateM ε ρ α} {f : α → EStateM ε ρ β} {R : α → Prop}
    (h : Preserves I x) (hR : ∀ s a t, I s → x s = .ok a t → R a)
    (hf : ∀ a, R a → Preserves I (f a)) : Preserves I (x >>= f) := by
  intro s hs
  rcases stateOf_bind x f s with hstate | ⟨a, hx, hstate⟩
  · rw [hstate]
    exact h s hs
  · rw [hstate]
    exact hf a (hR s a _ hs hx) _ (h s hs)

theorem Preserves.bind {x : EStateM ε ρ α} {f : α → EStateM ε ρ β} (h : Preserves I x)
    (hf : ∀ a, Preserves I (f a)) : Preserves I (x >>= f) :=
  h.bind_of (R := fun _ => True) (fun _ _ _ _ _ => trivial) fun a _ => hf a

theorem preserves_ite {p : Prop} [Decidable p] {x y : EStateM ε ρ α} (h : Preserves I x)
    (h' : Preserves I y) : Preserves I (if p then x else y) := by
  by_cases hp : p
  · rw [if_pos hp]
    exact h
  · rw [if_neg hp]
    exact h'

/-- A guard that throws. -/
theorem preserves_guard {p : Prop} [Decidable p] {e : ε} {x : EStateM ε ρ α}
    (h : Preserves I x) : Preserves I (if p then (throw e) >>= fun _ : PUnit => x else x) :=
  preserves_ite ((preserves_throw e).bind fun _ => h) h

theorem preserves_ofExcept {ι : Type} (r : Except ι α) (wrap : ι → ε) :
    Preserves I (MonadExcept.ofExcept (r.mapError wrap) : EStateM ε ρ α) := by
  cases r with
  | ok a => exact preserves_pure a
  | error e => exact preserves_throw (wrap e)

end Actions

variable {σ α : Type} {ctx : Context σ} {P : Bytes → Prop} {I : Machine σ → Prop}

/-- The operations that ask the checker about signatures. -/
def Operation.isSignatureCheck : Operation → Bool
  | checkSig _ | checkMultiSig _ => true
  | _ => false

/-- The operations that count keys. -/
def Operation.countsKeys : Operation → Bool
  | checkMultiSig _ => true
  | _ => false

theorem Operation.eq_of_isSignatureCheck {op : Operation} (h : op.isSignatureCheck = true) :
    ∃ verify, op = checkSig verify ∨ op = checkMultiSig verify := by
  cases op <;> simp [isSignatureCheck] at h ⊢

/-! ## What a step leaves -/

namespace MachineM

theorem stateOf_onStack (f : StackM α) (m : Machine σ) :
    stateOf (onStack f m) = { m with stack := stateOf (f m.stack) } := by
  unfold onStack
  cases f m.stack <;> rfl

theorem stateOf_onAlt (f : StackM α) (m : Machine σ) :
    stateOf (onAlt f m) = { m with alt := stateOf (f m.alt) } := by
  unfold onAlt
  cases f m.alt <;> rfl

theorem stateOf_countOperations (n : Nat) (m : Machine σ) :
    stateOf (countOperations n m) = { m with opCount := m.opCount + n } := by
  unfold countOperations
  dsimp only
  split <;> rfl

theorem stateOf_askSignature (c : Checker σ) (q : SignatureQuery) (m : Machine σ) :
    stateOf (askSignature c q m) = { m with checker := (c.checkSignature q m.checker).2 } := by
  unfold askSignature
  rcases c.checkSignature q m.checker with ⟨answer, s⟩
  cases answer <;> rfl

end MachineM

namespace Instruction

variable (ctx : Context σ) (offset : Nat) (i : Instruction) (m : Machine σ)

theorem stateOf_checkLimits :
    ∃ k, stateOf (i.checkLimits m) = { m with opCount := m.opCount + k } := by
  unfold checkLimits
  by_cases hp : i.isPush = true
  · rw [if_pos hp]
    refine ⟨0, ?_⟩
    split <;> rfl
  · rw [if_neg hp]
    exact ⟨1, MachineM.stateOf_countOperations 1 m⟩

theorem stateOf_checkMinimal : stateOf (i.checkMinimal ctx m) = m := by
  unfold checkMinimal
  split
  · cases i.checkMinimalPush <;> rfl
  · rfl

theorem stateOf_checkDepth : stateOf (checkDepth m) = m := by
  unfold checkDepth
  dsimp only
  split <;> rfl

/-- An instruction that fails before it is performed, or is passed over, changes the operation count
    only. Any other one leaves what it performs with another count. -/
theorem stateOf_execute :
    ∃ k, stateOf (i.execute ctx offset m) = { m with opCount := m.opCount + k } ∨
      stateOf (i.execute ctx offset m) =
        stateOf (i.perform ctx offset { m with opCount := m.opCount + k }) := by
  unfold execute
  by_cases hd : i.isDisabled = true
  · rw [if_pos hd]
    exact ⟨0, Or.inl rfl⟩
  by_cases ha : i.isAlwaysIllegal = true
  · rw [if_neg hd, if_pos ha]
    exact ⟨0, Or.inl rfl⟩
  obtain ⟨k, hk⟩ := i.stateOf_checkLimits m
  refine ⟨k, ?_⟩
  rw [if_neg hd, if_neg ha]
  rcases stateOf_bind i.checkLimits _ m with hstate | ⟨_, -, hstate⟩
  · rw [hstate, hk]
    exact Or.inl rfl
  · rw [hstate, hk]
    change stateOf ((if m.branches.executing then _ else _ : MachineM σ Unit) _) = _ ∨
      stateOf ((if m.branches.executing then _ else _ : MachineM σ Unit) _) = _
    by_cases hx : m.branches.executing = true
    · rw [if_pos hx]
      rcases stateOf_bind (i.checkMinimal ctx) _ { m with opCount := m.opCount + k } with
        hstate | ⟨_, -, hstate⟩
      · rw [hstate, stateOf_checkMinimal]
        exact Or.inl rfl
      · rw [hstate, stateOf_checkMinimal]
        exact Or.inr rfl
    · rw [if_neg hx]
      by_cases hc : i.isConditional = true
      · rw [if_pos hc]
        exact Or.inr rfl
      · rw [if_neg hc]
        exact Or.inl rfl

theorem stateOf_step :
    ∃ k, stateOf (i.step ctx offset m) = { m with opCount := m.opCount + k } ∨
      stateOf (i.step ctx offset m) =
        stateOf (i.perform ctx offset { m with opCount := m.opCount + k }) := by
  have hdepth : stateOf (i.step ctx offset m) = stateOf (i.execute ctx offset m) := by
    rcases stateOf_bind (i.execute ctx offset) (fun _ => checkDepth) m with hstate | ⟨_, -, hstate⟩
    · exact hstate
    · exact hstate.trans (stateOf_checkDepth _)
  rw [hdepth]
  exact i.stateOf_execute ctx offset m

end Instruction

/-! ## Parts of instructions -/

section Parts

open MachineM StackM

/-- The check of a pair keeps what the question to the checker keeps. -/
theorem preserves_checkPair {code : Bytes}
    (hask : ∀ q : SignatureQuery, q.scriptCode = code → Preserves I (askSignature ctx.checker q))
    (item key : Bytes) : Preserves I (checkPair ctx code item key) := by
  unfold checkPair
  cases item.getLast? with
  | none => exact preserves_pure false
  | some hashType =>
    refine (preserves_ofExcept _ _).bind fun _ => (preserves_ofExcept _ _).bind fun _ => ?_
    refine (preserves_ofExcept _ _).bind fun _ => ?_
    cases Signature.ofDer? item.dropLast with
    | none => exact preserves_pure false
    | some signature =>
      cases PublicKey.ofBytes? key with
      | none => exact preserves_pure false
      | some publicKey => exact hask _ rfl

theorem preserves_upgradableNop (op : Opcode) : Preserves I (upgradableNop ctx op) :=
  preserves_ite (preserves_throw _) (preserves_pure ())

/-- A lock is read and asked about, and nothing else. -/
theorem preserves_checkLockTimeVerify
    (hpeek : Preserves I (onStack (peekNumber ctx.flags.minimalData Number.lockTimeSize)))
    (hask : ∀ n, Preserves I (askLockTime ctx.checker n)) (op : Opcode) :
    Preserves I (checkLockTimeVerify ctx op) := by
  refine preserves_ite (preserves_upgradableNop op) ?_
  refine (hpeek.bind fun n => preserves_guard (preserves_pure n)).bind fun n => ?_
  exact (hask n).bind fun _ => preserves_ite (preserves_throw _) (preserves_pure ())

theorem preserves_checkSequenceVerify
    (hpeek : Preserves I (onStack (peekNumber ctx.flags.minimalData Number.lockTimeSize)))
    (hask : ∀ n, Preserves I (askSequence ctx.checker n)) (op : Opcode) :
    Preserves I (checkSequenceVerify ctx op) := by
  refine preserves_ite (preserves_upgradableNop op) ?_
  refine (hpeek.bind fun n => preserves_guard (preserves_pure n)).bind fun n => ?_
  refine preserves_ite ((hask n).bind fun _ => ?_) (preserves_pure ())
  exact preserves_ite (preserves_throw _) (preserves_pure ())

theorem preserves_require (op : Opcode) (b : Bool) :
    Preserves I (require op b : MachineM σ Unit) :=
  preserves_ite (preserves_pure ()) (preserves_throw _)

theorem preserves_deliver (hpush : ∀ b, Preserves I (onStack (pushTruth b))) (op : Opcode)
    (verify b : Bool) : Preserves I (deliver op verify b) :=
  preserves_ite (preserves_require op b) (hpush b)

theorem preserves_openBranch (htruth : Preserves I (onStack popTruth))
    (hb : ∀ m bs, I m → I { m with branches := bs }) (negated : Bool) :
    Preserves I (openBranch negated) := by
  have hpush (b : Branch) : Preserves I
      (modify fun m => { m with branches := b :: m.branches } : MachineM σ Unit) :=
    fun m => hb m _
  have hexecuting : Preserves I (executing : MachineM σ Bool) := fun _ h => h
  refine hexecuting.bind fun _ => preserves_ite ?_ (hpush _)
  exact htruth.bind fun _ => hpush _

theorem preserves_changeBranch (hb : ∀ m bs, I m → I { m with branches := bs }) (op : Opcode)
    (f : Branches → Option Branches) : Preserves I (changeBranch op f) := by
  intro m hm
  unfold changeBranch
  cases f m.branches with
  | none => exact hm
  | some bs => exact hb m bs hm

end Parts

/-! ## Signature checks -/

/-- All pairs of the search are pairs of the items. -/
theorem preserves_matchKeys {R : Bytes → Prop} {code : Bytes}
    (hpair : ∀ {item key}, R item → R key → Preserves I (checkPair ctx code item key))
    {items keys : List Bytes} (hitems : ∀ x ∈ items, R x) (hkeys : ∀ x ∈ keys, R x) :
    Preserves I (matchKeys ctx code items keys) := by
  induction keys generalizing items with
  | nil => cases items <;> exact preserves_pure _
  | cons key keys ih =>
    cases items with
    | nil => exact preserves_pure true
    | cons item items =>
      obtain ⟨hkey, hkeys⟩ := List.forall_mem_cons.1 hkeys
      obtain ⟨hitem, hrest⟩ := List.forall_mem_cons.1 hitems
      unfold matchKeys
      refine preserves_ite (preserves_pure false) ?_
      refine (hpair hitem hkey).bind fun valid => ?_
      exact preserves_ite (ih hrest hkeys) (ih hitems hkeys)

/-- What signature checks keep. Items are taken off a stack whose items satisfy `R`, code that satisfies
    `P` is signed, and the invariant bears the check of a pair of such items over such code. -/
structure Draws (ctx : Context σ) (P R : Bytes → Prop) (I : Machine σ → Prop) : Prop where
  pop : Preserves I (MachineM.onStack StackM.pop)
  number : ∀ minimal, Preserves I (MachineM.onStack (StackM.popNumber minimal))
  count : ∀ n, Preserves I (MachineM.countOperations n)
  item : ∀ m, I m → ∀ x ∈ m.stack, R x
  code : ∀ m, I m → P (Script.toBytes (ctx.script.drop m.codeStart))
  pair : ∀ {code item key}, P code → R item → R key → Preserves I (checkPair ctx code item key)

namespace Draws

variable {R : Bytes → Prop} (hI : Draws ctx P R I)

open MachineM

include hI

theorem preserves_pop {f : Bytes → MachineM σ α} (hf : ∀ x, R x → Preserves I (f x)) :
    Preserves I (onStack StackM.pop >>= f) := by
  refine hI.pop.bind_of (fun m x m' hm hx => ?_) hf
  obtain ⟨s, hs, -⟩ := onStack_pop_ok.1 hx
  exact hI.item m hm x (hs ▸ List.mem_cons_self)

theorem preserves_popItems (n : Nat) {f : List Bytes → MachineM σ α}
    (hf : ∀ xs, (∀ x ∈ xs, R x) → Preserves I (f xs)) : Preserves I (popItems n >>= f) := by
  have hpop : Preserves I (popItems n) := by
    unfold popItems
    induction List.range n with
    | nil => exact preserves_pure []
    | cons i is ih =>
      rw [List.mapM_cons]
      exact hI.pop.bind fun x => ih.bind fun xs => preserves_pure (x :: xs)
  refine hpop.bind_of (fun m xs m' hm hxs x hx => ?_) hf
  obtain ⟨-, s, hs, -⟩ := popItems_ok.1 hxs
  exact hI.item m hm x (hs ▸ List.mem_append_left s hx)

/-- Whatever reads the code that signatures commit to reads code that satisfies `P`. -/
theorem preserves_scriptCode {f : Bytes → MachineM σ α} (hf : ∀ code, P code → Preserves I (f code)) :
    Preserves I (scriptCode ctx >>= f) :=
  fun m hm => hf _ (hI.code m hm) m hm

theorem checkSingle : Preserves I (checkSingle ctx) := by
  rw [checkSingle_eq]
  exact hI.preserves_pop fun _ hkey => hI.preserves_pop fun _ hitem =>
    hI.preserves_scriptCode fun _ hcode => hI.pair hcode hitem hkey

theorem matchKeys {code : Bytes} (hcode : P code) {items keys : List Bytes}
    (hitems : ∀ x ∈ items, R x) (hkeys : ∀ x ∈ keys, R x) :
    Preserves I (matchKeys ctx code items keys) :=
  preserves_matchKeys (fun hitem hkey => hI.pair hcode hitem hkey) hitems hkeys

theorem checkMultiple : Preserves I (checkMultiple ctx) := by
  have hkeys : Preserves I (popKeyCount ctx) :=
    (hI.number _).bind fun _ => preserves_guard ((hI.count _).bind fun _ => preserves_pure _)
  have hsignatures (k : Nat) : Preserves I (popSignatureCount ctx k) :=
    (hI.number _).bind fun _ => preserves_guard (preserves_pure _)
  refine hkeys.bind fun keyCount => hI.preserves_popItems keyCount fun keys hkeys => ?_
  refine (hsignatures keyCount).bind fun signatureCount => ?_
  refine hI.preserves_popItems signatureCount fun items hitems => hI.pop.bind fun _ => ?_
  exact preserves_guard (hI.preserves_scriptCode fun _ hcode => hI.matchKeys hcode hitems hkeys)

end Draws

/-! ## Frames -/

/-- An invariant that the stacks and the questions to the checker do not matter to, as long as
    signatures are checked over code that satisfies `P`. -/
structure Quiet (ctx : Context σ) (P : Bytes → Prop) (I : Machine σ → Prop) : Prop where
  stack : ∀ m s, I m → I { m with stack := s }
  alt : ∀ m s, I m → I { m with alt := s }
  signature : ∀ m q, P q.scriptCode → I m →
    I { m with checker := (ctx.checker.checkSignature q m.checker).2 }
  lockTime : ∀ m n, I m → I { m with checker := (ctx.checker.checkLockTime n m.checker).2 }
  sequence : ∀ m n, I m → I { m with checker := (ctx.checker.checkSequence n m.checker).2 }

/-- An invariant that the stacks, the operation count and the questions to the checker do not
    matter to, as long as signatures are checked over code that satisfies `P`. -/
structure Frame (ctx : Context σ) (P : Bytes → Prop) (I : Machine σ → Prop) : Prop where
  stack : ∀ m s, I m → I { m with stack := s }
  alt : ∀ m s, I m → I { m with alt := s }
  opCount : ∀ m n, I m → I { m with opCount := m.opCount + n }
  signature : ∀ m q, P q.scriptCode → I m →
    I { m with checker := (ctx.checker.checkSignature q m.checker).2 }
  lockTime : ∀ m n, I m → I { m with checker := (ctx.checker.checkLockTime n m.checker).2 }
  sequence : ∀ m n, I m → I { m with checker := (ctx.checker.checkSequence n m.checker).2 }

namespace Quiet

variable (hI : Quiet ctx P I)

open MachineM StackM

include hI

/-! ## The parts of a machine -/

theorem onStack (f : StackM α) : Preserves I (onStack f) := by
  intro m hm
  rw [stateOf_onStack]
  exact hI.stack m _ hm

theorem onAlt (f : StackM α) : Preserves I (onAlt f) := by
  intro m hm
  rw [stateOf_onAlt]
  exact hI.alt m _ hm

theorem askSignature {q : SignatureQuery} (hq : P q.scriptCode) :
    Preserves I (askSignature ctx.checker q) := by
  intro m hm
  rw [stateOf_askSignature]
  exact hI.signature m q hq hm

/-! ## Checks of signatures -/

theorem checkPair {code : Bytes} (hcode : P code) (item key : Bytes) :
    Preserves I (checkPair ctx code item key) :=
  preserves_checkPair (fun _ hq => hI.askSignature (hq ▸ hcode)) item key

theorem checkSingle (hcode : ∀ m, I m → P (Script.toBytes (ctx.script.drop m.codeStart))) :
    Preserves I (checkSingle ctx) := by
  rw [checkSingle_eq]
  exact (hI.onStack pop).bind fun key => (hI.onStack pop).bind fun item =>
    fun m hm => hI.checkPair (hcode m hm) item key m hm

/-- Signature checks keep the invariant, whatever they take off the stack. -/
theorem draws (hcount : ∀ m n, I m → I { m with opCount := m.opCount + n })
    (hcode : ∀ m, I m → P (Script.toBytes (ctx.script.drop m.codeStart))) :
    Draws ctx P (fun _ => True) I where
  pop := hI.onStack StackM.pop
  number _ := hI.onStack _
  count n m hm := by
    rw [stateOf_countOperations]
    exact hcount m n hm
  item _ _ _ _ := trivial
  code := hcode
  pair hp _ _ := hI.checkPair hp _ _

/-! ## Instructions -/

theorem deliver (op : Opcode) (verify b : Bool) : Preserves I (deliver op verify b) :=
  preserves_deliver (fun _ => hI.onStack _) op verify b

theorem popPair (minimal : Bool) : Preserves I (popPair minimal) :=
  (hI.onStack _).bind fun _ => (hI.onStack _).bind fun _ => preserves_pure _

/-- What an instruction performs keeps the invariant. It has to bear changes of the operation count,
    of the open conditionals and of the start of the signed code only where the instruction makes them,
    and has to say something on the signed code only where the instruction reads it. -/
theorem perform {offset : Nat} {i : Instruction}
    (hcount : i.operation.countsKeys = true → ∀ m n, I m → I { m with opCount := m.opCount + n })
    (hcode : i.operation.isSignatureCheck = true →
      ∀ m, I m → P (Script.toBytes (ctx.script.drop m.codeStart)))
    (hb : i.isConditional = true → ∀ m bs, I m → I { m with branches := bs })
    (hs : i.operation = .codeSeparator → ∀ m, I m → I { m with codeStart := offset + 1 }) :
    Preserves I (i.perform ctx offset) := by
  unfold Instruction.isConditional at hb
  unfold Instruction.perform
  dsimp only
  cases hi : i.operation with
  | pushBytes | pushNum | drop | dup | copyOver | rot | swap | tuck => exact hI.onStack _
  | nop => exact preserves_pure ()
  | openIf negated => exact preserves_openBranch (hI.onStack _) (hb (by rw [hi]; rfl)) negated
  | elseBranch | endIf => exact preserves_changeBranch (hb (by rw [hi]; rfl)) _ _
  | verify => exact (hI.onStack _).bind fun b => preserves_require _ b
  | toAltStack => exact (hI.onStack pop).bind fun x => hI.onAlt (push x)
  | fromAltStack => exact (hI.onAlt pop).bind fun x => hI.onStack (push x)
  | ifDup => exact (hI.onStack _).bind fun _ => preserves_ite (hI.onStack _) (preserves_pure ())
  | depth => exact fun m hm => hI.onStack (pushLength m.stack.length) m hm
  | nip => exact (hI.onStack _).bind fun _ => preserves_pure ()
  | pick | roll | size | hash => exact (hI.onStack _).bind fun _ => hI.onStack _
  | equal => exact (hI.onStack _).bind fun _ => (hI.onStack _).bind fun _ => hI.onStack _
  | equalVerify => exact (hI.onStack _).bind fun _ => (hI.onStack _).bind fun _ => preserves_require _ _
  | unary f =>
    exact (hI.onStack _).bind fun _ => (preserves_ofExcept _ _).bind fun _ => hI.onStack _
  | binary f =>
    exact (hI.popPair _).bind fun _ => (preserves_ofExcept _ _).bind fun _ => hI.onStack _
  | numEqualVerify => exact (hI.popPair _).bind fun _ => preserves_require _ _
  | within => exact (hI.popPair _).bind fun _ => (hI.onStack _).bind fun _ => hI.onStack _
  | codeSeparator => exact hs hi
  | checkSig verify =>
    exact (hI.checkSingle (hcode (by rw [hi]; rfl))).bind fun b => hI.deliver _ verify b
  | checkMultiSig verify =>
    have hdraws := hI.draws (hcount (by rw [hi]; rfl)) (hcode (by rw [hi]; rfl))
    exact hdraws.checkMultiple.bind fun b => hI.deliver _ verify b
  | checkLockTimeVerify =>
    exact preserves_checkLockTimeVerify (hI.onStack _) (fun n m => hI.lockTime m n) _
  | checkSequenceVerify =>
    exact preserves_checkSequenceVerify (hI.onStack _) (fun n m => hI.sequence m n) _
  | upgradableNop => exact preserves_upgradableNop _
  | returnEarly | disabled | alwaysIllegal | reserved | invalid => exact preserves_throw _

end Quiet

namespace Frame

variable (hI : Frame ctx P I)

include hI

theorem quiet : Quiet ctx P I := ⟨hI.stack, hI.alt, hI.signature, hI.lockTime, hI.sequence⟩

/-- An invariant that bears counting is kept by what any instruction performs. -/
theorem perform {offset : Nat} {i : Instruction}
    (hcode : i.operation.isSignatureCheck = true →
      ∀ m, I m → P (Script.toBytes (ctx.script.drop m.codeStart)))
    (hb : i.isConditional = true → ∀ m bs, I m → I { m with branches := bs })
    (hs : i.operation = .codeSeparator → ∀ m, I m → I { m with codeStart := offset + 1 }) :
    Preserves I (i.perform ctx offset) := hI.quiet.perform (fun _ => hI.opCount) hcode hb hs

/-- **What instructions keep.** An invariant that bears the changes an instruction can make holds
    after its step, whether the step succeeds or fails. -/
theorem step {offset : Nat} {i : Instruction}
    (hcode : i.operation.isSignatureCheck = true →
      ∀ m, I m → P (Script.toBytes (ctx.script.drop m.codeStart)))
    (hb : i.isConditional = true → ∀ m bs, I m → I { m with branches := bs })
    (hs : i.operation = .codeSeparator → ∀ m, I m → I { m with codeStart := offset + 1 }) :
    Preserves I (i.step ctx offset) := by
  intro m hm
  obtain ⟨k, hstate | hstate⟩ := i.stateOf_step ctx offset m
  · rw [hstate]
    exact hI.opCount m k hm
  · rw [hstate]
    exact hI.perform hcode hb hs _ (hI.opCount m k hm)

end Frame

/-- The open conditionals and the operations counted so far bear everything that an instruction does
    which does not move between branches. -/
theorem Instruction.frame_counted (ctx : Context σ) (bs : Branches) (n : Nat) :
    Frame ctx (fun _ => True) fun m => m.branches = bs ∧ n ≤ m.opCount where
  stack _ _ h := h
  alt _ _ h := h
  opCount _ _ h := ⟨h.1, Nat.le_add_right_of_le h.2⟩
  signature _ _ _ h := h
  lockTime _ _ h := h
  sequence _ _ h := h

/-- What an instruction performs that does not move between branches keeps them all, and counts no
    operations back. -/
theorem Instruction.branches_of_perform {i : Instruction} (hc : i.isConditional = false)
    (ctx : Context σ) (offset : Nat) (m : Machine σ) :
    (stateOf (i.perform ctx offset m)).branches = m.branches ∧
      m.opCount ≤ (stateOf (i.perform ctx offset m)).opCount := by
  have hkeeps : Preserves (fun m' => m'.branches = m.branches ∧ m.opCount ≤ m'.opCount)
      (i.perform ctx offset) :=
    (frame_counted ctx m.branches m.opCount).perform (fun _ _ _ => trivial)
      (fun hcond => absurd (hcond.symm.trans hc) (by decide)) fun _ _ hm => hm
  exact hkeeps m ⟨rfl, Nat.le_refl _⟩

end SpendScript

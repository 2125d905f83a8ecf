/-
  Coupled machines execute an instruction alike. The signature checks come first, then one case for
  each operation. Only what moves between branches depends on how the open conditionals
  correspond, and only the depth of the stack shows what lies below it.
-/
import SpendScript.Proofs.Machine.Coupling

namespace SpendScript

namespace Coupling

variable {σ τ α : Type} {K : Coupling σ τ} {c : Context σ} {d : Context τ}

open MachineM StackM

/-! ## Questions to the checker -/

/-- The machines after both checkers have changed their states. -/
theorem Holds.checkers {m : Machine σ} {n : Machine τ} (hk : K.Holds m n) {s : σ} {t : τ}
    (h : K.checker s t) : K.Holds { m with checker := s } { n with checker := t } :=
  { hk with checker := h }

theorem follows_askSignature (hc : K.Contexts c d) (q : SignatureQuery) :
    K.Follows (askSignature c.checker q) (askSignature d.checker q) := by
  intro m n hk
  obtain ⟨ha, hs⟩ := hc.signature q m.checker n.checker hk.checker
  unfold askSignature
  rcases hm : c.checker.checkSignature q m.checker with ⟨answer, s⟩
  rcases hn : d.checker.checkSignature q n.checker with ⟨answer', t⟩
  rw [hm, hn] at ha hs
  rw [show answer' = answer from ha]
  rcases answer with e | valid
  · exact .error _ (hk.checkers hs)
  · exact .ok valid (hk.checkers hs)

theorem follows_askLockTime (hc : K.Contexts c d) (k : Int) :
    K.Follows (askLockTime c.checker k) (askLockTime d.checker k) := by
  intro m n hk
  obtain ⟨ha, hs⟩ := hc.lockTime k m.checker n.checker hk.checker
  unfold askLockTime
  dsimp only
  rw [ha]
  exact .ok _ (hk.checkers hs)

theorem follows_askSequence (hc : K.Contexts c d) (k : Int) :
    K.Follows (askSequence c.checker k) (askSequence d.checker k) := by
  intro m n hk
  obtain ⟨ha, hs⟩ := hc.sequence k m.checker n.checker hk.checker
  unfold askSequence
  dsimp only
  rw [ha]
  exact .ok _ (hk.checkers hs)

theorem follows_scriptCode (hc : K.Contexts c d) : K.Follows (scriptCode c) (scriptCode d) := by
  intro m n hk
  unfold scriptCode
  rw [hc.script, hk.codeStart]
  exact .ok _ hk

/-! ## Signature checks -/

theorem checkHashType_of_sub {F G : Flags} (h : F ⊆ G) {hashType : UInt8}
    (hok : StrictEncoding.checkHashType hashType G = .ok ()) :
    StrictEncoding.checkHashType hashType F = .ok () := by
  unfold StrictEncoding.checkHashType at hok ⊢
  dsimp only at hok ⊢
  split at hok
  · cases hok
  · next hG =>
    refine if_neg fun hF => hG ?_
    rw [Bool.and_eq_true] at hF ⊢
    exact ⟨h.strictEncoding hF.1, hF.2⟩

theorem checkPublicKey_of_sub {F G : Flags} (h : F ⊆ G) {key : Bytes} {versionZero : Bool}
    (hok : StrictEncoding.checkPublicKey key versionZero G = .ok ()) :
    StrictEncoding.checkPublicKey key versionZero F = .ok () := by
  unfold StrictEncoding.checkPublicKey at hok ⊢
  split at hok
  · cases hok
  · next hv =>
    rw [if_neg hv]
    split at hok
    · cases hok
    · next hG =>
      refine if_neg fun hF => hG ?_
      rw [Bool.and_eq_true] at hF ⊢
      exact ⟨h.strictEncoding hF.1, hF.2⟩

theorem follows_checkPair (hc : K.Contexts c d) (code item key : Bytes) :
    K.Follows (checkPair c code item key) (checkPair d code item key) := by
  unfold checkPair
  cases item.getLast? with
  | none => exact follows_pure false
  | some hashType =>
    refine (follows_ofEncoding (checkHashType_of_sub hc.flags.sub) ?_).bind fun _ => ?_
    · intro he
      rw [hc.flags_eq he]
    refine (follows_ofEncoding id fun _ => rfl).bind fun _ => ?_
    have hkey : K.Follows
        (ofEncoding (StrictEncoding.checkPublicKey key c.versionZero c.flags))
        (ofEncoding (StrictEncoding.checkPublicKey key d.versionZero d.flags)) := by
      rw [hc.versionZero]
      refine follows_ofEncoding (checkPublicKey_of_sub hc.flags.sub) fun he => ?_
      rw [hc.flags_eq he]
    refine hkey.bind fun _ => ?_
    cases Signature.ofDer? item.dropLast with
    | none => exact follows_pure false
    | some signature =>
      cases PublicKey.ofBytes? key with
      | none => exact follows_pure false
      | some publicKey => exact follows_askSignature hc _

theorem follows_checkSingle (hc : K.Contexts c d) :
    K.Follows (checkSingle c) (checkSingle d) := by
  rw [checkSingle_eq, checkSingle_eq]
  exact (follows_onStack_self Lifts.pop).bind fun key =>
    (follows_onStack_self Lifts.pop).bind fun item =>
      (follows_scriptCode hc).bind fun code => follows_checkPair hc code item key

theorem follows_matchKeys (hc : K.Contexts c d) (code : Bytes) (items keys : List Bytes) :
    K.Follows (matchKeys c code items keys) (matchKeys d code items keys) := by
  induction keys generalizing items with
  | nil =>
    cases items with
    | nil => exact follows_pure true
    | cons item items => exact follows_pure false
  | cons key keys ih =>
    cases items with
    | nil => exact follows_pure true
    | cons item items =>
      unfold matchKeys
      refine follows_ite (fun _ => follows_pure false) fun _ => ?_
      refine (follows_checkPair hc code item key).bind fun valid => ?_
      exact follows_ite (fun _ => ih items) fun _ => ih (item :: items)

theorem follows_popItems (k : Nat) : K.Follows (popItems k) (popItems k) := by
  unfold popItems
  induction List.range k with
  | nil => exact follows_pure []
  | cons i is ih =>
    rw [List.mapM_cons, List.mapM_cons]
    exact (follows_onStack_self Lifts.pop).bind fun x =>
      ih.bind fun xs => follows_pure (x :: xs)

theorem follows_popNumber (hc : K.Contexts c d) :
    K.Follows (onStack (popNumber c.flags.minimalData))
      (onStack (popNumber d.flags.minimalData)) :=
  follows_onStack (Lifts.popNumber hc.flags.sub.minimalData) fun he => by rw [hc.flags_eq he]

theorem follows_popKeyCount (hc : K.Contexts c d) :
    K.Follows (popKeyCount c) (popKeyCount d) := by
  refine (follows_popNumber hc).bind fun k => ?_
  refine follows_ite (fun _ => ?_) fun _ => ?_
  · exact (follows_throw _).bind fun _ => (follows_countOperations _).bind fun _ => follows_pure _
  · exact (follows_countOperations _).bind fun _ => follows_pure _

theorem follows_popSignatureCount (hc : K.Contexts c d) (keyCount : Nat) :
    K.Follows (popSignatureCount c keyCount) (popSignatureCount d keyCount) := by
  refine (follows_popNumber hc).bind fun k => ?_
  refine follows_ite (fun _ => ?_) fun _ => follows_pure _
  exact (follows_throw _).bind fun _ => follows_pure _

theorem follows_checkMultiple (hc : K.Contexts c d) :
    K.Follows (checkMultiple c) (checkMultiple d) := by
  refine (follows_popKeyCount hc).bind fun keyCount => ?_
  refine (follows_popItems keyCount).bind fun keys => ?_
  refine (follows_popSignatureCount hc keyCount).bind fun signatureCount => ?_
  refine (follows_popItems signatureCount).bind fun items => ?_
  refine (follows_onStack_self Lifts.pop).bind fun dummy => ?_
  have hrest : K.Follows (do matchKeys c (← scriptCode c) items keys)
      (do matchKeys d (← scriptCode d) items keys) :=
    (follows_scriptCode hc).bind fun code => follows_matchKeys hc code items keys
  cases hd : d.flags.nullDummy with
  | true =>
    rw [hc.flags.sub.nullDummy hd]
    exact follows_ite (fun _ => (follows_throw _).bind fun _ => hrest) fun _ => hrest
  | false =>
    -- The second machine never refuses the extra item, the first may.
    cases hcn : c.flags.nullDummy with
    | false => exact follows_ite (fun _ => (follows_throw _).bind fun _ => hrest) fun _ => hrest
    | true =>
      have hx : ¬ K.exact := fun he => by
        rw [hc.flags_eq he, hcn] at hd
        cases hd
      cases dummy.isEmpty with
      | true => exact hrest
      | false => exact fun _ _ _ he => absurd he hx

/-! ## Lock times -/

theorem follows_upgradableNop (hc : K.Contexts c d) (op : Opcode) :
    K.Follows (upgradableNop c op) (upgradableNop d op) := by
  unfold upgradableNop
  cases hd : d.flags.discourageUpgradableNops with
  | true =>
    rw [hc.flags.sub.discourageUpgradableNops hd]
    exact follows_throw _
  | false =>
    cases hcn : c.flags.discourageUpgradableNops with
    | false => exact follows_pure ()
    | true =>
      refine follows_of_throw (fun he => ?_) _ _
      rw [hc.flags_eq he, hcn] at hd
      cases hd

theorem follows_peekLock (hc : K.Contexts c d) : K.Follows (peekLock c) (peekLock d) := by
  refine (follows_onStack (Lifts.peekNumber hc.flags.sub.minimalData _) ?_).bind fun n => ?_
  · intro he
    rw [hc.flags_eq he]
  refine follows_ite (fun _ => ?_) fun _ => follows_pure n
  exact (follows_throw _).bind fun _ => follows_pure n

/-- An action of the first machine alone keeps the machines in correspondence. -/
def Passes (K : Coupling σ τ) (x : MachineM σ α) : Prop :=
  ∀ m n a m', K.Holds m n → x m = .ok a m' → K.Holds m' n

theorem Passes.bind {β : Type} {x : MachineM σ α} {f : α → MachineM σ β} (h : K.Passes x)
    (hf : ∀ a, K.Passes (f a)) : K.Passes (x >>= f) := by
  intro m n b m'' hk hb
  simp only [Bind.bind, EStateM.bind] at hb
  cases hx : x m with
  | error e m' => rw [hx] at hb; cases hb
  | ok a m' =>
    rw [hx] at hb
    exact hf a m' n b m'' (h m n a m' hk hx) hb

theorem passes_pure (a : α) : K.Passes (pure a) := by
  intro m n b m' hk h
  cases h
  exact hk

theorem passes_throw (e : ScriptError) : K.Passes (throw e : MachineM σ α) := by
  intro m n b m' hk h
  cases h

theorem passes_ite {p : Prop} [Decidable p] {x y : MachineM σ α} (h : K.Passes x)
    (h' : K.Passes y) : K.Passes (if p then x else y) := by
  by_cases hp : p
  · rw [if_pos hp]
    exact h
  · rw [if_neg hp]
    exact h'

/-- Reading the lock leaves the machine as it is. -/
theorem passes_peekLock : K.Passes (peekLock c) := by
  refine Passes.bind ?_ fun n => ?_
  · intro m n a m' hk h
    have hm : m' = m := by
      unfold onStack at h
      cases hs : peekNumber c.flags.minimalData Number.lockTimeSize m.stack with
      | error e s => rw [hs] at h; cases h
      | ok k s =>
        rw [hs] at h
        cases h
        rw [(peekNumber_ok hs).1]
    rw [hm]
    exact hk
  · exact passes_ite ((passes_throw _).bind fun _ => passes_pure n) (passes_pure n)

/-- A lock that the first machine alone checks changes nothing but the state of its checker. -/
theorem passes_askLockTime (hc : K.Contexts c d)
    (hne : d.flags.checkLockTime ≠ c.flags.checkLockTime) (k : Int) :
    K.Passes (askLockTime c.checker k) := by
  intro m n a m' hk h
  cases h
  exact { hk with checker := hc.lockTime_alone hne k _ _ hk.checker }

theorem passes_askSequence (hc : K.Contexts c d)
    (hne : d.flags.checkSequence ≠ c.flags.checkSequence) (k : Int) :
    K.Passes (askSequence c.checker k) := by
  intro m n a m' hk h
  cases h
  exact { hk with checker := hc.sequence_alone hne k _ _ hk.checker }

theorem follows_of_passes {x : MachineM σ Unit} (hx : ¬ K.exact) (h : K.Passes x) :
    K.Follows x (pure ()) := by
  intro m n hk
  rcases hm : x m with ⟨a, m'⟩ | ⟨e, m'⟩
  · exact .ok a (h m n a m' hk hm)
  · exact fun he => absurd he hx

/-- What the first machine alone checks is followed by an opcode that does nothing and is not
    refused. -/
theorem follows_upgradableNop_of_passes (hc : K.Contexts c d) (hne : d.flags ≠ c.flags)
    (hnop : d.flags.discourageUpgradableNops = false) {x : MachineM σ Unit} (h : K.Passes x)
    (op : Opcode) : K.Follows x (upgradableNop d op) := by
  have hnothing : upgradableNop d op = (pure () : MachineM τ Unit) := by
    unfold upgradableNop
    rw [hnop]
    rfl
  rw [hnothing]
  exact follows_of_passes (fun he => hne (hc.flags_eq he)) h

theorem follows_checkLockTimeVerify (hc : K.Contexts c d) (op : Opcode) :
    K.Follows (checkLockTimeVerify c op) (checkLockTimeVerify d op) := by
  unfold checkLockTimeVerify
  cases hd : d.flags.checkLockTime with
  | true =>
    rw [hc.flags.sub.checkLockTime hd]
    refine (follows_peekLock hc).bind fun k => (follows_askLockTime hc k).bind fun reached => ?_
    exact follows_ite (fun _ => follows_throw _) fun _ => follows_pure ()
  | false =>
    cases hcl : c.flags.checkLockTime with
    | false => exact follows_upgradableNop hc op
    | true =>
      -- Only the first machine checks the lock; for the second the opcode does nothing.
      have hne : d.flags.checkLockTime ≠ c.flags.checkLockTime := by
        rw [hd, hcl]
        decide
      have hnop : d.flags.discourageUpgradableNops = false :=
        hc.flags.locks.resolve_right fun h => hne h.1
      refine follows_upgradableNop_of_passes hc (fun h => hne (by rw [h])) hnop ?_ op
      refine passes_peekLock.bind fun k => (passes_askLockTime hc hne k).bind fun reached => ?_
      exact passes_ite (passes_throw _) (passes_pure ())

theorem follows_checkSequenceVerify (hc : K.Contexts c d) (op : Opcode) :
    K.Follows (checkSequenceVerify c op) (checkSequenceVerify d op) := by
  unfold checkSequenceVerify
  cases hd : d.flags.checkSequence with
  | true =>
    rw [hc.flags.sub.checkSequence hd]
    refine (follows_peekLock hc).bind fun k => follows_ite (fun _ => ?_) fun _ => follows_pure ()
    refine (follows_askSequence hc k).bind fun reached => ?_
    exact follows_ite (fun _ => follows_throw _) fun _ => follows_pure ()
  | false =>
    cases hcl : c.flags.checkSequence with
    | false => exact follows_upgradableNop hc op
    | true =>
      have hne : d.flags.checkSequence ≠ c.flags.checkSequence := by
        rw [hd, hcl]
        decide
      have hnop : d.flags.discourageUpgradableNops = false :=
        hc.flags.locks.resolve_right fun h => hne h.2
      refine follows_upgradableNop_of_passes hc (fun h => hne (by rw [h])) hnop ?_ op
      refine passes_peekLock.bind fun k => passes_ite ?_ (passes_pure ())
      refine (passes_askSequence hc hne k).bind fun reached => ?_
      exact passes_ite (passes_throw _) (passes_pure ())

/-! ## Instructions -/

theorem follows_require (op : Opcode) (b : Bool) :
    K.Follows (SpendScript.require op b) (SpendScript.require op b) :=
  follows_ite (fun _ => follows_pure ()) fun _ => follows_throw _

theorem follows_deliver (op : Opcode) (verify b : Bool) :
    K.Follows (deliver op verify b) (deliver op verify b) :=
  follows_ite (fun _ => follows_require op b) fun _ => follows_onStack_self (Lifts.push _)

theorem follows_popPair (hc : K.Contexts c d) :
    K.Follows (popPair c.flags.minimalData) (popPair d.flags.minimalData) :=
  (follows_popNumber hc).bind fun b => (follows_popNumber hc).bind fun a => follows_pure (a, b)

/-- The depth of the stack is the same where nothing lies below it. -/
theorem follows_depth (hb : K.below = []) :
    K.Follows (do let m ← get; onStack (pushLength m.stack.length))
      (do let m ← get; onStack (pushLength m.stack.length)) := by
  intro m n hk
  have hs : n.stack = m.stack := by rw [hk.stack, hb, List.append_nil]
  change Matches K.Holds K.exact (onStack (pushLength m.stack.length) m)
    (onStack (pushLength n.stack.length) n)
  rw [hs]
  exact follows_onStack_self (Lifts.push (Number.encode (Number.wrap m.stack.length))) m n hk

/-- Both machines open a conditional on the same item, or none where instructions do not run. -/
theorem follows_openBranch (hb : K.branches = Eq) (negated : Bool) :
    K.Follows (openBranch negated) (openBranch negated) := by
  have hpush (b : Branch) : K.Follows (σ := σ) (τ := τ)
      (modify fun m => { m with branches := b :: m.branches })
      (modify fun m => { m with branches := b :: m.branches }) := by
    refine follows_modify fun m n hk => ?_
    refine { hk with branches := ?_ }
    have hbr := hk.branches
    rw [hb] at hbr ⊢
    rw [hbr]
  refine (follows_executing fun b b' h => ?_).bind fun runs => follows_ite (fun _ => ?_) fun _ => ?_
  · rw [hb] at h
    rw [h]
  · exact (follows_onStack_self Lifts.popTruth).bind fun b => hpush _
  · exact hpush _

theorem follows_changeBranch (hb : K.branches = Eq) (op : Opcode)
    (f : Branches → Option Branches) : K.Follows (changeBranch op f) (changeBranch op f) := by
  intro m n hk
  have hbr : m.branches = n.branches := by
    have h := hk.branches
    rw [hb] at h
    exact h
  unfold changeBranch
  rw [← hbr]
  rcases f m.branches with _ | bs
  · exact .error _ hk
  · refine .ok () { hk with branches := ?_ }
    rw [hb]

/-- Coupled machines perform an instruction alike. -/
theorem follows_perform (hc : K.Contexts c d) (offset : Nat) (i : Instruction)
    (hb : i.isConditional = true → K.branches = Eq) (hd : i.operation = .depth → K.below = []) :
    K.Follows (i.perform c offset) (i.perform d offset) := by
  unfold Instruction.isConditional at hb
  unfold Instruction.perform
  dsimp only
  cases hi : i.operation with
  | pushBytes => exact follows_onStack_self (Lifts.push _)
  | pushNum k => exact follows_onStack_self (Lifts.push _)
  | nop => exact follows_pure ()
  | openIf negated => exact follows_openBranch (hb (by rw [hi]; rfl)) negated
  | elseBranch => exact follows_changeBranch (hb (by rw [hi]; rfl)) _ _
  | endIf => exact follows_changeBranch (hb (by rw [hi]; rfl)) _ _
  | verify => exact (follows_onStack_self Lifts.popTruth).bind fun b => follows_require _ b
  | returnEarly => exact follows_throw _
  | toAltStack => exact (follows_onStack_self Lifts.pop).bind fun x => follows_onAlt (push x)
  | fromAltStack => exact (follows_onAlt pop).bind fun x => follows_onStack_self (Lifts.push x)
  | drop k => exact follows_onStack_self (Lifts.drop k)
  | dup k => exact follows_onStack_self (Lifts.dup k)
  | copyOver k => exact follows_onStack_self (Lifts.copyOver k)
  | rot k => exact follows_onStack_self (Lifts.rot k)
  | swap k => exact follows_onStack_self (Lifts.swap k)
  | ifDup =>
    refine (follows_onStack_self Lifts.peekTruth).bind fun b => ?_
    refine follows_ite (fun _ => ?_) fun _ => ?_
    · exact follows_onStack_self (Lifts.dup 1)
    · exact follows_pure ()
  | depth => exact follows_depth (hd hi)
  | nip => exact (follows_onStack_self (Lifts.nip 1)).bind fun _ => follows_pure ()
  | pick => exact (follows_popNumber hc).bind fun k => follows_onStack_self (Lifts.pick _)
  | roll => exact (follows_popNumber hc).bind fun k => follows_onStack_self (Lifts.roll _)
  | tuck => exact follows_onStack_self Lifts.tuck
  | size =>
    exact (follows_onStack_self (Lifts.peek 0)).bind fun x => follows_onStack_self (Lifts.push _)
  | equal =>
    refine (follows_onStack_self Lifts.pop).bind fun x => ?_
    exact (follows_onStack_self Lifts.pop).bind fun y => follows_onStack_self (Lifts.push _)
  | equalVerify =>
    refine (follows_onStack_self Lifts.pop).bind fun x => ?_
    exact (follows_onStack_self Lifts.pop).bind fun y => follows_require _ _
  | unary f =>
    refine (follows_popNumber hc).bind fun a => (follows_ofNumber _).bind fun k => ?_
    exact follows_onStack_self (Lifts.push _)
  | binary f =>
    refine (follows_popPair hc).bind fun p => (follows_ofNumber _).bind fun k => ?_
    exact follows_onStack_self (Lifts.push _)
  | numEqualVerify => exact (follows_popPair hc).bind fun p => follows_require _ _
  | within =>
    refine (follows_popPair hc).bind fun p => (follows_popNumber hc).bind fun x => ?_
    exact follows_onStack_self (Lifts.push _)
  | hash f =>
    exact (follows_onStack_self Lifts.pop).bind fun x => follows_onStack_self (Lifts.push _)
  | codeSeparator => exact follows_modify fun m n hk => { hk with codeStart := rfl }
  | checkSig verify => exact (follows_checkSingle hc).bind fun b => follows_deliver _ verify b
  | checkMultiSig verify =>
    exact (follows_checkMultiple hc).bind fun b => follows_deliver _ verify b
  | checkLockTimeVerify => exact follows_checkLockTimeVerify hc _
  | checkSequenceVerify => exact follows_checkSequenceVerify hc _
  | upgradableNop => exact follows_upgradableNop hc _
  | disabled => exact follows_throw _
  | alwaysIllegal => exact follows_throw _
  | reserved => exact follows_throw _
  | invalid => exact follows_throw _

theorem follows_checkLimits (i : Instruction) : K.Follows i.checkLimits i.checkLimits :=
  follows_ite
    (fun _ => follows_ite (fun _ => follows_throw _) fun _ => follows_pure ())
    fun _ => follows_countOperations 1

theorem follows_checkMinimal (hc : K.Contexts c d) (i : Instruction) :
    K.Follows (i.checkMinimal c) (i.checkMinimal d) := by
  have hpush : K.Follows (MonadExcept.ofExcept i.checkMinimalPush)
      (MonadExcept.ofExcept i.checkMinimalPush) := by
    cases i.checkMinimalPush with
    | ok u => exact follows_pure u
    | error e => exact follows_throw e
  unfold Instruction.checkMinimal
  cases hd : d.flags.minimalData with
  | true =>
    rw [hc.flags.sub.minimalData hd]
    exact follows_ite (fun _ => hpush) fun _ => follows_pure ()
  | false =>
    by_cases he : K.exact
    · rw [← hc.flags_eq he, hd]
      exact follows_pure ()
    · refine follows_of_passes he ?_
      refine passes_ite ?_ (passes_pure ())
      cases i.checkMinimalPush with
      | ok u => exact passes_pure u
      | error e => exact passes_throw e

theorem follows_execute (hc : K.Contexts c d) (offset : Nat) (i : Instruction)
    (hx : ∀ b b', K.branches b b' → b'.executing = b.executing)
    (hb : i.isConditional = true → K.branches = Eq) (hd : i.operation = .depth → K.below = []) :
    K.Follows (i.execute c offset) (i.execute d offset) := by
  have hperform := follows_perform hc offset i hb hd
  have hlimits : K.Follows
      (do
        i.checkLimits
        if ← executing then
          i.checkMinimal c
          i.perform c offset
        else if i.isConditional then i.perform c offset)
      (do
        i.checkLimits
        if ← executing then
          i.checkMinimal d
          i.perform d offset
        else if i.isConditional then i.perform d offset) := by
    refine (follows_checkLimits i).bind fun _ => (follows_executing hx).bind fun runs => ?_
    refine follows_ite (fun _ => ?_) fun _ => ?_
    · exact (follows_checkMinimal hc i).bind fun _ => hperform
    · exact follows_ite (fun _ => hperform) fun _ => follows_pure ()
  unfold Instruction.execute
  refine follows_ite (fun _ => (follows_throw _).bind fun _ => ?_) fun _ => ?_
  all_goals
    exact follows_ite (fun _ => (follows_throw _).bind fun _ => hlimits) fun _ => hlimits

theorem follows_checkDepth (hbelow : K.below = []) : K.Follows checkDepth checkDepth := by
  intro m n hk
  have hs : n.stack = m.stack := by rw [hk.stack, hbelow, List.append_nil]
  unfold checkDepth
  rw [hs, hk.alt]
  exact .ite (fun _ => .error _ hk) fun _ => .ok () hk

/-- Coupled machines step alike, unless the instruction moves between branches and the open
    conditionals differ. -/
theorem follows_step (hc : K.Contexts c d) (hbelow : K.below = [])
    (hx : ∀ b b', K.branches b b' → b'.executing = b.executing) (offset : Nat) (i : Instruction)
    (hb : i.isConditional = true → K.branches = Eq) :
    K.Follows (i.step c offset) (i.step d offset) :=
  (follows_execute hc offset i hx hb fun _ => hbelow).bind fun _ => follows_checkDepth hbelow

end Coupling

end SpendScript

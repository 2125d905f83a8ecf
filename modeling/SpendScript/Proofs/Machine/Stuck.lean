/-
  When an instruction that has failed fails for ever. A failed instruction can be taken up again on the
  machine that it left. It is stuck there if it fails, and fails again on whatever it then leaves
  (`Instruction.Stuck`). Four things keep it stuck: it is refused before it is performed
  (`stuck_of_refused`), it fails without a change of the stacks (`stuck_of_repeats`), it takes its
  operands from a stack that is empty (`stuck_of_empty`), or it adds to stacks that hold too many items
  already (`stuck_of_grows`). What is left are operations that fail on operands which they have taken
  off (`Operation.takesOperands`): they find others when they are taken up again.
-/
import SpendScript.Proofs.Machine.Failure
import SpendScript.Proofs.Opcode

namespace SpendScript

variable {σ α β : Type} {ctx : Context σ} {offset : Nat} {i : Instruction} {m m' n : Machine σ}
  {err : ScriptError}

/-- The operations that take operands off the stack before they can refuse them. -/
def Operation.takesOperands : Operation → Bool
  | verify | pick | roll | equal | equalVerify | unary _ | binary _ | numEqualVerify | within
  | checkSig _ | checkMultiSig _ => true
  | _ => false

/-- What the checker answers about locks does not depend on what it has been asked. -/
def Checker.LocksFixed (c : Checker σ) : Prop :=
  ∀ k s s', (c.checkLockTime k s).1 = (c.checkLockTime k s').1 ∧
    (c.checkSequence k s).1 = (c.checkSequence k s').1

/-! ## Failures that repeat -/

/-- The stacks and the open conditionals are the same. -/
structure Machine.Alike (m n : Machine σ) : Prop where
  stack : n.stack = m.stack
  alt : n.alt = m.alt
  branches : n.branches = m.branches

theorem Machine.Alike.refl (m : Machine σ) : m.Alike m := ⟨rfl, rfl, rfl⟩

theorem Machine.Alike.symm {m n : Machine σ} (h : m.Alike n) : n.Alike m :=
  ⟨h.stack.symm, h.alt.symm, h.branches.symm⟩

theorem Machine.Alike.trans {m n o : Machine σ} (h : m.Alike n) (h' : n.Alike o) : m.Alike o :=
  ⟨h'.stack.trans h.stack, h'.alt.trans h.alt, h'.branches.trans h.branches⟩

/-- Where the action fails on a machine with an error that satisfies `P`, it fails on every one like
    it, and leaves the stacks and the open conditionals as they are. -/
def Repeats (P : ScriptError → Prop) (x : MachineM σ α) : Prop :=
  ∀ m n err m', m.Alike n → P err → x m = .error err m' →
    ∃ err' n', x n = .error err' n' ∧ m.Alike n'

/-- On machines that are alike the action gives the same answer or fails, and leaves the stacks and
    the open conditionals as they are. -/
def Reads (x : MachineM σ α) : Prop :=
  ∀ m n, m.Alike n →
    (∃ a m' n', x m = .ok a m' ∧ x n = .ok a n' ∧ m.Alike m' ∧ m.Alike n') ∨
      ∃ err n', x n = .error err n' ∧ m.Alike n'

/-- The action succeeds on every machine. -/
def Succeeds (x : MachineM σ α) : Prop := ∀ m, ∃ a m', x m = .ok a m'

/-- A stack operation that changes nothing where it fails. -/
def Spares (f : StackM α) : Prop := ∀ s e s', f s = .error e s' → s' = s

section Repeats

variable {P : ScriptError → Prop}

open MachineM StackM

theorem reads_pure (a : α) : Reads (pure a : MachineM σ α) :=
  fun m n hk => Or.inl ⟨a, m, n, rfl, rfl, .refl m, hk⟩

theorem reads_throw (e : ScriptError) : Reads (throw e : MachineM σ α) :=
  fun _ n hk => Or.inr ⟨e, n, rfl, hk⟩

theorem reads_ite {p : Prop} [Decidable p] {x y : MachineM σ α} (h : Reads x) (h' : Reads y) :
    Reads (if p then x else y) := by
  by_cases hp : p
  · rw [if_pos hp]
    exact h
  · rw [if_neg hp]
    exact h'

theorem Reads.bind {x : MachineM σ α} {f : α → MachineM σ β} (h : Reads x)
    (hf : ∀ a, Reads (f a)) : Reads (x >>= f) := by
  intro m n hk
  rcases h m n hk with ⟨a, m₁, n₁, hm, hn, hm₁, hn₁⟩ | ⟨err, n₁, hn, hn₁⟩
  · rw [bind_eq_of_ok hm, bind_eq_of_ok hn]
    have hk₁ : m₁.Alike n₁ := hm₁.symm.trans hn₁
    rcases hf a m₁ n₁ hk₁ with ⟨b, m₂, n₂, hm', hn', hm₂, hn₂⟩ | ⟨err, n₂, hn', hn₂⟩
    · exact Or.inl ⟨b, m₂, n₂, hm', hn', hm₁.trans hm₂, hm₁.trans hn₂⟩
    · exact Or.inr ⟨err, n₂, hn', hm₁.trans hn₂⟩
  · exact Or.inr ⟨err, n₁, bind_eq_of_error hn, hn₁⟩

/-- A stack operation that changes nothing. -/
theorem reads_onStack {f : StackM α} (hf : ∀ s, stateOf (f s) = s) :
    Reads (onStack f : MachineM σ α) := by
  intro m n hk
  have hs := hf m.stack
  unfold onStack
  rw [hk.stack]
  generalize f m.stack = r at hs ⊢
  rcases r with ⟨a, s⟩ | ⟨e, s⟩
  · obtain rfl : s = m.stack := hs
    exact Or.inl ⟨a, _, _, rfl, rfl, .refl m, rfl, hk.alt, hk.branches⟩
  · obtain rfl : s = m.stack := hs
    exact Or.inr ⟨_, _, rfl, rfl, hk.alt, hk.branches⟩

theorem reads_executing : Reads (executing : MachineM σ Bool) := by
  intro m n hk
  refine Or.inl ⟨m.branches.executing, m, n, rfl, ?_, .refl m, hk⟩
  unfold executing
  rw [hk.branches]

theorem Succeeds.repeats {x : MachineM σ α} (h : Succeeds x) : Repeats P x := by
  intro m n err m' _ _ hx
  obtain ⟨a, m₁, hok⟩ := h m
  rw [hok] at hx
  cases hx

theorem repeats_throw (e : ScriptError) : Repeats P (throw e : MachineM σ α) :=
  fun _ n _ _ hk _ _ => ⟨e, n, rfl, hk⟩

theorem repeats_ite {p : Prop} [Decidable p] {x y : MachineM σ α} (h : Repeats P x)
    (h' : Repeats P y) : Repeats P (if p then x else y) := by
  by_cases hp : p
  · rw [if_pos hp]
    exact h
  · rw [if_neg hp]
    exact h'

/-- What comes after cannot fail. -/
theorem Repeats.bind {x : MachineM σ α} {f : α → MachineM σ β} (h : Repeats P x)
    (hf : ∀ a, Succeeds (f a)) : Repeats P (x >>= f) := by
  intro m n err m' hk he hx
  rcases bind_error.1 hx with hm | ⟨a, m₁, -, hrest⟩
  · obtain ⟨err', n', hn, hk'⟩ := h m n err m' hk he hm
    exact ⟨err', n', bind_eq_of_error hn, hk'⟩
  · obtain ⟨b, m₂, hok⟩ := hf a m₁
    rw [hok] at hrest
    cases hrest

/-- What comes before changes nothing. -/
theorem Reads.repeats {x : MachineM σ α} {f : α → MachineM σ β} (h : Reads x)
    (hf : ∀ a, Repeats P (f a)) : Repeats P (x >>= f) := by
  intro m n err m' hk he hx
  rcases h m n hk with ⟨a, m₁, n₁, hm, hn, hm₁, hn₁⟩ | ⟨err', n₁, hn, hn₁⟩
  · rw [bind_eq_of_ok hm] at hx
    obtain ⟨err', n', hn', hk'⟩ := hf a m₁ n₁ err m' (hm₁.symm.trans hn₁) he hx
    exact ⟨err', n', (bind_eq_of_ok hn).trans hn', hm₁.trans hk'⟩
  · exact ⟨err', n₁, bind_eq_of_error hn, hn₁⟩

/-! ## The parts of a machine -/

theorem repeats_onStack {f : StackM α} (hf : Spares f) : Repeats P (onStack f : MachineM σ α) := by
  intro m n err m' hk _ hx
  obtain ⟨e, s, he, -, -⟩ := exists_of_onStack_error hx
  obtain rfl : s = m.stack := hf m.stack e s he
  unfold onStack
  rw [hk.stack, he]
  exact ⟨_, _, rfl, rfl, hk.alt, hk.branches⟩

theorem repeats_onAlt {f : StackM α} (hf : Spares f) : Repeats P (onAlt f : MachineM σ α) := by
  intro m n err m' hk _ hx
  obtain ⟨e, s, he, -, -⟩ := exists_of_onAlt_error hx
  obtain rfl : s = m.alt := hf m.alt e s he
  unfold onAlt
  rw [hk.alt, he]
  exact ⟨_, _, rfl, hk.stack, rfl, hk.branches⟩

theorem succeeds_push (x : Bytes) : Succeeds (onStack (push x) : MachineM σ Unit) :=
  fun _ => ⟨(), _, rfl⟩

theorem spares_pop : Spares pop := by
  intro s e s' h
  rcases s with _ | ⟨x, s⟩ <;> cases h
  rfl

theorem spares_popTruth : Spares popTruth := by
  intro s e s' h
  rcases s with _ | ⟨x, s⟩ <;> cases h
  rfl

theorem spares_rearrange (n : Nat) (f : Stack → Stack) : Spares (rearrange n f) := by
  intro s e s' h
  rcases bind_error.1 h with hrequire | ⟨_, s₁, -, hrest⟩
  · unfold StackM.require at hrequire
    split at hrequire <;> cases hrequire
    rfl
  · cases hrest

theorem spares_nip (i : UInt64) : Spares (nip i) := by
  intro s e s' h
  rcases bind_error.1 h with hitem | ⟨x, s₁, -, hrest⟩
  · have hs := stateOf_item i s
    rw [hitem] at hs
    exact hs
  · cases hrest

theorem stateOf_peekTruth (s : Stack) : stateOf (peekTruth s) = s := by
  rcases stateOf_bind (peek 0) (fun x => pure (truth x)) s with hs | ⟨_, -, hs⟩
  · exact hs.trans (stateOf_peek 0 s)
  · exact hs.trans (stateOf_peek 0 s)

theorem stateOf_peekNumber (minimal : Bool) (max : Nat) (s : Stack) :
    stateOf (peekNumber minimal max s) = s := by
  have hread (x : Bytes) (s : Stack) : stateOf (readNumber minimal max x s) = s := by
    unfold readNumber
    cases Number.decode x minimal max <;> rfl
  rcases stateOf_bind (peek 0) (readNumber minimal max) s with hs | ⟨x, -, hs⟩
  · exact hs.trans (stateOf_peek 0 s)
  · exact hs.trans ((hread x _).trans (stateOf_peek 0 s))

/-! ## Locks -/

theorem reads_peekLock : Reads (peekLock ctx) := by
  refine (reads_onStack (stateOf_peekNumber _ _)).bind fun n => ?_
  exact reads_ite ((reads_throw _).bind fun _ => reads_pure n) (reads_pure n)

theorem repeats_upgradableNop (op : Opcode) : Repeats P (upgradableNop ctx op) :=
  repeats_ite (repeats_throw _) (Succeeds.repeats fun m => ⟨(), m, rfl⟩)

/-- A lock that has not been reached is not reached later if the answers are fixed. -/
theorem repeats_unsatisfied {ask : MachineM σ Bool} (hask : Succeeds ask)
    (hfixed : P .unsatisfiedLockTime → Reads ask) :
    Repeats P (do if !(← ask) then throw .unsatisfiedLockTime : MachineM σ Unit) := by
  by_cases hP : P .unsatisfiedLockTime
  · exact (hfixed hP).repeats fun b =>
      repeats_ite (repeats_throw _) (Succeeds.repeats fun m => ⟨(), m, rfl⟩)
  · intro m n err m' hk he hx
    obtain ⟨b, m₁, hok⟩ := hask m
    rw [bind_eq_of_ok hok] at hx
    cases b with
    | true => cases hx
    | false =>
      cases hx
      exact absurd he hP

variable (hlocks : P .unsatisfiedLockTime → ctx.checker.LocksFixed)

include hlocks

theorem repeats_checkLockTimeVerify (op : Opcode) : Repeats P (checkLockTimeVerify ctx op) := by
  refine repeats_ite (repeats_upgradableNop op) (reads_peekLock.repeats fun k => ?_)
  refine repeats_unsatisfied (fun _ => ⟨_, _, rfl⟩) fun hP m n hk => Or.inl ?_
  have hanswer := (hlocks hP k n.checker m.checker).1
  refine ⟨_, _, _, rfl, congrArg (EStateM.Result.ok · _) hanswer, ⟨rfl, rfl, rfl⟩, ?_⟩
  exact ⟨hk.stack, hk.alt, hk.branches⟩

theorem repeats_checkSequenceVerify (op : Opcode) : Repeats P (checkSequenceVerify ctx op) := by
  refine repeats_ite (repeats_upgradableNop op) (reads_peekLock.repeats fun k => ?_)
  refine repeats_ite ?_ (Succeeds.repeats fun m => ⟨(), m, rfl⟩)
  refine repeats_unsatisfied (fun _ => ⟨_, _, rfl⟩) fun hP m n hk => Or.inl ?_
  have hanswer := (hlocks hP k n.checker m.checker).2
  refine ⟨_, _, _, rfl, congrArg (EStateM.Result.ok · _) hanswer, ⟨rfl, rfl, rfl⟩, ?_⟩
  exact ⟨hk.stack, hk.alt, hk.branches⟩

omit hlocks

/-! ## Instructions -/

theorem repeats_openBranch (negated : Bool) :
    Repeats P (openBranch negated : MachineM σ Unit) := by
  have hpush (b : Branch) : Succeeds
      (modify fun m => { m with branches := b :: m.branches } : MachineM σ Unit) :=
    fun m => ⟨(), _, rfl⟩
  refine reads_executing.repeats fun b => repeats_ite ?_ (hpush _).repeats
  exact (repeats_onStack spares_popTruth).bind fun b => hpush _

theorem repeats_changeBranch (op : Opcode) (f : Branches → Option Branches) :
    Repeats P (changeBranch op f : MachineM σ Unit) := by
  intro m n err m' hk _ hx
  unfold changeBranch at hx ⊢
  rw [hk.branches]
  cases hf : f m.branches with
  | some bs =>
    rw [hf] at hx
    cases hx
  | none => exact ⟨_, n, rfl, hk⟩

include hlocks

/-- Whatever takes no operands off fails again on what it leaves. -/
theorem Instruction.repeats_perform (hi : i.operation.takesOperands = false) :
    Repeats P (i.perform ctx offset) := by
  unfold perform
  dsimp only
  cases hop : i.operation with
  | verify | pick | roll | equal | equalVerify | unary | binary | numEqualVerify | within | checkSig
  | checkMultiSig =>
    rw [hop] at hi
    cases hi
  | pushBytes | pushNum => exact (succeeds_push _).repeats
  | nop => exact Succeeds.repeats fun m => ⟨(), m, rfl⟩
  | openIf negated => exact repeats_openBranch negated
  | elseBranch | endIf => exact repeats_changeBranch _ _
  | toAltStack => exact (repeats_onStack spares_pop).bind fun x m => ⟨(), _, rfl⟩
  | fromAltStack => exact (repeats_onAlt spares_pop).bind fun x => succeeds_push x
  | drop | dup | copyOver | rot | swap | tuck => exact repeats_onStack (spares_rearrange _ _)
  | ifDup =>
    refine (reads_onStack stateOf_peekTruth).repeats fun b => ?_
    exact repeats_ite (repeats_onStack (spares_rearrange _ _)) (Succeeds.repeats fun m => ⟨(), m, rfl⟩)
  | depth => exact Succeeds.repeats fun m => ⟨(), _, rfl⟩
  | nip => exact (repeats_onStack (spares_nip 1)).bind fun x m => ⟨(), m, rfl⟩
  | size => exact (reads_onStack (stateOf_peek 0)).repeats fun x => (succeeds_push _).repeats
  | hash f => exact (repeats_onStack spares_pop).bind fun x => succeeds_push _
  | codeSeparator => exact Succeeds.repeats fun m => ⟨(), _, rfl⟩
  | checkLockTimeVerify => exact repeats_checkLockTimeVerify hlocks _
  | checkSequenceVerify => exact repeats_checkSequenceVerify hlocks _
  | upgradableNop => exact repeats_upgradableNop _
  | returnEarly | disabled | alwaysIllegal | reserved | invalid => exact repeats_throw _

end Repeats

/-! ## Instructions that are stuck -/

namespace Instruction

/-- The instruction fails on the machine, and fails again on whatever it then leaves. -/
def Stuck (ctx : Context σ) (offset : Nat) (i : Instruction) (m : Machine σ) : Prop :=
  ∃ J : Machine σ → Prop, J m ∧
    ∀ n, J n → ∃ err n', i.step ctx offset n = .error err n' ∧ J n'

theorem Stuck.step (h : i.Stuck ctx offset m) :
    ∃ err m', i.step ctx offset m = .error err m' ∧ i.Stuck ctx offset m' := by
  obtain ⟨J, hm, hJ⟩ := h
  obtain ⟨err, m', hstep, hm'⟩ := hJ m hm
  exact ⟨err, m', hstep, J, hm', hJ⟩

/-- A step fails when the instruction fails, or when it leaves too many items. -/
theorem step_error_cases (h : i.step ctx offset m = .error err m') :
    i.execute ctx offset m = .error err m' ∨
      i.execute ctx offset m = .ok () m' ∧ Limit.stackItems < m'.items := by
  unfold Instruction.step at h
  rcases hx : i.execute ctx offset m with ⟨_, m₁⟩ | ⟨e, m₁⟩
  · rw [bind_eq_of_ok hx] at h
    unfold checkDepth at h
    dsimp only at h
    split at h
    · next hitems =>
      cases h
      exact Or.inr ⟨rfl, hitems⟩
    · cases h
  · rw [bind_eq_of_error hx] at h
    cases h
    exact Or.inl rfl

theorem stuck_of_refused (h : i.Refused ctx m) : i.Stuck ctx offset m := by
  refine ⟨i.Refused ctx, h, fun n hn => ?_⟩
  obtain ⟨err, k, hx⟩ := execute_of_refused offset hn
  exact ⟨err, _, bind_eq_of_error hx, hn.mono rfl (Nat.le_add_right _ _)⟩

theorem alike_counted (m : Machine σ) : m.Alike (i.counted m) := by
  unfold counted
  split
  · exact .refl m
  · exact ⟨rfl, rfl, rfl⟩

/-- What fails without a change of the stacks is stuck on every machine like the first one. -/
theorem stuck_of_repeats {P : ScriptError → Prop} (hrepeats : Repeats P (i.perform ctx offset))
    (hx : m.branches.executing = true ∨ i.isConditional = true) (he : P err)
    (h : i.perform ctx offset (i.counted m) = .error err m') (hk : m.Alike n) :
    i.Stuck ctx offset n := by
  refine ⟨m.Alike, hk, fun n hn => ?_⟩
  by_cases hrefused : i.Refused ctx n
  · obtain ⟨err', k, hexecute⟩ := execute_of_refused offset hrefused
    exact ⟨err', _, bind_eq_of_error hexecute, hn.trans ⟨rfl, rfl, rfl⟩⟩
  · have hexecute := execute_of_not_refused offset hrefused
    rw [hn.branches, if_pos hx] at hexecute
    have hcounted : (i.counted m).Alike (i.counted n) :=
      (alike_counted m).symm.trans (hn.trans (alike_counted n))
    obtain ⟨err', n', hperform, hn'⟩ := hrepeats _ _ err m' hcounted he h
    exact ⟨err', n', bind_eq_of_error (hexecute.trans hperform), (alike_counted m).trans hn'⟩

/-- There is nothing to take off an empty stack. -/
theorem perform_of_empty (hi : i.operation.takesOperands = true) (hs : m.stack = []) :
    i.perform ctx offset m = .error (.stack .empty) m := by
  obtain ⟨stack, alt, branches, opCount, codeStart, checker⟩ := m
  obtain rfl : stack = [] := hs
  unfold perform
  cases hop : i.operation with
  | verify | pick | roll | equal | equalVerify | unary | binary | numEqualVerify | within | checkSig
  | checkMultiSig => rfl
  | _ =>
    rw [hop] at hi
    cases hi

theorem stuck_of_empty (hi : i.operation.takesOperands = true) (hs : m.stack = [])
    (hx : m.branches.executing = true) : i.Stuck ctx offset m := by
  refine ⟨fun n => n.stack = [] ∧ n.branches.executing = true, ⟨hs, hx⟩, ?_⟩
  rintro n ⟨hs, hx⟩
  by_cases hrefused : i.Refused ctx n
  · obtain ⟨err, k, hexecute⟩ := execute_of_refused offset hrefused
    exact ⟨err, _, bind_eq_of_error hexecute, hs, hx⟩
  · have hk : n.Alike (i.counted n) := alike_counted n
    have hexecute := execute_of_not_refused offset hrefused
    rw [if_pos (Or.inl hx), perform_of_empty hi (hk.stack.trans hs)] at hexecute
    exact ⟨_, _, bind_eq_of_error hexecute, hk.stack.trans hs, hk.branches ▸ hx⟩

theorem stuck_of_grows (hi : i.operation.grows = true) (hm : Limit.stackItems < m.items) :
    i.Stuck ctx offset m := by
  refine ⟨fun n => Limit.stackItems < n.items, hm, fun n hn => ?_⟩
  have hle := items_le_execute hi ctx offset n
  rcases hx : i.execute ctx offset n with ⟨_, n'⟩ | ⟨err, n'⟩
  · rw [hx] at hle
    have hitems : Limit.stackItems < n'.items := Nat.lt_of_lt_of_le hn hle
    refine ⟨.stackOverflow n'.items, n', ?_, hitems⟩
    exact (bind_eq_of_ok hx).trans (if_pos hitems)
  · rw [hx] at hle
    exact ⟨err, n', bind_eq_of_error hx, Nat.lt_of_lt_of_le hn hle⟩

/-! ## After a failure -/

theorem not_isConditional_of_takesOperands (h : i.operation.takesOperands = true) :
    ¬ i.isConditional = true := by
  have hnot {op : Operation} (h : op.takesOperands = true) : op.isConditional = false := by
    cases op <;> first | exact absurd h Bool.false_ne_true | rfl
  exact Bool.eq_false_iff.1 (hnot h)

theorem not_isPush_of_takesOperands (h : i.operation.takesOperands = true) : ¬ i.isPush = true :=
  Opcode.not_isPush_of rfl (fun _ => rfl) rfl h

/-- **A failure that is final.** An instruction that fails where there are not too many items is stuck
    on what it leaves, unless it has taken operands off that others can take the place of: there it is
    stuck if it has counted too many operations or has found the stack empty. A lock that has not been
    reached asks that the answers on locks are fixed. -/
theorem stuck_of_step_error (h : i.step ctx offset m = .error err m')
    (hm : i.operation.grows = true ∨ m.items ≤ Limit.stackItems)
    (htakes : i.operation.takesOperands = true → err = .tooManyOperations ∨ err = .stack .empty)
    (hlocks : err = .unsatisfiedLockTime → ctx.checker.LocksFixed) : i.Stuck ctx offset m' := by
  rcases step_error_cases h with hexecute | ⟨hexecute, hitems⟩
  · by_cases hrefused : i.Refused ctx m
    · obtain ⟨err', k, hx⟩ := execute_of_refused offset hrefused
      rw [hx] at hexecute
      cases hexecute
      exact stuck_of_refused (hrefused.mono rfl (Nat.le_add_right _ _))
    · rw [execute_of_not_refused offset hrefused] at hexecute
      by_cases hx : m.branches.executing = true ∨ i.isConditional = true
      · rw [if_pos hx] at hexecute
        rcases hi : i.operation.takesOperands with _ | _
        · have hrepeats : Repeats (fun e => e = .unsatisfiedLockTime → ctx.checker.LocksFixed)
              (i.perform ctx offset) := repeats_perform (fun h => h rfl) hi
          obtain ⟨err', n', hn, hk⟩ := hrepeats _ _ err m' (.refl _) hlocks hexecute
          rw [hexecute] at hn
          cases hn
          exact stuck_of_repeats hrepeats hx hlocks hexecute ((alike_counted m).trans hk)
        · have hcond := not_isConditional_of_takesOperands hi
          have hexplained := explained_step m err m' h
          rcases htakes hi with rfl | rfl
          · have hcount := hexplained.operations rfl
            refine stuck_of_refused (Or.inr (Or.inl fun hwithin => ?_))
            have hle := (within_of_not_isPush (not_isPush_of_takesOperands hi)).1 hwithin
            omega
          · have hempty : m'.stack = [] := by
              refine hexplained.empty rfl fun hop => ?_
              rw [hop] at hi
              cases hi
            have hbranches : m'.branches = m.branches := by
              have hafter :=
                branches_of_perform (Bool.eq_false_iff.2 hcond) ctx offset (i.counted m)
              rw [hexecute, counted_branches] at hafter
              exact hafter.1
            exact stuck_of_empty hi hempty (hbranches ▸ hx.resolve_right hcond)
      · rw [if_neg hx] at hexecute
        cases hexecute
  · exact stuck_of_grows (hm.elim id fun hle => grows_of_overflow hexecute hle hitems) hitems

end Instruction

end SpendScript

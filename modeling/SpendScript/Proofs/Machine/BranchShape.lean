/-
  The shape of the open conditionals. From the outermost one inwards branches are taken, up to one
  that is not, and whatever is opened in there is skipped (`Branches.Shaped`). So the innermost
  conditional speaks for all of them (`Shaped.executing_iff`). Opening, turning and closing a
  conditional keep the shape (`Operation.shaped_of_move?`), and nothing but its own ENDIF touches what
  is skipped (`Operation.skipped_of_move?`). No other instruction changes the open conditionals, and
  one that fails does so only where it overflows the stacks (`Instruction.branches_step`,
  `Instruction.branches_of_step_error`).
-/
import SpendScript.Proofs.Machine.Conditionals
import SpendScript.Proofs.Machine.Stuck

namespace SpendScript

namespace Branches

/-- All branches are taken, or all up to one, and those opened in that one are skipped. The innermost
    conditional comes first. -/
inductive Shaped : Branches → Prop
  | taken (n : Nat) : Shaped (List.replicate n .taken)
  | untaken (k n : Nat) : Shaped (List.replicate k .skipped ++ .untaken :: List.replicate n .taken)

variable {bs bs' : Branches} {b : Branch}

theorem shaped_nil : Shaped [] := .taken 0

theorem executing_taken (n : Nat) : executing (List.replicate n .taken) = true := by
  cases n <;> rfl

theorem executing_untaken (k : Nat) (outer : Branches) :
    executing (List.replicate k .skipped ++ .untaken :: outer) = false := by
  cases k <;> rfl

/-- **The innermost conditional speaks for all.** -/
theorem Shaped.executing_iff (h : bs.Shaped) : bs.executing = true ↔ ∀ b ∈ bs, b = .taken := by
  cases h with
  | taken n =>
    exact iff_of_true (executing_taken n) fun b hb => List.eq_of_mem_replicate hb
  | untaken k n =>
    refine iff_of_false (Bool.eq_false_iff.1 (executing_untaken k _)) fun hall => ?_
    have hmem : Branch.untaken ∈ List.replicate k Branch.skipped ++ .untaken :: List.replicate n .taken :=
      List.mem_append_right _ List.mem_cons_self
    cases hall _ hmem

/-- Inside of what is skipped nothing runs. -/
theorem Shaped.not_executing {inner outer : Branches} (h : Shaped (inner ++ .skipped :: outer)) :
    executing (inner ++ .skipped :: outer) = false := by
  refine Bool.eq_false_iff.2 fun hx => ?_
  have hmem : Branch.skipped ∈ inner ++ .skipped :: outer :=
    List.mem_append_right _ List.mem_cons_self
  cases h.executing_iff.1 hx _ hmem

/-- A conditional that is skipped just where nothing runs may be opened. -/
theorem Shaped.opened (h : bs.Shaped) (hb : b = .skipped ↔ bs.executing = false) :
    Shaped (b :: bs) := by
  cases h with
  | taken n =>
    rw [executing_taken] at hb
    cases b with
    | taken => exact .taken (n + 1)
    | untaken => exact .untaken 0 n
    | skipped => cases hb.1 rfl
  | untaken k n =>
    obtain rfl := hb.2 (executing_untaken k _)
    exact .untaken (k + 1) n

/-- ELSE turns the innermost conditional, and leaves it if it is skipped. -/
theorem Shaped.toggled (h : bs.Shaped) (ht : bs.toggle? = some bs') : bs'.Shaped := by
  cases h with
  | taken n =>
    cases n with
    | zero => cases ht
    | succ n =>
      cases ht
      exact .untaken 0 n
  | untaken k n =>
    cases k with
    | zero =>
      cases ht
      exact .taken (n + 1)
    | succ k =>
      cases ht
      exact .untaken (k + 1) n

theorem Shaped.closed (h : bs.Shaped) (hc : bs.close? = some bs') : bs'.Shaped := by
  cases h with
  | taken n =>
    cases n with
    | zero => cases hc
    | succ n =>
      cases hc
      exact .taken n
  | untaken k n =>
    cases k with
    | zero =>
      cases hc
      exact .taken n
    | succ k =>
      cases hc
      exact .untaken k n

end Branches

/-! ## Moves between branches -/

namespace Operation

variable {op : Operation} {s s' : Stack} {bs bs' inner outer : Branches}

/-- **The shape is kept.** -/
theorem shaped_of_move? (hc : op.isConditional = true) (hs : bs.Shaped)
    (h : op.move? s bs = some (s', bs')) : bs'.Shaped := by
  rcases eq_of_isConditional hc with ⟨negated, rfl⟩ | rfl | rfl
  · obtain ⟨b, rfl, hb⟩ := exists_cons_of_move? h
    exact hs.opened hb
  · obtain ⟨bs', ht, heq⟩ := Option.map_eq_some_iff.1 h
    cases heq
    exact hs.toggled ht
  · obtain ⟨bs', hclose, heq⟩ := Option.map_eq_some_iff.1 h
    cases heq
    exact hs.closed hclose

/-- **What is skipped stays so**, with all around it, up to its own ENDIF. -/
theorem skipped_of_move? (hc : op.isConditional = true) (hend : op = endIf → inner ≠ [])
    (h : op.move? s (inner ++ .skipped :: outer) = some (s', bs')) :
    ∃ inner', bs' = inner' ++ .skipped :: outer := by
  rcases eq_of_isConditional hc with ⟨negated, rfl⟩ | rfl | rfl
  · obtain ⟨b, rfl, -⟩ := exists_cons_of_move? h
    exact ⟨b :: inner, rfl⟩
  · cases inner with
    | nil =>
      cases h
      exact ⟨[], rfl⟩
    | cons b inner =>
      cases h
      exact ⟨b.flip :: inner, rfl⟩
  · cases inner with
    | nil => exact absurd rfl (hend rfl)
    | cons b inner =>
      cases h
      exact ⟨inner, rfl⟩

end Operation

/-! ## Instructions -/

namespace Instruction

open MachineM

variable {σ : Type} {ctx : Context σ} {offset : Nat} {i : Instruction} {m m' : Machine σ}
  {err : ScriptError}

/-- The instruction moves between branches, and leaves these open. -/
def MovesTo (i : Instruction) (m : Machine σ) (bs : Branches) : Prop :=
  i.isConditional = true ∧ ∃ s, i.operation.move? m.stack m.branches = some (s, bs)

theorem branches_of_execute_ok (h : i.execute ctx offset m = .ok () m') :
    m'.branches = m.branches ∨ i.MovesTo m m'.branches := by
  obtain ⟨-, -, hacts⟩ := execute_ok.1 h
  have hperform (h : i.perform ctx offset (i.counted m) = .ok () m') :
      m'.branches = m.branches ∨ i.MovesTo m m'.branches := by
    rcases hc : i.isConditional with _ | _
    · have hkept := (branches_of_perform hc ctx offset (i.counted m)).1
      rw [h, counted_branches] at hkept
      exact Or.inl hkept
    · obtain ⟨s, bs, hmove, rfl⟩ := (perform_ok_of_isConditional hc).1 h
      rw [counted_stack, counted_branches] at hmove
      exact Or.inr ⟨hc, s, hmove⟩
  unfold Acts at hacts
  split at hacts
  · exact hperform hacts.2
  · split at hacts
    · exact hperform hacts
    · rw [hacts]
      exact Or.inl counted_branches

theorem branches_of_openBranch_error {negated : Bool}
    (h : (openBranch negated : MachineM σ Unit) m = .error err m') : m'.branches = m.branches := by
  change (if m.branches.executing then _ else _ : MachineM σ Unit) m = .error err m' at h
  split at h
  · rcases bind_error.1 h with hpop | ⟨b, m₁, -, hpush⟩
    · obtain ⟨e, s, -, -, rfl⟩ := exists_of_onStack_error hpop
      rfl
    · cases hpush
  · cases h

theorem branches_of_changeBranch_error {op : Opcode} {f : Branches → Option Branches}
    (h : (changeBranch op f : MachineM σ Unit) m = .error err m') : m'.branches = m.branches := by
  unfold changeBranch at h
  split at h
  · cases h
  · cases h
    rfl

/-- An instruction that fails before the bound on the stacks is checked leaves the open conditionals. -/
theorem branches_of_execute_error (h : i.execute ctx offset m = .error err m') :
    m'.branches = m.branches := by
  by_cases hrefused : i.Refused ctx m
  · obtain ⟨err', k, hx⟩ := execute_of_refused offset hrefused
    rw [hx] at h
    cases h
    rfl
  · rw [execute_of_not_refused offset hrefused] at h
    split at h
    · rw [← counted_branches (i := i) (m := m)]
      rcases hc : i.isConditional with _ | _
      · have hkept := (branches_of_perform hc ctx offset (i.counted m)).1
        rwa [h] at hkept
      · unfold isConditional at hc
        unfold perform at h
        dsimp only at h
        rcases Operation.eq_of_isConditional hc with ⟨negated, hop⟩ | hop | hop <;> rw [hop] at h
        · exact branches_of_openBranch_error h
        · exact branches_of_changeBranch_error h
        · exact branches_of_changeBranch_error h
    · cases h

/-- **What a step does to the open conditionals**, whether it succeeds or fails. -/
theorem branches_step (ctx : Context σ) (offset : Nat) (i : Instruction) (m : Machine σ) :
    (stateOf (i.step ctx offset m)).branches = m.branches ∨
      i.MovesTo m (stateOf (i.step ctx offset m)).branches := by
  rcases hstep : i.step ctx offset m with ⟨_, m'⟩ | ⟨err, m'⟩
  · exact branches_of_execute_ok (execute_ok.2 (step_ok.1 hstep).1)
  · rcases step_error_cases hstep with hexecute | ⟨hexecute, -⟩
    · exact Or.inl (branches_of_execute_error hexecute)
    · exact branches_of_execute_ok hexecute

/-- A step that fails where the stacks have room leaves the open conditionals. -/
theorem branches_of_step_error (h : i.step ctx offset m = .error err m')
    (hroom : i.operation.grows = false → m.items ≤ Limit.stackItems) :
    m'.branches = m.branches := by
  rcases step_error_cases h with hexecute | ⟨hexecute, hitems⟩
  · exact branches_of_execute_error hexecute
  · refine (branches_of_execute_ok hexecute).resolve_right ?_
    rintro ⟨hc, -⟩
    -- Moving between branches adds no items, so there is no overflow.
    have hgrows : i.operation.grows = false := by
      unfold isConditional at hc
      rcases Operation.eq_of_isConditional hc with ⟨negated, hop⟩ | hop | hop <;> rw [hop] <;> rfl
    have hle := items_execute_le hgrows ctx offset m
    rw [hexecute] at hle
    exact absurd (Nat.le_trans hle (hroom hgrows)) (Nat.not_le_of_lt hitems)

end Instruction

end SpendScript

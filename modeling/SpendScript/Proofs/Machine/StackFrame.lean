/-
  Scripts act on the top of the stack. What instructions do without failing, they do in the same
  way when there are further items below, as long as both stacks stay within the bound. Only the
  instruction that counts the items can tell the difference. The machine with the further items is
  coupled to the one without them (`Coupling.raised`); a step keeps the coupling
  (`Instruction.step_raised`), and so does a run (`Script.run_raised`).
-/
import Mathlib.Data.List.Basic
import SpendScript.Proofs.Machine.CoupledInstruction
import SpendScript.Proofs.Machine.Sequence
import SpendScript.Proofs.Machine.StackSize

namespace SpendScript

variable {σ : Type} {ctx : Context σ} {offset : Nat} {below : Stack} {m m' n : Machine σ}

/-- The second machine holds further items below its stack, and has counted no more operations. -/
def Coupling.raised (σ : Type) (below : Stack) : Coupling σ σ where
  below := below
  branches := Eq
  checker := Eq
  exact := False
  below_of_exact := False.elim

theorem Coupling.contexts_raised (below : Stack) (ctx : Context σ) :
    (raised σ below).Contexts ctx ctx := by
  refine ⟨⟨.refl ctx.flags, False.elim, ?_, ?_, ?_, fun h => absurd rfl h, fun h => absurd rfl h⟩,
    rfl, rfl⟩
  all_goals
    rintro q s _ rfl
    exact ⟨rfl, rfl⟩

/-- The machine with further items below its stack. -/
def Machine.above (m : Machine σ) (below : Stack) : Machine σ :=
  { m with stack := m.stack ++ below }

theorem holds_raised_iff :
    (Coupling.raised σ below).Holds m n ↔
      n = { m.above below with opCount := n.opCount } ∧ n.opCount ≤ m.opCount := by
  constructor
  · rintro ⟨hstack, halt, hbranches, hle, -, hcode, hchecker⟩
    refine ⟨?_, hle⟩
    obtain ⟨stack, alt, branches, opCount, codeStart, checker⟩ := n
    obtain rfl : m.branches = branches := hbranches
    obtain rfl : m.checker = checker := hchecker
    obtain rfl : stack = m.stack ++ below := hstack
    obtain rfl : alt = m.alt := halt
    obtain rfl : codeStart = m.codeStart := hcode
    rfl
  · rintro ⟨hn, hle⟩
    rw [hn]
    exact ⟨rfl, rfl, rfl, hle, False.elim, rfl, rfl⟩

namespace Instruction

variable {i : Instruction}

/-- An instruction that does not count the items does the same on top of further ones, up to the bound
    on the stacks. -/
theorem step_raised (hi : i.operation ≠ .depth) (hk : (Coupling.raised σ below).Holds m n)
    (h : i.step ctx offset m = .ok () m') :
    ∃ n', (Coupling.raised σ below).Holds m' n' ∧ i.step ctx offset n = checkDepth n' := by
  have hexecute : (Coupling.raised σ below).Follows (i.execute ctx offset) (i.execute ctx offset) := by
    refine Coupling.follows_execute (Coupling.contexts_raised below ctx) offset i ?_ (fun _ => rfl)
      fun h => absurd h hi
    rintro b _ rfl
    rfl
  have hm : i.execute ctx offset m = .ok () m' := execute_ok.2 (step_ok.1 h).1
  obtain ⟨n', hn, hk'⟩ := hexecute.ok hk hm
  refine ⟨n', hk', ?_⟩
  unfold step
  simp only [Bind.bind, EStateM.bind, hn]

end Instruction

namespace Script

variable {s : Script}

/-- After every instruction that runs there is room for further items below the stack. -/
def Room (ctx : Context σ) (offset : Nat) (s : Script) (m : Machine σ) (below : Stack) : Prop :=
  ∀ front m₁, front ≠ [] → front <+: s → run ctx offset front m = .ok () m₁ →
    (m₁.above below).items ≤ Limit.stackItems

theorem room_nil : Room ctx offset [] m below := by
  intro front m₁ hne hfront
  exact absurd (List.prefix_nil.1 hfront) hne

theorem room_cons {i : Instruction} {m₁ : Machine σ} (hi : i.step ctx offset m = .ok () m₁) :
    Room ctx offset (i :: s) m below ↔
      (m₁.above below).items ≤ Limit.stackItems ∧ Room ctx (offset + 1) s m₁ below := by
  constructor
  · intro h
    refine ⟨h [i] m₁ (List.cons_ne_nil i []) ⟨s, rfl⟩ ?_, ?_⟩
    · rw [run_cons_of_ok hi]
      rfl
    · rintro front m₂ - hfront hrun
      refine h (i :: front) m₂ (List.cons_ne_nil i front) (List.cons_prefix_cons.2 ⟨rfl, hfront⟩) ?_
      rw [run_cons_of_ok hi]
      exact hrun
  · rintro ⟨hfirst, hrest⟩ front m₂ hne hfront hrun
    rcases front with _ | ⟨j, front⟩
    · exact absurd rfl hne
    obtain ⟨rfl, htail⟩ := List.cons_prefix_cons.1 hfront
    rw [run_cons_of_ok hi] at hrun
    by_cases hnil : front = []
    · subst hnil
      cases hrun
      exact hfirst
    · exact hrest front m₂ hnil htail hrun

/-- The stacks of the second machine are within the bound where there is room below those of the
    first. -/
theorem checkDepth_raised (hk : (Coupling.raised σ below).Holds m n) :
    checkDepth n = if (m.above below).items ≤ Limit.stackItems then .ok () n
      else .error (.stackOverflow n.items) n := by
  have hitems : (m.above below).items = n.items := by
    unfold Machine.items
    rw [hk.stack, hk.alt]
    rfl
  rw [hitems]
  unfold checkDepth Machine.items
  dsimp only
  split
  · next h => rw [if_neg (Nat.not_le_of_lt h)]
  · next h => rw [if_pos (Nat.le_of_not_lt h)]

/-- Coupled machines run alike as long as there is room, and the second one overflows where there is
    none. -/
theorem run_raised (hdepth : ∀ i ∈ s, i.operation ≠ .depth)
    (hk : (Coupling.raised σ below).Holds m n) (h : run ctx offset s m = .ok () m') :
    (Room ctx offset s m below → ∃ n', run ctx offset s n = .ok () n' ∧
      (Coupling.raised σ below).Holds m' n') ∧
    (¬ Room ctx offset s m below →
      ∃ items n', run ctx offset s n = .error (.stackOverflow items) n') := by
  induction s generalizing offset m n with
  | nil =>
    cases h
    exact ⟨fun _ => ⟨n, rfl, hk⟩, fun hroom => absurd room_nil hroom⟩
  | cons i s ih =>
    obtain ⟨hi, hs⟩ := List.forall_mem_cons.1 hdepth
    obtain ⟨m₁, hstep, hrest⟩ := run_cons_ok.1 h
    obtain ⟨n₁, hk₁, hn⟩ := Instruction.step_raised hi hk hstep
    rw [checkDepth_raised hk₁] at hn
    rw [room_cons hstep]
    by_cases hfirst : (m₁.above below).items ≤ Limit.stackItems
    · rw [if_pos hfirst] at hn
      obtain ⟨hgoes, hoverflows⟩ := ih hs hk₁ hrest
      rw [run_cons_of_ok hn]
      exact ⟨fun hroom => hgoes hroom.2, fun hroom => hoverflows fun h => hroom ⟨hfirst, h⟩⟩
    · rw [if_neg hfirst] at hn
      rw [run_cons_of_error hn]
      exact ⟨fun hroom => absurd hroom.1 hfirst, fun _ => ⟨n₁.items, n₁, rfl⟩⟩

/-- **Scripts act on the top of the stack.** Instructions that run through, none of which counts the
    items, run through as well on top of further items, if there is room for these after every
    instruction. They leave the further items where they are, and change all else but the operation
    count as they did without them, the checker and what it has been asked included. Where there is
    no room, the stacks overflow. -/
theorem run_above (below : Stack) (hdepth : ∀ i ∈ s, i.operation ≠ .depth)
    (h : run ctx offset s m = .ok () m') :
    (Room ctx offset s m below → ∃ n, run ctx offset s (m.above below) = .ok () n ∧
      n = { m'.above below with opCount := n.opCount }) ∧
    (¬ Room ctx offset s m below →
      ∃ items n, run ctx offset s (m.above below) = .error (.stackOverflow items) n) := by
  have hk : (Coupling.raised σ below).Holds m (m.above below) :=
    holds_raised_iff.2 ⟨rfl, Nat.le_refl _⟩
  obtain ⟨hgoes, hoverflows⟩ := run_raised hdepth hk h
  refine ⟨fun hroom => ?_, hoverflows⟩
  obtain ⟨n, hn, hk'⟩ := hgoes hroom
  exact ⟨n, hn, (holds_raised_iff.1 hk').1⟩

/-- `IF 1 PICK TOALTSTACK ELSE 1 ROLL ENDIF CLTV`. -/
def pickedLock : Script :=
  [⟨⟨0x63⟩, []⟩, ⟨⟨0x51⟩, []⟩, ⟨⟨0x79⟩, []⟩, ⟨⟨0x6b⟩, []⟩, ⟨⟨0x67⟩, []⟩, ⟨⟨0x51⟩, []⟩, ⟨⟨0x7a⟩, []⟩,
    ⟨⟨0x68⟩, []⟩, ⟨⟨0xb1⟩, []⟩]

/-- A context that keeps the questions about locks. -/
def pickedLockContext : Context (Unit × List Query) :=
  ⟨Checker.accepting.recording, { checkLockTime := true, minimalData := true }, true, pickedLock⟩

/-- The deepest item is picked, and not one of the two further items below it. -/
theorem run_above_pickedLock :
    ∃ m' n, run pickedLockContext 0 pickedLock
        { Machine.start ((), []) with stack := [[1], [5], [7]] } = .ok () m' ∧
      run pickedLockContext 0 pickedLock
        { Machine.start ((), []) with stack := [[1], [5], [7], [9], [8]] } = .ok () n ∧
      n.stack = [[5], [7], [9], [8]] ∧ n.alt = [[7]] ∧ n.checker.2 = [.lockTime 5] := by
  have hrun : (outcome (run pickedLockContext 0 pickedLock
      { Machine.start ((), []) with stack := [[1], [5], [7]] })).map
        (fun p => (p.2.stack, p.2.alt, p.2.checker.2)) =
          .ok ([[5], [7]], [[7]], [.lockTime 5]) := by
    decide +kernel
  have hroomy : (outcome (run pickedLockContext 0 pickedLock
      { Machine.start ((), []) with stack := [[1], [5], [7], [9], [8]] })).isOk = true := by
    decide +kernel
  rcases hm : run pickedLockContext 0 pickedLock
      { Machine.start ((), []) with stack := [[1], [5], [7]] } with ⟨_, m'⟩ | ⟨err, m'⟩
  · obtain ⟨hstack, halt, hasked⟩ : m'.stack = [[5], [7]] ∧ m'.alt = [[7]] ∧
        m'.checker.2 = [.lockTime 5] := by
      rw [hm] at hrun
      simpa [outcome, Except.map] using hrun
    obtain ⟨hgoes, hoverflows⟩ := run_above [[9], [8]] (by decide) hm
    have hroom : Room pickedLockContext 0 pickedLock
        { Machine.start ((), []) with stack := [[1], [5], [7]] } [[9], [8]] := by
      by_contra hnone
      obtain ⟨items, n, hn⟩ := hoverflows hnone
      change run pickedLockContext 0 pickedLock
        { Machine.start ((), []) with stack := [[1], [5], [7], [9], [8]] } = _ at hn
      rw [hn] at hroomy
      cases hroomy
    obtain ⟨n, hn, hshape⟩ := hgoes hroom
    refine ⟨m', n, rfl, hn, ?_⟩
    rw [hshape]
    change m'.stack ++ [[9], [8]] = _ ∧ m'.alt = _ ∧ m'.checker.2 = _
    rw [hstack]
    exact ⟨rfl, halt, hasked⟩
  · rw [hm] at hrun
    cases hrun

end Script

end SpendScript

/-
  What it takes for an action to succeed, and what it then leaves. Each action has one equivalence,
  up to the step of an instruction (`Instruction.step_ok`); proofs about single instructions cite
  these and unfold no further.
-/
import SpendScript.Machine.Execute
import SpendScript.Proofs.Outcome

namespace SpendScript

variable {σ α : Type}

namespace MachineM

theorem onStack_ok {f : StackM α} {m m' : Machine σ} {a : α} :
    onStack f m = .ok a m' ↔ ∃ s, f m.stack = .ok a s ∧ m' = { m with stack := s } := by
  unfold onStack
  rcases f m.stack with ⟨b, s⟩ | ⟨e, s⟩
  · constructor
    · intro h
      cases h
      exact ⟨s, rfl, rfl⟩
    · rintro ⟨s', h, rfl⟩
      cases h
      rfl
  · constructor
    · intro h
      cases h
    · rintro ⟨s', h, -⟩
      cases h

theorem countOperations_ok {n : Nat} {m m' : Machine σ} {u : Unit} :
    countOperations n m = .ok u m' ↔
      m.opCount + n ≤ Limit.operations ∧ m' = { m with opCount := m.opCount + n } := by
  unfold countOperations
  dsimp only
  by_cases hn : Limit.operations < m.opCount + n
  · rw [if_pos hn]
    constructor
    · intro h
      cases h
    · rintro ⟨h, -⟩
      omega
  · rw [if_neg hn]
    constructor
    · intro h
      cases h
      exact ⟨Nat.le_of_not_lt hn, rfl⟩
    · rintro ⟨-, rfl⟩
      rfl

theorem ofEncoding_ok {r : Except EncodingError Unit} {m m' : Machine σ} {u : Unit} :
    ofEncoding r m = .ok u m' ↔ r = .ok () ∧ m' = m := by
  rcases r with e | _
  · constructor
    · intro h
      cases h
    · rintro ⟨h, -⟩
      cases h
  · constructor
    · intro h
      cases h
      exact ⟨rfl, rfl⟩
    · rintro ⟨-, rfl⟩
      rfl

end MachineM

theorem StackM.pop_ok {s s' : Stack} {x : Bytes} : StackM.pop s = .ok x s' ↔ s = x :: s' := by
  rcases s with _ | ⟨y, s⟩
  · constructor <;> intro h <;> cases h
  · constructor <;> intro h <;> cases h <;> rfl

open MachineM

/-- Takes the top item off. -/
theorem onStack_pop_ok {m m' : Machine σ} {x : Bytes} :
    onStack StackM.pop m = .ok x m' ↔ ∃ s, m.stack = x :: s ∧ m' = { m with stack := s } := by
  rw [onStack_ok]
  exact exists_congr fun s => and_congr_left' StackM.pop_ok

/-- One item is taken off for each element of a list. -/
theorem popEach_ok {is : List Nat} {m m' : Machine σ} {xs : List Bytes} :
    (is.mapM fun _ => onStack StackM.pop : MachineM σ (List Bytes)) m = .ok xs m' ↔
      xs.length = is.length ∧ ∃ s, m.stack = xs ++ s ∧ m' = { m with stack := s } := by
  induction is generalizing xs m with
  | nil =>
    constructor
    · intro h
      cases h
      exact ⟨rfl, m'.stack, rfl, rfl⟩
    · rintro ⟨hlen, s, hs, rfl⟩
      obtain rfl := List.eq_nil_of_length_eq_zero hlen
      rw [← show m.stack = s from hs]
      rfl
  | cons i is ih =>
    rw [List.mapM_cons, bind_ok]
    simp only [bind_ok, onStack_pop_ok, pure_ok]
    constructor
    · rintro ⟨x, m₁, ⟨s, hs, rfl⟩, ys, m₂, hys, rfl, rfl⟩
      obtain ⟨hlen, s', hs', rfl⟩ := (ih (m := { m with stack := s })).1 hys
      refine ⟨by rw [List.length_cons, List.length_cons, hlen], s', ?_, rfl⟩
      rw [hs, show s = ys ++ s' from hs']
      rfl
    · rintro ⟨hlen, s', hs', rfl⟩
      rcases xs with _ | ⟨x, xs⟩
      · cases hlen
      · refine ⟨x, { m with stack := xs ++ s' }, ⟨xs ++ s', hs', rfl⟩, xs, _, ?_, rfl, rfl⟩
        exact (ih (m := { m with stack := xs ++ s' })).2 ⟨Nat.succ.inj hlen, s', rfl, rfl⟩

theorem popItems_ok {n : Nat} {m m' : Machine σ} {xs : List Bytes} :
    popItems n m = .ok xs m' ↔
      xs.length = n ∧ ∃ s, m.stack = xs ++ s ∧ m' = { m with stack := s } := by
  unfold popItems
  rw [popEach_ok, List.length_range]

/-! ## Instructions -/

namespace Instruction

variable {ctx : Context σ} {offset : Nat} {i : Instruction} {m m' : Machine σ} {u : Unit}

/-- The instruction may stand in a script, in whatever branch. -/
def Allowed (i : Instruction) : Prop := i.isDisabled = false ∧ i.isAlwaysIllegal = false

theorem allowed_of_operation (hd : i.operation ≠ .disabled) (ha : i.operation ≠ .alwaysIllegal) :
    i.Allowed := ⟨decide_eq_false hd, decide_eq_false ha⟩

/-- The instruction keeps the limits that hold in every branch. -/
def Within (i : Instruction) (m : Machine σ) : Prop :=
  if i.isPush then i.data.length ≤ Limit.elementSize else m.opCount + 1 ≤ Limit.operations

/-- The machine once the instruction has been counted, if it is one that counts. -/
def counted (i : Instruction) (m : Machine σ) : Machine σ :=
  if i.isPush then m else { m with opCount := m.opCount + 1 }

theorem counted_of_isPush (hp : i.isPush = true) : i.counted m = m := if_pos hp

theorem counted_of_not_isPush (hp : ¬ i.isPush = true) :
    i.counted m = { m with opCount := m.opCount + 1 } := if_neg hp

theorem within_of_isPush (hp : i.isPush = true) :
    i.Within m ↔ i.data.length ≤ Limit.elementSize := by
  unfold Within
  rw [if_pos hp]

theorem within_of_not_isPush (hp : ¬ i.isPush = true) :
    i.Within m ↔ m.opCount + 1 ≤ Limit.operations := by
  unfold Within
  rw [if_neg hp]

theorem counted_branches : (i.counted m).branches = m.branches := by
  unfold counted
  split <;> rfl

theorem counted_stack : (i.counted m).stack = m.stack := by
  unfold counted
  split <;> rfl

theorem checkLimits_ok : i.checkLimits m = .ok u m' ↔ i.Within m ∧ m' = i.counted m := by
  unfold checkLimits
  by_cases hp : i.isPush = true
  · rw [if_pos hp, within_of_isPush hp, counted_of_isPush hp]
    by_cases hl : Limit.elementSize < i.data.length
    · rw [if_pos hl]
      constructor
      · intro h
        cases h
      · rintro ⟨h, -⟩
        omega
    · rw [if_neg hl, pure_ok]
      constructor
      · rintro ⟨-, h⟩
        exact ⟨Nat.le_of_not_lt hl, h⟩
      · rintro ⟨-, h⟩
        exact ⟨rfl, h⟩
  · rw [if_neg hp, within_of_not_isPush hp, counted_of_not_isPush hp, countOperations_ok]

/-- The instruction is the shortest push of its operand, where the flags ask for that. -/
def MinimalFor (F : Flags) (i : Instruction) : Prop :=
  F.minimalData = true → i.opcode.value ≤ Opcode.lastDataPush → i.isMinimalPush = true

/-- Only instructions that push their operand are asked. -/
theorem minimalFor_of_not_isPush {F : Flags} (hp : ¬ i.isPush = true) : i.MinimalFor F := by
  intro _ hle
  exact absurd (decide_eq_true (Nat.le_trans hle (by decide))) hp

theorem checkMinimal_ok : i.checkMinimal ctx m = .ok u m' ↔ i.MinimalFor ctx.flags ∧ m' = m := by
  unfold checkMinimal MinimalFor checkMinimalPush
  by_cases hc : ctx.flags.minimalData = true ∧ i.opcode.value ≤ Opcode.lastDataPush
  · rw [if_pos (by rw [hc.1, decide_eq_true hc.2]; rfl)]
    by_cases hp : i.isMinimalPush = true
    · rw [if_pos hp]
      constructor
      · intro h
        cases h
        exact ⟨fun _ _ => hp, rfl⟩
      · rintro ⟨-, rfl⟩
        rfl
    · rw [if_neg hp]
      constructor
      · intro h
        cases h
      · rintro ⟨h, -⟩
        exact absurd (h hc.1 hc.2) hp
  · rw [if_neg (by rw [Bool.and_eq_true, decide_eq_true_iff]; exact hc), pure_ok]
    constructor
    · rintro ⟨-, h⟩
      exact ⟨fun h₁ h₂ => absurd ⟨h₁, h₂⟩ hc, h⟩
    · rintro ⟨-, h⟩
      exact ⟨rfl, h⟩

/-- What is left of an instruction once it is within the limits. -/
def Acts (ctx : Context σ) (offset : Nat) (i : Instruction) (m m' : Machine σ) : Prop :=
  if m.branches.executing then i.MinimalFor ctx.flags ∧ i.perform ctx offset m = .ok () m'
  else if i.isConditional then i.perform ctx offset m = .ok () m'
  else m' = m

theorem execute_ok : i.execute ctx offset m = .ok u m' ↔
    i.Allowed ∧ i.Within m ∧ i.Acts ctx offset (i.counted m) m' := by
  have hacts (m₁ : Machine σ) : (do
        if ← executing then
          i.checkMinimal ctx
          i.perform ctx offset
        else if i.isConditional then i.perform ctx offset : MachineM σ Unit) m₁ = .ok u m' ↔
      i.Acts ctx offset m₁ m' := by
    change (if m₁.branches.executing then _ else _ : MachineM σ Unit) m₁ = .ok u m' ↔ _
    unfold Acts
    by_cases hx : m₁.branches.executing = true
    · rw [if_pos hx, if_pos hx, bind_ok]
      constructor
      · rintro ⟨_, m₂, h, hp⟩
        obtain ⟨hmin, rfl⟩ := checkMinimal_ok.1 h
        exact ⟨hmin, hp⟩
      · rintro ⟨hmin, hp⟩
        exact ⟨(), m₁, checkMinimal_ok.2 ⟨hmin, rfl⟩, hp⟩
    · rw [if_neg hx, if_neg hx]
      by_cases hc : i.isConditional = true
      · rw [if_pos hc, if_pos hc]
      · rw [if_neg hc, if_neg hc, pure_ok]
        exact ⟨fun h => h.2, fun h => ⟨rfl, h⟩⟩
  unfold execute Allowed
  rw [guard_ok, guard_ok, Bool.not_eq_true, Bool.not_eq_true, bind_ok, and_assoc]
  refine and_congr_right' (and_congr_right' ?_)
  constructor
  · rintro ⟨_, m₁, hl, hr⟩
    obtain ⟨hwithin, rfl⟩ := checkLimits_ok.1 hl
    exact ⟨hwithin, (hacts _).1 hr⟩
  · rintro ⟨hwithin, hr⟩
    exact ⟨(), _, checkLimits_ok.2 ⟨hwithin, rfl⟩, (hacts _).2 hr⟩

/-- An instruction takes its step just when it is allowed, keeps the limits, acts as its branch says
    and does not leave too many items. -/
theorem step_ok : i.step ctx offset m = .ok u m' ↔
    (i.Allowed ∧ i.Within m ∧ i.Acts ctx offset (i.counted m) m') ∧
      m'.stack.length + m'.alt.length ≤ Limit.stackItems := by
  have hdepth (m₁ : Machine σ) : checkDepth m₁ = .ok u m' ↔
      m' = m₁ ∧ m'.stack.length + m'.alt.length ≤ Limit.stackItems := by
    unfold checkDepth
    dsimp only
    by_cases hd : Limit.stackItems < m₁.stack.length + m₁.alt.length
    · rw [if_pos hd]
      constructor
      · intro h
        cases h
      · rintro ⟨rfl, h⟩
        omega
    · rw [if_neg hd]
      constructor
      · intro h
        cases h
        exact ⟨rfl, Nat.le_of_not_lt hd⟩
      · rintro ⟨rfl, -⟩
        rfl
  unfold step
  rw [bind_ok]
  constructor
  · rintro ⟨_, m₁, he, hd⟩
    obtain ⟨rfl, hle⟩ := (hdepth m₁).1 hd
    exact ⟨execute_ok.1 he, hle⟩
  · rintro ⟨he, hle⟩
    exact ⟨(), m', execute_ok.2 he, (hdepth m').2 ⟨rfl, hle⟩⟩

/-- Where instructions run, an instruction acts by having its effect. -/
theorem step_ok_of_executing (hx : m.branches.executing = true) :
    i.step ctx offset m = .ok u m' ↔
      (i.Allowed ∧ i.Within m ∧ i.MinimalFor ctx.flags ∧
        i.perform ctx offset (i.counted m) = .ok () m') ∧
      m'.stack.length + m'.alt.length ≤ Limit.stackItems := by
  have hacts : i.Acts ctx offset (i.counted m) m' ↔
      i.MinimalFor ctx.flags ∧ i.perform ctx offset (i.counted m) = .ok () m' := by
    unfold Acts
    rw [counted_branches, if_pos hx]
  rw [step_ok, hacts]

end Instruction

end SpendScript

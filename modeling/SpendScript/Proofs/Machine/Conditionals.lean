/-
  Conditionals have the structure they show. A run from IF or NOTIF to its ENDIF does what taking
  the condition off the stack and running, in place and in order, the arms of one side does; the
  arms of the other side only count operations (`Script.run_conditional`).

  Two lemmas carry this, each by induction along an arm with the number of conditionals it has
  open. In a branch that is passed over these are all marked so and nothing else changes
  (`run_passed`). In a branch that is taken the run is coupled to one outside of the conditional,
  whose open conditionals lack one entry (`run_enclosed`).
-/
import SpendScript.Proofs.Machine.CoupledInstruction
import SpendScript.Proofs.Machine.Sequence
import SpendScript.Proofs.Opcode

namespace SpendScript

variable {σ : Type}

/-! ## The shape of a conditional -/

/-- How many conditionals are open after an operation where `d` of them were open, if it moves
    between branches of these only. -/
def Operation.nest : Operation → Nat → Option Nat
  | openIf _, d => some (d + 1)
  | elseBranch, d => if d = 0 then none else some d
  | endIf, d => if d = 0 then none else some (d - 1)
  | _, d => some d

theorem Operation.eq_of_isConditional {op : Operation} (h : op.isConditional = true) :
    (∃ negated, op = openIf negated) ∨ op = elseBranch ∨ op = endIf := by
  rcases op <;> simp [isConditional] at h ⊢

theorem Operation.nest_of_not_isConditional {op : Operation} (h : op.isConditional = false)
    (d : Nat) : op.nest d = some d := by
  rcases op <;> simp [isConditional, nest] at h ⊢

namespace Script

/-- How many conditionals are open after a script, of `d` and those it opens itself. -/
def nesting : Nat → Script → Option Nat
  | d, [] => some d
  | d, i :: is => (i.operation.nest d).bind fun d => nesting d is

/-- The script closes the conditionals it opens and touches no others. -/
def WellNested (s : Script) : Prop := nesting 0 s = some 0

instance : DecidablePred WellNested := fun s =>
  inferInstanceAs (Decidable (nesting 0 s = some 0))

/-- IF, or NOTIF. -/
def opening (negated : Bool) : Instruction := ⟨⟨if negated then 0x64 else 0x63⟩, []⟩

/-- ELSE. -/
def separating : Instruction := ⟨⟨0x67⟩, []⟩

/-- ENDIF. -/
def ending : Instruction := ⟨⟨0x68⟩, []⟩

/-- The arms after the first one, each behind its ELSE, and the end of the conditional. -/
def continuation : List Script → Script
  | [] => [ending]
  | arm :: arms => separating :: (arm ++ continuation arms)

/-- A conditional with at least one arm. -/
def conditional (negated : Bool) (first : Script) (arms : List Script) : Script :=
  opening negated :: (first ++ continuation arms)

/-- Runs every second arm, each at its place in the conditional. -/
def runArms (ctx : Context σ) : Bool → Nat → List Script → MachineM σ Unit
  | _, _, [] => pure ()
  | true, offset, arm :: arms => do
    run ctx offset arm
    runArms ctx false (offset + arm.length + 1) arms
  | false, offset, arm :: arms => runArms ctx true (offset + arm.length + 1) arms

end Script

/-! ## Steps between branches -/

/-- What an operation that moves between branches does to the stack and to the open conditionals,
    if it can. -/
def Operation.move? : Operation → Stack → Branches → Option (Stack × Branches)
  | openIf negated, s, bs =>
    if bs.executing then
      match s with
      | [] => none
      | item :: below => some (below, .ofTruth (truth item != negated) :: bs)
    else some (s, .skipped :: bs)
  | elseBranch, s, bs => bs.toggle?.map fun bs => (s, bs)
  | endIf, s, bs => bs.close?.map fun bs => (s, bs)
  | _, _, _ => none

theorem Operation.move?_openIf_nil {negated : Bool} {bs : Branches} (hx : bs.executing = true) :
    (openIf negated).move? [] bs = none := if_pos hx

theorem Operation.move?_openIf_cons {negated : Bool} {item : Bytes} {below : Stack} {bs : Branches}
    (hx : bs.executing = true) :
    (openIf negated).move? (item :: below) bs =
      some (below, .ofTruth (truth item != negated) :: bs) := if_pos hx

theorem Operation.move?_openIf_passedOver {negated : Bool} {s : Stack} {bs : Branches}
    (hx : ¬ bs.executing = true) :
    (openIf negated).move? s bs = some (s, .skipped :: bs) := if_neg hx

/-- A conditional that is opened is skipped just where instructions do not run. -/
theorem Operation.exists_cons_of_move? {negated : Bool} {s s' : Stack} {bs bs' : Branches}
    (h : (openIf negated).move? s bs = some (s', bs')) :
    ∃ b, bs' = b :: bs ∧ (b = .skipped ↔ bs.executing = false) := by
  by_cases hx : bs.executing = true
  · cases s with
    | nil =>
      rw [move?_openIf_nil hx] at h
      cases h
    | cons item below =>
      rw [move?_openIf_cons hx] at h
      cases h
      refine ⟨_, rfl, iff_of_false ?_ fun hpassed => Bool.false_ne_true (hpassed.symm.trans hx)⟩
      cases truth item != negated <;> decide
  · rw [move?_openIf_passedOver hx] at h
    cases h
    exact ⟨_, rfl, iff_of_true rfl (Bool.eq_false_iff.2 hx)⟩

namespace MachineM

variable {m m' : Machine σ}

theorem changeBranch_ok {op : Opcode} {f : Branches → Option Branches} :
    changeBranch op f m = .ok () m' ↔
      ∃ s bs, (f m.branches).map (fun bs => (m.stack, bs)) = some (s, bs) ∧
        m' = { m with stack := s, branches := bs } := by
  unfold changeBranch
  rcases f m.branches with _ | bs
  · constructor
    · intro h
      cases h
    · rintro ⟨s, bs, h, -⟩
      cases h
  · constructor
    · intro h
      cases h
      exact ⟨m.stack, bs, rfl, rfl⟩
    · rintro ⟨s, bs', h, rfl⟩
      cases h
      rfl

theorem openBranch_ok {negated : Bool} :
    openBranch negated m = .ok () m' ↔
      ∃ s bs, (Operation.openIf negated).move? m.stack m.branches = some (s, bs) ∧
        m' = { m with stack := s, branches := bs } := by
  change (if m.branches.executing then _ else _ : MachineM σ Unit) m = .ok () m' ↔ _
  by_cases hx : m.branches.executing = true
  · rw [if_pos hx, bind_ok]
    constructor
    · rintro ⟨b, m₁, hp, hm⟩
      obtain ⟨s, hs, rfl⟩ := onStack_ok.1 hp
      obtain ⟨item, s', hpop, ht⟩ := bind_ok.1 hs
      obtain ⟨rfl, rfl⟩ := pure_ok.1 ht
      cases hm
      rw [StackM.pop_ok.1 hpop, Operation.move?_openIf_cons hx]
      exact ⟨s, _, rfl, rfl⟩
    · rcases hstack : m.stack with _ | ⟨item, below⟩
      · rw [Operation.move?_openIf_nil hx]
        rintro ⟨s, bs, h, -⟩
        cases h
      · rw [Operation.move?_openIf_cons hx]
        rintro ⟨s, bs, h, rfl⟩
        cases h
        refine ⟨truth item, { m with stack := below }, onStack_ok.2 ⟨below, ?_, rfl⟩, rfl⟩
        exact bind_ok.2 ⟨item, below, StackM.pop_ok.2 hstack, rfl⟩
  · rw [if_neg hx, Operation.move?_openIf_passedOver hx]
    constructor
    · intro h
      cases h
      exact ⟨m.stack, _, rfl, rfl⟩
    · rintro ⟨s, bs, h, rfl⟩
      cases h
      rfl

end MachineM

namespace Instruction

open MachineM

variable {ctx : Context σ} {offset : Nat} {i : Instruction} {m m' : Machine σ}

theorem perform_ok_of_isConditional (hc : i.isConditional = true) :
    i.perform ctx offset m = .ok () m' ↔
      ∃ s bs, i.operation.move? m.stack m.branches = some (s, bs) ∧
        m' = { m with stack := s, branches := bs } := by
  unfold isConditional at hc
  unfold perform
  dsimp only
  rcases Operation.eq_of_isConditional hc with ⟨negated, hop⟩ | hop | hop
  · rw [hop]
    exact openBranch_ok
  · rw [hop]
    exact changeBranch_ok
  · rw [hop]
    exact changeBranch_ok

/-- An instruction that moves between branches does so in every branch, as one more operation. -/
theorem step_ok_of_isConditional (hc : i.isConditional = true) :
    i.step ctx offset m = .ok () m' ↔
      m.opCount + 1 ≤ Limit.operations ∧
        m'.stack.length + m'.alt.length ≤ Limit.stackItems ∧
        ∃ s bs, i.operation.move? m.stack m.branches = some (s, bs) ∧
          m' = { m with stack := s, branches := bs, opCount := m.opCount + 1 } := by
  have hpush : ¬ i.isPush = true := Opcode.not_isPush_of rfl (fun _ => rfl) rfl hc
  have hmin : i.MinimalFor ctx.flags := minimalFor_of_not_isPush hpush
  have hacts (m₁ : Machine σ) :
      i.Acts ctx offset m₁ m' ↔ i.perform ctx offset m₁ = .ok () m' := by
    unfold Acts
    rw [if_pos hc]
    by_cases hx : m₁.branches.executing = true
    · rw [if_pos hx, and_iff_right hmin]
    · rw [if_neg hx]
  have hallowed : i.Allowed := by
    unfold isConditional at hc
    refine allowed_of_operation ?_ ?_ <;> intro h <;> rw [h] at hc <;> exact Bool.false_ne_true hc
  rw [step_ok, hacts, counted_of_not_isPush hpush, within_of_not_isPush hpush,
    perform_ok_of_isConditional hc]
  constructor
  · rintro ⟨⟨-, hle, hmove⟩, hd⟩
    exact ⟨hle, hd, hmove⟩
  · rintro ⟨hle, hd, hmove⟩
    exact ⟨⟨hallowed, hle, hmove⟩, hd⟩

/-- Any other instruction that is passed over counts at most as one more operation. -/
theorem step_passedOver (hc : i.isConditional = false) (hx : m.branches.executing = false)
    (h : i.step ctx offset m = .ok () m') :
    m.opCount ≤ m'.opCount ∧ m' = { m with opCount := m'.opCount } := by
  obtain ⟨⟨-, -, ha⟩, -⟩ := step_ok.1 h
  have hm' : m' = i.counted m := by
    unfold Acts at ha
    rw [counted_branches, if_neg (by rw [hx]; exact Bool.false_ne_true), hc,
      if_neg Bool.false_ne_true] at ha
    exact ha
  rw [hm']
  unfold counted
  split
  · exact ⟨Nat.le_refl _, rfl⟩
  · exact ⟨Nat.le_succ _, rfl⟩

end Instruction

/-! ## Branches that are passed over -/

namespace Script

/-- `d` conditionals opened where instructions do not run. -/
def passed (d : Nat) (bs : Branches) : Branches := List.replicate d .skipped ++ bs

theorem executing_passed {bs : Branches} (hbs : bs.executing = false) (d : Nat) :
    (passed d bs).executing = false := by
  rcases d with _ | d
  · exact hbs
  · rfl

/-- Moving between branches keeps the stack where instructions do not run. -/
theorem move?_passed {op : Operation} (hc : op.isConditional = true) {s s' : Stack}
    {bs bs' : Branches} {d d' : Nat} (hbs : bs.executing = false) (hn : op.nest d = some d')
    (hmove : op.move? s (passed d bs) = some (s', bs')) : s' = s ∧ bs' = passed d' bs := by
  rcases Operation.eq_of_isConditional hc with ⟨negated, rfl⟩ | rfl | rfl
  · have hx : ¬ (passed d bs).executing = true := by
      rw [executing_passed hbs]
      exact Bool.false_ne_true
    rw [Operation.move?_openIf_passedOver hx] at hmove
    cases hn
    cases hmove
    exact ⟨rfl, rfl⟩
  · rcases d with _ | d
    · cases hn
    · cases hn
      cases hmove
      exact ⟨rfl, rfl⟩
  · rcases d with _ | d
    · cases hn
    · cases hn
      cases hmove
      exact ⟨rfl, rfl⟩

/-- A run through a branch that is passed over, with `d` conditionals open in it. -/
theorem run_passed {ctx : Context σ} {bs : Branches} (hbs : bs.executing = false) {s : Script}
    {offset d d' : Nat} (hn : nesting d s = some d') {m m' : Machine σ}
    (hm : m.branches = passed d bs) (h : run ctx offset s m = .ok () m') :
    m.opCount ≤ m'.opCount ∧ m' = { m with opCount := m'.opCount, branches := passed d' bs } := by
  induction s generalizing offset d m with
  | nil =>
    cases hn
    cases h
    rw [← hm]
    exact ⟨Nat.le_refl _, rfl⟩
  | cons i s ih =>
    obtain ⟨m₁, hi, hs⟩ := run_cons_ok.1 h
    obtain ⟨d₁, hd₁, hn₁⟩ := Option.bind_eq_some_iff.1 hn
    have hstep : m.opCount ≤ m₁.opCount ∧
        m₁ = { m with opCount := m₁.opCount, branches := passed d₁ bs } := by
      rcases hc : i.isConditional with _ | _
      · have hx : m.branches.executing = false := by
          rw [hm]
          exact executing_passed hbs d
        obtain rfl : d = d₁ :=
          Option.some.inj ((Operation.nest_of_not_isConditional hc d).symm.trans hd₁)
        rw [← hm]
        exact Instruction.step_passedOver hc hx hi
      · obtain ⟨-, -, s', bs', hmove, rfl⟩ := (Instruction.step_ok_of_isConditional hc).1 hi
        rw [hm] at hmove
        obtain ⟨rfl, rfl⟩ := move?_passed hc hbs hd₁ hmove
        exact ⟨Nat.le_succ _, rfl⟩
    obtain ⟨hle, heq⟩ := hstep
    have hm₁ : m₁.branches = passed d₁ bs := by rw [heq]
    obtain ⟨hle', heq'⟩ := ih hn₁ hm₁ hs
    refine ⟨Nat.le_trans hle hle', ?_⟩
    rw [heq', heq]

end Script

/-! ## Branches that are taken -/

/-- The first machine is inside a conditional, the second is not: `b` stands for that conditional,
    and `d` more have been opened in it. -/
def Coupling.enclosed (σ : Type) (b : Branch) (bs : Branches) (d : Nat) : Coupling σ σ where
  below := []
  branches x y := ∃ inner : Branches, inner.length = d ∧ x = inner ++ b :: bs ∧ y = inner ++ bs
  checker := Eq
  exact := False
  below_of_exact := False.elim

namespace Coupling

variable {b : Branch} {bs : Branches} {d d' : Nat}

theorem contexts_enclosed (ctx : Context σ) : (enclosed σ b bs d).Contexts ctx ctx where
  flags := .refl _
  flags_eq _ := rfl
  signature := by
    rintro q s _ rfl
    exact ⟨rfl, rfl⟩
  lockTime := by
    rintro n s _ rfl
    exact ⟨rfl, rfl⟩
  sequence := by
    rintro n s _ rfl
    exact ⟨rfl, rfl⟩
  lockTime_alone h := absurd rfl h
  sequence_alone h := absurd rfl h
  script := rfl
  versionZero := rfl

/-- In a branch that is taken the conditional does not show. -/
theorem executing_enclosed (hbs : bs.executing = true) (x y : Branches)
    (h : (enclosed σ .taken bs d).branches x y) : y.executing = x.executing := by
  obtain ⟨inner, -, rfl, rfl⟩ := h
  rcases inner with _ | ⟨c, inner⟩
  · exact hbs
  · rfl

/-- Both machines move between the branches opened inside the conditional alike. -/
theorem move?_enclosed {op : Operation} (hc : op.isConditional = true) (hbs : bs.executing = true)
    (hn : op.nest d = some d') {s s' : Stack} {x x' y : Branches}
    (hxy : (enclosed σ .taken bs d).branches x y) (hmove : op.move? s x = some (s', x')) :
    ∃ y', op.move? s y = some (s', y') ∧ (enclosed σ .taken bs d').branches x' y' := by
  have hexec : y.executing = x.executing := executing_enclosed hbs x y hxy
  obtain ⟨inner, rfl, rfl, rfl⟩ := hxy
  rcases Operation.eq_of_isConditional hc with ⟨negated, rfl⟩ | rfl | rfl
  · cases hn
    by_cases hx : Branches.executing (inner ++ Branch.taken :: bs) = true
    · rcases s with _ | ⟨item, below⟩
      · rw [Operation.move?_openIf_nil hx] at hmove
        cases hmove
      · rw [Operation.move?_openIf_cons hx] at hmove
        cases hmove
        exact ⟨_, Operation.move?_openIf_cons (hexec.trans hx), _ :: inner, rfl, rfl, rfl⟩
    · rw [Operation.move?_openIf_passedOver hx] at hmove
      cases hmove
      have hy : ¬ Branches.executing (inner ++ bs) = true := by rwa [hexec]
      exact ⟨_, Operation.move?_openIf_passedOver hy, _ :: inner, rfl, rfl, rfl⟩
  · rcases inner with _ | ⟨c, inner⟩
    · cases hn
    · cases hn
      cases hmove
      exact ⟨_, rfl, c.flip :: inner, rfl, rfl, rfl⟩
  · rcases inner with _ | ⟨c, inner⟩
    · cases hn
    · cases hn
      cases hmove
      exact ⟨_, rfl, inner, rfl, rfl, rfl⟩

theorem step_enclosed {ctx : Context σ} {offset : Nat} {i : Instruction}
    (hbs : bs.executing = true) (hn : i.operation.nest d = some d') {m m' n : Machine σ}
    (hk : (enclosed σ .taken bs d).Holds m n) (h : i.step ctx offset m = .ok () m') :
    ∃ n', i.step ctx offset n = .ok () n' ∧ (enclosed σ .taken bs d').Holds m' n' := by
  rcases hc : i.isConditional with _ | _
  · obtain rfl : d = d' :=
      Option.some.inj ((Operation.nest_of_not_isConditional hc d).symm.trans hn)
    have hstep : (enclosed σ .taken bs d).Follows (i.step ctx offset) (i.step ctx offset) :=
      follows_step (contexts_enclosed ctx) rfl (executing_enclosed hbs) offset i fun h => by
        rw [hc] at h
        cases h
    exact hstep.ok hk h
  · obtain ⟨hcount, hdepth, s, x, hmove, rfl⟩ := (Instruction.step_ok_of_isConditional hc).1 h
    obtain ⟨y, hmove', hxy⟩ := move?_enclosed hc hbs hn hk.branches hmove
    have hs : n.stack = m.stack := hk.stack.trans (List.append_nil _)
    have hle := hk.opCount_le
    refine ⟨{ n with stack := s, branches := y, opCount := n.opCount + 1 }, ?_, ?_⟩
    · refine (Instruction.step_ok_of_isConditional hc).2 ⟨by omega, ?_, s, y, ?_, rfl⟩
      · rw [show n.alt = m.alt from hk.alt]
        exact hdepth
      · rw [hs]
        exact hmove'
    · exact ⟨(List.append_nil s).symm, hk.alt, hxy, Nat.succ_le_succ hle, False.elim,
        hk.codeStart, hk.checker⟩

/-- A run through a branch that is taken is the run outside of the conditional. -/
theorem run_enclosed {ctx : Context σ} (hbs : bs.executing = true) {s : Script} {offset d d' : Nat}
    (hn : Script.nesting d s = some d') {m m' n : Machine σ}
    (hk : (enclosed σ .taken bs d).Holds m n) (h : Script.run ctx offset s m = .ok () m') :
    ∃ n', Script.run ctx offset s n = .ok () n' ∧ (enclosed σ .taken bs d').Holds m' n' := by
  induction s generalizing offset d m n with
  | nil =>
    cases hn
    cases h
    exact ⟨n, rfl, hk⟩
  | cons i s ih =>
    obtain ⟨m₁, hi, hs⟩ := Script.run_cons_ok.1 h
    obtain ⟨d₁, hd₁, hn₁⟩ := Option.bind_eq_some_iff.1 hn
    obtain ⟨n₁, hi', hk₁⟩ := step_enclosed hbs hd₁ hk hi
    obtain ⟨n', hs', hk'⟩ := ih hn₁ hk₁ hs
    exact ⟨n', Script.run_cons_ok.2 ⟨n₁, hi', hs'⟩, hk'⟩

end Coupling

/-! ## Whole conditionals -/

namespace Script

variable {ctx : Context σ} {bs : Branches} {b : Branch} {selected : Bool} {offset : Nat}
  {m m' n : Machine σ}

open Coupling (enclosed run_enclosed)

/-- Between arms the second machine has just the conditionals around this one open. -/
theorem branches_between (hk : (enclosed σ b bs 0).Holds m n) :
    m.branches = b :: bs ∧ n.branches = bs := by
  obtain ⟨inner, hinner, hm, hn⟩ := hk.branches
  obtain rfl := List.eq_nil_of_length_eq_zero hinner
  exact ⟨hm, hn⟩

/-- An arm runs if it is selected, and otherwise changes nothing that the second machine has. -/
theorem run_arm (hbs : bs.executing = true) {arm : Script} (hnest : WellNested arm)
    (hk : (enclosed σ (.ofTruth selected) bs 0).Holds m n) (h : run ctx offset arm m = .ok () m') :
    ∃ n', (if selected then run ctx offset arm n = .ok () n' else n' = n) ∧
      (enclosed σ (.ofTruth selected) bs 0).Holds m' n' := by
  rcases selected with _ | _
  · have hm : m.branches = passed 0 (.untaken :: bs) := (branches_between hk).1
    obtain ⟨hle, heq⟩ := run_passed rfl hnest hm h
    refine ⟨n, rfl, ?_⟩
    rw [heq]
    exact ⟨hk.stack, hk.alt, ⟨[], rfl, rfl, (branches_between hk).2⟩,
      Nat.le_trans hk.opCount_le hle, False.elim, hk.codeStart, hk.checker⟩
  · exact run_enclosed hbs hnest hk h

/-- ELSE selects the arms of the other side. -/
theorem step_separating (hk : (enclosed σ (.ofTruth selected) bs 0).Holds m n)
    (h : separating.step ctx offset m = .ok () m') :
    (enclosed σ (.ofTruth !selected) bs 0).Holds m' n := by
  obtain ⟨hm, hn⟩ := branches_between hk
  obtain ⟨-, -, s, bs', hmove, rfl⟩ := (Instruction.step_ok_of_isConditional rfl).1 h
  rw [hm] at hmove
  cases hmove
  refine ⟨hk.stack, hk.alt, ⟨[], rfl, ?_, hn⟩, ?_, False.elim, hk.codeStart, hk.checker⟩
  · rcases selected <;> rfl
  · exact Nat.le_succ_of_le hk.opCount_le

/-- ENDIF leaves the conditionals around this one open. -/
theorem step_ending (hk : (enclosed σ b bs 0).Holds m n)
    (h : ending.step ctx offset m = .ok () m') :
    m' = { n with opCount := m'.opCount } ∧ m'.branches = bs := by
  obtain ⟨hm, hn⟩ := branches_between hk
  obtain ⟨-, -, s, bs', hmove, rfl⟩ := (Instruction.step_ok_of_isConditional rfl).1 h
  rw [hm] at hmove
  cases hmove
  refine ⟨?_, rfl⟩
  have hstack : n.stack = m.stack := hk.stack.trans (List.append_nil _)
  have hchecker : m.checker = n.checker := hk.checker
  rw [← hn, ← hstack, ← hk.alt, ← hk.codeStart, hchecker]

/-- The arms from one on, each with the delimiter behind it. -/
theorem run_arms (hbs : bs.executing = true) {arm : Script} {arms : List Script}
    (hnest : ∀ a ∈ arm :: arms, WellNested a)
    (hk : (enclosed σ (.ofTruth selected) bs 0).Holds m n)
    (h : run ctx offset (arm ++ continuation arms) m = .ok () m') :
    ∃ n', runArms ctx selected offset (arm :: arms) n = .ok () n' ∧
      m' = { n' with opCount := m'.opCount } ∧ m'.branches = bs := by
  induction arms generalizing arm selected offset m n with
  | nil =>
    obtain ⟨m₁, harm, hend⟩ := run_append_ok.1 h
    obtain ⟨n₁, hn₁, hk₁⟩ := run_arm hbs (hnest arm List.mem_cons_self) hk harm
    obtain ⟨m₂, hstep, hnil⟩ := run_cons_ok.1 hend
    cases hnil
    refine ⟨n₁, ?_, step_ending hk₁ hstep⟩
    rcases selected with _ | _
    · exact congrArg (EStateM.Result.ok ()) hn₁.symm
    · exact bind_ok.2 ⟨(), n₁, hn₁, rfl⟩
  | cons arm' arms ih =>
    obtain ⟨m₁, harm, hrest⟩ := run_append_ok.1 h
    obtain ⟨n₁, hn₁, hk₁⟩ := run_arm hbs (hnest arm List.mem_cons_self) hk harm
    obtain ⟨m₂, hstep, hrest⟩ := run_cons_ok.1 hrest
    have hnest' : ∀ a ∈ arm' :: arms, WellNested a := fun a ha =>
      hnest a (List.mem_cons_of_mem arm ha)
    obtain ⟨n', hn', hm'⟩ := ih hnest' (step_separating hk₁ hstep) hrest
    refine ⟨n', ?_, hm'⟩
    rcases selected with _ | _
    · rw [show n₁ = n from hn₁] at hn'
      exact hn'
    · exact bind_ok.2 ⟨(), n₁, hn₁, hn'⟩

/-- **Conditionals are structured.** Where instructions run, a conditional that runs through has
    taken its condition off the stack and has run, in place and in order, the arms of the side that
    the condition selects. Everything but the operation count is as these leave it, the checker and
    what it has been asked included, and the same conditionals are open as before. An arm that is
    passed over changes the operation count only. -/
theorem run_conditional {negated : Bool} {first : Script} {arms : List Script}
    (hnest : ∀ arm ∈ first :: arms, WellNested arm) (hx : m.branches.executing = true)
    (h : run ctx offset (conditional negated first arms) m = .ok () m') :
    (∃ item below n, m.stack = item :: below ∧
      runArms ctx (truth item != negated) (offset + 1) (first :: arms)
        { m with stack := below } = .ok () n ∧
      m' = { n with opCount := m'.opCount }) ∧
    m'.branches = m.branches ∧
    ∀ arm ∈ first :: arms, ∀ (place : Nat) (p p' : Machine σ), p.branches.executing = false →
      run ctx place arm p = .ok () p' → p' = { p with opCount := p'.opCount } := by
  obtain ⟨m₁, hopen, hrest⟩ := run_cons_ok.1 h
  have hc : (opening negated).isConditional = true := by
    rcases negated <;> rfl
  have hop : (opening negated).operation = .openIf negated := by
    rcases negated <;> rfl
  obtain ⟨-, -, below, bs, hmove, rfl⟩ := (Instruction.step_ok_of_isConditional hc).1 hopen
  rw [hop] at hmove
  rcases hstack : m.stack with _ | ⟨item, below'⟩
  · rw [hstack, Operation.move?_openIf_nil hx] at hmove
    cases hmove
  · rw [hstack, Operation.move?_openIf_cons hx] at hmove
    cases hmove
    have hk : (enclosed σ (.ofTruth (truth item != negated)) m.branches 0).Holds
        { m with
          stack := below
          branches := .ofTruth (truth item != negated) :: m.branches
          opCount := m.opCount + 1 }
        { m with stack := below } :=
      ⟨(List.append_nil below).symm, rfl, ⟨[], rfl, rfl, rfl⟩, Nat.le_succ _, False.elim, rfl, rfl⟩
    obtain ⟨n, hn, hm', hbranches⟩ := run_arms hx hnest hk hrest
    refine ⟨⟨item, below, n, rfl, hn, hm'⟩, hbranches, ?_⟩
    intro arm harm place p p' hp hrun
    have hnesting : nesting 0 arm = some 0 := hnest arm harm
    exact (run_passed hp hnesting rfl hrun).2

/-- Whether a run comes to its end. -/
def completes (ctx : Context σ) (offset : Nat) (s : Script) (m : Machine σ) : Bool :=
  match run ctx offset s m with
  | .ok _ _ => true
  | .error _ _ => false

theorem completes_iff {s : Script} :
    completes ctx offset s m = true ↔ ∃ m', run ctx offset s m = .ok () m' := by
  unfold completes
  rcases run ctx offset s m with ⟨_, m'⟩ | ⟨err, m'⟩
  · exact ⟨fun _ => ⟨m', rfl⟩, fun _ => rfl⟩
  · constructor
    · intro h
      cases h
    · rintro ⟨m', h⟩
      cases h

/-- `IF OP_CODESEPARATOR 1 ELSE NOTIF 2 ENDIF ELSE 4 ENDIF` on a true item: the first arm runs, the
    second is passed over with the conditional in it, the third runs again. -/
theorem run_conditional_thrice :
    ∃ m' : Machine Unit,
      run ⟨.accepting, {}, true, []⟩ 0
        (conditional false [⟨⟨0xab⟩, []⟩, ⟨⟨0x51⟩, []⟩]
          [[opening true, ⟨⟨0x52⟩, []⟩, ending], [⟨⟨0x54⟩, []⟩]])
        { Machine.start () with stack := [[1]] } = .ok () m' ∧
      (∃ item below n, [[1]] = item :: below ∧
        runArms ⟨.accepting, {}, true, []⟩ (truth item != false) 1
          [[⟨⟨0xab⟩, []⟩, ⟨⟨0x51⟩, []⟩], [opening true, ⟨⟨0x52⟩, []⟩, ending], [⟨⟨0x54⟩, []⟩]]
          { Machine.start () with stack := below } = .ok () n ∧
        m' = { n with opCount := m'.opCount }) ∧
      m'.branches = [] := by
  have hnest : ∀ arm ∈ [[⟨⟨0xab⟩, []⟩, ⟨⟨0x51⟩, []⟩], [opening true, ⟨⟨0x52⟩, []⟩, ending],
      [⟨⟨0x54⟩, []⟩]], WellNested arm := by
    decide
  have hcompletes : completes ⟨.accepting, {}, true, []⟩ 0
      (conditional false [⟨⟨0xab⟩, []⟩, ⟨⟨0x51⟩, []⟩]
        [[opening true, ⟨⟨0x52⟩, []⟩, ending], [⟨⟨0x54⟩, []⟩]])
      { Machine.start () with stack := [[1]] } = true := by
    decide +kernel
  obtain ⟨m', hrun⟩ := completes_iff.1 hcompletes
  obtain ⟨hselected, hbranches, -⟩ := run_conditional hnest (by decide) hrun
  exact ⟨m', hrun, hselected, hbranches⟩

end Script

end SpendScript

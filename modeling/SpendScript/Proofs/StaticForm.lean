/-
  What is accepted is well formed as a whole, whatever branches were taken. A script that runs to its
  end has no instruction that is disabled or illegal, keeps the limits on pushes and operations, and
  closes all its conditionals (`Script.admissible_of_run`): these rules hold in every branch, the
  operation count only goes up, and the open conditionals are as many as the script shows. A run that
  is accepted goes through both scripts of the witness, each instruction once and in order
  (`Engine.accepted_scripts`).
-/
import Mathlib.Data.List.Basic
import SpendScript.Proofs.Engine.Phases
import SpendScript.Proofs.Machine.Conditionals
import SpendScript.Proofs.Machine.Frame

namespace SpendScript

variable {σ : Type}

/-! ## Balanced conditionals -/

/-- Whether the operation opens a conditional. -/
def Operation.isOpening : Operation → Bool
  | openIf _ => true
  | _ => false

namespace Script

/-- How many conditionals a script opens. -/
def openings (s : Script) : Nat := s.countP fun i => i.operation.isOpening

/-- How many conditionals a script closes. -/
def closings (s : Script) : Nat := s.countP fun i => i.operation = .endIf

/-- ELSE and ENDIF stand only where a conditional is open: one of `d`, or one that the script has
    opened and not yet closed. -/
def Enclosed (d : Nat) (s : Script) : Prop :=
  ∀ (k : Nat) (i : Instruction), s[k]? = some i → i.operation = .elseBranch ∨ i.operation = .endIf →
    closings (s.take k) < d + openings (s.take k)

theorem openings_cons (i : Instruction) (s : Script) :
    openings (i :: s) = openings s + if i.operation.isOpening then 1 else 0 :=
  List.countP_cons

theorem openings_append (s s' : Script) : openings (s ++ s') = openings s + openings s' :=
  List.countP_append

theorem closings_append (s s' : Script) : closings (s ++ s') = closings s + closings s' :=
  List.countP_append

theorem closings_cons (i : Instruction) (s : Script) :
    closings (i :: s) = closings s + if i.operation = .endIf then 1 else 0 := by
  unfold closings
  rw [List.countP_cons]
  simp

end Script

/-- An operation opens or closes one conditional at most, and ELSE and ENDIF need an open one. -/
theorem Operation.balance_of_nest {op : Operation} {d d' : Nat} (h : op.nest d = some d') :
    d' + (if op = endIf then 1 else 0) = d + (if op.isOpening then 1 else 0) ∧
      (op = elseBranch ∨ op = endIf → 0 < d) := by
  cases op with
  | elseBranch | endIf =>
    by_cases hd : d = 0
    · simp [nest, hd] at h
    · simp only [nest, hd, if_false, Option.some.injEq] at h
      simp [isOpening]
      omega
  | _ =>
    cases h
    simp [isOpening]

namespace Script

/-- What the scan for open conditionals says in terms of their number. -/
theorem balanced_of_nesting {s : Script} {d d' : Nat} (h : nesting d s = some d') :
    Enclosed d s ∧ d' + closings s = d + openings s := by
  induction s generalizing d with
  | nil =>
    cases h
    exact ⟨fun k i hi => by simp at hi, rfl⟩
  | cons i s ih =>
    obtain ⟨d₁, hnest, hrest⟩ := Option.bind_eq_some_iff.1 h
    obtain ⟨hbalance, hopen⟩ := Operation.balance_of_nest hnest
    obtain ⟨henclosed, hcount⟩ := ih hrest
    rw [closings_cons, openings_cons]
    refine ⟨?_, by omega⟩
    intro k j hj hop
    match k with
    | 0 =>
      obtain rfl : i = j := Option.some.inj hj
      have hpos := hopen hop
      simpa [closings, openings] using hpos
    | k + 1 =>
      have hk := henclosed k j hj hop
      rw [List.take_succ_cons, closings_cons, openings_cons]
      omega

end Script

/-! ## Steps and runs -/

/-- Moving between branches changes the number of open conditionals as the operation says. -/
theorem Operation.nest_of_move? {op : Operation} (hc : op.isConditional = true) {s s' : Stack}
    {bs bs' : Branches} (h : op.move? s bs = some (s', bs')) :
    op.nest bs.length = some bs'.length := by
  rcases eq_of_isConditional hc with ⟨negated, rfl⟩ | rfl | rfl
  · obtain ⟨b, rfl, -⟩ := exists_cons_of_move? h
    rfl
  · cases bs with
    | nil => cases h
    | cons b bs =>
      cases h
      rfl
  · cases bs with
    | nil => cases h
    | cons b bs =>
      cases h
      rfl

namespace Instruction

open MachineM

variable {ctx : Context σ} {offset : Nat} {i : Instruction} {m m' : Machine σ}

/-- A step leaves as many conditionals open as its operation says, and counts it. -/
theorem nest_of_step (h : i.step ctx offset m = .ok () m') :
    i.operation.nest m.branches.length = some m'.branches.length ∧
      (i.counted m).opCount ≤ m'.opCount := by
  rcases hc : i.isConditional with _ | _
  · -- Only the limits and the effect of the instruction come between the machines.
    obtain ⟨⟨-, -, hacts⟩, -⟩ := step_ok.1 h
    have hkept : m'.branches = m.branches ∧ (i.counted m).opCount ≤ m'.opCount := by
      unfold Acts at hacts
      rw [hc] at hacts
      split at hacts
      · have hafter := branches_of_perform hc ctx offset (i.counted m)
        rwa [hacts.2, counted_branches] at hafter
      · obtain rfl : m' = i.counted m := hacts
        exact ⟨counted_branches, Nat.le_refl _⟩
    rw [Operation.nest_of_not_isConditional hc, hkept.1]
    exact ⟨rfl, hkept.2⟩
  · obtain ⟨-, -, s, bs, hmove, rfl⟩ := (step_ok_of_isConditional hc).1 h
    refine ⟨Operation.nest_of_move? hc hmove, ?_⟩
    unfold counted
    split
    · exact Nat.le_succ _
    · exact Nat.le_refl _

end Instruction

namespace Script

variable {ctx : Context σ} {offset : Nat} {s : Script} {m m' : Machine σ}

/-- How many instructions of a script count as operations: those above the small number sixteen. -/
def operations (s : Script) : Nat := s.countP fun i => !i.isPush

theorem operations_cons (i : Instruction) (s : Script) :
    operations (i :: s) = operations s + if !i.isPush then 1 else 0 :=
  List.countP_cons

/-- What a script is like that can be run to its end, in whatever branches. -/
structure Admissible (s : Script) : Prop where
  allowed : ∀ i ∈ s, i.Allowed
  size : ∀ i ∈ s, i.data.length ≤ Limit.elementSize
  operations : operations s ≤ Limit.operations
  enclosed : Enclosed 0 s
  closed : openings s = closings s

theorem allowed_of_run (h : run ctx offset s m = .ok () m') :
    ∀ i ∈ s, i.Allowed ∧ (i.isPush = true → i.data.length ≤ Limit.elementSize) := by
  induction s generalizing offset m with
  | nil => exact fun i hi => absurd hi List.not_mem_nil
  | cons i s ih =>
    obtain ⟨m₁, hi, hs⟩ := run_cons_ok.1 h
    obtain ⟨⟨hallowed, hwithin, -⟩, -⟩ := Instruction.step_ok.1 hi
    intro j hj
    rcases List.mem_cons.1 hj with rfl | hj
    · exact ⟨hallowed, fun hpush => (Instruction.within_of_isPush hpush).1 hwithin⟩
    · exact ih hs j hj

/-- The operations of a script all count, and none may exceed the limit. -/
theorem operations_of_run (h : run ctx offset s m = .ok () m') :
    m.opCount + operations s ≤ max m.opCount Limit.operations := by
  induction s generalizing offset m with
  | nil => exact Nat.le_max_left _ _
  | cons i s ih =>
    obtain ⟨m₁, hi, hs⟩ := run_cons_ok.1 h
    obtain ⟨⟨-, hwithin, -⟩, -⟩ := Instruction.step_ok.1 hi
    have hcounted := (Instruction.nest_of_step hi).2
    have hrest := ih hs
    rw [operations_cons]
    by_cases hpush : i.isPush = true
    · rw [Instruction.counted_of_isPush hpush] at hcounted
      simp only [hpush, Bool.not_true, Bool.false_eq_true, if_false]
      omega
    · have hlimit := (Instruction.within_of_not_isPush hpush).1 hwithin
      rw [Instruction.counted_of_not_isPush hpush] at hcounted
      dsimp only at hcounted
      simp only [hpush, Bool.not_false, if_true]
      omega

theorem nesting_of_run (h : run ctx offset s m = .ok () m') :
    nesting m.branches.length s = some m'.branches.length := by
  induction s generalizing offset m with
  | nil =>
    cases h
    rfl
  | cons i s ih =>
    obtain ⟨m₁, hi, hs⟩ := run_cons_ok.1 h
    exact Option.bind_eq_some_iff.2 ⟨_, (Instruction.nest_of_step hi).1, ih hs⟩

/-- Only a push has an operand. -/
theorem data_of_not_isPush {i : Instruction} (hw : i.WellFormed) (hpush : ¬ i.isPush = true) :
    i.data = [] := by
  have hform : i.opcode.operandForm = .none := Opcode.operandForm_of_not_isPush hpush
  unfold Instruction.WellFormed at hw
  rwa [hform] at hw

/-- **Static form.** A script that is read from bytes and runs from start to end, with no conditional
    open before and after, is admissible. -/
theorem admissible_of_run {bs : Bytes} (hparse : parse bs = .ok s) (hcount : m.opCount = 0)
    (hb : m.branches = []) (hb' : m'.branches = []) (h : run ctx offset s m = .ok () m') :
    Admissible s := by
  have hallowed := allowed_of_run h
  have hoperations := operations_of_run h
  have hnesting := nesting_of_run h
  rw [hcount, Nat.zero_add, Nat.max_eq_right (Nat.zero_le _)] at hoperations
  rw [hb, hb'] at hnesting
  obtain ⟨henclosed, hclosed⟩ := balanced_of_nesting hnesting
  refine ⟨fun i hi => (hallowed i hi).1, ?_, hoperations, henclosed, ?_⟩
  · intro i hi
    by_cases hpush : i.isPush = true
    · exact (hallowed i hi).2 hpush
    · rw [data_of_not_isPush (wellFormed_of_parse hparse i hi) hpush]
      exact Nat.zero_le _
  · simp only [List.length_nil, Nat.zero_add] at hclosed
    exact hclosed.symm

end Script

/-! ## Accepted spends -/

namespace Engine

open Script (cleared close close_ok)

variable {e e' : Engine σ} {s₀ s₁ : Script}

/-- The first script of a run that comes to its end. -/
theorem Fresh.run_first (hf : e.Fresh s₀ s₁) (h : run e = .ok () e') :
    ∃ m, Script.run (e.contextOf s₀) 0 s₀ e.machine = .ok () m ∧ m.branches = [] ∧
      run (e.resumed 1 (cleared m)) = .ok () e' ∧
      visited e = Script.visits 0 0 s₀ ++ visited (e.resumed 1 (cleared m)) := by
  obtain ⟨m, done, e₂, hrun, hfinish, hrest, hvisited⟩ :=
    run_whole_ok hf.script hf.offset hf.first h
  rw [← outcome_ok, hf.outcome_finishScript, except_bind_ok] at hfinish
  obtain ⟨⟨_, m₁⟩, hclose, hnext⟩ := hfinish
  obtain ⟨hb, rfl⟩ := close_ok.1 (outcome_ok.1 hclose)
  cases hnext
  rw [hf.scriptIndex] at hvisited
  exact ⟨m, hrun, hb, hrest rfl, hvisited⟩

/-- The second script, and for a spend locked by a height the locking script behind it. -/
theorem Fresh.run_second (hf : e.Fresh s₀ s₁)
    (hlocking : e.spend.isLockHeight = true → e.lockingScript ≠ []) {m : Machine σ}
    (h : run (e.resumed 1 m) = .ok () e') :
    ∃ m₁, Script.run (e.contextOf s₁) 0 s₁ m = .ok () m₁ ∧ m₁.branches = [] ∧
      visited (e.resumed 1 m) = Script.visits 1 0 s₁ ++
        if e.spend.isLockHeight then Script.visits 2 0 e.lockingScript else [] := by
  obtain ⟨m₁, done, e₂, hrun, hfinish, hrest, hvisited⟩ :=
    run_whole_ok (hf.script_resumed m) rfl hf.second h
  cases hs : e.spend.isLockHeight with
  | false =>
    rw [← outcome_ok, hf.outcome_finishScript_hashLocked hs, except_bind_ok] at hfinish
    obtain ⟨⟨_, m₂⟩, hclose, hnext⟩ := hfinish
    obtain ⟨hb, rfl⟩ := close_ok.1 (outcome_ok.1 hclose)
    cases hnext
    exact ⟨m₁, hrun, hb, hvisited⟩
  | true =>
    rw [← outcome_ok, hf.outcome_finishScript_lockHeight hs (hlocking hs), except_bind_ok]
      at hfinish
    obtain ⟨⟨_, m₂⟩, hclose, hnext⟩ := hfinish
    obtain ⟨hb, rfl⟩ := close_ok.1 (outcome_ok.1 hclose)
    obtain ⟨_, -, hnext⟩ := except_bind_ok.1 hnext
    cases hnext
    -- The locking script is the last one, so that what it visits is all that is left.
    obtain ⟨m₃, done, e₃, -, hlast, -, hthird⟩ :=
      run_whole_ok (hf.script_relocked _) rfl (hlocking hs) (hrest rfl)
    rw [← outcome_ok, hf.outcome_finishScript_relocked, except_bind_ok] at hlast
    obtain ⟨_, -, hover⟩ := hlast
    cases hover
    refine ⟨m₁, hrun, hb, ?_⟩
    rw [hvisited]
    change Script.visits 1 0 s₁ ++ visited _ = _
    rw [hthird]
    change _ ++ (Script.visits 2 0 e.lockingScript ++ []) = _
    rw [List.append_nil]
    rfl

/-- **Whatever is accepted is well formed.** A run that is accepted executes every instruction of both
    witness scripts, once and in order, and behind them only the locking script of a height. Both
    scripts are admissible, whatever branches were taken. -/
theorem accepted_scripts {locking : Bytes} {witness : List Bytes} {F : Flags} {c : Checker σ}
    {start : σ} (he : ofWitness locking witness F c start = .ok e) (h : execute e = .ok () e') :
    ∃ w₀ w₁ rest s₀ s₁, witness = w₀ :: w₁ :: rest ∧ Script.parse w₀ = .ok s₀ ∧
      Script.parse w₁ = .ok s₁ ∧ s₀.Admissible ∧ s₁.Admissible ∧
      visited e = Script.visits 0 0 s₀ ++ (Script.visits 1 0 s₁ ++
        if e.spend.isLockHeight then Script.visits 2 0 e.lockingScript else []) := by
  obtain ⟨-, -, -, -, -, hmachine⟩ := settings_of_ofWitness he
  obtain ⟨w₀, w₁, rest, s₀, s₁, hwitness, hw₀, hw₁, -, hfresh⟩ := exists_fresh_of_ofWitness he
  have hlocking : e.spend.isLockHeight = true → e.lockingScript ≠ [] := by
    intro hs
    obtain ⟨data, hscript, -⟩ := lockingScript_of_isLockHeight he hs
    rw [hscript]
    exact List.cons_ne_nil _ _
  obtain ⟨e₁, e₂, hrun, -, -⟩ := execute_ok.1 h
  obtain ⟨m, hfirst, hb, hrest, hvisited⟩ := hfresh.run_first hrun
  obtain ⟨m₁, hsecond, hb₁, hvisited₁⟩ := hfresh.run_second hlocking hrest
  have hcleared : (cleared m).branches = [] := hb
  rw [hmachine] at hfirst
  refine ⟨w₀, w₁, rest, s₀, s₁, hwitness, hw₀, hw₁, ?_, ?_, ?_⟩
  · exact Script.admissible_of_run hw₀ rfl rfl hb hfirst
  · exact Script.admissible_of_run hw₁ rfl hcleared hb₁ hsecond
  · rw [hvisited, hvisited₁]

/-- `1` before `IF 1 ELSE DROP ENDIF`, locked by a height. The branch that is passed over is visited
    as well. -/
theorem accepted_scripts_untaken :
    ∃ e e' : Engine Unit,
      ofWitness [0x08, 0xd0, 0x07, 0, 0, 0, 0, 0, 0] [[0x51], [0x63, 0x51, 0x67, 0x75, 0x68]]
        { minimalData := true } .accepting () = .ok e ∧
      execute e = .ok () e' ∧
      Script.Admissible
        [⟨⟨0x63⟩, []⟩, ⟨⟨0x51⟩, []⟩, ⟨⟨0x67⟩, []⟩, ⟨⟨0x75⟩, []⟩, ⟨⟨0x68⟩, []⟩] ∧
      (visited e).take 6 =
        [⟨0, 0, ⟨⟨0x51⟩, []⟩⟩, ⟨1, 0, ⟨⟨0x63⟩, []⟩⟩, ⟨1, 1, ⟨⟨0x51⟩, []⟩⟩,
          ⟨1, 2, ⟨⟨0x67⟩, []⟩⟩, ⟨1, 3, ⟨⟨0x75⟩, []⟩⟩, ⟨1, 4, ⟨⟨0x68⟩, []⟩⟩] := by
  have haccepts : accepts (ofWitness [0x08, 0xd0, 0x07, 0, 0, 0, 0, 0, 0]
      [[0x51], [0x63, 0x51, 0x67, 0x75, 0x68]] { minimalData := true } .accepting ()) = true := by
    decide +kernel
  have hfirst : Script.parse [0x51] = .ok [⟨⟨0x51⟩, []⟩] := by
    decide +kernel
  have hsecond : Script.parse [0x63, 0x51, 0x67, 0x75, 0x68] = .ok
      [⟨⟨0x63⟩, []⟩, ⟨⟨0x51⟩, []⟩, ⟨⟨0x67⟩, []⟩, ⟨⟨0x75⟩, []⟩, ⟨⟨0x68⟩, []⟩] := by
    decide +kernel
  obtain ⟨e, e', he, hexec⟩ := accepts_iff.1 haccepts
  obtain ⟨w₀, w₁, rest, s₀, s₁, hcons, hw₀, hw₁, -, hadmissible, hvisited⟩ :=
    accepted_scripts he hexec
  cases hcons
  obtain rfl := Except.ok.inj (hfirst.symm.trans hw₀)
  obtain rfl := Except.ok.inj (hsecond.symm.trans hw₁)
  refine ⟨e, e', he, hexec, hadmissible, ?_⟩
  rw [hvisited]
  rfl

end Engine

end SpendScript

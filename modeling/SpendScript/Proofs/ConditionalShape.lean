/-
  The open conditionals of an engine. Whatever is called, they have the shape that lets the innermost one
  speak for all (`Calls.shaped`): a step leaves them as they are or moves between branches
  (`branches_step`), and a script ends only where none is open. What is skipped stays so up to its own
  ENDIF (`skipped_reached`). They are as many as the part of the running script before the next
  instruction shows (`Calls.balanced`): an instruction that fails is not behind the engine and has opened
  and closed nothing, as none that moves between branches overflows the stacks.
-/
import SpendScript.Proofs.Engine.Dead
import SpendScript.Proofs.Machine.BranchShape
import SpendScript.Proofs.StaticForm

namespace SpendScript

namespace Engine

open Script (openings closings openings_append closings_append openings_cons closings_cons)

variable {σ : Type} {c : Checker σ} {F : Flags} {start : σ} {locking : Bytes} {witness : List Bytes}
  {e f : Engine σ} {i : Instruction} {m : Machine σ} {inner outer : Branches}

/-! ## One step -/

/-- The end of a script changes nothing as long as a conditional is open. -/
theorem finishScript_keeps (f : Engine σ) :
    stateOf (finishScript f) = f ∨
      f.machine.branches = [] ∧ (stateOf (finishScript f)).machine.branches = [] ∧
        (stateOf (finishScript f)).offset = 0 := by
  by_cases hb : f.machine.branches = []
  · have hcheck : Preserves (fun g : Engine σ => g.machine.branches = [] ∧ g.offset = 0)
        (check false) := preserves_check false fun _ _ hg => hg
    have henter : Preserves (fun g : Engine σ => g.machine.branches = [] ∧ g.offset = 0)
        enterScript := fun _ hg => hg
    have hlater := (preserves_expandIfDue hcheck fun _ _ hg => hg).bind fun _ => henter
    rw [finishScript_of_closed hb]
    exact Or.inr ⟨hb, hlater f.departed ⟨hb, rfl⟩⟩
  · rw [finishScript_of_open hb]
    exact Or.inl rfl

/-- A step leaves the open conditionals, or moves between branches. -/
theorem branches_step (f : Engine σ) :
    (stateOf (step f)).machine.branches = f.machine.branches ∨
      ∃ i, f.next? = some i ∧ i.MovesTo f.machine (stateOf (step f)).machine.branches := by
  have hleft {i : Instruction} {m : Machine σ} (hnext : f.next? = some i)
      (hm : stateOf (i.step f.context f.offset f.machine) = m) :
      m.branches = f.machine.branches ∨
        ∃ i, f.next? = some i ∧ i.MovesTo f.machine m.branches := by
    rw [← hm]
    exact (i.branches_step f.context f.offset f.machine).imp_right fun h => ⟨i, hnext, h⟩
  have hsteps := steps_stateOf f
  generalize stateOf (step f) = g at hsteps
  cases hsteps with
  | ended => exact Or.inl rfl
  | failed hnext hi | within hnext hi => exact hleft hnext (congrArg stateOf hi)
  | @last i m hnext hi =>
    -- The end of a script is only reached without open conditionals, and it opens none.
    have hkept : (stateOf (finishScript (f.moved 1 m))).machine.branches = m.branches := by
      rcases finishScript_keeps (f.moved 1 m) with hstate | ⟨hb, hb', -⟩
      · rw [hstate]
        rfl
      · exact hb'.trans hb.symm
    have hmoved : m.branches = f.machine.branches ∨ _ := hleft hnext (congrArg stateOf hi)
    rwa [← hkept] at hmoved

/-! ## The shape -/

theorem shaped_step :
    Preserves (fun f : Engine σ => f.machine.branches.Shaped) (step : EngineM σ Bool) := by
  intro f hf
  rcases branches_step f with hsame | ⟨i, -, hc, s, hmove⟩
  · rw [hsame]
    exact hf
  · exact Operation.shaped_of_move? hc hf hmove

/-- **The shape is kept** by all calls. -/
theorem Calls.shaped (he : ofWitness locking witness F c start = .ok e) (hf : Calls e f) :
    f.machine.branches.Shaped := by
  have hstart : e.machine.branches.Shaped := by
    rw [machine_of_ofWitness he]
    exact Branches.shaped_nil
  exact hf.invariant (I := fun f => f.machine.branches.Shaped) hstart shaped_step
    (preserves_check true fun _ _ hg => hg) fun _ _ hg => hg

/-! ## What is skipped -/

/-- The next instruction is an ENDIF, and closes the innermost of these conditionals. -/
def Closes (f : Engine σ) (bs : Branches) : Prop :=
  f.machine.branches = bs ∧ ∃ i, f.next? = some i ∧ i.operation = .endIf

theorem skipped_step (h : f.machine.branches = inner ++ .skipped :: outer)
    (hopen : ¬ f.Closes (.skipped :: outer)) :
    ∃ inner', (stateOf (step f)).machine.branches = inner' ++ .skipped :: outer := by
  rcases branches_step f with hsame | ⟨i, hnext, hc, s, hmove⟩
  · exact ⟨inner, hsame.trans h⟩
  · rw [h] at hmove
    refine Operation.skipped_of_move? hc (fun hend hinner => ?_) hmove
    rw [hinner] at h
    exact hopen ⟨h, i, hnext, hend⟩

/-- **What is skipped stays so** until a step comes to its own ENDIF. -/
theorem skipped_reached {n : Nat} (h : f.machine.branches = inner ++ .skipped :: outer)
    (hopen : ∀ k < n, ¬ (reached k f).Closes (.skipped :: outer)) :
    ∃ inner', (reached n f).machine.branches = inner' ++ .skipped :: outer := by
  induction n with
  | zero => exact ⟨inner, h⟩
  | succ n ih =>
    obtain ⟨inner', hinner⟩ := ih fun k hk => hopen k (Nat.lt_succ_of_lt hk)
    exact skipped_step hinner (hopen n (Nat.lt_succ_self n))

/-! ## The depth -/

/-- As many conditionals are open as the running script shows before the next instruction. -/
def Balanced (f : Engine σ) : Prop :=
  f.machine.branches.length + closings (f.script.take f.offset) = openings (f.script.take f.offset)

theorem balanced_of_start (hb : f.machine.branches = []) (ho : f.offset = 0) : Balanced f := by
  unfold Balanced
  rw [hb, ho]
  rfl

theorem Balanced.next (h : Balanced f) (hnext : f.next? = some i)
    (hi : i.step f.context f.offset f.machine = .ok () m) : Balanced (f.moved 1 m) := by
  have hbalance := (Operation.balance_of_nest (Instruction.nest_of_step hi).1).1
  unfold Balanced at h ⊢
  rw [take_moved hnext, openings_append, closings_append, openings_cons, closings_cons]
  change m.branches.length + (_ + (0 + _)) = _ + (0 + _)
  omega

theorem balanced_step (h : Balanced f) (hroom : Roomy f) : Balanced (stateOf (step f)) := by
  have hsteps := steps_stateOf f
  generalize stateOf (step f) = g at hsteps
  cases hsteps with
  | ended => exact h
  | @failed i err m hnext hi =>
    have hsame : m.branches = f.machine.branches :=
      Instruction.branches_of_step_error hi (hroom i hnext)
    change m.branches.length + _ = _
    rw [hsame]
    exact h
  | within hnext hi => exact h.next hnext hi
  | @last i m hnext hi =>
    rcases finishScript_keeps (f.moved 1 m) with hstate | ⟨-, hb, ho⟩
    · rw [hstate]
      exact h.next hnext hi
    · exact balanced_of_start hb ho

/-- **The depth is what the script shows**, after all calls. -/
theorem Calls.balanced (he : ofWitness locking witness F c start = .ok e) (hf : Calls e f) :
    Balanced f := by
  have hstart : Balanced e := by
    obtain ⟨_, _, _, _, _, -, -, -, -, hfresh⟩ := exists_fresh_of_ofWitness he
    refine balanced_of_start ?_ hfresh.offset
    rw [machine_of_ofWitness he]
    rfl
  have hcheck : Preserves Balanced (check true : EngineM σ Unit) :=
    preserves_check true fun _ _ hg => hg
  have hall : Roomy f ∧ Balanced f :=
    hf.invariant_of_kept (I := fun f => Roomy f ∧ Balanced f) he ⟨Calls.start.roomy he, hstart⟩
      (fun _ hk h => ⟨roomy_step he hk h.1, balanced_step h.2 h.1⟩)
      (fun g h => ⟨roomy_check true g h.1, hcheck g h.2⟩) fun _ _ h => h
  exact hall.2

/-! ## All of it -/

/-- **The open conditionals of an engine.** Whatever steps and executions come before, whether they
    succeed or fail, the conditionals that are open are taken from the outermost one inwards, up to one
    that may not be, in which all others are skipped. So instructions run just where all conditionals
    around are taken, though only the innermost one is looked at. What is skipped stays in its place,
    and nothing in it runs, until a step comes to its own ENDIF, whatever ELSE comes before. And IF and
    NOTIF are as many behind the engine, in the running script, as ENDIF and open conditionals
    together. -/
theorem conditionals_shaped (he : ofWitness locking witness F c start = .ok e) (hf : Calls e f) :
    f.machine.branches.Shaped ∧
    (f.machine.branches.executing = true ↔ ∀ b ∈ f.machine.branches, b = .taken) ∧
    (∀ (n : Nat) (inner outer : Branches), f.machine.branches = inner ++ .skipped :: outer →
      (∀ k < n, ¬ (reached k f).Closes (.skipped :: outer)) →
        (∃ inner', (reached n f).machine.branches = inner' ++ .skipped :: outer) ∧
          (reached n f).machine.branches.executing = false) ∧
    f.machine.branches.length + closings (f.script.take f.offset) =
      openings (f.script.take f.offset) := by
  have hshaped : f.machine.branches.Shaped := hf.shaped he
  refine ⟨hshaped, hshaped.executing_iff, fun n inner outer h hopen => ?_, hf.balanced he⟩
  obtain ⟨inner', hinner⟩ := skipped_reached h hopen
  have hlater : (reached n f).machine.branches.Shaped := (hf.reached n).shaped he
  rw [hinner] at hlater
  refine ⟨⟨inner', hinner⟩, ?_⟩
  rw [hinner]
  exact hlater.not_executing

/-- `IF IF ELSE ELSE ENDIF ENDIF 1` on a false item. The inner conditional is skipped, and two ELSE do
    not change that. -/
theorem conditionals_shaped_nested :
    ∃ e : Engine Unit,
      ofWitness [0x08, 0xd0, 0x07, 0, 0, 0, 0, 0, 0]
        [[0x00], [0x63, 0x63, 0x67, 0x67, 0x68, 0x68, 0x51]] {} .accepting () = .ok e ∧
      (reached 3 e).machine.branches = [.skipped, .untaken] ∧
      (reached 3 e).machine.branches.Shaped ∧
      (∃ inner, (reached 2 (reached 3 e)).machine.branches = inner ++ [.skipped, .untaken]) ∧
      (reached 2 (reached 3 e)).machine.branches.executing = false ∧
      2 + closings ((reached 3 e).script.take (reached 3 e).offset) =
        openings ((reached 3 e).script.take (reached 3 e).offset) := by
  have hrun : (do
      let e ← ofWitness [0x08, 0xd0, 0x07, 0, 0, 0, 0, 0, 0]
        [[0x00], [0x63, 0x63, 0x67, 0x67, 0x68, 0x68, 0x51]] {} .accepting ()
      return ((reached 3 e).machine.branches, (reached 3 e).next?.map Instruction.operation,
        (reached 1 (reached 3 e)).next?.map Instruction.operation)) =
        .ok ([.skipped, .untaken], some .elseBranch, some .elseBranch) := by
    decide +kernel
  obtain ⟨e, he, hcomputed⟩ := except_bind_ok.1 hrun
  obtain ⟨hbranches, hfirst, hsecond⟩ : (reached 3 e).machine.branches = [.skipped, .untaken] ∧
      (reached 3 e).next?.map Instruction.operation = some .elseBranch ∧
      (reached 1 (reached 3 e)).next?.map Instruction.operation = some .elseBranch := by
    simpa using Except.ok.inj hcomputed
  obtain ⟨hshaped, -, hskipped, hbalanced⟩ := conditionals_shaped he (Calls.start.reached 3)
  have hopen {f : Engine Unit} (h : f.next?.map Instruction.operation = some .elseBranch)
      (bs : Branches) : ¬ f.Closes bs := by
    rintro ⟨-, i, hnext, hend⟩
    rw [hnext, Option.map_some, hend] at h
    cases h
  obtain ⟨hlater, hpassed⟩ := hskipped 2 [] [.untaken] hbranches fun k hk => by
    match k with
    | 0 => exact hopen hfirst _
    | 1 => exact hopen hsecond _
  rw [hbranches] at hbalanced
  exact ⟨e, he, hbranches, hshaped, hlater, hpassed, hbalanced⟩

end Engine

end SpendScript

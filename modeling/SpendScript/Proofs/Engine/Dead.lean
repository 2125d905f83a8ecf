/-
  Engines that can no longer be accepted. An engine is dead when it has no next instruction, or one that
  is stuck (`Dead`). All its calls fail and leave it dead (`Calls.dead`). A failed step leaves the engine
  dead unless it has taken operands off (`dead_of_step_error`), and so does a failed execution
  (`dead_of_execute_error`). Only an instruction that adds to the stacks can find more items than are
  allowed (`Roomy`), so an engine that is not dead is within the bound (`Sound`).
-/
import SpendScript.Proofs.Engine.Calls
import SpendScript.Proofs.Machine.Stuck

namespace SpendScript

namespace Engine

variable {σ : Type} {c : Checker σ} {F : Flags} {start : σ} {locking : Bytes} {witness : List Bytes}
  {e f f' g : Engine σ} {err : ScriptError}

/-! ## Runs and failures -/

/-- A run that fails comes to a step that fails. -/
theorem exists_of_run_error (h : run f = .error err f') :
    ∃ n, step (reached n f) = .error err f' := by
  fun_induction run f with
  | case1 f err₁ f₁ hs =>
    cases h
    exact ⟨0, hs⟩
  | case2 => cases h
  | case3 f f₁ hs _ ih =>
    obtain ⟨n, hn⟩ := ih h
    refine ⟨n + 1, ?_⟩
    rw [← reached_step, hs]
    exact hn

/-- A run that succeeds leaves nothing to run. -/
theorem next?_of_run_ok (h : run f = .ok () f') : f'.next? = none := by
  fun_induction run f with
  | case1 => cases h
  | case2 f f₁ hs =>
    cases h
    exact next?_of_done hs
  | case3 f f₁ hs _ ih => exact ih h

/-- What is left when the run or the final check fails. -/
theorem execute_error_cases (h : execute f = .error err f') :
    (∃ n g, step (reached n f) = .error err g ∧ f' = { g with status := .failed }) ∨
      f'.next? = none ∧ f'.status = .failed := by
  rcases execute_error.1 h with ⟨f₁, hrun, rfl⟩ | ⟨f₁, f₂, hrun, hcheck, rfl⟩
  · obtain ⟨n, hn⟩ := exists_of_run_error hrun
    exact Or.inl ⟨n, f₁, hn, rfl⟩
  · obtain ⟨below, hbelow⟩ := stateOf_check true f₁
    rw [hcheck] at hbelow
    obtain rfl : f₂ = _ := hbelow
    have hnext : f₁.next? = none := next?_of_run_ok hrun
    exact Or.inr ⟨hnext, rfl⟩

theorem status_of_step_error (h : step f = .error err f') : f'.status = .failed := by
  unfold step at h
  split at h <;> cases h
  rfl

/-! ## Dead engines -/

/-- There is no next instruction, or it is stuck. -/
def Dead (f : Engine σ) : Prop := ∀ i, f.next? = some i → i.Stuck f.context f.offset f.machine

theorem dead_of_next?_none (h : f.next? = none) : Dead f := by
  intro i hi
  rw [h] at hi
  cases hi

/-- The status does not matter. -/
theorem Dead.withStatus (h : Dead f) (status : Status) : Dead { f with status := status } := h

theorem Dead.step (h : Dead f) : ∃ err f', step f = .error err f' ∧ Dead f' := by
  rcases hnext : f.next? with _ | i
  · exact ⟨_, _, step_of_next?_none hnext, dead_of_next?_none hnext⟩
  · have ho : f.offset < f.script.length := (List.getElem?_eq_some_iff.1 hnext).1
    have hi : f.script[f.offset] = i := (List.getElem?_eq_some_iff.1 hnext).2
    obtain ⟨err, m, hstep, hstuck⟩ := (h i hnext).step
    refine ⟨err, _, step_of_advance_error (advance_of_step_error ho (hi ▸ hstep)), fun j hj => ?_⟩
    obtain rfl : i = j := Option.some.inj (hnext.symm.trans hj)
    exact hstuck

theorem Dead.execute (h : Dead f) :
    ∃ err f', execute f = .error err f' ∧ Dead f' ∧ f'.status = .failed := by
  obtain ⟨err, f', hstep, hdead⟩ := h.step
  have hrun : run f = .error err f' := by rw [run_eq, hstep]
  exact ⟨err, _, execute_error.2 (Or.inl ⟨f', hrun, rfl⟩), hdead, rfl⟩

/-- Whatever is done with a dead engine, it stays dead. -/
theorem Calls.dead (h : Dead f) (hg : Calls f g) : Dead g := by
  induction hg with
  | start => exact h
  | step _ ih =>
    obtain ⟨err, f', hstep, hdead⟩ := ih.step
    rw [hstep]
    exact hdead
  | execute _ ih =>
    obtain ⟨err, f', hexecute, hdead, -⟩ := ih.execute
    rw [hexecute]
    exact hdead

/-- An engine that has failed and is dead stays failed. -/
theorem Calls.status (h : Dead f) (hs : f.status = .failed) (hg : Calls f g) :
    g.status = .failed := by
  cases hg with
  | start => exact hs
  | step hg =>
    obtain ⟨err, f', hstep, -⟩ := (hg.dead h).step
    rw [hstep]
    exact status_of_step_error hstep
  | execute hg =>
    obtain ⟨err, f', hexecute, -, hstatus⟩ := (hg.dead h).execute
    rw [hexecute]
    exact hstatus

/-! ## The bound on the stacks -/

/-- The engine is dead or within the bound on the stacks. -/
def Sound (f : Engine σ) : Prop := Dead f ∨ f.machine.items ≤ Limit.stackItems

/-- The machine behind the end of a script holds no more items. -/
theorem items_cleared_le (m : Machine σ) : (Script.cleared m).items ≤ m.items :=
  Nat.le_add_right _ _

/-- The locking script of a height lock adds to the stack. -/
theorem grows_of_isLockHeight (he : ofWitness locking witness F c start = .ok e) (hk : Kept e f)
    (hs : f.spend.isLockHeight = true) : ∃ i, f.lockingScript = [i] ∧ i.operation.grows = true := by
  obtain ⟨data, hscript, -⟩ := lockingScript_of_isLockHeight he (hk.spend ▸ hs)
  exact ⟨_, hk.lockingScript.trans hscript, rfl⟩

/-- After both scripts of the witness have run, the locking script is the next one. -/
theorem next?_relocked (hr : Ready f) (hdue : f.Due) (m : Machine σ) :
    (f.relocked m).next? = f.lockingScript[0]? := by
  obtain ⟨hlength, -⟩ := hr.due hdue.1 hdue.2.1 hdue.2.2
  unfold next? script relocked
  dsimp only
  rw [hdue.1, List.getD_append_right _ _ _ _ (Nat.le_of_eq hlength), hlength]
  rfl

/-- No more items than are allowed are on the stacks where the next instruction is none that grows
    them. -/
def Roomy (f : Engine σ) : Prop :=
  ∀ i, f.next? = some i → i.operation.grows = false → f.machine.items ≤ Limit.stackItems

theorem roomy_of_items (h : f.machine.items ≤ Limit.stackItems) : Roomy f := fun _ _ _ => h

theorem roomy_of_next?_none (h : f.next? = none) : Roomy f := by
  intro i hi
  rw [h] at hi
  cases hi

/-- Too many items are left to an instruction that adds to them, and it fails again and again. -/
theorem Roomy.sound (h : Roomy f) : Sound f := by
  rcases Nat.lt_or_ge Limit.stackItems f.machine.items with hitems | hitems
  · refine Or.inl fun i hnext => ?_
    rcases hgrows : i.operation.grows with _ | _
    · exact absurd (h i hnext hgrows) (Nat.not_le_of_lt hitems)
    · exact Instruction.stuck_of_grows hgrows hitems
  · exact Or.inr hitems

/-- A step that succeeds keeps the bound, but for the one that adds the locking script, and there the
    next instruction is a push. An instruction that fails adds nothing if it is none that grows. -/
theorem roomy_step (he : ofWitness locking witness F c start = .ok e) (hk : Kept e f)
    (h : Roomy f) : Roomy (stateOf (step f)) := by
  have hresults := results_step (hk.ready he)
  generalize step f = r at hresults
  cases hresults with
  | ended hnext => exact roomy_of_next?_none hnext
  | refused _ _ _ _ hg => exact roomy_of_next?_none hg
  | within _ hi => exact roomy_of_items (Instruction.step_ok.1 hi).2
  | @next i m _ hi =>
    exact roomy_of_items (Nat.le_trans (items_cleared_le m) (Instruction.step_ok.1 hi).2)
  | @failed i _ m hnext hi =>
    intro j hj hgrows
    obtain rfl : i = j := Option.some.inj (hnext.symm.trans hj)
    have hstate : stateOf (i.execute f.context f.offset f.machine) = m := by
      rcases Instruction.step_error_cases hi with hx | ⟨hx, -⟩ <;> rw [hx] <;> rfl
    rw [← hstate]
    exact Nat.le_trans (Instruction.items_execute_le hgrows _ _ _) (h i hnext hgrows)
  | @expands i m _ _ _ hdue =>
    intro j hj hgrows
    have hready : Ready (f.moved 1 m) := ⟨(hk.ready he).full, (hk.ready he).due⟩
    obtain ⟨push, hscript, hpush⟩ := grows_of_isLockHeight he hk hdue.2.1
    have hnext := (next?_relocked hready hdue (Script.cleared m)).symm.trans hj
    rw [show (f.moved 1 m).lockingScript = [push] from hscript] at hnext
    obtain rfl : push = j := Option.some.inj hnext
    rw [hpush] at hgrows
    cases hgrows

/-- The check leaves the engine as it is, or at the end of its run. -/
theorem roomy_check (final : Bool) : Preserves Roomy (check final : EngineM σ Unit) := by
  intro f hf
  by_cases hend : f.scriptIndex < f.scripts.length
  · unfold check
    rw [if_pos hend]
    exact hf
  · obtain ⟨below, hbelow⟩ := stateOf_check final f
    rw [hbelow]
    exact roomy_of_next?_none (next?_of_length_le (Nat.le_of_not_lt hend))

theorem Calls.roomy (he : ofWitness locking witness F c start = .ok e) (hf : Calls e f) :
    Roomy f := by
  have hstart : Roomy e := by
    refine roomy_of_items ?_
    rw [machine_of_ofWitness he]
    exact Nat.zero_le _
  exact hf.invariant_of_kept he hstart (fun _ hk h => roomy_step he hk h) (roomy_check true)
    fun _ _ h => h

theorem Calls.sound (he : ofWitness locking witness F c start = .ok e) (hf : Calls e f) :
    Sound f := (hf.roomy he).sound

/-! ## After a failure -/

/-- The failure is none that other operands or another answer about a lock could undo. -/
structure Lasting (err : ScriptError) (f : Engine σ) : Prop where
  operands : ∀ i, f.next? = some i → i.operation.takesOperands = true →
    err = .tooManyOperations ∨ err = .stack .empty
  locks : err = .unsatisfiedLockTime → f.checker.LocksFixed

theorem dead_of_step_error (hr : Ready f) (hs : Sound f) (h : step f = .error err f')
    (hl : Lasting err f') : Dead f' := by
  rcases hs with hdead | hitems
  · obtain ⟨_, _, hstep, hdead'⟩ := hdead.step
    rw [h] at hstep
    cases hstep
    exact hdead'
  · have hresults := results_step hr
    rw [h] at hresults
    cases hresults with
    | ended hnext => exact dead_of_next?_none hnext
    | refused _ _ _ _ hg => exact dead_of_next?_none hg
    | @failed i _ m hnext hi =>
      intro j hj
      obtain rfl : i = j := Option.some.inj (hnext.symm.trans hj)
      exact Instruction.stuck_of_step_error hi (Or.inr hitems) (hl.operands i hnext) hl.locks

theorem dead_of_execute_error (he : ofWitness locking witness F c start = .ok e) (hf : Calls e f)
    (h : execute f = .error err f') (hl : Lasting err f') : Dead f' := by
  rcases execute_error_cases h with ⟨n, g, hn, rfl⟩ | ⟨hnext, -⟩
  · have hg : Calls e (Engine.reached n f) := hf.reached n
    have hready : Ready (Engine.reached n f) := (hg.kept (kept_of_ofWitness he)).ready he
    have hlasting : Lasting err g := ⟨hl.operands, hl.locks⟩
    have hdead : Dead g := dead_of_step_error hready (hg.sound he) hn hlasting
    exact hdead.withStatus .failed
  · exact dead_of_next?_none hnext

end Engine

end SpendScript

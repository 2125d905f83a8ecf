/-
  How steps fail, on any engine. The run is over, the next instruction fails, or the end of its script is
  refused (`Engine.step_error_cases`), and the end of a script has errors of its own (`isClosing`).
-/
import SpendScript.Proofs.Engine.Walk
import SpendScript.Proofs.Machine.Failure

namespace SpendScript

/-- The errors of the end of a script. -/
def ScriptError.isClosing : ScriptError → Bool
  | .missingEndIf | .unfinished | .emptyStack | .cleanStack _ | .scriptFailed | .parse _ => true
  | _ => false

namespace Engine

variable {σ : Type} {e e' : Engine σ} {err : ScriptError} {i : Instruction} {m : Machine σ}

/-- The error of a call, if it fails. -/
def failureOf {α : Type} : EStateM.Result ScriptError (Engine σ) α → Option ScriptError
  | .ok _ _ => none
  | .error err _ => some err

/-- An action that comes with the end of a script. -/
abbrev Closing {α : Type} (x : EngineM σ α) : Prop := Raises (fun err _ => err.isClosing = true) x

theorem closing_check (final : Bool) : Closing (check final : EngineM σ Unit) := by
  intro e err e' h
  unfold check at h
  split at h
  · cases h
    rfl
  · split at h
    · cases h
      rfl
    · split at h
      · cases h
        rfl
      · dsimp only at h
        split at h <;> cases h
        rfl

theorem closing_finishScript : Closing (finishScript : EngineM σ Bool) := by
  have hleave : Closing (leaveScript : EngineM σ Unit) := by
    intro e err e' h
    unfold leaveScript at h
    split at h <;> cases h
    rfl
  have hexpand : Closing (expandIfDue : EngineM σ Unit) := by
    intro e err e' h
    unfold expandIfDue expand at h
    split at h
    · split at h
      · next hcheck =>
        cases h
        exact closing_check false _ _ _ hcheck
      · dsimp only at h
        split at h <;> cases h
        rfl
    · cases h
  have henter : Closing (enterScript : EngineM σ Bool) := by
    intro e err e' h
    cases h
  exact hleave.bind fun _ => hexpand.bind fun _ => henter

theorem step_of_instruction_error (hnext : e.next? = some i)
    (hi : i.step e.context e.offset e.machine = .error err m) :
    step e = .error err { e with machine := m, status := .failed } := by
  unfold step advance
  rw [hnext]
  dsimp only
  rw [hi]

/-- **Why a step fails.** -/
theorem step_error_cases (h : step e = .error err e') :
    (e.next? = none ∧ err = e.pastEnd) ∨
      (∃ i m, e.next? = some i ∧ i.step e.context e.offset e.machine = .error err m) ∨
      err.isClosing = true := by
  rcases hnext : e.next? with _ | i
  · rw [step_of_next?_none hnext] at h
    cases h
    exact Or.inl ⟨rfl, rfl⟩
  · refine Or.inr ?_
    rcases hi : i.step e.context e.offset e.machine with ⟨_, m⟩ | ⟨err', m⟩
    · right
      unfold step advance at h
      rw [hnext] at h
      dsimp only at h
      rw [hi] at h
      dsimp only at h
      split at h
      · cases h
      · next hadvance =>
        cases h
        split at hadvance
        · cases hadvance
        · exact closing_finishScript _ _ _ hadvance
    · rw [step_of_instruction_error hnext hi] at h
      cases h
      exact Or.inl ⟨i, m, rfl, hi⟩

end Engine

end SpendScript

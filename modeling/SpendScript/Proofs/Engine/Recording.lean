/-
  Runs that keep the questions to their checker. Keeping them changes nothing else: the recorded
  engine is coupled to the engine itself, under a coupling that is exact (`engines_recorded`).
-/
import SpendScript.Proofs.Engine.Coupling

namespace SpendScript

variable {σ : Type}

/-- The signature that a question is about, if it is about one. -/
def Query.signature? : Query → Option SignatureQuery
  | .signature q => some q
  | .lockTime _ => none
  | .sequence _ => none

/-- The second machine keeps the questions to its checker. -/
def Coupling.recording (σ : Type) : Coupling σ (σ × List Query) :=
  ofCheckers (fun s t => t.1 = s) True

theorem Coupling.settings_recording (c : Checker σ) (F : Flags) :
    (Coupling.recording σ).Settings c F c.recording F := by
  refine ⟨.refl F, fun _ => rfl, ?_, ?_, ?_, fun h => absurd rfl h, fun h => absurd rfl h⟩
  all_goals
    rintro q _ ⟨s, asked⟩ rfl
    exact ⟨rfl, rfl⟩

namespace Engine

/-- The engine with a checker that keeps the questions put to it, none so far. -/
def recorded (e : Engine σ) : Engine (σ × List Query) :=
  e.refit e.checker.recording e.flags
    { stack := e.machine.stack
      alt := e.machine.alt
      branches := e.machine.branches
      opCount := e.machine.opCount
      codeStart := e.machine.codeStart
      checker := (e.machine.checker, []) }

/-- The signatures asked about so far, the latest first. -/
def signatureChecks (e : Engine (σ × List Query)) : List SignatureQuery :=
  e.machine.checker.2.filterMap Query.signature?

theorem engines_recorded (e : Engine σ) : (Coupling.recording σ).Engines e e.recorded := by
  refine ⟨_, _, _, rfl, Coupling.settings_recording _ _, ?_⟩
  exact ⟨(List.append_nil _).symm, rfl, rfl, Nat.le_refl _, fun _ => rfl, rfl, rfl⟩

/-- A recorded run comes to its end where the run itself does. -/
theorem run_recorded {e e' : Engine σ} (h : run e = .ok () e') :
    ∃ f, run e.recorded = .ok () f ∧ (Coupling.recording σ).Engines e' f :=
  (follows_run (Coupling.level_ofCheckers _ True)).ok (engines_recorded e) h

end Engine

end SpendScript

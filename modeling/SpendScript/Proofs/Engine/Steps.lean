/-
  Runs of an engine as sequences of steps. `after n` is the engine after `n` steps, if none of them
  failed. A run is its first step and the run of what that leaves (`run_eq`); when the last
  instruction has run there is no next one, so every further step fails (`next?_of_done`,
  `step_of_next?_none`).
-/
import SpendScript.Engine.Run
import SpendScript.Proofs.Machine.Sequence

namespace SpendScript

namespace Engine

variable {σ : Type}

/-- The engine after `n` steps, unless one of them fails. -/
def after : Nat → Engine σ → Option (Engine σ)
  | 0, e => some e
  | n + 1, e =>
    match step e with
    | .ok _ e' => after n e'
    | .error _ _ => none

/-- A run is its first step and the run of what that leaves. -/
theorem run_eq (e : Engine σ) :
    run e = match step e with
      | .error err e' => .error err e'
      | .ok true e' => .ok () e'
      | .ok false e' => run e' := by
  rw [run]
  split <;> next h => simp only [h]

theorem run_ok {e e' : Engine σ} :
    run e = .ok () e' ↔
      step e = .ok true e' ∨ ∃ e₁, step e = .ok false e₁ ∧ run e₁ = .ok () e' := by
  rw [run_eq]
  rcases hs : step e with ⟨done, e₁⟩ | ⟨err, e₁⟩
  · cases done with
    | true =>
      constructor
      · intro h
        cases h
        exact Or.inl rfl
      · rintro (h | ⟨e₂, h, -⟩)
        · cases h
          rfl
        · cases h
    | false =>
      constructor
      · intro h
        exact Or.inr ⟨e₁, rfl, h⟩
      · rintro (h | ⟨e₂, h, hr⟩)
        · cases h
        · cases h
          exact hr
  · constructor
    · intro h
      cases h
    · rintro (h | ⟨e₂, h, -⟩) <;> cases h

/-- A step is an advance that marks the engine as failed when it fails. -/
theorem step_ok {e e' : Engine σ} {done : Bool} :
    step e = .ok done e' ↔ advance e = .ok done e' := by
  unfold step
  rcases advance e with ⟨b, e₁⟩ | ⟨err, e₁⟩
  · exact Iff.rfl
  · constructor <;> intro h <;> cases h

theorem step_of_advance_error {e e' : Engine σ} {err : ScriptError}
    (h : advance e = .error err e') : step e = .error err { e' with status := .failed } := by
  unfold step
  rw [h]

theorem step_of_next?_none {e : Engine σ} (h : e.next? = none) :
    step e = .error e.pastEnd { e with status := .failed } := by
  unfold step advance
  rw [h]

theorem next?_of_length_le {e : Engine σ} (h : e.scripts.length ≤ e.scriptIndex) :
    e.next? = none := by
  have hs : e.script = [] := by
    unfold script
    rw [List.getD_eq_getElem?_getD, List.getElem?_eq_none h]
    rfl
  unfold next?
  rw [hs, List.getElem?_nil]

theorem next?_of_enterScript {e e' : Engine σ} (h : enterScript e = .ok true e') :
    e'.next? = none := by
  unfold enterScript at h
  dsimp only at h
  obtain ⟨hd, he⟩ := EStateM.Result.ok.inj h
  apply next?_of_length_le
  rw [← he]
  exact of_decide_eq_true hd

/-- After the last instruction there is no next one. -/
theorem next?_of_done {e e' : Engine σ} (h : step e = .ok true e') : e'.next? = none := by
  rw [step_ok] at h
  unfold advance at h
  split at h
  · cases h
  · split at h
    · cases h
    · dsimp only at h
      split at h
      · cases h
      · unfold finishScript at h
        obtain ⟨_, e₁, -, h⟩ := bind_ok.1 h
        obtain ⟨_, e₂, -, h⟩ := bind_ok.1 h
        exact next?_of_enterScript h

theorem after_succ_of_next?_none {e : Engine σ} (h : e.next? = none) (n : Nat) :
    after (n + 1) e = none := by
  unfold after
  rw [step_of_next?_none h]

/-- The engine behind the end of a script. -/
def departed (e : Engine σ) : Engine σ :=
  { e with
    scriptIndex := e.scriptIndex + 1
    offset := 0
    machine := { e.machine with alt := [], opCount := 0 } }

theorem mustExpand_iff {e : Engine σ} : e.mustExpand = true ↔
    e.scriptIndex = 2 ∧ e.spend.isLockHeight = true ∧ e.expanded = false := by
  unfold mustExpand
  rw [Bool.and_eq_true, Bool.and_eq_true, decide_eq_true_iff, Bool.not_eq_true', and_assoc]

/-- An engine accepts when its run ends and the final check passes. -/
theorem execute_ok {e e' : Engine σ} :
    execute e = .ok () e' ↔ ∃ e₁ e₂, run e = .ok () e₁ ∧ check true e₁ = .ok () e₂ ∧
      e' = { e₂ with status := .success } := by
  have hseq (e₂ : Engine σ) : (do run; check true : EngineM σ Unit) e = .ok () e₂ ↔
      ∃ e₁, run e = .ok () e₁ ∧ check true e₁ = .ok () e₂ := by
    refine Iff.trans bind_ok ?_
    exact ⟨fun ⟨_, e₁, h⟩ => ⟨e₁, h⟩, fun ⟨e₁, h⟩ => ⟨(), e₁, h⟩⟩
  unfold execute
  rcases hx : (do run; check true : EngineM σ Unit) e with ⟨_, e₂⟩ | ⟨err, e₂⟩
  · constructor
    · intro h
      cases h
      obtain ⟨e₁, hr, hc⟩ := (hseq e₂).1 hx
      exact ⟨e₁, e₂, hr, hc, rfl⟩
    · rintro ⟨e₁, e₃, hr, hc, rfl⟩
      have h₃ := (hseq e₃).2 ⟨e₁, hr, hc⟩
      rw [hx] at h₃
      cases h₃
      rfl
  · constructor
    · intro h
      cases h
    · rintro ⟨e₁, e₃, hr, hc, rfl⟩
      have h₃ := (hseq e₃).2 ⟨e₁, hr, hc⟩
      rw [hx] at h₃
      cases h₃

/-- An engine does not accept when its run fails or ends where the final check fails. -/
theorem execute_error {e e' : Engine σ} {err : ScriptError} :
    execute e = .error err e' ↔
      (∃ e₁, run e = .error err e₁ ∧ e' = { e₁ with status := .failed }) ∨
        ∃ e₁ e₂, run e = .ok () e₁ ∧ check true e₁ = .error err e₂ ∧
          e' = { e₂ with status := .failed } := by
  unfold execute
  rcases hr : run e with ⟨_, e₁⟩ | ⟨err₁, e₁⟩
  · have hseq : (do run; check true : EngineM σ Unit) e = check true e₁ := bind_eq_of_ok hr
    rw [hseq]
    rcases hc : check true e₁ with ⟨_, e₂⟩ | ⟨err₂, e₂⟩
    · constructor
      · intro h
        cases h
      · rintro (⟨e₃, h, -⟩ | ⟨e₃, e₄, h, hc', -⟩)
        · cases h
        · cases h
          cases hc.symm.trans hc'
    · constructor
      · intro h
        cases h
        exact Or.inr ⟨e₁, e₂, rfl, hc, rfl⟩
      · rintro (⟨e₃, h, -⟩ | ⟨e₃, e₄, h, hc', rfl⟩)
        · cases h
        · cases h
          cases hc.symm.trans hc'
          rfl
  · have hseq : (do run; check true : EngineM σ Unit) e = .error err₁ e₁ := bind_eq_of_error hr
    rw [hseq]
    constructor
    · intro h
      cases h
      exact Or.inl ⟨e₁, rfl, rfl⟩
    · rintro (⟨e₃, h, rfl⟩ | ⟨e₃, e₄, h, -⟩)
      · cases h
        rfl
      · cases h

/-- Whether there is an engine and it accepts. -/
def accepts : Except ScriptError (Engine σ) → Bool
  | .ok e =>
    match execute e with
    | .ok () _ => true
    | .error _ _ => false
  | .error _ => false

theorem accepts_iff {r : Except ScriptError (Engine σ)} :
    accepts r = true ↔ ∃ e e', r = .ok e ∧ execute e = .ok () e' := by
  rcases r with err | e
  · constructor
    · intro h
      cases h
    · rintro ⟨e, e', h, -⟩
      cases h
  · constructor
    · intro h
      rcases hx : execute e with ⟨⟨⟩, e'⟩ | ⟨err, e'⟩
      · exact ⟨e, e', rfl, hx⟩
      · simp only [accepts, hx] at h
        cases h
    · rintro ⟨_, e', h, hx⟩
      cases h
      simp only [accepts, hx]

end Engine

end SpendScript

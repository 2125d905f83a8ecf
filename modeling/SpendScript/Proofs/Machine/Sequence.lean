/-
  Instructions one after the other. `Script.run` executes a list of instructions from a place in
  the running script on; it is what an engine does within one script. Where a run succeeds it can
  be cut at any place. `Script.runPair` runs two scripts from start to end, the second on what the
  first has left.
-/
import SpendScript.Proofs.Machine.Success

namespace SpendScript

variable {σ : Type}

namespace Script

/-- Executes instructions in order, the first one at `offset` of the running script. -/
def run (ctx : Context σ) : Nat → Script → MachineM σ Unit
  | _, [] => pure ()
  | offset, i :: is => do
    i.step ctx offset
    run ctx (offset + 1) is

@[simp] theorem run_nil (ctx : Context σ) (offset : Nat) (m : Machine σ) :
    run ctx offset [] m = .ok () m := rfl

theorem run_cons_ok {ctx : Context σ} {offset : Nat} {i : Instruction} {is : Script}
    {m m' : Machine σ} :
    run ctx offset (i :: is) m = .ok () m' ↔
      ∃ m₁, i.step ctx offset m = .ok () m₁ ∧ run ctx (offset + 1) is m₁ = .ok () m' := by
  have hrun : run ctx offset (i :: is) = i.step ctx offset >>= fun _ => run ctx (offset + 1) is :=
    rfl
  rw [hrun, bind_ok]
  exact ⟨fun ⟨_, m₁, h⟩ => ⟨m₁, h⟩, fun ⟨m₁, h⟩ => ⟨(), m₁, h⟩⟩

theorem run_cons_of_ok {ctx : Context σ} {offset : Nat} {i : Instruction} {is : Script}
    {m m₁ : Machine σ} (h : i.step ctx offset m = .ok () m₁) :
    run ctx offset (i :: is) m = run ctx (offset + 1) is m₁ := by
  simp only [run, Bind.bind, EStateM.bind, h]

theorem run_cons_of_error {ctx : Context σ} {offset : Nat} {i : Instruction} {is : Script}
    {m m₁ : Machine σ} {err : ScriptError} (h : i.step ctx offset m = .error err m₁) :
    run ctx offset (i :: is) m = .error err m₁ := by
  simp only [run, Bind.bind, EStateM.bind, h]

theorem run_append_ok {ctx : Context σ} {offset : Nat} {xs ys : Script} {m m' : Machine σ} :
    run ctx offset (xs ++ ys) m = .ok () m' ↔
      ∃ m₁, run ctx offset xs m = .ok () m₁ ∧
        run ctx (offset + xs.length) ys m₁ = .ok () m' := by
  induction xs generalizing offset m with
  | nil =>
    constructor
    · intro h
      exact ⟨m, rfl, h⟩
    · rintro ⟨m₁, h₁, h₂⟩
      cases h₁
      exact h₂
  | cons i xs ih =>
    have hlen : offset + (i :: xs).length = offset + 1 + xs.length := by
      rw [List.length_cons]
      omega
    rw [List.cons_append, run_cons_ok, hlen]
    constructor
    · rintro ⟨m₁, h₁, h₂⟩
      obtain ⟨m₂, h₂, h₃⟩ := ih.1 h₂
      exact ⟨m₂, run_cons_ok.2 ⟨m₁, h₁, h₂⟩, h₃⟩
    · rintro ⟨m₂, h₂, h₃⟩
      obtain ⟨m₁, h₁, h₂⟩ := run_cons_ok.1 h₂
      exact ⟨m₁, h₁, ih.2 ⟨m₂, h₂, h₃⟩⟩

/-! ## Whole scripts -/

/-- The machine as a script leaves it to the next one. -/
def cleared (m : Machine σ) : Machine σ := { m with alt := [], opCount := 0, codeStart := 0 }

/-- Ends a script, in which no conditional may be open any more. -/
def close : MachineM σ Unit := fun m =>
  if m.branches.isEmpty then .ok () (cleared m) else .error .missingEndIf m

/-- Runs a script from its start to its end. -/
def runWhole (ctx : Context σ) : MachineM σ Unit := do
  run ctx 0 ctx.script
  close

/-- Runs one script and then another. -/
def runPair (ctx₀ ctx₁ : Context σ) : MachineM σ Unit := do
  runWhole ctx₀
  runWhole ctx₁

theorem close_ok {m m' : Machine σ} {u : Unit} :
    close m = .ok u m' ↔ m.branches = [] ∧ m' = cleared m := by
  unfold close
  by_cases hb : m.branches.isEmpty = true
  · rw [if_pos hb]
    have hnil : m.branches = [] := List.isEmpty_iff.1 hb
    simp [hnil, eq_comm]
  · rw [if_neg hb]
    have hnil : m.branches ≠ [] := fun h => hb (List.isEmpty_iff.2 h)
    simp [hnil]

theorem runWhole_ok {ctx : Context σ} {m m' : Machine σ} {u : Unit} :
    runWhole ctx m = .ok u m' ↔
      ∃ m₁, run ctx 0 ctx.script m = .ok () m₁ ∧ m₁.branches = [] ∧ m' = cleared m₁ := by
  unfold runWhole
  rw [bind_ok]
  simp only [close_ok]
  exact ⟨fun ⟨_, m₁, h⟩ => ⟨m₁, h⟩, fun ⟨m₁, h⟩ => ⟨(), m₁, h⟩⟩

theorem runPair_ok {ctx₀ ctx₁ : Context σ} {m m' : Machine σ} :
    runPair ctx₀ ctx₁ m = .ok () m' ↔
      ∃ m₀ m₁, run ctx₀ 0 ctx₀.script m = .ok () m₀ ∧ m₀.branches = [] ∧
        run ctx₁ 0 ctx₁.script (cleared m₀) = .ok () m₁ ∧ m₁.branches = [] ∧
        m' = cleared m₁ := by
  unfold runPair
  rw [bind_ok]
  simp only [runWhole_ok]
  constructor
  · rintro ⟨_, _, ⟨m₀, h₀, hb₀, rfl⟩, m₁, h₁, hb₁, rfl⟩
    exact ⟨m₀, m₁, h₀, hb₀, h₁, hb₁, rfl⟩
  · rintro ⟨m₀, m₁, h₀, hb₀, h₁, hb₁, rfl⟩
    exact ⟨(), _, ⟨m₀, h₀, hb₀, rfl⟩, m₁, h₁, hb₁, rfl⟩

end Script

end SpendScript

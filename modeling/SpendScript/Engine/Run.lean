/-
  Whole runs of an engine. The number of instructions still to be run goes down with every step that
  does not end the run (`remaining_lt_of_step`); `run` and `trace` recurse on it.
-/
import SpendScript.Engine

namespace SpendScript

namespace Engine

variable {σ : Type}

theorem check_ok {final : Bool} {e e' : Engine σ} {u : Unit} (h : check final e = .ok u e') :
    ∃ m, e' = { e with machine := m } := by
  unfold check at h
  split at h
  · cases h
  · split at h
    · cases h
    · split at h
      · cases h
      · dsimp only at h
        split at h <;> cases h
        exact ⟨_, rfl⟩

theorem length_drop_append_le (k : Nat) (xs : List Script) (l : Script) :
    ((xs ++ [l]).drop k).flatten.length ≤ (xs.drop k).flatten.length + l.length := by
  have h : ([l].drop (k - xs.length)).flatten.length ≤ l.length := by
    cases k - xs.length <;> simp
  rw [List.drop_append, List.flatten_append, List.length_append]
  exact Nat.add_le_add_left h _

theorem length_drop_succ_le (k : Nat) (xs : List Script) :
    (xs.drop (k + 1)).flatten.length ≤ (xs.drop k).flatten.length := by
  rw [← List.drop_drop]
  cases xs.drop k with
  | nil => exact Nat.le_refl _
  | cons x xs => simp

theorem lockingScript_of_parse {e : Engine σ} {script : Script}
    (h : Script.parse e.locking = .ok script) : e.lockingScript = script := by
  unfold lockingScript
  rw [h]

theorem remaining_expand_le {e e' : Engine σ} {u : Unit} (he : e.expanded = false)
    (h : expand e = .ok u e') : e'.remaining ≤ e.remaining := by
  unfold expand at h
  split at h
  · cases h
  · next hc =>
    obtain ⟨m, rfl⟩ := check_ok hc
    dsimp only at h
    split at h
    · cases h
    · next script hparse =>
      cases h
      have hl := length_drop_append_le e.scriptIndex e.scripts script
      have hs : e.lockingScript = script := lockingScript_of_parse hparse
      simp only [remaining, setStack, he, hs]
      simp only [if_true, Bool.false_eq_true, if_false]
      omega

theorem remaining_expandIfDue_le {e e' : Engine σ} {u : Unit} (h : expandIfDue e = .ok u e') :
    e'.remaining ≤ e.remaining := by
  unfold expandIfDue at h
  split at h
  · next hm =>
    simp only [mustExpand, Bool.and_eq_true, Bool.not_eq_true'] at hm
    exact remaining_expand_le hm.2 h
  · cases h
    exact Nat.le_refl _

theorem remaining_enterScript_le {e e' : Engine σ} {b : Bool} (h : enterScript e = .ok b e') :
    e'.remaining ≤ e.remaining := by
  unfold enterScript at h
  cases h
  have hs := length_drop_succ_le e.scriptIndex e.scripts
  simp only [remaining, lockingScript]
  split <;> omega

theorem remaining_leaveScript {e e' : Engine σ} {u : Unit} (h : leaveScript e = .ok u e') :
    e'.remaining = (e.scripts.drop (e.scriptIndex + 1)).flatten.length +
      if e.expanded then 0 else e.lockingScript.length := by
  unfold leaveScript at h
  split at h <;> cases h
  rfl

theorem remaining_finishScript_le {e e' : Engine σ} {b : Bool} (h : finishScript e = .ok b e') :
    e'.remaining ≤ (e.scripts.drop (e.scriptIndex + 1)).flatten.length +
      if e.expanded then 0 else e.lockingScript.length := by
  simp only [finishScript, bind, EStateM.bind] at h
  split at h
  · next h₁ =>
    rw [← remaining_leaveScript h₁]
    split at h
    · next h₂ => exact Nat.le_trans (remaining_enterScript_le h) (remaining_expandIfDue_le h₂)
    · cases h
  · cases h

/-- The running script's instructions from the next one on are among those still to be run. -/
theorem length_drop_of_next {e : Engine σ} {i : Instruction} (h : e.next? = some i) :
    e.offset < e.script.length ∧
      (e.scripts.drop e.scriptIndex).flatten.length =
        e.script.length + (e.scripts.drop (e.scriptIndex + 1)).flatten.length := by
  have ho : e.offset < e.script.length := by
    unfold next? at h
    exact (List.getElem?_eq_some_iff.1 h).1
  refine ⟨ho, ?_⟩
  unfold script at ho ⊢
  rw [List.getD_eq_getElem?_getD] at ho ⊢
  by_cases hk : e.scriptIndex < e.scripts.length
  · rw [List.drop_eq_getElem_cons hk, List.flatten_cons, List.length_append,
      List.getElem?_eq_getElem hk]
    rfl
  · rw [List.getElem?_eq_none (Nat.le_of_not_lt hk)] at ho
    exact absurd ho (Nat.not_lt_zero _)

theorem remaining_lt_of_step {e e' : Engine σ} (h : step e = .ok false e') :
    e'.remaining < e.remaining := by
  unfold step at h
  split at h
  · next ha =>
    cases h
    unfold advance at ha
    split at ha
    · cases ha
    · next i hi =>
      obtain ⟨ho, hs⟩ := length_drop_of_next hi
      split at ha
      · cases ha
      · dsimp only at ha
        split at ha
        · cases ha
          simp only [remaining, lockingScript]
          omega
        · have hf := remaining_finishScript_le ha
          change e'.remaining ≤ (e.scripts.drop (e.scriptIndex + 1)).flatten.length +
            (if e.expanded then 0 else e.lockingScript.length) at hf
          simp only [remaining] at hf ⊢
          omega
  · cases h

/-- Runs all scripts to their end. -/
def run (e : Engine σ) : EStateM.Result ScriptError (Engine σ) Unit :=
  match h : step e with
  | .error err e => .error err e
  | .ok true e => .ok () e
  | .ok false e' =>
    have : e'.remaining < e.remaining := remaining_lt_of_step h
    run e'
termination_by e.remaining

/-- Runs all scripts and performs the final check. -/
def execute : EngineM σ Unit := fun e =>
  match (do run; check true : EngineM σ Unit) e with
  | .ok () e => .ok () { e with status := .success }
  | .error err e => .error err { e with status := .failed }

/-- One step as an observer sees it: the instruction before it, both stacks after it. -/
structure TraceEntry where
  next : Except ScriptError String
  stack : Stack
  alt : Stack

/-- The steps of a run up to the one that ends it, and the error if it ends with one. -/
structure Trace (σ : Type) where
  entries : List TraceEntry
  failure : Option ScriptError
  engine : Engine σ

/-- Steps until the run ends, with an account of every step. -/
def trace (e : Engine σ) : Trace σ :=
  let entry (e' : Engine σ) : TraceEntry := ⟨e.nextText, e'.machine.stack, e'.machine.alt⟩
  match h : step e with
  | .error err e' => ⟨[entry e'], some err, e'⟩
  | .ok true e' => ⟨[entry e'], none, e'⟩
  | .ok false e' =>
    have : e'.remaining < e.remaining := remaining_lt_of_step h
    let rest := trace e'
    { rest with entries := entry e' :: rest.entries }
termination_by e.remaining

end Engine

end SpendScript

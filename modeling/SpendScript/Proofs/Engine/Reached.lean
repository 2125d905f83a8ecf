/-
  The engines that steps reach, also when some of the steps fail and the run is taken up again. In all
  of them the second script is the revealed one and the others hold nothing but pushes (`Reveals`).
  A step executes the next instruction, and at the end of a script goes on to a later one
  (`steps_stateOf`, `finishScript_cases`).
-/
import Mathlib.Data.List.GetD
import SpendScript.Proofs.Engine.Construction
import SpendScript.Proofs.Engine.Walk
import SpendScript.Proofs.Machine.Frame

namespace SpendScript

namespace Engine

variable {σ : Type} {c : Checker σ} {s₁ : Script} {e : Engine σ}

/-- The engine after `n` steps, failed ones included. -/
def reached : Nat → Engine σ → Engine σ
  | 0, e => e
  | n + 1, e => stateOf (step (reached n e))

/-- The engine asks `c`, and its scripts are those of a witness that reveals `s₁`: only the second one
    can hold anything but pushes. -/
structure Reveals (c : Checker σ) (s₁ : Script) (e : Engine σ) : Prop where
  checker : e.checker = c
  length : 2 ≤ e.scripts.length
  second : e.scripts.getD 1 [] = s₁
  pushes : ∀ j, j ≠ 1 → ∀ i ∈ e.scripts.getD j [], i.isPush = true
  locking : e.spend.isLockHeight = true → ∀ i ∈ e.lockingScript, i.isPush = true

namespace Reveals

/-- The position and the machine do not matter. -/
theorem update (h : e.Reveals c s₁) (index offset : Nat) (expanded : Bool) (status : Status)
    (m : Machine σ) :
    Reveals c s₁ { e with
      scriptIndex := index
      offset := offset
      expanded := expanded
      status := status
      machine := m } :=
  ⟨h.checker, h.length, h.second, h.pushes, h.locking⟩

/-- The locking script of a height can be added. -/
theorem append (h : e.Reveals c s₁) (hs : e.spend.isLockHeight = true) :
    Reveals c s₁ { e with scripts := e.scripts ++ [e.lockingScript] } := by
  have hlength := h.length
  refine ⟨h.checker, ?_, ?_, ?_, h.locking⟩
  · simp only [List.length_append]
    omega
  · change (e.scripts ++ [e.lockingScript]).getD 1 [] = s₁
    rw [List.getD_append _ _ _ _ hlength, h.second]
  · intro j hj i hi
    change i ∈ (e.scripts ++ [e.lockingScript]).getD j [] at hi
    by_cases hlt : j < e.scripts.length
    · rw [List.getD_append _ _ _ _ hlt] at hi
      exact h.pushes j hj i hi
    · rw [List.getD_append_right _ _ _ _ (Nat.le_of_not_lt hlt)] at hi
      generalize j - e.scripts.length = k at hi
      cases k with
      | zero => exact h.locking hs i hi
      | succ k => exact absurd hi List.not_mem_nil

end Reveals

/-- An engine that is made from a witness reveals the second script of the witness. -/
theorem reveals_of_ofWitness {locking : Bytes} {witness : List Bytes} {F : Flags} {start : σ}
    {s₀ : Script} (he : ofWitness locking witness F c start = .ok e) (hf : e.Fresh s₀ s₁)
    (hpush : ∀ i ∈ s₀, i.isPush = true) : e.Reveals c s₁ := by
  obtain ⟨-, -, -, -, hchecker, -⟩ := settings_of_ofWitness he
  have hscripts : e.scripts = [s₀, s₁] := hf.scripts
  refine ⟨hchecker, ?_, ?_, ?_, ?_⟩
  · rw [hscripts]
    exact Nat.le_refl _
  · rw [hscripts]
    rfl
  · intro j hj i hi
    rw [hscripts] at hi
    match j with
    | 0 => exact hpush i hi
    | 1 => exact absurd rfl hj
    | j + 2 => exact absurd hi List.not_mem_nil
  · intro hheight i hi
    obtain ⟨data, hscript, -⟩ := lockingScript_of_isLockHeight he hheight
    rw [hscript] at hi
    rw [List.mem_singleton.1 hi]
    rfl

/-! ## The end of a script -/

/-- What the end of a script keeps: what the scripts are, the state of the checker, and a bound on the
    place among the scripts. -/
def Sustains (c : Checker σ) (s₁ : Script) (s : σ) (k : Nat) (e : Engine σ) : Prop :=
  e.Reveals c s₁ ∧ e.machine.checker = s ∧ k ≤ e.scriptIndex

variable {s : σ} {k : Nat}

/-- The check of the stack takes at most one item off it. -/
theorem stateOf_check (final : Bool) (e : Engine σ) :
    ∃ below, stateOf (check final e) = { e with machine := { e.machine with stack := below } } := by
  unfold check
  split
  · exact ⟨e.machine.stack, rfl⟩
  · split
    · exact ⟨e.machine.stack, rfl⟩
    · next item rest hstack =>
      split
      · exact ⟨e.machine.stack, rfl⟩
      · refine ⟨rest, ?_⟩
        dsimp only
        split <;> rfl

/-- The check keeps whatever the stack does not matter to. -/
theorem preserves_check {I : Engine σ → Prop} (final : Bool)
    (h : ∀ (e : Engine σ) (below : Stack), I e →
      I { e with machine := { e.machine with stack := below } }) :
    Preserves I (check final : EngineM σ Unit) := by
  intro e he
  obtain ⟨below, hbelow⟩ := stateOf_check final e
  rw [hbelow]
  exact h e below he

/-- The end of a script keeps what the check of the stack keeps, and the locking script where it has to
    be added. -/
theorem preserves_expandIfDue {I : Engine σ → Prop}
    (hcheck : Preserves I (check false : EngineM σ Unit))
    (hadds : ∀ e : Engine σ, e.mustExpand = true → I e →
      I { e.setStack e.witness.tail with
        scripts := e.scripts ++ [e.lockingScript], expanded := true }) :
    Preserves I (expandIfDue : EngineM σ Unit) := by
  intro e he
  unfold expandIfDue
  by_cases hm : e.mustExpand = true
  · have hchecked := hcheck e he
    obtain ⟨below, hbelow⟩ := stateOf_check false e
    rw [if_pos hm]
    unfold expand
    generalize check false e = checked at hchecked hbelow ⊢
    rcases checked with ⟨_, e₁⟩ | ⟨err, e₁⟩
    · obtain rfl : e₁ = _ := hbelow
      dsimp only
      split
      · exact hchecked
      · next script hparse =>
        rw [← lockingScript_of_parse hparse]
        exact hadds e hm he
    · exact hchecked
  · rw [if_neg hm]
    exact he

theorem sustains_check (final : Bool) :
    Preserves (Sustains c s₁ s k) (check final : EngineM σ Unit) :=
  preserves_check final fun _ _ ⟨hr, hs, hk⟩ => ⟨hr.update _ _ _ _ _, hs, hk⟩

theorem sustains_expandIfDue : Preserves (Sustains c s₁ s k) (expandIfDue : EngineM σ Unit) := by
  refine preserves_expandIfDue (sustains_check false) ?_
  rintro e hm ⟨hr, hs, hk⟩
  exact ⟨(hr.append (mustExpand_iff.1 hm).2.1).update _ _ _ _ _, hs, hk⟩

theorem sustains_enterScript : Preserves (Sustains c s₁ s k) (enterScript : EngineM σ Bool) := by
  rintro e ⟨hr, hs, hk⟩
  refine ⟨hr.update _ _ _ _ _, hs, ?_⟩
  change k ≤ if e.scripts[e.scriptIndex]? = some [] then e.scriptIndex + 1 else e.scriptIndex
  split
  · omega
  · exact hk

/-- A script with an open conditional does not end. -/
theorem finishScript_of_open (hb : ¬ e.machine.branches = []) :
    finishScript e = .error .missingEndIf e := by
  have hleave : leaveScript e = .error .missingEndIf e :=
    if_neg fun h => hb (List.isEmpty_iff.1 h)
  exact bind_eq_of_error hleave

/-- Behind a script without open conditionals the engine goes on. -/
theorem finishScript_of_closed (hb : e.machine.branches = []) :
    finishScript e = (do expandIfDue; enterScript : EngineM σ Bool) e.departed := by
  have hleave : leaveScript e = .ok () e.departed := if_pos (List.isEmpty_iff.2 hb)
  exact bind_eq_of_ok hleave

/-- **The end of a script.** Either a conditional is open and the engine stays where it is, or it goes
    on to a later script. The second script starts on what the first one leaves. -/
theorem finishScript_cases (hr : e.Reveals c s₁) :
    stateOf (finishScript e) = e ∨
      (stateOf (finishScript e)).Reveals c s₁ ∧
      (stateOf (finishScript e)).machine.checker = e.machine.checker ∧
      e.scriptIndex < (stateOf (finishScript e)).scriptIndex ∧
      (e.scriptIndex = 0 → (stateOf (finishScript e)).machine = Script.cleared e.machine) := by
  have hlater : Preserves (Sustains c s₁ e.machine.checker (e.scriptIndex + 1))
      (do expandIfDue; enterScript : EngineM σ Bool) :=
    sustains_expandIfDue.bind fun _ => sustains_enterScript
  by_cases hb : e.machine.branches = []
  · obtain ⟨hreveals, hchecker, hindex⟩ :=
      hlater e.departed ⟨hr.update _ _ _ _ _, rfl, Nat.le_refl _⟩
    rw [finishScript_of_closed hb]
    refine Or.inr ⟨hreveals, hchecker, hindex, fun hzero => ?_⟩
    have hmust : ¬ (e.departed).mustExpand = true := by
      rw [mustExpand_iff]
      intro h
      have hindex : e.scriptIndex + 1 = 2 := h.1
      omega
    have hexpand : expandIfDue e.departed = .ok () e.departed := if_neg hmust
    rw [bind_eq_of_ok hexpand]
    rfl
  · rw [finishScript_of_open hb]
    exact Or.inl rfl

/-! ## One step -/

/-- What a step leaves. -/
inductive Steps (e : Engine σ) : Engine σ → Prop
  /-- The run is over. -/
  | ended (hnext : e.next? = none) : Steps e { e with status := .failed }
  /-- The next instruction fails. -/
  | failed {i : Instruction} {err : ScriptError} {m : Machine σ} (hnext : e.next? = some i)
      (hi : i.step e.context e.offset e.machine = .error err m)
      (hs : step e = .error err { e with machine := m, status := .failed }) :
      Steps e { e with machine := m, status := .failed }
  /-- The next instruction runs and is not the last one of its script. -/
  | within {i : Instruction} {m : Machine σ} (hnext : e.next? = some i)
      (hi : i.step e.context e.offset e.machine = .ok () m)
      (hs : step e = .ok false (e.moved 1 m)) : Steps e (e.moved 1 m)
  /-- The next instruction runs and is the last one of its script. -/
  | last {i : Instruction} {m : Machine σ} (hnext : e.next? = some i)
      (hi : i.step e.context e.offset e.machine = .ok () m)
      (hend : e.script.length ≤ e.offset + 1) (status : Status) :
      Steps e { stateOf (finishScript (e.moved 1 m)) with status := status }

theorem steps_stateOf (e : Engine σ) : Steps e (stateOf (step e)) := by
  by_cases ho : e.offset < e.script.length
  · have hnext : e.next? = some e.script[e.offset] := List.getElem?_eq_getElem ho
    rcases hi : (e.script[e.offset]).step e.context e.offset e.machine with ⟨_, m⟩ | ⟨err, m⟩
    · have hadvance := advance_of_step_ok ho hi
      by_cases hlt : e.offset + 1 < e.script.length
      · have hs : step e = .ok false (e.moved 1 m) := step_ok.2 (hadvance.trans (if_pos hlt))
        rw [hs]
        exact .within hnext hi hs
      · rw [if_neg hlt] at hadvance
        have hstate : ∃ status, stateOf (step e) =
            { stateOf (finishScript (e.moved 1 m)) with status := status } := by
          unfold step
          rw [hadvance]
          cases finishScript (e.moved 1 m) with
          | ok done e' => exact ⟨e'.status, rfl⟩
          | error err e' => exact ⟨.failed, rfl⟩
        obtain ⟨status, hstate⟩ := hstate
        rw [hstate]
        exact .last hnext hi (Nat.le_of_not_lt hlt) status
    · have hs := step_of_advance_error (advance_of_step_error ho hi)
      rw [hs]
      exact .failed hnext hi hs
  · have hnext : e.next? = none := List.getElem?_eq_none (Nat.le_of_not_lt ho)
    rw [step_of_next?_none hnext]
    exact .ended hnext

end Engine

end SpendScript

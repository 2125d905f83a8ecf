/-
  What the calls of an engine can do. An engine takes steps or is executed, also after failures
  (`Calls`). It keeps what it was made with, and its scripts are those of the witness, with the locking
  script of a height lock behind them once it has been added (`Kept`). A step has one of six results
  (`Results`, `results_step`): the run is over, the instruction fails, it is not the last one of its
  script, the end of the script is refused, the next script follows, or the locking script is added.
-/
import SpendScript.Proofs.CheckedSignatures
import SpendScript.Proofs.Engine.Phases
import SpendScript.Proofs.Machine.Failure

namespace SpendScript

namespace Engine

variable {σ : Type} {c : Checker σ} {F : Flags} {start : σ} {locking : Bytes} {witness : List Bytes}
  {s₀ s₁ : Script} {e f g : Engine σ}

open Script (cleared close close_ok)

/-- The engines that come about from one by steps and executions, whether they succeed or fail. -/
inductive Calls (e : Engine σ) : Engine σ → Prop
  | start : Calls e e
  | step {f : Engine σ} (h : Calls e f) : Calls e (stateOf (step f))
  | execute {f : Engine σ} (h : Calls e f) : Calls e (stateOf (execute f))

theorem Calls.of_step (h : Calls e f) {r : EStateM.Result ScriptError (Engine σ) Bool}
    (hr : Engine.step f = r) : Calls e (stateOf r) := hr ▸ h.step

theorem Calls.of_execute (h : Calls e f) {r : EStateM.Result ScriptError (Engine σ) Unit}
    (hr : Engine.execute f = r) : Calls e (stateOf r) := hr ▸ h.execute

theorem Calls.trans (h : Calls e f) (h' : Calls f g) : Calls e g := by
  induction h' with
  | start => exact h
  | step _ ih => exact ih.step
  | execute _ ih => exact ih.execute

theorem Calls.reached (h : Calls e f) (n : Nat) : Calls e (reached n f) := by
  induction n with
  | zero => exact h
  | succ n ih => exact ih.step

/-- What steps and the final check keep, and does not ask for the status, holds after all calls. -/
theorem Calls.invariant {I : Engine σ → Prop} (h : I e)
    (hstep : Preserves I (Engine.step : EngineM σ Bool))
    (hcheck : Preserves I (check true : EngineM σ Unit))
    (hstatus : ∀ f status, I f → I { f with status := status }) (hf : Calls e f) : I f := by
  induction hf with
  | start => exact h
  | @step f _ ih => exact hstep f ih
  | @execute f _ ih =>
    have hreached (n : Nat) : I (Engine.reached n f) := by
      induction n with
      | zero => exact ih
      | succ n ih => exact hstep _ ih
    obtain ⟨n, hrun⟩ := stateOf_run f
    have hseq : I (stateOf ((do run; check true : EngineM σ Unit) f)) := by
      rcases stateOf_bind run (fun _ => check true) f with hstate | ⟨_, -, hstate⟩
      · rw [hstate, hrun]
        exact hreached n
      · rw [hstate, hrun]
        exact hcheck _ (hreached n)
    unfold Engine.execute
    generalize (do run; check true : EngineM σ Unit) f = r at hseq
    cases r with
    | ok _ g => exact hstatus g .success hseq
    | error err g => exact hstatus g .failed hseq

/-! ## What is kept -/

/-- `f` has what `e` was made with. -/
structure Kept (e f : Engine σ) : Prop where
  checker : f.checker = e.checker
  flags : f.flags = e.flags
  spend : f.spend = e.spend
  locking : f.locking = e.locking
  witness : f.witness = e.witness
  scripts : f.scripts = if f.expanded then e.scripts ++ [e.lockingScript] else e.scripts
  expanded : f.expanded = true → e.spend.isLockHeight = true

theorem Kept.lockingScript (h : Kept e f) : f.lockingScript = e.lockingScript := by
  unfold Engine.lockingScript
  rw [h.locking]

/-- The place, the status and the machine do not matter. -/
theorem Kept.update (h : Kept e f) (index offset : Nat) (status : Status) (m : Machine σ) :
    Kept e { f with scriptIndex := index, offset := offset, status := status, machine := m } :=
  ⟨h.checker, h.flags, h.spend, h.locking, h.witness, h.scripts, h.expanded⟩

theorem kept_leaveScript : Preserves (Kept e) leaveScript := by
  intro f hf
  unfold leaveScript
  split <;> exact hf.update _ _ _ _

theorem Kept.check (h : Kept e f) (final : Bool) : Kept e (stateOf (check final f)) :=
  preserves_check final (fun _ _ hg => hg.update _ _ _ _) f h

theorem kept_expandIfDue : Preserves (Kept e) expandIfDue := by
  refine preserves_expandIfDue (fun f hf => hf.check false) fun f hm hf => ?_
  obtain ⟨-, hheight, hx⟩ := mustExpand_iff.1 hm
  have hscripts := hf.scripts
  rw [hx, if_neg Bool.false_ne_true] at hscripts
  refine ⟨hf.checker, hf.flags, hf.spend, hf.locking, hf.witness, ?_, fun _ => hf.spend ▸ hheight⟩
  change f.scripts ++ [f.lockingScript] = if true = true then e.scripts ++ [e.lockingScript] else _
  rw [if_pos rfl, hscripts, hf.lockingScript]

theorem kept_enterScript : Preserves (Kept e) enterScript := fun _ hf => hf.update _ _ _ _

theorem kept_finishScript : Preserves (Kept e) finishScript :=
  kept_leaveScript.bind fun _ => kept_expandIfDue.bind fun _ => kept_enterScript

theorem Kept.step (h : Kept e f) : Kept e (stateOf (step f)) := by
  generalize hg : stateOf (Engine.step f) = g
  have hsteps : Steps f g := hg ▸ steps_stateOf f
  cases hsteps with
  | ended | failed | within => exact h.update _ _ _ _
  | @last i m _ _ _ status =>
    exact (kept_finishScript (f.moved 1 m) (h.update _ _ _ _)).update _ _ _ _

theorem Kept.of_step (h : Kept e f) {r : EStateM.Result ScriptError (Engine σ) Bool}
    (hr : Engine.step f = r) : Kept e (stateOf r) := hr ▸ h.step

theorem Calls.kept (h : Kept e e) (hf : Calls e f) : Kept e f :=
  hf.invariant h (fun _ hg => hg.step) (fun _ hg => hg.check true) fun _ _ hg => hg.update _ _ _ _

theorem kept_of_ofWitness (he : ofWitness locking witness F c start = .ok e) : Kept e e := by
  obtain ⟨_, _, _, _, _, -, -, -, -, hfresh⟩ := exists_fresh_of_ofWitness he
  refine ⟨rfl, rfl, rfl, rfl, rfl, ?_, fun hx => ?_⟩
  · rw [hfresh.expanded, if_neg Bool.false_ne_true]
  · rw [hfresh.expanded] at hx
    cases hx

/-- For a step, the engine may be taken to have what it was made with. -/
theorem Calls.invariant_of_kept {I : Engine σ → Prop}
    (he : ofWitness locking witness F c start = .ok e) (h : I e)
    (hstep : ∀ f, Kept e f → I f → I (stateOf (Engine.step f)))
    (hcheck : Preserves I (Engine.check true : EngineM σ Unit))
    (hstatus : ∀ f status, I f → I { f with status := status }) (hf : Calls e f) : I f := by
  have hall : Kept e f ∧ I f :=
    hf.invariant (I := fun f => Kept e f ∧ I f) ⟨kept_of_ofWitness he, h⟩
      (fun f h => ⟨h.1.step, hstep f h.1 h.2⟩) (fun f h => ⟨h.1.check true, hcheck f h.2⟩)
      fun _ status h => ⟨h.1.update _ _ _ _, hstatus _ status h.2⟩
  exact hall.2

/-- No script is empty, and the locking script can be added when it is due. -/
structure Ready (f : Engine σ) : Prop where
  full : [] ∉ f.scripts
  due : f.scriptIndex = 1 → f.spend.isLockHeight = true → f.expanded = false →
    f.scripts.length = 2 ∧ f.lockingScript ≠ []

theorem Kept.ready (he : ofWitness locking witness F c start = .ok e) (h : Kept e f) :
    Ready f := by
  obtain ⟨_, _, _, _, _, -, -, -, -, hfresh⟩ := exists_fresh_of_ofWitness he
  have hlocking (hs : e.spend.isLockHeight = true) : e.lockingScript ≠ [] := by
    obtain ⟨data, hscript, -⟩ := lockingScript_of_isLockHeight he hs
    rw [hscript]
    exact List.cons_ne_nil _ _
  have hscripts := h.scripts
  rw [hfresh.scripts] at hscripts
  refine ⟨?_, fun _ hheight hx => ?_⟩
  · rcases hx : f.expanded with _ | _
    · rw [hscripts, hx, if_neg Bool.false_ne_true]
      simp [hfresh.first, hfresh.second]
    · rw [hscripts, hx, if_pos rfl]
      simp [hfresh.first, hfresh.second, hlocking (h.expanded hx)]
  · rw [hscripts, hx, if_neg Bool.false_ne_true, h.lockingScript]
    exact ⟨rfl, hlocking (h.spend ▸ hheight)⟩

/-! ## What a step does -/

/-- What comes at the end of a script: it is refused, the next script follows, or the locking script is
    added. -/
inductive Finishes (f : Engine σ) : EStateM.Result ScriptError (Engine σ) Bool → Prop
  | refused {err : ScriptError} {g : Engine σ} (herr : err.isMisuse = false)
      (hscripts : g.scripts = f.scripts) (hnext : g.next? = none) : Finishes f (.error err g)
  | next (hdue : ¬ f.Due) (hbranches : f.machine.branches = []) :
      Finishes f (.ok (decide (f.scripts.length ≤ f.scriptIndex + 1))
        (f.entered (f.scriptIndex + 1) (cleared f.machine)))
  | expands (hdue : f.Due) (hbranches : f.machine.branches = []) :
      Finishes f (.ok false (f.relocked (cleared f.machine)))

/-- The locking script is not added where the stack does not allow it. -/
theorem expand_of_requireTrue (hend : f.scripts.length ≤ f.scriptIndex) (hne : f.lockingScript ≠ [])
    {err : ScriptError} (h : requireTrue f.machine.stack = .error err) :
    ∃ below, expand f = .error err { f with machine := { f.machine with stack := below } } := by
  obtain ⟨below, hbelow⟩ := stateOf_check false f
  have hexpand := outcome_expand hend hne
  rw [h] at hexpand
  unfold expand at hexpand ⊢
  generalize check false f = checked at hbelow hexpand ⊢
  rcases checked with ⟨_, f₁⟩ | ⟨err', f₁⟩
  · obtain rfl : f₁ = _ := hbelow
    have hparse : Script.parse f.locking = .ok f.lockingScript := parse_of_lockingScript hne
    dsimp only at hexpand
    rw [hparse] at hexpand
    cases hexpand
  · obtain rfl : f₁ = _ := hbelow
    cases hexpand
    exact ⟨below, rfl⟩

theorem finishes_of_requireTrue (hb : f.machine.branches = []) (hdue : f.Due)
    (hlength : f.scripts.length = 2) (hne : f.lockingScript ≠ []) {err : ScriptError}
    (h : requireTrue f.machine.stack = .error err) : Finishes f (finishScript f) := by
  have hindex : f.scriptIndex = 1 := hdue.1
  have hend : (f.departed).scripts.length ≤ (f.departed).scriptIndex := by
    change f.scripts.length ≤ f.scriptIndex + 1
    omega
  have hmust : f.departed.mustExpand = true := mustExpand_departed.2 hdue
  obtain ⟨below, hexpand⟩ := expand_of_requireTrue (f := f.departed) hend hne h
  have hdeparted : expandIfDue f.departed = .error err
      { f.departed with machine := { (f.departed).machine with stack := below } } := by
    unfold expandIfDue
    rw [if_pos hmust, hexpand]
  have hfinish : finishScript f = .error err
      { f.departed with machine := { (f.departed).machine with stack := below } } :=
    (finishScript_of_closed hb).trans (bind_eq_of_error hdeparted)
  have herr : err.isMisuse = false := by
    unfold requireTrue at h
    split at h
    · cases h
      rfl
    · split at h <;> cases h
      rfl
  rw [hfinish]
  exact .refused herr rfl (next?_of_length_le hend)

/-- **The end of a script.** -/
theorem finishes_finishScript (hr : Ready f) (hend : f.script.length ≤ f.offset) :
    Finishes f (finishScript f) := by
  by_cases hb : f.machine.branches = []
  · have hclose : close f.machine = .ok () (cleared f.machine) := close_ok.2 ⟨hb, rfl⟩
    by_cases hdue : f.Due
    · obtain ⟨hlength, hne⟩ := hr.due hdue.1 hdue.2.1 hdue.2.2
      have houtcome := outcome_finishScript_due hdue hlength hne
      rw [hclose] at houtcome
      change outcome (finishScript f) = requireTrue f.machine.stack >>= _ at houtcome
      rcases htop : requireTrue f.machine.stack with err | _
      · exact finishes_of_requireTrue hb hdue hlength hne htop
      · rw [htop] at houtcome
        rw [outcome_ok.1 houtcome]
        exact .expands hdue hb
    · have hfull : ¬ f.scripts[f.scriptIndex + 1]? = some [] :=
        fun h => hr.full (List.mem_of_getElem? h)
      have houtcome := outcome_finishScript hdue (if_neg hfull)
      rw [hclose] at houtcome
      rw [outcome_ok.1 houtcome]
      exact .next hdue hb
  · rw [finishScript_of_open hb]
    exact .refused rfl rfl (List.getElem?_eq_none hend)

/-- What a step does. -/
inductive Results (f : Engine σ) : EStateM.Result ScriptError (Engine σ) Bool → Prop
  /-- The run is over. -/
  | ended (hnext : f.next? = none) : Results f (.error f.pastEnd { f with status := .failed })
  /-- The instruction fails. -/
  | failed {i : Instruction} {err : ScriptError} {m : Machine σ} (hnext : f.next? = some i)
      (hi : i.step f.context f.offset f.machine = .error err m) :
      Results f (.error err { f with machine := m, status := .failed })
  /-- The instruction runs and is not the last one of its script. -/
  | within {i : Instruction} {m : Machine σ} (hnext : f.next? = some i)
      (hi : i.step f.context f.offset f.machine = .ok () m)
      (hlt : f.offset + 1 < f.script.length) : Results f (.ok false (f.moved 1 m))
  /-- The instruction runs, and the end of its script is refused. -/
  | refused {i : Instruction} {m : Machine σ} {err : ScriptError} {g : Engine σ}
      (hnext : f.next? = some i) (hi : i.step f.context f.offset f.machine = .ok () m)
      (herr : err.isMisuse = false) (hscripts : g.scripts = f.scripts) (hg : g.next? = none) :
      Results f (.error err { g with status := .failed })
  /-- The instruction runs and is the last one of its script. -/
  | next {i : Instruction} {m : Machine σ} (hnext : f.next? = some i)
      (hi : i.step f.context f.offset f.machine = .ok () m)
      (hend : f.offset + 1 = f.script.length) (hdue : ¬ f.Due) (hbranches : m.branches = []) :
      Results f (.ok (decide (f.scripts.length ≤ f.scriptIndex + 1))
        ((f.moved 1 m).entered (f.scriptIndex + 1) (cleared m)))
  /-- The instruction runs and is the last one before the locking script is added. -/
  | expands {i : Instruction} {m : Machine σ} (hnext : f.next? = some i)
      (hi : i.step f.context f.offset f.machine = .ok () m)
      (hend : f.offset + 1 = f.script.length) (hdue : f.Due) (hbranches : m.branches = []) :
      Results f (.ok false ((f.moved 1 m).relocked (cleared m)))

/-- **One step.** -/
theorem results_step (hr : Ready f) : Results f (step f) := by
  by_cases ho : f.offset < f.script.length
  · have hnext : f.next? = some f.script[f.offset] := List.getElem?_eq_getElem ho
    rcases hi : (f.script[f.offset]).step f.context f.offset f.machine with ⟨_, m⟩ | ⟨err, m⟩
    · have hadvance := advance_of_step_ok ho hi
      by_cases hlt : f.offset + 1 < f.script.length
      · rw [step_ok.2 (hadvance.trans (if_pos hlt))]
        exact .within hnext hi hlt
      · rw [if_neg hlt] at hadvance
        have hend : f.offset + 1 = f.script.length := by omega
        have hready : Ready (f.moved 1 m) := ⟨hr.full, hr.due⟩
        have hfinishes := finishes_finishScript hready (Nat.le_of_eq hend.symm)
        unfold step
        rw [hadvance]
        generalize finishScript (f.moved 1 m) = r at hfinishes
        cases hfinishes with
        | refused herr hscripts hg => exact .refused hnext hi herr hscripts hg
        | next hdue hbranches => exact .next hnext hi hend hdue hbranches
        | expands hdue hbranches => exact .expands hnext hi hend hdue hbranches
    · rw [step_of_advance_error (advance_of_step_error ho hi)]
      exact .failed hnext hi
  · have hnext : f.next? = none := List.getElem?_eq_none (Nat.le_of_not_lt ho)
    rw [step_of_next?_none hnext]
    exact .ended hnext

end Engine

end SpendScript

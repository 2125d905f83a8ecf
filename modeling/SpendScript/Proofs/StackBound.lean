/-
  The bound on the stacks. After every step that succeeds both stacks together hold at most 1000 items,
  but for the step that adds the locking script of a height lock: it puts the rest of the witness on the
  stack without a check. Where that is too much, the locking script has no room for its height and the
  next step fails. So an engine that is still accepted has never held more
  (`Engine.stacks_bounded`).
-/
import Mathlib.Data.List.Basic
import SpendScript.Proofs.Engine.Dead
import SpendScript.Proofs.HeightSpend

namespace SpendScript

namespace Engine

variable {σ : Type} {c : Checker σ} {F : Flags} {start : σ} {locking : Bytes} {witness : List Bytes}
  {e f f' g g' : Engine σ} {done : Bool}

/-! ## One step -/

/-- A step that does not add the locking script keeps the bound. -/
theorem items_le_of_step (hr : Ready f) (h : step f = .ok done f')
    (hx : f'.expanded = f.expanded) : f'.machine.items ≤ Limit.stackItems := by
  have hresults := results_step hr
  rw [h] at hresults
  cases hresults with
  | within _ hi => exact (Instruction.step_ok.1 hi).2
  | @next i m _ hi => exact Nat.le_trans (items_cleared_le m) (Instruction.step_ok.1 hi).2
  | expands _ _ _ hdue =>
    have hexpanded : true = f.expanded := hx
    rw [hdue.2.2] at hexpanded
    cases hexpanded

/-- The step that adds the locking script leaves the rest of the witness on the stack, and nothing
    else. The run goes on with the locking script. -/
theorem machine_of_expands (hr : Ready f) (h : step f = .ok done f')
    (hx : f'.expanded ≠ f.expanded) :
    f.Due ∧ done = false ∧ ∃ m, m.branches = [] ∧
      f' = (f.moved 1 m).relocked (Script.cleared m) := by
  have hresults := results_step hr
  rw [h] at hresults
  cases hresults with
  | within => exact absurd rfl hx
  | next => exact absurd rfl hx
  | @expands i m _ _ _ hdue hbranches => exact ⟨hdue, rfl, m, hbranches, rfl⟩

/-- The height has no room on 1000 items. -/
theorem step_overflows (he : ofWitness locking witness F c start = .ok e) (hk : Kept e f)
    (hdue : f.Due) {m : Machine σ} (hbranches : m.branches = [])
    (hfull : Limit.stackItems ≤ f.witness.tail.length) :
    ∃ g, step ((f.moved 1 m).relocked (Script.cleared m)) =
      .error (.stackOverflow (f.witness.tail.length + 1)) g := by
  have hready : Ready (f.moved 1 m) := ⟨(hk.ready he).full, (hk.ready he).due⟩
  obtain ⟨data, hscript, hlen, -⟩ := lockingScript_of_isLockHeight he (hk.spend ▸ hdue.2.1)
  have hnext := next?_relocked hready hdue (Script.cleared m)
  rw [show (f.moved 1 m).lockingScript = [⟨⟨0x08⟩, data⟩] from hk.lockingScript.trans hscript]
    at hnext
  obtain ⟨ho, hi⟩ := List.getElem?_eq_some_iff.1 hnext
  generalize hf : (f.moved 1 m).relocked (Script.cleared m) = f₁ at hnext ho hi ⊢
  have hmachine : f₁.machine = { Script.cleared m with stack := f.witness.tail.reverse } := by
    rw [← hf]
    rfl
  have hexecuting : f₁.machine.branches.executing = true := by
    rw [hmachine]
    change m.branches.executing = true
    rw [hbranches]
    rfl
  have hstep : (f₁.script[f₁.offset]).step f₁.context f₁.offset f₁.machine =
      checkDepth { f₁.machine with stack := data :: f₁.machine.stack } := by
    rw [hi]
    exact Instruction.step_of_pushable rfl hexecuting (pushable_height hlen _)
  have hitems : (data :: f₁.machine.stack).length + f₁.machine.alt.length =
      f.witness.tail.length + 1 := by
    rw [hmachine]
    simp [Script.cleared]
  unfold checkDepth at hstep
  dsimp only at hstep
  rw [hitems, if_pos (Nat.lt_succ_of_le hfull)] at hstep
  exact ⟨_, step_of_advance_error (advance_of_step_error ho hstep)⟩

/-! ## Whole runs -/

/-- Where an execution succeeds, all that it goes through is within the bound. -/
theorem items_le_of_after (he : ofWitness locking witness F c start = .ok e) (hg : Calls e g)
    (h : execute g = .ok () g') {k : Nat} {f : Engine σ} (hf : after k g = some f) :
    f.machine.items ≤ Limit.stackItems := by
  induction k generalizing g with
  | zero =>
    obtain rfl : g = f := Option.some.inj hf
    rcases hg.sound he with hdead | hitems
    · obtain ⟨_, _, herror, -⟩ := hdead.execute
      rw [h] at herror
      cases herror
    · exact hitems
  | succ k ih =>
    rcases hstep : step g with ⟨done, g₁⟩ | ⟨err, g₁⟩
    · have hcalls : Calls e g₁ := hg.of_step hstep
      rw [after, hstep] at hf
      cases done with
      | false =>
        refine ih hcalls ?_ hf
        obtain ⟨e₁, e₂, hrun, hcheck, rfl⟩ := execute_ok.1 h
        rw [run_eq, hstep] at hrun
        exact execute_ok.2 ⟨e₁, e₂, hrun, hcheck, rfl⟩
      | true =>
        -- The run is over, so there is no later engine.
        cases k with
        | zero =>
          obtain rfl : g₁ = f := Option.some.inj hf
          have hready : Ready g := (hg.kept (kept_of_ofWitness he)).ready he
          refine items_le_of_step hready hstep ?_
          by_contra hx
          cases (machine_of_expands hready hstep hx).2.1
        | succ k =>
          have hnone : after (k + 1) g₁ = none := after_succ_of_next?_none (next?_of_done hstep) k
          cases hnone.symm.trans hf
    · rw [after, hstep] at hf
      cases hf

/-- **The bound on both stacks.** A step that succeeds leaves at most 1000 items on both stacks. The one
    step that adds the locking script of a height lock leaves the rest of the witness on the stack and
    nothing on the alt stack; if these are 1000 items or more, the next step overflows. Whatever has
    been called before, an engine that some later execution still accepts holds at most 1000 items, and
    so does every engine that this execution goes through. -/
theorem stacks_bounded (he : ofWitness locking witness F c start = .ok e) (hf : Calls e f) :
    (∀ done f', step f = .ok done f' → f'.expanded = f.expanded →
      f'.machine.items ≤ Limit.stackItems) ∧
    (∀ done f', step f = .ok done f' → f'.expanded ≠ f.expanded →
      e.spend.isLockHeight = true ∧ f'.machine.alt = [] ∧
        f'.machine.stack = witness.tail.reverse ∧
        (Limit.stackItems ≤ witness.tail.length →
          ∃ g, step f' = .error (.stackOverflow (witness.tail.length + 1)) g)) ∧
    ∀ g g', Calls f g → execute g = .ok () g' → f.machine.items ≤ Limit.stackItems ∧
      ∀ k h, after k g = some h → h.machine.items ≤ Limit.stackItems := by
  have hk : Kept e f := hf.kept (kept_of_ofWitness he)
  have hready : Ready f := hk.ready he
  have hwitness : f.witness = witness := hk.witness.trans (settings_of_ofWitness he).2.2.1
  refine ⟨fun done f' h hx => items_le_of_step hready h hx, fun done f' h hx => ?_, ?_⟩
  · obtain ⟨hdue, -, m, hbranches, rfl⟩ := machine_of_expands hready h hx
    refine ⟨hk.spend ▸ hdue.2.1, rfl, ?_, fun hfull => ?_⟩
    · change f.witness.tail.reverse = witness.tail.reverse
      rw [hwitness]
    · rw [← hwitness] at hfull ⊢
      exact step_overflows he hk hdue hbranches hfull
  · intro g g' hg h
    refine ⟨?_, fun k h' hafter => items_le_of_after he (hf.trans hg) h hafter⟩
    rcases hf.sound he with hdead | hitems
    · obtain ⟨_, _, herror, -⟩ := (hg.dead hdead).execute
      rw [h] at herror
      cases herror
    · exact hitems

/-- A witness of 1000 elements behind its two scripts. -/
def crowdedWitness : List Bytes := [[0x51], [0x51]] ++ List.replicate 1000 []

/-- The second step of this spend leaves 1001 items, and the third one overflows. -/
theorem stacks_bounded_crowded :
    ∃ e f' : Engine Unit,
      ofWitness [0x08, 0xd0, 0x07, 0, 0, 0, 0, 0, 0] crowdedWitness {} .accepting () = .ok e ∧
      step (reached 1 e) = .ok false f' ∧ f'.machine.alt = [] ∧
      f'.machine.stack = crowdedWitness.tail.reverse ∧
      ∃ g, step f' = .error (.stackOverflow 1002) g := by
  have hrun : (do
      let e ← ofWitness [0x08, 0xd0, 0x07, 0, 0, 0, 0, 0, 0] crowdedWitness {} .accepting ()
      return ((reached 1 e).expanded, (outcome (step (reached 1 e))).map
        fun (p : Bool × Engine Unit) => (p.1, p.2.expanded))) = .ok (false, .ok (false, true)) := by
    decide +kernel
  obtain ⟨e, he, hcomputed⟩ := except_bind_ok.1 hrun
  obtain ⟨hbefore, hstep⟩ : (reached 1 e).expanded = false ∧
      (outcome (step (reached 1 e))).map (fun p => (p.1, p.2.expanded)) = .ok (false, true) := by
    simpa using Except.ok.inj hcomputed
  rcases hs : step (reached 1 e) with ⟨done, f'⟩ | ⟨err, f'⟩ <;> rw [hs] at hstep
  · obtain ⟨rfl, hafter⟩ : done = false ∧ f'.expanded = true := by
      simpa [outcome, Except.map] using hstep
    have hexpands : f'.expanded ≠ (reached 1 e).expanded := by
      rw [hafter, hbefore]
      decide
    obtain ⟨-, halt, hstack, hfull⟩ :=
      (stacks_bounded he (Calls.start.reached 1)).2.1 false f' hs hexpands
    have hlength : crowdedWitness.tail.length = 1001 :=
      congrArg (· + 1) (List.length_replicate : (List.replicate 1000 ([] : Bytes)).length = 1000)
    rw [hlength] at hfull
    exact ⟨e, f', he, hs, halt, hstack, hfull (by decide)⟩
  · cases hstep

end Engine

end SpendScript

/-
  The bound on elements. However an engine is stepped and executed, whatever fails, its items are at most
  520 bytes long until the rest of the witness is put on the stack (`Sized`). From then on there is
  nothing to run but the push of a height (`next?_of_expanded`). So no digest and no signature check
  ever works on anything longer (`Engine.elements_bounded`).
-/
import Mathlib.Data.List.Basic
import SpendScript.Proofs.Engine.Calls
import SpendScript.Proofs.Machine.ItemSize

namespace SpendScript

namespace Engine

variable {σ : Type} {c : Checker σ} {F : Flags} {start : σ} {locking : Bytes} {witness : List Bytes}
  {e f : Engine σ}

/-- The items are within the bound, unless the rest of the witness has been put on the stack. Then both
    scripts of the witness have run. -/
structure Sized (f : Engine σ) : Prop where
  bounded : f.expanded = false → f.machine.Bounded
  past : f.expanded = true → 2 ≤ f.scriptIndex

/-- Another machine must be within the bound if the one before it was. -/
theorem Sized.withMachine (h : Sized f) (offset : Nat) (status : Status) {m : Machine σ}
    (hm : f.machine.Bounded → m.Bounded) :
    Sized { f with offset := offset, status := status, machine := m } :=
  ⟨fun hx => hm (h.bounded hx), h.past⟩

/-! ## The end of a script -/

theorem sized_leaveScript : Preserves Sized (leaveScript : EngineM σ Unit) := by
  intro f hf
  unfold leaveScript
  split
  · exact ⟨fun hx => ⟨(hf.bounded hx).stack, List.forall_mem_nil _⟩,
      fun hx => Nat.le_succ_of_le (hf.past hx)⟩
  · exact hf

theorem sized_check (final : Bool) : Preserves Sized (check final : EngineM σ Unit) := by
  intro f hf
  unfold check
  split
  · exact hf
  · split
    · exact hf
    · next item rest hstack =>
      split
      · exact hf
      · have hrest (hm : f.machine.Bounded) : Machine.Bounded { f.machine with stack := rest } :=
          ⟨fun x hx => hm.stack x (hstack ▸ List.mem_cons_of_mem item hx), hm.alt⟩
        dsimp only
        split <;> exact hf.withMachine _ _ hrest

/-- The locking script is added behind both scripts of the witness. -/
theorem sized_expandIfDue : Preserves Sized (expandIfDue : EngineM σ Unit) := by
  refine preserves_expandIfDue (sized_check false) fun f hm _ => ⟨fun hx => ?_, fun _ => ?_⟩
  · cases hx
  · exact Nat.le_of_eq (mustExpand_iff.1 hm).1.symm

theorem sized_enterScript : Preserves Sized (enterScript : EngineM σ Bool) := by
  intro f hf
  refine ⟨fun hx => ⟨(hf.bounded hx).stack, (hf.bounded hx).alt⟩, fun hx => ?_⟩
  have hpast : 2 ≤ f.scriptIndex := hf.past hx
  change 2 ≤ if f.scripts[f.scriptIndex]? = some [] then f.scriptIndex + 1 else f.scriptIndex
  split <;> omega

theorem sized_finishScript : Preserves Sized (finishScript : EngineM σ Bool) :=
  sized_leaveScript.bind fun _ => sized_expandIfDue.bind fun _ => sized_enterScript

/-! ## Steps and calls -/

/-- **One step**, whether it succeeds or fails. -/
theorem sized_step : Preserves Sized (step : EngineM σ Bool) := by
  intro f hf
  have hinstruction {i : Instruction} {r : EStateM.Result ScriptError (Machine σ) Unit}
      (hi : i.step f.context f.offset f.machine = r) (hm : f.machine.Bounded) :
      (stateOf r).Bounded := hi ▸ Instruction.bounded_step f.machine hm
  have hsteps := steps_stateOf f
  generalize stateOf (step f) = g at hsteps
  cases hsteps with
  | ended => exact ⟨hf.bounded, hf.past⟩
  | failed _ hi | within _ hi => exact hf.withMachine _ _ (hinstruction hi)
  | last _ hi =>
    have hfinished := sized_finishScript _ (hf.withMachine (f.offset + 1) .running (hinstruction hi))
    exact ⟨hfinished.bounded, hfinished.past⟩

theorem Calls.sized (he : ofWitness locking witness F c start = .ok e) (hf : Calls e f) :
    Sized f := by
  obtain ⟨_, _, _, _, _, -, -, -, -, hfresh⟩ := exists_fresh_of_ofWitness he
  have hstart : Sized e := by
    refine ⟨fun _ => ?_, fun hx => ?_⟩
    · rw [machine_of_ofWitness he]
      exact ⟨List.forall_mem_nil _, List.forall_mem_nil _⟩
    · rw [hfresh.expanded] at hx
      cases hx
  exact hf.invariant hstart sized_step (sized_check true) fun _ _ hg => ⟨hg.bounded, hg.past⟩

/-- After the rest of the witness has been put on the stack, a height is pushed and nothing else is
    run. -/
theorem next?_of_expanded (he : ofWitness locking witness F c start = .ok e) (hf : Calls e f)
    (hx : f.expanded = true) {i : Instruction} (hi : f.next? = some i) :
    ∃ data, i = ⟨⟨0x08⟩, data⟩ ∧ data.length = 8 := by
  have hk : Kept e f := hf.kept (kept_of_ofWitness he)
  obtain ⟨_, _, _, s₀, s₁, -, -, -, -, hfresh⟩ := exists_fresh_of_ofWitness he
  obtain ⟨data, hlocking, hlength, -⟩ := lockingScript_of_isLockHeight he (hk.expanded hx)
  have hscripts : f.scripts = [s₀, s₁, [⟨⟨0x08⟩, data⟩]] := by
    rw [hk.scripts, if_pos hx, hfresh.scripts, hlocking]
    rfl
  obtain ⟨k, hindex⟩ := Nat.exists_eq_add_of_le' ((hf.sized he).past hx)
  refine ⟨data, ?_, hlength⟩
  unfold next? Engine.script at hi
  rw [hscripts, hindex] at hi
  cases k with
  | zero => exact List.mem_singleton.1 (List.mem_of_getElem? hi)
  | succ k => cases hi

/-- **The bound on elements.** An engine is made, and then stepped and executed, whatever fails. All
    items of both stacks are at most 520 bytes long, always where a hash locks the output, and where a
    height does until the step that puts the rest of the witness on the stack. After that step only a
    push of eight bytes is left. So a digest or a signature check, wherever it comes next, works on
    items of at most 520 bytes. -/
theorem elements_bounded (he : ofWitness locking witness F c start = .ok e) (hf : Calls e f) :
    (e.spend.isLockHeight = false ∨ f.expanded = false →
      ∀ x ∈ f.machine.stack ++ f.machine.alt, x.length ≤ Limit.elementSize) ∧
    (f.expanded = true → ∀ i, f.next? = some i → ∃ data, i = ⟨⟨0x08⟩, data⟩ ∧ data.length = 8) ∧
    ∀ i k x, f.next? = some i →
      i.operation.WorksOn f.context { f.machine with opCount := k } x →
      x.length ≤ Limit.elementSize := by
  have hsized : Sized f := hf.sized he
  have hexpanded : e.spend.isLockHeight = false ∨ f.expanded = false → f.expanded = false := by
    rintro (hhash | hx)
    · refine Bool.eq_false_iff.2 fun hx => ?_
      have hheight := (hf.kept (kept_of_ofWitness he)).expanded hx
      rw [hhash] at hheight
      cases hheight
    · exact hx
  refine ⟨fun h x hx => ?_, fun hx i => next?_of_expanded he hf hx, fun i k x hi hworks => ?_⟩
  · have hbounded := hsized.bounded (hexpanded h)
    rcases List.mem_append.1 hx with hx | hx
    · exact hbounded.stack x hx
    · exact hbounded.alt x hx
  · rcases hx : f.expanded with _ | _
    · exact (hsized.bounded hx).stack x hworks.mem_stack
    · -- what is left pushes data, and works on nothing
      obtain ⟨data, rfl, -⟩ := next?_of_expanded he hf hx hi
      cases hworks

/-- A witness whose third element is longer than an element may be, behind `1` and `sha256`. -/
def longWitness : List Bytes := [[0x51], [0xa8], List.replicate 521 0]

/-- The digest is made of an item of one byte. The step after it puts the long element on the stack, and
    then only the height is left. -/
theorem elements_bounded_restored :
    ∃ e : Engine Unit,
      ofWitness [0x08, 0xd0, 0x07, 0, 0, 0, 0, 0, 0] longWitness {} .accepting () = .ok e ∧
      (reached 1 e).next? = some ⟨⟨0xa8⟩, []⟩ ∧ (reached 1 e).machine.stack = [[1]] ∧
      (∀ x ∈ (reached 1 e).machine.stack ++ (reached 1 e).machine.alt,
        x.length ≤ Limit.elementSize) ∧
      (∀ k x, (Operation.hash .sha256).WorksOn (reached 1 e).context
        { (reached 1 e).machine with opCount := k } x → x.length ≤ Limit.elementSize) ∧
      (∃ x ∈ (reached 2 e).machine.stack, Limit.elementSize < x.length) ∧
      ∀ i, (reached 2 e).next? = some i → ∃ data, i = ⟨⟨0x08⟩, data⟩ ∧ data.length = 8 := by
  have hrun : (do
      let e ← ofWitness [0x08, 0xd0, 0x07, 0, 0, 0, 0, 0, 0] longWitness {} .accepting ()
      let f := reached 1 e
      return ((f.expanded, f.next?, f.machine.stack),
        ((reached 2 e).expanded, (reached 2 e).machine.stack))) =
      .ok ((false, some ⟨⟨0xa8⟩, []⟩, [[1]]), (true, longWitness.tail.reverse)) := by
    decide +kernel
  obtain ⟨e, he, hcomputed⟩ := except_bind_ok.1 hrun
  obtain ⟨hfirst, hsecond⟩ := Prod.mk.inj (Except.ok.inj hcomputed)
  obtain ⟨hearly, hrest⟩ := Prod.mk.inj hfirst
  obtain ⟨hnext, hstack⟩ := Prod.mk.inj hrest
  obtain ⟨hlate, hlong⟩ := Prod.mk.inj hsecond
  obtain ⟨hitems, -, hoperands⟩ := elements_bounded he (Calls.start.reached 1)
  obtain ⟨-, hheight, -⟩ := elements_bounded he (Calls.start.reached 2)
  refine ⟨e, he, hnext, hstack, hitems (.inr hearly), fun k x => hoperands _ k x hnext, ?_,
    hheight hlate⟩
  rw [hlong]
  refine ⟨List.replicate 521 0, List.mem_cons_self, ?_⟩
  rw [List.length_replicate]
  decide

end Engine

end SpendScript

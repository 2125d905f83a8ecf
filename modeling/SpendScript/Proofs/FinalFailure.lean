/-
  When a failed validation is final. After a failure an engine can be called again, and it goes on at
  the instruction that has failed, on the stack that this has left. A failure is final when there is
  nothing else that the instruction could find there (`Engine.failure_final`). It is not final in
  general: an instruction that has taken operands off can find better ones below them, and the engine
  then accepts (`Engine.execute_after_failure`).
-/
import Mathlib.Data.List.Basic
import SpendScript.Proofs.Engine.Dead
import SpendScript.Proofs.Engine.Failure

namespace SpendScript

namespace Engine

variable {σ : Type} {c : Checker σ} {F : Flags} {start : σ} {locking : Bytes} {witness : List Bytes}
  {e f f' g : Engine σ} {err : ScriptError}

/-- **When a failure is final.** Once a step or an execution has failed, every later step and execution
    fails, and the engine stays failed. That takes two conditions. Where the engine stands at an
    instruction that takes operands off, it must have counted too many operations or have found the
    stack empty. And where a lock has not been reached, the answers on locks must be fixed. -/
theorem failure_final (he : ofWitness locking witness F c start = .ok e) (hf : Calls e f)
    (h : step f = .error err f' ∨ execute f = .error err f')
    (hoperands : ∀ i, f'.next? = some i → i.operation.takesOperands = true →
      err = .tooManyOperations ∨ err = .stack .empty)
    (hlocks : err = .unsatisfiedLockTime → c.LocksFixed) (hg : Calls f' g) :
    (∃ err' g', step g = .error err' g') ∧ (∃ err' g', execute g = .error err' g') ∧
      g.status = .failed := by
  have hkept : Kept e f := hf.kept (kept_of_ofWitness he)
  have hf' : Calls e f' := h.elim (fun h => hf.of_step h) fun h => hf.of_execute h
  have hchecker : f'.checker = c := by
    obtain ⟨-, -, -, -, hc, -⟩ := settings_of_ofWitness he
    exact (hf'.kept (kept_of_ofWitness he)).checker.trans hc
  have hlasting : Lasting err f' := ⟨hoperands, fun herr => hchecker ▸ hlocks herr⟩
  have hdead : Dead f' ∧ f'.status = .failed := by
    rcases h with h | h
    · exact ⟨dead_of_step_error (hkept.ready he) (hf.sound he) h hlasting, status_of_step_error h⟩
    · refine ⟨dead_of_execute_error he hf h hlasting, ?_⟩
      rcases execute_error_cases h with ⟨_, _, _, rfl⟩ | ⟨-, hstatus⟩
      · rfl
      · exact hstatus
  obtain ⟨err₁, g₁, hstep, -⟩ := (hg.dead hdead.1).step
  obtain ⟨err₂, g₂, hexecute, -⟩ := (hg.dead hdead.1).execute
  exact ⟨⟨err₁, g₁, hstep⟩, ⟨err₂, g₂, hexecute⟩, hg.status hdead.1 hdead.2⟩

/-- `VERIFY VERIFY` on a single true item: the second one finds the stack empty, and finds it empty
    whenever it is taken up again. -/
theorem failure_final_emptyStack :
    ∃ e f' : Engine Unit,
      ofWitness [0x08, 0xd0, 0x07, 0, 0, 0, 0, 0, 0] [[0x51], [0x69, 0x69]] {} .accepting () = .ok e ∧
      execute e = .error (.stack .empty) f' ∧
      f'.next?.map Instruction.operation = some .verify ∧
      ∀ g, Calls f' g → (∃ err' g', execute g = .error err' g') ∧ g.status = .failed := by
  have hrun : (do
      let e ← ofWitness [0x08, 0xd0, 0x07, 0, 0, 0, 0, 0, 0] [[0x51], [0x69, 0x69]] {} .accepting ()
      return (failureOf (execute e), (stateOf (execute e)).next?.map Instruction.operation)) =
        .ok (some (.stack .empty), some .verify) := by
    decide +kernel
  obtain ⟨e, he, hcomputed⟩ := except_bind_ok.1 hrun
  obtain ⟨hfails, hnext⟩ : failureOf (execute e) = some (.stack .empty) ∧
      (stateOf (execute e)).next?.map Instruction.operation = some .verify := by
    simpa using Except.ok.inj hcomputed
  rcases hx : execute e with ⟨_, f'⟩ | ⟨err, f'⟩ <;> rw [hx] at hfails hnext
  · cases hfails
  · obtain rfl : err = .stack .empty := Option.some.inj hfails
    refine ⟨e, f', he, hx, hnext, fun g hg => ?_⟩
    exact (failure_final he .start (Or.inr hx) (fun _ _ _ => Or.inr rfl) (fun h => nomatch h) hg).2

/-- `VERIFY 1` on a false item above a script: `VERIFY` takes the false item off and fails. Executed
    again it finds the script, which is true, and the engine accepts. -/
theorem execute_after_failure :
    ∃ e f g : Engine Unit,
      ofWitness [0x08, 0xd0, 0x07, 0, 0, 0, 0, 0, 0] [[0x51, 0x00], [0x69, 0x51]] {} .accepting () =
        .ok e ∧
      execute e = .error (.verify ⟨0x69⟩) f ∧ f.status = .failed ∧ execute f = .ok () g ∧
      g.status = .success := by
  have hrun : (do
      let e ← ofWitness [0x08, 0xd0, 0x07, 0, 0, 0, 0, 0, 0] [[0x51, 0x00], [0x69, 0x51]] {}
        .accepting ()
      return (failureOf (execute e), (stateOf (execute e)).status,
        accepts (.ok (stateOf (execute e))))) = .ok (some (.verify ⟨0x69⟩), .failed, true) := by
    decide +kernel
  obtain ⟨e, he, hcomputed⟩ := except_bind_ok.1 hrun
  obtain ⟨hfails, hstatus, haccepts⟩ : failureOf (execute e) = some (.verify ⟨0x69⟩) ∧
      (stateOf (execute e)).status = .failed ∧ accepts (.ok (stateOf (execute e))) = true := by
    simpa using Except.ok.inj hcomputed
  rcases hx : execute e with ⟨_, f⟩ | ⟨err, f⟩ <;> rw [hx] at hfails hstatus haccepts
  · cases hfails
  · obtain rfl : err = .verify ⟨0x69⟩ := Option.some.inj hfails
    obtain ⟨_, g, hf, hg⟩ := accepts_iff.1 haccepts
    obtain rfl := Except.ok.inj hf
    obtain ⟨_, _, -, -, hsuccess⟩ := execute_ok.1 hg
    exact ⟨e, f, g, he, hx, hstatus, hg, by rw [hsuccess]⟩

end Engine

end SpendScript

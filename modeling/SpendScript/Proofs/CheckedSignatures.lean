/-
  Only checked signatures reach the checker. An engine may take steps, run as a whole, have its stack
  checked or replaced, in any order and also after failures (`Engine.Visits`). Whatever it goes
  through, its settings stay as they were made (`Visits.settled`), and nothing but steps asks about
  signatures. A step asks only about signatures and keys that have been checked and that it finds on
  the stack (`Engine.checked_questions`).
-/
import SpendScript.Proofs.Engine.Reached
import SpendScript.Proofs.Engine.Recording
import SpendScript.Proofs.Machine.CheckedSignatures

namespace SpendScript

namespace Engine

variable {σ : Type} {c : Checker σ} {F : Flags} {spend : Spend} {s : σ} {e f : Engine σ}

/-! ## What can be done with an engine -/

/-- The engines that come about from one, whether the calls succeed or fail. -/
inductive Visits (e : Engine σ) : Engine σ → Prop
  | start : Visits e e
  | step {f : Engine σ} (h : Visits e f) : Visits e (stateOf (step f))
  | execute {f : Engine σ} (h : Visits e f) : Visits e (stateOf (execute f))
  | check {f : Engine σ} (h : Visits e f) (final : Bool) : Visits e (stateOf (check final f))
  | setStack {f : Engine σ} (h : Visits e f) (items : List Bytes) : Visits e (f.setStack items)

/-- What an engine is made with. -/
structure Settled (c : Checker σ) (F : Flags) (spend : Spend) (e : Engine σ) : Prop where
  checker : e.checker = c
  flags : e.flags = F
  spend : e.spend = spend

/-- The checker has been asked nothing further. -/
structure Rests (c : Checker σ) (F : Flags) (spend : Spend) (s : σ) (e : Engine σ) : Prop extends
    Settled c F spend e where
  state : e.machine.checker = s

theorem rests_check (final : Bool) : Preserves (Rests c F spend s) (check final) :=
  preserves_check final
    fun _ _ ⟨⟨hchecker, hflags, hspend⟩, hstate⟩ => ⟨⟨hchecker, hflags, hspend⟩, hstate⟩

theorem rests_leaveScript : Preserves (Rests c F spend s) leaveScript := by
  rintro e ⟨⟨hchecker, hflags, hspend⟩, hstate⟩
  unfold leaveScript
  split
  · exact ⟨⟨hchecker, hflags, hspend⟩, hstate⟩
  · exact ⟨⟨hchecker, hflags, hspend⟩, hstate⟩

theorem rests_expandIfDue : Preserves (Rests c F spend s) expandIfDue :=
  preserves_expandIfDue (rests_check false)
    fun _ _ ⟨⟨hchecker, hflags, hspend⟩, hstate⟩ => ⟨⟨hchecker, hflags, hspend⟩, hstate⟩

theorem rests_enterScript : Preserves (Rests c F spend s) enterScript := by
  rintro e ⟨⟨hchecker, hflags, hspend⟩, hstate⟩
  exact ⟨⟨hchecker, hflags, hspend⟩, hstate⟩

/-- Nothing is asked between two scripts. -/
theorem rests_finishScript : Preserves (Rests c F spend s) finishScript :=
  rests_leaveScript.bind fun _ => rests_expandIfDue.bind fun _ => rests_enterScript

/-! ## Steps and whole runs -/

theorem Settled.step (h : e.Settled c F spend) : (stateOf (step e)).Settled c F spend := by
  obtain ⟨hchecker, hflags, hspend⟩ := h
  generalize hf : stateOf (Engine.step e) = f
  have hsteps : Steps e f := hf ▸ steps_stateOf e
  cases hsteps with
  | ended | failed | within => exact ⟨hchecker, hflags, hspend⟩
  | @last i m _ _ _ status =>
    obtain ⟨⟨hchecker, hflags, hspend⟩, -⟩ :=
      rests_finishScript (e.moved 1 m) ⟨⟨hchecker, hflags, hspend⟩, rfl⟩
    exact ⟨hchecker, hflags, hspend⟩

theorem Settled.reached (h : e.Settled c F spend) (n : Nat) :
    (reached n e).Settled c F spend := by
  induction n with
  | zero => exact h
  | succ n ih => exact ih.step

theorem reached_step (n : Nat) (e : Engine σ) : reached n (stateOf (step e)) = reached (n + 1) e := by
  induction n with
  | zero => rfl
  | succ n ih => exact congrArg (fun f => stateOf (step f)) ih

/-- A run is a number of steps. -/
theorem stateOf_run (e : Engine σ) : ∃ n, stateOf (run e) = reached n e := by
  fun_induction run e with
  | case1 e err e' h => exact ⟨1, congrArg stateOf h.symm⟩
  | case2 e e' h => exact ⟨1, congrArg stateOf h.symm⟩
  | case3 e e' h _ ih =>
    obtain ⟨n, hn⟩ := ih
    refine ⟨n + 1, ?_⟩
    rw [hn, ← reached_step, h]
    rfl

/-- A run with the check of the stack behind it is a number of steps, up to the stack. -/
theorem stateOf_execute (e : Engine σ) :
    ∃ n status below, stateOf (execute e) =
      { reached n e with
        status := status
        machine := { (reached n e).machine with stack := below } } := by
  obtain ⟨n, hn⟩ := stateOf_run e
  have hstatus : ∃ status, stateOf (execute e) =
      { stateOf ((do run; check true : EngineM σ Unit) e) with status := status } := by
    unfold execute
    cases (do run; check true : EngineM σ Unit) e with
    | ok _ e' => exact ⟨.success, rfl⟩
    | error err e' => exact ⟨.failed, rfl⟩
  obtain ⟨status, hstatus⟩ := hstatus
  refine ⟨n, status, ?_⟩
  rw [hstatus]
  rcases stateOf_bind run (fun _ => check true) e with hstate | ⟨_, -, hstate⟩
  · rw [hstate, hn]
    exact ⟨_, rfl⟩
  · obtain ⟨below, hbelow⟩ := stateOf_check true (reached n e)
    rw [hstate, hn, hbelow]
    exact ⟨below, rfl⟩

theorem Visits.settled (h : e.Settled c F spend) (hf : Visits e f) : f.Settled c F spend := by
  induction hf with
  | start => exact h
  | step _ ih => exact ih.step
  | @execute g _ ih =>
    obtain ⟨n, status, below, hstate⟩ := stateOf_execute g
    obtain ⟨hchecker, hflags, hspend⟩ := ih.reached n
    rw [hstate]
    exact ⟨hchecker, hflags, hspend⟩
  | @check g _ final ih => exact (rests_check final g ⟨ih, rfl⟩).toSettled
  | setStack _ _ ih => exact ⟨ih.checker, ih.flags, ih.spend⟩

/-! ## Questions -/

/-- The questions of one step come from a signature check and from the stack that the step finds. -/
theorem Settled.records_step {e : Engine (σ × List Query)} (h : e.Settled c.recording F spend) :
    Records e.machine.checker.2
      (fun q => (∃ i, e.next? = some i ∧ i.operation.isSignatureCheck = true) ∧
        TakenFrom e.machine.stack F (spend.isLockHeight = false) q)
      (stateOf (Engine.step e)).machine := by
  obtain ⟨hchecker, hflags, hspend⟩ := h
  have hzero : (e.context.versionZero = true) = (spend.isLockHeight = false) := by
    rw [← hspend]
    unfold context
    cases e.spend <;> simp [Spend.version, Spend.isLockHeight]
  have hstep {i : Instruction} (hnext : e.next? = some i) :
      Records e.machine.checker.2
        (fun q => (∃ i, e.next? = some i ∧ i.operation.isSignatureCheck = true) ∧
          TakenFrom e.machine.stack F (spend.isLockHeight = false) q)
        (stateOf (i.step e.context e.offset e.machine)) := by
    refine (Instruction.checked_of_step hchecker e.offset i e.machine).imp fun q hq => ?_
    rw [hzero, show e.context.flags = F from hflags] at hq
    exact ⟨⟨i, hnext, hq.1⟩, hq.2⟩
  generalize hf : stateOf (Engine.step e) = f
  have hsteps : Steps e f := hf ▸ steps_stateOf e
  cases hsteps with
  | ended => exact records_start _ e.machine
  | failed hnext hi | within hnext hi =>
    have hrecords := hstep hnext
    rw [hi] at hrecords
    exact hrecords
  | @last i m hnext hi _ status =>
    have hrecords := hstep hnext
    rw [hi] at hrecords
    have hrests := (rests_finishScript (e.moved 1 m) ⟨⟨hchecker, hflags, hspend⟩, rfl⟩).state
    obtain ⟨asked, hasked, hall⟩ := hrecords
    refine ⟨asked, ?_, hall⟩
    change (stateOf (finishScript (e.moved 1 m))).machine.checker.2 = _
    rw [hrests]
    exact hasked

/-- **Only checked signatures reach the checker.** Whatever an engine has gone through, the questions
    of its next step come behind those asked before. A question about a signature is asked by a
    signature check, and it comes from a key and from a signature with a hash type behind it, both on
    the stack, that have passed the checks. A whole run asks what its steps ask, and a check of the
    stack asks nothing. -/
theorem checked_questions {locking : Bytes} {witness : List Bytes} {start : σ}
    (he : ofWitness locking witness F c start = .ok e) {f : Engine (σ × List Query)}
    (hf : Visits e.recorded f) :
    (∃ asked, (stateOf (step f)).machine.checker.2 = asked ++ f.machine.checker.2 ∧
      ∀ q, .signature q ∈ asked →
        (∃ i, f.next? = some i ∧ i.operation.isSignatureCheck = true) ∧
        ∃ sig hashType key, sig ++ [hashType] ∈ f.machine.stack ∧ key ∈ f.machine.stack ∧
          Checked F (e.spend.isLockHeight = false) sig hashType key q) ∧
      (∃ n, (stateOf (execute f)).machine.checker = (reached n f).machine.checker) ∧
      ∀ final, (stateOf (check final f)).machine.checker = f.machine.checker := by
  obtain ⟨-, -, -, hflags, hchecker, -⟩ := settings_of_ofWitness he
  have hrecorded : e.recorded.Settled c.recording F e.spend :=
    ⟨congrArg Checker.recording hchecker, hflags, rfl⟩
  refine ⟨(hf.settled hrecorded).records_step, ?_, fun final => ?_⟩
  · obtain ⟨n, status, below, hstate⟩ := stateOf_execute f
    exact ⟨n, by rw [hstate]⟩
  · obtain ⟨below, hbelow⟩ := stateOf_check final f
    rw [hbelow]

theorem visits_reached (e : Engine σ) (n : Nat) : Visits e (reached n e) := by
  induction n with
  | zero => exact .start
  | succ n ih => exact ih.step

/-- A signature, and the script that checks it against the two keys with x 1. -/
def twoKeysWitness : List Bytes :=
  [[0x00, 0x09, 0x30, 0x06, 0x02, 0x01, 0x01, 0x02, 0x01, 0x01, 0x01],
    [0x51, 0x21, 0x02] ++ List.replicate 31 0 ++ [1, 0x21, 0x03] ++ List.replicate 31 0 ++
      [1, 0x52, 0xae]]

/-- The seventh step of this spend tries the signature with both keys. -/
theorem checked_questions_twoKeys :
    ∃ e : Engine Unit,
      ofWitness [0x08, 0xd0, 0x07, 0, 0, 0, 0, 0, 0] twoKeysWitness { strictEncoding := true }
        (.ofPredicate (fun _ => false) true true) () = .ok e ∧
      (reached 7 e.recorded).signatureChecks.map SignatureQuery.hashType = [1, 1] ∧
      ∀ q, .signature q ∈ (reached 7 e.recorded).machine.checker.2 →
        ∃ sig hashType key, sig ++ [hashType] ∈ (reached 6 e.recorded).machine.stack ∧
          key ∈ (reached 6 e.recorded).machine.stack ∧
          Checked { strictEncoding := true } (e.spend.isLockHeight = false) sig hashType key q := by
  have hrun : (do
      let e ← ofWitness [0x08, 0xd0, 0x07, 0, 0, 0, 0, 0, 0] twoKeysWitness
        { strictEncoding := true } (.ofPredicate (fun _ => false) true true) ()
      return ((reached 6 e.recorded).machine.checker.2,
        (reached 7 e.recorded).signatureChecks.map SignatureQuery.hashType)) =
          .ok ([], [1, 1]) := by
    decide +kernel
  obtain ⟨e, he, hcomputed⟩ := except_bind_ok.1 hrun
  obtain ⟨hbefore, htypes⟩ : (reached 6 e.recorded).machine.checker.2 = [] ∧
      (reached 7 e.recorded).signatureChecks.map SignatureQuery.hashType = [1, 1] := by
    simpa using Except.ok.inj hcomputed
  obtain ⟨⟨asked, hasked, hall⟩, -⟩ := checked_questions he (visits_reached e.recorded 6)
  have hlast : reached (6 + 1) e.recorded = stateOf (step (reached 6 e.recorded)) := rfl
  rw [hbefore, List.append_nil, ← hlast] at hasked
  simp only [Nat.reduceAdd] at hasked
  refine ⟨e, he, htypes, fun q hq => (hall q ?_).2⟩
  rw [← hasked]
  exact hq

end Engine

end SpendScript

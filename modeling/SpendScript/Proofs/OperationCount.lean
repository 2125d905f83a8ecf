/-
  Operations are counted exactly. In a run without failures the count is the number of instructions above
  the push range that the running script has come past, and the keys that have been counted in it
  (`Tallied`). A step within a script adds what it counts, and one that ends the script leaves nothing to
  the next one, so the tally is kept along every run (`Trail.tallied`). A step fails for too many
  operations just when one of its two counts exceeds the limit (`Engine.operations_counted`).
-/
import SpendScript.Proofs.Engine.Calls
import SpendScript.Proofs.Engine.Failure
import SpendScript.Proofs.Machine.OperationCount

namespace SpendScript

namespace Engine

variable {σ : Type} {c : Checker σ} {F : Flags} {start : σ} {locking : Bytes} {witness : List Bytes}
  {e f g : Engine σ} {es : List (Engine σ)} {i : Instruction} {m : Machine σ}

/-- Steps without a failure, and the engines that they were taken on. Between two steps the stack can be
    replaced. -/
inductive Trail (e : Engine σ) : List (Engine σ) → Engine σ → Prop
  | start : Trail e [] e
  | step {es : List (Engine σ)} {f g : Engine σ} {done : Bool} (h : Trail e es f)
      (hs : Engine.step f = .ok done g) : Trail e (es ++ [f]) g
  | restack {es : List (Engine σ)} {f : Engine σ} (h : Trail e es f) (items : List Bytes) :
      Trail e es (f.setStack items)

theorem Trail.of_after {n : Nat} (h : Trail e es f) (hn : after n f = some g) :
    ∃ es', Trail e es' g := by
  induction n generalizing es f with
  | zero =>
    obtain rfl : f = g := Option.some.inj hn
    exact ⟨es, h⟩
  | succ n ih =>
    rcases hs : Engine.step f with ⟨done, f₁⟩ | ⟨err, f₁⟩ <;> rw [after, hs] at hn
    · exact ih (h.step hs) hn
    · cases hn

/-- The keys that the next step counts. -/
def keyCount (f : Engine σ) : Nat :=
  match f.next? with
  | some i => i.keyCount f.machine
  | none => 0

/-- The keys that these steps count together. -/
def keysCounted (es : List (Engine σ)) : Nat :=
  es.foldl (fun n f => n + f.keyCount) 0

theorem keysCounted_concat (es : List (Engine σ)) (f : Engine σ) :
    keysCounted (es ++ [f]) = keysCounted es + f.keyCount := by
  unfold keysCounted
  rw [List.foldl_append]
  rfl

/-- Those of the engines that stand in the running script. -/
def inScript (f : Engine σ) (es : List (Engine σ)) : List (Engine σ) :=
  es.filter fun g => g.scriptIndex = f.scriptIndex

/-- What the count of an engine tells of the engines before it. -/
structure Tallied (es : List (Engine σ)) (f : Engine σ) : Prop where
  earlier : ∀ g ∈ es, g.scriptIndex ≤ f.scriptIndex
  /-- Each instruction of the running script before the next one has been executed, once and in order. -/
  places : (f.inScript es).map Engine.offset = List.range f.offset
  script : ∀ g ∈ f.inScript es, g.script = f.script
  count : f.machine.opCount =
    (f.script.take f.offset).countP (fun i => !i.isPush) + keysCounted (f.inScript es)

namespace Tallied

/-- An engine at the start of a script has counted nothing. -/
theorem of_start (hearlier : ∀ g ∈ es, g.scriptIndex < f.scriptIndex) (hoffset : f.offset = 0)
    (hcount : f.machine.opCount = 0) : Tallied es f := by
  have hnone : f.inScript es = [] :=
    List.filter_eq_nil_iff.2 fun g hg => by simpa using Nat.ne_of_lt (hearlier g hg)
  refine ⟨fun g hg => Nat.le_of_lt (hearlier g hg), ?_, ?_, ?_⟩
  · rw [hnone, hoffset]
    rfl
  · rw [hnone]
    exact fun g hg => absurd hg List.not_mem_nil
  · rw [hnone, hoffset, hcount]
    rfl

/-- The next instruction adds what it counts. -/
theorem within (h : Tallied es f) (hnext : f.next? = some i)
    (hi : i.step f.context f.offset f.machine = .ok () m) : Tallied (es ++ [f]) (f.moved 1 m) := by
  have hadded : (f.moved 1 m).inScript (es ++ [f]) = f.inScript es ++ [f] := by
    change f.inScript (es ++ [f]) = _
    simp [inScript]
  have hkeys : f.keyCount = i.keyCount f.machine := by
    unfold keyCount
    rw [hnext]
  have hone : (if i.isPush = true then 0 else 1) = [i].countP (fun i => !i.isPush) := by
    cases hp : i.isPush <;> simp [hp]
  refine ⟨?_, ?_, ?_, ?_⟩
  · intro g hg
    rcases List.mem_append.1 hg with hg | hg
    · exact h.earlier g hg
    · rw [List.mem_singleton.1 hg]
      exact Nat.le_refl _
  · rw [hadded, List.map_append, h.places]
    exact List.range_succ.symm
  · intro g hg
    rw [hadded] at hg
    rcases List.mem_append.1 hg with hg | hg
    · exact h.script g hg
    · rw [List.mem_singleton.1 hg]
      rfl
  · change m.opCount = _
    rw [Instruction.opCount_of_step hi, h.count, hone, hadded, take_moved hnext, List.countP_append,
      keysCounted_concat, hkeys]
    omega

/-- The end of a script leaves nothing to the next one. -/
theorem next (h : Tallied es f) (hindex : f.scriptIndex < g.scriptIndex) (hoffset : g.offset = 0)
    (hcount : g.machine.opCount = 0) : Tallied (es ++ [f]) g := by
  refine of_start (fun k hk => ?_) hoffset hcount
  rcases List.mem_append.1 hk with hk | hk
  · exact Nat.lt_of_le_of_lt (h.earlier k hk) hindex
  · rw [List.mem_singleton.1 hk]
    exact hindex

end Tallied

/-- **The tally is kept.** -/
theorem Trail.tallied (he : ofWitness locking witness F c start = .ok e) (h : Trail e es f) :
    Kept e f ∧ Tallied es f := by
  induction h with
  | start =>
    obtain ⟨_, _, _, _, _, -, -, -, -, hfresh⟩ := exists_fresh_of_ofWitness he
    refine ⟨kept_of_ofWitness he, .of_start (fun g hg => absurd hg List.not_mem_nil) hfresh.offset ?_⟩
    rw [machine_of_ofWitness he]
    rfl
  | @step es f g done _ hs ih =>
    obtain ⟨hkept, htally⟩ := ih
    have hresults := results_step (hkept.ready he)
    rw [hs] at hresults
    refine ⟨hkept.of_step hs, ?_⟩
    cases hresults with
    | within hnext hi => exact htally.within hnext hi
    | next | expands => exact htally.next (Nat.lt_succ_self _) rfl rfl
  | restack _ items ih =>
    obtain ⟨hkept, htally⟩ := ih
    exact ⟨hkept.update _ _ _ _, ⟨htally.earlier, htally.places, htally.script, htally.count⟩⟩

/-- Only the next instruction finds too many operations. -/
theorem step_tooMany (hnext : f.next? = some i) :
    (∃ g, step f = .error .tooManyOperations g) ↔
      ∃ m, i.step f.context f.offset f.machine = .error .tooManyOperations m := by
  constructor
  · rintro ⟨g, h⟩
    rcases step_error_cases h with ⟨-, herr⟩ | ⟨j, m, hj, hm⟩ | hclosing
    · cases herr
    · obtain rfl : i = j := Option.some.inj (hnext.symm.trans hj)
      exact ⟨m, hm⟩
    · cases hclosing
  · rintro ⟨m, hm⟩
    exact ⟨_, step_of_instruction_error hnext hm⟩

/-- **Exact operation accounting.** After any steps without a failure the count is the number of
    instructions above the push range among those of the running script that have been executed or passed
    over, and the keys of the checks of several signatures that have been executed among them. At the
    start of every script it is zero. On any engine a step whose instruction may stand in a script fails
    for too many operations just when counting the instruction exceeds the limit, or counting a number of
    keys that it takes off the stack then does. -/
theorem operations_counted (he : ofWitness locking witness F c start = .ok e) :
    (∀ es f, Trail e es f →
      (f.inScript es).map Engine.offset = List.range f.offset ∧
      (∀ g ∈ f.inScript es, g.script = f.script) ∧
      f.machine.opCount =
        (f.script.take f.offset).countP (fun i => !i.isPush) + keysCounted (f.inScript es) ∧
      (f.offset = 0 → f.machine.opCount = 0)) ∧
    ∀ (f : Engine σ) (i : Instruction), f.next? = some i → i.Allowed →
      ((∃ g, step f = .error .tooManyOperations g) ↔
        Opcode.lastPush < i.opcode.value ∧ Limit.operations < f.machine.opCount + 1 ∨
          i.operation.countsKeys = true ∧ f.machine.branches.executing = true ∧
            ∃ n, KeysOnTop f.flags f.machine.stack n ∧
              Limit.operations < f.machine.opCount + 1 + n) := by
  refine ⟨fun es f h => ?_, fun f i hnext hallowed => ?_⟩
  · obtain ⟨-, htally⟩ := h.tallied he
    refine ⟨htally.places, htally.script, htally.count, fun hoffset => ?_⟩
    have hplaces := htally.places
    rw [hoffset, List.range_zero, List.map_eq_nil_iff] at hplaces
    rw [htally.count, hplaces, hoffset]
    rfl
  · have habove : ¬ i.isPush = true ↔ Opcode.lastPush < i.opcode.value :=
      decide_eq_true_iff.not.trans Nat.not_le
    rw [step_tooMany hnext, Instruction.step_tooMany hallowed, habove]
    rfl

/-- So many operations that do nothing, and a check of no signature against two keys. -/
def crowdedScript (n : Nat) : Bytes :=
  List.replicate n 0x61 ++ [0x00, 0x00, 0x51, 0x51, 0x52, 0xae, 0x51]

/-- After 198 operations the check comes to the limit with its two keys. After 199 its keys exceed it. -/
theorem operations_counted_atLimit :
    (∃ (e f : Engine Unit) (es : List (Engine Unit)),
      ofWitness [0x08, 0xd0, 0x07, 0, 0, 0, 0, 0, 0] [[0x51], crowdedScript 198] {} .accepting () =
        .ok e ∧ Trail e es f ∧ f.machine.opCount = 201 ∧ keysCounted (f.inScript es) = 2) ∧
    ∃ (e f g : Engine Unit) (es : List (Engine Unit)),
      ofWitness [0x08, 0xd0, 0x07, 0, 0, 0, 0, 0, 0] [[0x51], crowdedScript 199] {} .accepting () =
        .ok e ∧ Trail e es f ∧ f.machine.opCount = 199 ∧
      step f = .error .tooManyOperations g := by
  have hrun : (do
      let e ← ofWitness [0x08, 0xd0, 0x07, 0, 0, 0, 0, 0, 0] [[0x51], crowdedScript 198] {}
        .accepting ()
      return (after 205 e).map fun (f : Engine Unit) => decide (f.machine.opCount = 201 ∧
        (f.script.take f.offset).countP (fun (i : Instruction) => !i.isPush) = 199)) =
      .ok (some true) := by
    decide +kernel
  have hexceeds : (do
      let e ← ofWitness [0x08, 0xd0, 0x07, 0, 0, 0, 0, 0, 0] [[0x51], crowdedScript 199] {}
        .accepting ()
      return (after 205 e).map fun (f : Engine Unit) => decide (
        f.next? = some (Instruction.mk ⟨0xae⟩ []) ∧ f.flags.minimalData = false ∧
        f.machine.stack = [[2], [1], [1], [], [], [1]] ∧ f.machine.opCount = 199 ∧
        f.machine.branches.executing = true)) = .ok (some true) := by
    decide +kernel
  constructor
  · obtain ⟨e, he, hcomputed⟩ := except_bind_ok.1 hrun
    obtain ⟨f, hf, hstate⟩ := Option.map_eq_some_iff.1 (Except.ok.inj hcomputed)
    obtain ⟨hcount, habove⟩ := of_decide_eq_true hstate
    obtain ⟨es, htrail⟩ := Trail.of_after .start hf
    obtain ⟨-, -, htally, -⟩ := (operations_counted he).1 es f htrail
    refine ⟨e, f, es, he, htrail, hcount, ?_⟩
    omega
  · obtain ⟨e, he, hcomputed⟩ := except_bind_ok.1 hexceeds
    obtain ⟨f, hf, hstate⟩ := Option.map_eq_some_iff.1 (Except.ok.inj hcomputed)
    obtain ⟨hnext, hminimal, hstack, hcount, hexecuting⟩ := of_decide_eq_true hstate
    obtain ⟨es, htrail⟩ := Trail.of_after .start hf
    have hkeys : KeysOnTop f.flags f.machine.stack 2 := by
      rw [hstack]
      exact ⟨[2], _, rfl, ⟨by decide, by rw [hminimal]; decide⟩, by decide +kernel, by decide⟩
    have hallowed : Instruction.Allowed ⟨⟨0xae⟩, []⟩ := ⟨rfl, rfl⟩
    obtain ⟨g, hg⟩ := ((operations_counted he).2 f _ hnext hallowed).2
      (Or.inr ⟨rfl, hexecuting, 2, hkeys, by rw [hcount]; decide⟩)
    exact ⟨e, f, g, es, he, htrail, hcount, hg⟩

end Engine

end SpendScript

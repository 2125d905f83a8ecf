/-
  What is decided by an item. IF and NOTIF, VERIFY, IFDUP and the final check ask for the truth of the
  top item and for nothing else of it (`Decides`, `decides_truth`). The truth of an item is whether the
  number it spells is another than zero, so an item decides as NOTEQUAL0 of it does, and as NOT of it
  does not (`truth_reads_numbers`).
-/
import SpendScript.Proofs.Arithmetic
import SpendScript.Proofs.Machine.Conditionals
import SpendScript.Proofs.Number.Truth

namespace SpendScript

variable {σ : Type} {ctx : Context σ} {offset : Nat} {i : Instruction} {m : Machine σ} {item : Bytes}
  {below : Stack}

open Number MachineM

/-! ## Offers and decisions -/

/-- The item is on top of a stack within the bound, instructions run, and another operation may be
    counted. -/
structure Machine.Offers (m : Machine σ) (item : Bytes) (below : Stack) : Prop where
  stack : m.stack = item :: below
  executing : m.branches.executing = true
  count : m.opCount < Limit.operations
  items : m.items ≤ Limit.stackItems

/-- The machine with another stack, and one more operation counted. -/
def Machine.operated (m : Machine σ) (stack : Stack) : Machine σ :=
  { m with stack := stack, opCount := m.opCount + 1 }

/-- Wherever the item is offered, it decides as the truth value does. -/
structure Decides (σ : Type) (item : Bytes) (b : Bool) : Prop where
  /-- IF takes the branch, and NOTIF the other one. -/
  openIf : ∀ {ctx : Context σ} {offset : Nat} {i : Instruction} {m : Machine σ} {below : Stack}
    {negated : Bool}, i.operation = .openIf negated → m.Offers item below →
      i.step ctx offset m =
        .ok () { m.operated below with branches := .ofTruth (b != negated) :: m.branches }
  /-- VERIFY goes on or fails the script. -/
  verify : ∀ {ctx : Context σ} {offset : Nat} {i : Instruction} {m : Machine σ} {below : Stack},
    i.operation = .verify → m.Offers item below →
      i.step ctx offset m = if b then .ok () (m.operated below)
        else .error (.verify i.opcode) (m.operated below)
  /-- IFDUP copies the item or leaves it, and the copy has to find room. -/
  ifDup : ∀ {ctx : Context σ} {offset : Nat} {i : Instruction} {m : Machine σ} {below : Stack},
    i.operation = .ifDup → m.Offers item below →
      i.step ctx offset m =
        checkDepth (m.operated (if b then item :: item :: below else item :: below))
  /-- The check behind the last script accepts or fails, where it comes to look at the item. -/
  check : ∀ {e : Engine σ} {below : Stack} {final : Bool}, e.machine.stack = item :: below →
    e.scripts.length ≤ e.scriptIndex → (final && !e.expanded && !below.isEmpty) = false →
      Engine.check final e =
        if b then .ok () { e with machine := { e.machine with stack := below } }
        else .error .scriptFailed { e with machine := { e.machine with stack := below } }

namespace Instruction

/-- An operation above the push range that finds the item is performed as one more operation. -/
theorem execute_of_offers {op : Operation} (hi : i.operation = op) (hpush : op.isPush = false)
    (hallowed : op ≠ .disabled ∧ op ≠ .alwaysIllegal ∧ op ≠ .reserved) (h : m.Offers item below) :
    i.execute ctx offset m = i.perform ctx offset (m.operated (item :: below)) := by
  obtain ⟨hdisabled, hillegal, hreserved⟩ := hallowed
  have hoperated : m.operated (item :: below) = { m with opCount := m.opCount + 1 } := by
    unfold Machine.operated
    rw [← h.stack]
  rw [hoperated]
  exact execute_of_counted offset (allowed_of_operation (hi ▸ hdisabled) (hi ▸ hillegal))
    (Opcode.not_isPush_of_operation hi hpush hreserved) h.executing h.count

theorem step_openIf {negated : Bool} (hi : i.operation = .openIf negated)
    (h : m.Offers item below) :
    i.step ctx offset m = .ok ()
      { m.operated below with branches := .ofTruth (truth item != negated) :: m.branches } := by
  have hcond : i.isConditional = true := by
    unfold isConditional
    rw [hi]
    rfl
  have hmove : i.operation.move? m.stack m.branches =
      some (below, .ofTruth (truth item != negated) :: m.branches) := by
    rw [hi, h.stack]
    exact Operation.move?_openIf_cons h.executing
  have hroom : below.length + m.alt.length ≤ Limit.stackItems := by
    have hitems := h.items
    unfold Machine.items at hitems
    rw [h.stack, List.length_cons] at hitems
    omega
  exact (step_ok_of_isConditional hcond).2 ⟨h.count, hroom, _, _, hmove, rfl⟩

theorem step_verify (hi : i.operation = .verify) (h : m.Offers item below) :
    i.step ctx offset m = if truth item then .ok () (m.operated below)
      else .error (.verify i.opcode) (m.operated below) := by
  have hgrows : i.operation.grows = false := by
    rw [hi]
    rfl
  rw [step_of_items hgrows h.items, execute_of_offers hi rfl (by decide) h]
  unfold perform
  dsimp only
  rw [hi]
  change SpendScript.require i.opcode (truth item) (m.operated below) = _
  cases truth item <;> rfl

theorem step_ifDup (hi : i.operation = .ifDup) (h : m.Offers item below) :
    i.step ctx offset m =
      checkDepth (m.operated (if truth item then item :: item :: below else item :: below)) := by
  have hperform : i.perform ctx offset (m.operated (item :: below)) =
      .ok () (m.operated (if truth item then item :: item :: below else item :: below)) := by
    unfold perform
    dsimp only
    rw [hi]
    change (if truth item then onStack (StackM.dup 1) else pure () : MachineM σ Unit)
      (m.operated (item :: below)) = _
    cases truth item <;> rfl
  have hexecute : i.execute ctx offset m = i.perform ctx offset (m.operated (item :: below)) :=
    execute_of_offers hi rfl (by decide) h
  exact bind_eq_of_ok (hexecute.trans hperform)

end Instruction

theorem Engine.check_of_stack {e : Engine σ} {final : Bool} (hstack : e.machine.stack = item :: below)
    (hend : e.scripts.length ≤ e.scriptIndex)
    (hclean : (final && !e.expanded && !below.isEmpty) = false) :
    check final e = if truth item
      then .ok () { e with machine := { e.machine with stack := below } }
      else .error .scriptFailed { e with machine := { e.machine with stack := below } } := by
  unfold check
  rw [if_neg (Nat.not_lt.2 hend), hstack]
  dsimp only
  rw [hclean, if_neg Bool.false_ne_true]

/-- Nothing but its truth matters. -/
theorem decides_truth (item : Bytes) : Decides σ item (truth item) where
  openIf := Instruction.step_openIf
  verify := Instruction.step_verify
  ifDup := Instruction.step_ifDup
  check := Engine.check_of_stack

/-! ## NOT and NOTEQUAL0 -/

/-- An operation on one number leaves what its function makes of the number that the item spells. -/
theorem Instruction.step_unary {f : UnaryOp} (hi : i.operation = .unary f)
    (hitem : IsOperand ctx.flags.minimalData item) (h : m.Offers item below) :
    i.step ctx offset m = .ok () (m.operated (encode (f.result (signMagnitude item)) :: below)) := by
  have harity : i.operation.arity? = some 1 := by rw [hi]; rfl
  have hexact : Exact ctx offset i 1 m := exact_of_arity harity h.executing h.count
  have hoperands : Operands ctx.flags.minimalData 1 m.stack [item] below :=
    ⟨h.stack, rfl, List.forall_mem_singleton.2 hitem⟩
  rw [hexact.step h.items, hexact.delivers _ _ hoperands, hi]
  rfl

/-- NOTEQUAL0 leaves the truth of the item, and NOT its opposite. -/
theorem encode_result_eq_ofTruth (item : Bytes) :
    encode (UnaryOp.notEqual0.result (signMagnitude item)) = ofTruth (truth item) ∧
      encode (UnaryOp.not.result (signMagnitude item)) = ofTruth (!truth item) := by
  have hnot : (!decide (signMagnitude item ≠ 0)) = decide (signMagnitude item = 0) := by simp
  rw [truth_eq_decide, hnot, ofTruth_eq_encode, ofTruth_eq_encode, ite_not]
  exact ⟨rfl, rfl⟩

theorem decides_ofTruth (b : Bool) : Decides σ (ofTruth b) b := by
  have h := decides_truth (σ := σ) (ofTruth b)
  rwa [truth_ofTruth] at h

/-- **Truth reads numbers.** An item of at most eight bytes is false just when it is read as zero; of
    whatever length it is false just when all its bytes are zero, but that the last one may hold the
    sign. Where the shortest form is not asked for, an item of at most four bytes therefore decides
    as what NOTEQUAL0 leaves in its place, and as the opposite of what NOT leaves: IF and NOTIF take the
    same branch, VERIFY and the final check accept the same, and IFDUP copies the same. -/
theorem truth_reads_numbers :
    (∀ item : Bytes, item.length ≤ 8 → (truth item = false ↔ decode item false 8 = .ok 0)) ∧
    (∀ item : Bytes, truth item = false ↔
      (∀ b ∈ item.dropLast, b = 0) ∧ ∀ b, item.getLast? = some b → b = 0x00 ∨ b = 0x80) ∧
    ∀ (ctx : Context σ) (offset : Nat) (i : Instruction) (m : Machine σ) (item : Bytes)
      (below : Stack), ctx.flags.minimalData = false → item.length ≤ 4 → m.Offers item below →
        Decides σ item (truth item) ∧
          (i.operation = .unary .notEqual0 → ∃ left,
            i.step ctx offset m = .ok () (m.operated (left :: below)) ∧
              Decides σ left (truth item)) ∧
          (i.operation = .unary .not → ∃ left,
            i.step ctx offset m = .ok () (m.operated (left :: below)) ∧
              Decides σ left (!truth item)) := by
  refine ⟨fun item hlength => ?_, fun item => truth_eq_false_iff, ?_⟩
  · rw [truth_eq_false_iff_signMagnitude, decode_ok_iff_spells (Nat.le_refl 8)]
    exact ⟨fun hzero => ⟨hlength, (fun h => nomatch h), hzero⟩, fun h => h.2.2⟩
  · intro ctx offset i m item below hminimal hlength hoffers
    have hitem : IsOperand ctx.flags.minimalData item :=
      ⟨hlength, fun h => absurd (hminimal.symm.trans h) Bool.false_ne_true⟩
    obtain ⟨hnotEqual0, hnot⟩ := encode_result_eq_ofTruth item
    refine ⟨decides_truth item, fun hi => ?_, fun hi => ?_⟩
    · refine ⟨ofTruth (truth item), ?_, decides_ofTruth _⟩
      rw [Instruction.step_unary hi hitem hoffers, hnotEqual0]
    · refine ⟨ofTruth (!truth item), ?_, decides_ofTruth _⟩
      rw [Instruction.step_unary hi hitem hoffers, hnot]

/-- A context that does not ask for the shortest forms. -/
def laxContext : Context Unit := ⟨.accepting, {}, true, []⟩

/-- A machine with a zero of two bytes that has the sign, above another item. -/
def onNegativeZero : Machine Unit := { Machine.start () with stack := [[0x00, 0x80], [7]] }

/-- The zero with the sign fails VERIFY, and so does what NOTEQUAL0 leaves of it. What NOT leaves
    passes. -/
theorem truth_reads_numbers_negativeZero :
    decode [0x00, 0x80] false 8 = .ok 0 ∧
    Instruction.step laxContext 0 ⟨⟨0x69⟩, []⟩ onNegativeZero =
      .error (.verify ⟨0x69⟩) (onNegativeZero.operated [[7]]) ∧
    (∃ left, Instruction.step laxContext 0 ⟨⟨0x92⟩, []⟩ onNegativeZero =
        .ok () (onNegativeZero.operated [left, [7]]) ∧
      Instruction.step laxContext 1 ⟨⟨0x69⟩, []⟩ (onNegativeZero.operated [left, [7]]) =
        .error (.verify ⟨0x69⟩) ((onNegativeZero.operated [left, [7]]).operated [[7]])) ∧
    ∃ left, Instruction.step laxContext 0 ⟨⟨0x91⟩, []⟩ onNegativeZero =
        .ok () (onNegativeZero.operated [left, [7]]) ∧
      Instruction.step laxContext 1 ⟨⟨0x69⟩, []⟩ (onNegativeZero.operated [left, [7]]) =
        .ok () ((onNegativeZero.operated [left, [7]]).operated [[7]]) := by
  obtain ⟨hread, hbytes, hdecides⟩ := @truth_reads_numbers Unit
  have hfalse : truth [0x00, 0x80] = false :=
    (hbytes _).2 ⟨List.forall_mem_singleton.2 rfl, fun b hb => Or.inr (Option.some.inj hb).symm⟩
  have hoffers : onNegativeZero.Offers [0x00, 0x80] [[7]] := ⟨rfl, rfl, by decide, by decide⟩
  have hleft (x : Bytes) : (onNegativeZero.operated [x, [7]]).Offers x [[7]] :=
    ⟨rfl, rfl, (by decide : 1 < Limit.operations), (by decide : 2 ≤ Limit.stackItems)⟩
  have hitem (op : Opcode) := hdecides laxContext 0 ⟨op, []⟩ onNegativeZero _ _ rfl (by decide) hoffers
  rw [hfalse] at hitem
  obtain ⟨hverify, -, -⟩ := hitem ⟨0x69⟩
  obtain ⟨-, hnotEqual0, -⟩ := hitem ⟨0x92⟩
  obtain ⟨-, -, hnot⟩ := hitem ⟨0x91⟩
  obtain ⟨left, hstep, hsame⟩ := hnotEqual0 rfl
  obtain ⟨left', hstep', hother⟩ := hnot rfl
  exact ⟨(hread _ (by decide)).1 hfalse, hverify.verify rfl hoffers,
    ⟨left, hstep, hsame.verify rfl (hleft left)⟩, left', hstep', hother.verify rfl (hleft left')⟩

end SpendScript

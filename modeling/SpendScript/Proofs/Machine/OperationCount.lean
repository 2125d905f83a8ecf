/-
  How operations are counted. An instruction above the push range counts as one operation in every
  branch. Where instructions run, a check of several signatures also counts its keys, whose number is the
  top item (`Instruction.keyCount`). A step that succeeds has counted just these
  (`Instruction.opCount_of_step`), and one fails for too many operations just when one of the two counts
  exceeds the limit (`Instruction.step_tooMany`).
-/
import SpendScript.Proofs.Machine.Failure
import SpendScript.Proofs.Machine.MultiSig

namespace SpendScript

variable {σ : Type} {ctx : Context σ} {offset n : Nat} {i : Instruction} {m m' : Machine σ}

open Number MachineM StackM

/-- The top item is a number of keys that a check can have. -/
def KeysOnTop (F : Flags) (s : Stack) (n : Nat) : Prop :=
  ∃ top rest, s = top :: rest ∧ IsOperand F.minimalData top ∧ signMagnitude top = n ∧ n ≤ Limit.keys

theorem keysOnTop_iff {F : Flags} {s : Stack} :
    KeysOnTop F s n ↔ n ≤ Limit.keys ∧
      ∃ x rest, s = x :: rest ∧ decode x F.minimalData operandSize = .ok (n : Int) := by
  unfold KeysOnTop
  constructor
  · rintro ⟨top, rest, hs, hop, hn, hle⟩
    exact ⟨hle, top, rest, hs, hn ▸ decode_of_isOperand hop⟩
  · rintro ⟨hle, x, rest, hs, hd⟩
    obtain ⟨hlength, hminimal, hn⟩ := (decode_ok_iff_spells (by decide)).1 hd
    exact ⟨x, rest, hs, ⟨hlength, hminimal⟩, hn, hle⟩

/-- The keys that an instruction counts on this machine. -/
def Instruction.keyCount (i : Instruction) (m : Machine σ) : Nat :=
  if i.operation.countsKeys = true ∧ m.branches.executing = true then
    (signMagnitude (m.stack.headD [])).toNat
  else 0

theorem popKeyCount_tooMany :
    (∃ m', popKeyCount ctx m = .error .tooManyOperations m') ↔
      ∃ n, KeysOnTop ctx.flags m.stack n ∧ Limit.operations < m.opCount + n := by
  constructor
  · rintro ⟨m', h⟩
    rcases bind_error.1 h with hpop | ⟨k, m₁, hpop, hrest⟩
    · obtain ⟨_, _, _, herr, _⟩ := exists_of_onStack_error hpop
      cases herr
    · obtain ⟨x, s, hs, hd, rfl⟩ := popNumber_ok.1 hpop
      by_cases hk : k < 0 ∨ (Limit.keys : Int) < k
      · rw [if_pos hk] at hrest
        cases hrest
      · rw [if_neg hk] at hrest
        obtain ⟨hnat, hmax⟩ := toNat_of_bounds hk
        refine ⟨k.toNat, keysOnTop_iff.2 ⟨hmax, x, s, hs, hnat ▸ hd⟩, ?_⟩
        rcases bind_error.1 hrest with hcounts | ⟨_, _, -, hpure⟩
        · exact (countOperations_error.1 hcounts).1
        · cases hpure
  · rintro ⟨n, hkeys, hexceeds⟩
    obtain ⟨hle, x, s, hs, hd⟩ := keysOnTop_iff.1 hkeys
    have hk : ¬ ((n : Int) < 0 ∨ (Limit.keys : Int) < n) := by omega
    refine ⟨{ m with stack := s, opCount := m.opCount + n }, ?_⟩
    unfold popKeyCount
    rw [bind_eq_of_ok (popNumber_ok.2 ⟨x, s, hs, hd, rfl⟩), if_neg hk]
    exact bind_eq_of_error (countOperations_error.2 ⟨hexceeds, rfl, rfl⟩)

/-! ## What an instruction performs -/

/-- The operation count is quiet. -/
theorem quiet_opCount (ctx : Context σ) (n : Nat) :
    Quiet ctx (fun _ => True) fun m => m.opCount = n :=
  ⟨fun _ _ h => h, fun _ _ h => h, fun _ _ _ h => h, fun _ _ h => h, fun _ _ h => h⟩

/-- Once the keys have been counted, the check counts nothing more. -/
theorem opCount_of_checkMultiple {b : Bool} (h : checkMultiple ctx m = .ok b m') :
    m'.opCount = m.opCount + (signMagnitude (m.stack.headD [])).toNat := by
  obtain ⟨x, keys, y, items, dummy, rest, hs, hx, -, -, -, -, -, hmatch⟩ := checkMultiple_ok.1 h
  obtain ⟨-, -, hn⟩ := (decode_ok_iff_spells (by decide)).1 hx
  have hquiet := quiet_opCount ctx (m.opCount + keys.length)
  have hsearch : Preserves (fun m₁ => m₁.opCount = m.opCount + keys.length)
      (matchKeys ctx (Script.toBytes (ctx.script.drop m.codeStart)) items keys) :=
    preserves_matchKeys (fun {item key} _ _ => hquiet.checkPair trivial item key)
      (fun _ _ => trivial) fun _ _ => trivial
  have hafter := hsearch { m with stack := rest, opCount := m.opCount + keys.length } rfl
  rw [hmatch] at hafter
  rw [hs, List.headD_cons, hn, Int.toNat_natCast]
  exact hafter

namespace Instruction

theorem opCount_of_perform (h : i.perform ctx offset m = .ok () m') :
    m'.opCount = m.opCount +
      if i.operation.countsKeys = true then (signMagnitude (m.stack.headD [])).toNat else 0 := by
  by_cases hcounts : i.operation.countsKeys = true
  · rw [if_pos hcounts]
    cases hop : i.operation with
    | checkMultiSig verify =>
      unfold perform at h
      dsimp only at h
      rw [hop] at h
      obtain ⟨b, m₁, hcheck, hrest⟩ := bind_ok.1 h
      have hafter := (quiet_opCount ctx m₁.opCount).deliver i.opcode verify b m₁ rfl
      rw [hrest] at hafter
      exact hafter.trans (opCount_of_checkMultiple hcheck)
    | _ =>
      rw [hop] at hcounts
      cases hcounts
  · have hkeeps : Preserves (fun m₁ => m₁.opCount = m.opCount) (i.perform ctx offset) :=
      (quiet_opCount ctx m.opCount).perform (fun h => absurd h hcounts) (fun _ _ _ => trivial)
        (fun _ _ _ h => h) (fun _ _ h => h)
    have hafter := hkeeps m rfl
    rw [h] at hafter
    rw [if_neg hcounts]
    exact hafter

/-- Only the count of the keys finds too many operations there. -/
theorem perform_tooMany :
    (∃ m', i.perform ctx offset m = .error .tooManyOperations m') ↔
      i.operation.countsKeys = true ∧
        ∃ n, KeysOnTop ctx.flags m.stack n ∧ Limit.operations < m.opCount + n := by
  by_cases hcounts : i.operation.countsKeys = true
  · rw [and_iff_right hcounts, ← popKeyCount_tooMany]
    cases hop : i.operation with
    | checkMultiSig verify =>
      have hperform : i.perform ctx offset =
          checkMultiple ctx >>= fun b => deliver i.opcode verify b := by
        unfold perform
        dsimp only
        rw [hop]
      rw [hperform]
      constructor
      · rintro ⟨m', h⟩
        rcases bind_error.1 h with hcheck | ⟨b, m₁, -, hdeliver⟩
        · have hcases : _ ∨ Told .nop false .tooManyOperations m' := told_of_checkMultiple hcheck
          rcases hcases with hkeys | htold
          · exact ⟨m', hkeys⟩
          · exact absurd rfl htold.ne_tooManyOperations
        · have htold : Told .nop false _ _ := told_deliver _ verify b _ _ _ hdeliver
          exact absurd rfl htold.ne_tooManyOperations
      · rintro ⟨m', h⟩
        have hcheck : checkMultiple ctx m = .error .tooManyOperations m' := bind_eq_of_error h
        exact ⟨m', bind_eq_of_error hcheck⟩
    | _ =>
      rw [hop] at hcounts
      cases hcounts
  · constructor
    · rintro ⟨m', h⟩
      have htold := told_perform m _ m' h
      rw [Bool.eq_false_iff.2 hcounts] at htold
      exact absurd rfl htold.ne_tooManyOperations
    · rintro ⟨h, -⟩
      exact absurd h hcounts

/-! ## Steps -/

theorem not_isConditional_of_countsKeys (h : i.operation.countsKeys = true) :
    ¬ i.isConditional = true := by
  have hnot {op : Operation} (h : op.countsKeys = true) : op.isConditional = false := by
    cases op <;> first | exact absurd h Bool.false_ne_true | rfl
  exact Bool.eq_false_iff.1 (hnot h)

/-- **What a step counts.** -/
theorem opCount_of_step (h : i.step ctx offset m = .ok () m') :
    m'.opCount = m.opCount + (if i.isPush = true then 0 else 1) + i.keyCount m := by
  obtain ⟨⟨-, -, hacts⟩, -⟩ := step_ok.1 h
  have hcounted : (i.counted m).opCount = m.opCount + if i.isPush = true then 0 else 1 := by
    unfold counted
    split <;> rfl
  unfold Acts at hacts
  rw [counted_branches] at hacts
  rw [← hcounted]
  unfold keyCount
  by_cases hx : m.branches.executing = true
  · rw [if_pos hx] at hacts
    have hperformed := opCount_of_perform hacts.2
    rw [counted_stack] at hperformed
    rw [hperformed]
    simp only [hx, and_true]
  · rw [if_neg hx] at hacts
    rw [if_neg fun h => hx h.2]
    by_cases hc : i.isConditional = true
    · rw [if_pos hc] at hacts
      have hperformed := opCount_of_perform hacts
      rwa [if_neg fun h => not_isConditional_of_countsKeys h hc] at hperformed
    · rw [if_neg hc] at hacts
      rw [hacts]
      rfl

theorem execute_tooMany (ha : i.Allowed) :
    (∃ m', i.execute ctx offset m = .error .tooManyOperations m') ↔
      ¬ i.isPush = true ∧ Limit.operations < m.opCount + 1 ∨
        i.operation.countsKeys = true ∧ m.branches.executing = true ∧
          ∃ n, KeysOnTop ctx.flags m.stack n ∧ Limit.operations < m.opCount + 1 + n := by
  by_cases hp : i.isPush = true
  · constructor
    · rintro ⟨m', h⟩
      have hstep : i.step ctx offset m = .error .tooManyOperations m' := bind_eq_of_error h
      have htold := told_step m _ m' hstep
      rw [hp] at htold
      exact absurd rfl htold.ne_tooManyOperations
    · rintro (⟨hnot, -⟩ | ⟨hcounts, -⟩)
      · exact absurd hp hnot
      · exact absurd hp (not_isPush_of_countsKeys hcounts)
  by_cases hcount : Limit.operations < m.opCount + 1
  · refine iff_of_true ?_ (Or.inl ⟨hp, hcount⟩)
    have hlimits : i.checkLimits m =
        .error .tooManyOperations { m with opCount := m.opCount + 1 } := by
      unfold checkLimits
      rw [if_neg hp]
      exact countOperations_error.2 ⟨hcount, rfl, rfl⟩
    rw [execute_of_allowed ha]
    exact ⟨_, bind_eq_of_error hlimits⟩
  · have hrefused : ¬ i.Refused ctx m :=
      not_refused_of_not_isPush ha hp (Nat.le_of_not_lt hcount)
    have hfirst : ¬ (¬ i.isPush = true ∧ Limit.operations < m.opCount + 1) :=
      fun h => hcount h.2
    rw [or_iff_right hfirst, execute_of_not_refused offset hrefused, counted_of_not_isPush hp]
    by_cases hx : m.branches.executing = true
    · rw [if_pos (Or.inl hx), and_iff_right hx]
      exact perform_tooMany
    · refine iff_of_false ?_ fun h => hx h.2.1
      rintro ⟨m', h⟩
      by_cases hc : i.isConditional = true
      · rw [if_pos (Or.inr hc)] at h
        exact not_isConditional_of_countsKeys (perform_tooMany.1 ⟨m', h⟩).1 hc
      · rw [if_neg (not_or.2 ⟨hx, hc⟩)] at h
        cases h

/-- **When there are too many operations.** -/
theorem step_tooMany (ha : i.Allowed) :
    (∃ m', i.step ctx offset m = .error .tooManyOperations m') ↔
      ¬ i.isPush = true ∧ Limit.operations < m.opCount + 1 ∨
        i.operation.countsKeys = true ∧ m.branches.executing = true ∧
          ∃ n, KeysOnTop ctx.flags m.stack n ∧ Limit.operations < m.opCount + 1 + n := by
  rw [← execute_tooMany ha]
  refine exists_congr fun m' => ⟨fun h => ?_, bind_eq_of_error⟩
  rcases bind_error.1 h with hexecute | ⟨_, m₁, -, hdepth⟩
  · exact hexecute
  · have htold : Told .nop false _ _ := told_checkDepth _ _ _ hdepth
    exact absurd rfl htold.ne_tooManyOperations

end Instruction

end SpendScript

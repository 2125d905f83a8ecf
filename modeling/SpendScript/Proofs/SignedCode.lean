/-
  What signatures commit to. Every question about a signature is asked by a signature check in the
  revealed script, and the code it names is the end of the revealed bytes: what stands behind the last
  separator that has been executed, or all of it (`Engine.signed_code`).

  The engine keeps the place behind that separator as a number. The invariant that carries the proof
  is that this number is the one that a run shows from outside (`Engine.mark`), as long as there is a
  next instruction in the revealed script (`Engine.Marked.next`).
-/
import Mathlib.Data.List.Basic
import SpendScript.Proofs.Engine.Construction
import SpendScript.Proofs.Engine.Reached
import SpendScript.Proofs.Engine.Recording
import SpendScript.Proofs.Machine.Records

namespace SpendScript

variable {σ : Type}

/-! ## Questions of one instruction -/

section Machine

variable {c : Checker σ} {ctx : Context (σ × List Query)} {P : Bytes → Prop} {before : List Query}
  {k : Nat}

/-- The signed code begins at `k`, and since `before` signatures have been asked about only over code
    that satisfies `P`. -/
def Asked (before : List Query) (k : Nat) (P : Bytes → Prop) (m : Machine (σ × List Query)) : Prop :=
  m.codeStart = k ∧ ∃ asked, m.checker.2 = asked ++ before ∧
    ∀ q, .signature q ∈ asked → P q.scriptCode

/-- A further question that is no signature over other code. -/
theorem Asked.cons {m : Machine (σ × List Query)} (h : Asked before k P m) (query : Query)
    (hq : ∀ q, query = .signature q → P q.scriptCode) {s : σ × List Query}
    (hs : s.2 = query :: m.checker.2) : Asked before k P { m with checker := s } :=
  ⟨h.1, Records.cons (Q := fun q => P q.scriptCode) h.2 query hq hs⟩

theorem frame_asked (hc : ctx.checker = c.recording) : Frame ctx P (Asked before k P) where
  stack _ _ h := h
  alt _ _ h := h
  opCount _ _ h := h
  signature m q hq h := by
    refine h.cons (.signature q) (fun q' heq => ?_) (by rw [hc]; rfl)
    cases heq
    exact hq
  lockTime m n h := h.cons (.lockTime n) (fun _ heq => (nomatch heq)) (by rw [hc]; rfl)
  sequence m n h := h.cons (.sequence n) (fun _ heq => (nomatch heq)) (by rw [hc]; rfl)

namespace Instruction

variable {offset : Nat} {i : Instruction} {m : Machine (σ × List Query)}

/-- An instruction asks about signatures only if it is a signature check, over the code that begins
    where the machine says. Unless it is a separator it leaves that place as it is. -/
theorem asked_of_step (hc : ctx.checker = c.recording) (hop : i.operation ≠ .codeSeparator) :
    Asked m.checker.2 m.codeStart
      (fun code => i.operation.isSignatureCheck = true ∧
        code = Script.toBytes (ctx.script.drop m.codeStart))
      (stateOf (i.step ctx offset m)) := by
  refine (frame_asked hc).step ?_ (fun _ _ _ h => h) (fun h => absurd h hop) m ?_
  · intro hcheck m' hm'
    exact ⟨hcheck, by rw [hm'.1]⟩
  · exact ⟨rfl, [], rfl, fun q hq => absurd hq List.not_mem_nil⟩

theorem not_isPush_of_codeSeparator (hop : i.operation = .codeSeparator) : ¬ i.isPush = true :=
  Opcode.not_isPush_of_operation hop rfl (fun h => nomatch h)

theorem not_isPush_of_isSignatureCheck (h : i.operation.isSignatureCheck = true) :
    ¬ i.isPush = true := Opcode.not_isPush_of rfl (fun _ => rfl) rfl h

/-- A separator counts as an operation. Where instructions run it moves the start of the signed code
    behind itself. -/
theorem step_codeSeparator {τ : Type} {ctx : Context τ} {m : Machine τ}
    (hop : i.operation = .codeSeparator)
    (hroom : m.stack.length + m.alt.length ≤ Limit.stackItems) :
    i.step ctx offset m =
      if Limit.operations < m.opCount + 1 then
        .error .tooManyOperations { m with opCount := m.opCount + 1 }
      else .ok () { m with
        opCount := m.opCount + 1
        codeStart := if m.branches.executing then offset + 1 else m.codeStart } := by
  have hpush := not_isPush_of_codeSeparator hop
  have hallowed : i.Allowed := by
    refine allowed_of_operation ?_ ?_ <;> rw [hop] <;> exact fun h => nomatch h
  by_cases hcount : Limit.operations < m.opCount + 1
  · have hlimits : i.checkLimits m =
        .error .tooManyOperations { m with opCount := m.opCount + 1 } := by
      have hcounted : MachineM.countOperations 1 m =
          .error .tooManyOperations { m with opCount := m.opCount + 1 } := if_pos hcount
      unfold checkLimits
      rw [if_neg hpush, hcounted]
    rw [if_pos hcount]
    unfold step execute
    rw [hallowed.1, hallowed.2]
    simp only [Bool.false_eq_true, if_false, Bind.bind, EStateM.bind, hlimits]
  · rw [if_neg hcount]
    refine step_ok.2 ⟨⟨hallowed, (within_of_not_isPush hpush).2 (by omega), ?_⟩, hroom⟩
    rw [counted_of_not_isPush hpush]
    unfold Acts
    by_cases hx : m.branches.executing = true
    · rw [if_pos hx, if_pos hx]
      refine ⟨minimalFor_of_not_isPush hpush, ?_⟩
      unfold perform
      rw [hop]
      rfl
    · have hcond : i.isConditional = false := by
        unfold isConditional
        rw [hop]
        rfl
      rw [if_neg hx, if_neg hx, hcond]
      rfl

/-- An instruction that fails leaves the start of the signed code as it is. A separator, which fails
    only before it is executed, leaves the stacks as well. -/
theorem kept_of_error (hc : ctx.checker = c.recording)
    (hroom : i.operation = .codeSeparator → m.stack.length + m.alt.length ≤ Limit.stackItems)
    {err : ScriptError} {m' : Machine (σ × List Query)}
    (h : i.step ctx offset m = .error err m') :
    m'.codeStart = m.codeStart ∧
      (i.operation = .codeSeparator → m'.stack = m.stack ∧ m'.alt = m.alt) := by
  by_cases hop : i.operation = .codeSeparator
  · rw [step_codeSeparator hop (hroom hop)] at h
    split at h
    · cases h
      exact ⟨rfl, fun _ => ⟨rfl, rfl⟩⟩
    · cases h
  · have hasked : Asked m.checker.2 m.codeStart _ (stateOf (i.step ctx offset m)) :=
      asked_of_step hc hop
    rw [h] at hasked
    exact ⟨hasked.1, fun hsep => absurd hsep hop⟩

end Instruction

end Machine

/-! ## Marks -/

namespace Engine

/-- Whether the next step executes a separator of the revealed script. -/
def separates (e : Engine σ) : Bool :=
  match e.next?, step e with
  | some i, .ok _ _ =>
    e.scriptIndex = 1 && i.operation = .codeSeparator && e.machine.branches.executing
  | _, _ => false

/-- The place behind the last separator of the revealed script that `n` steps have executed, and its
    start if they have executed none. -/
def mark (e : Engine σ) : Nat → Nat
  | 0 => 0
  | n + 1 => if (reached n e).separates then (reached n e).offset + 1 else mark e n

variable {c : Checker σ} {s₁ : Script} {k : Nat} {e : Engine σ}

theorem separates_of_ok {i : Instruction} (hnext : e.next? = some i) {done : Bool} {e' : Engine σ}
    (hs : step e = .ok done e') :
    e.separates = (decide (e.scriptIndex = 1) && decide (i.operation = .codeSeparator) &&
      e.machine.branches.executing) := by
  unfold separates
  rw [hnext, hs]

theorem separates_of_error {err : ScriptError} {e' : Engine σ} (hs : step e = .error err e') :
    e.separates = false := by
  unfold separates
  rw [hs]
  cases e.next? <;> rfl

/-- There are separators in the revealed script only. -/
theorem separates_of_index (h : e.scriptIndex ≠ 1) : e.separates = false := by
  unfold separates
  split
  · simp [h]
  · rfl

/-- Outside of the revealed script the next instruction is a push. -/
theorem Reveals.isPush_of_next? (hr : e.Reveals c s₁) (h : e.scriptIndex ≠ 1) {i : Instruction}
    (hnext : e.next? = some i) : i.isPush = true :=
  hr.pushes e.scriptIndex h i (List.mem_of_getElem? hnext)

/-- The signed code begins at the mark `k`, as long as there is a next instruction in the revealed
    script. A separator is next only where there is room on the stacks, so that it cannot fail once it
    has been executed. -/
structure Marked (c : Checker σ) (s₁ : Script) (k : Nat) (e : Engine σ) : Prop extends
    Reveals c s₁ e where
  start : e.scriptIndex = 0 → k = 0
  codeStart : e.scriptIndex = 1 → e.next? ≠ none → e.machine.codeStart = k
  room : ∀ i, e.next? = some i → i.operation = .codeSeparator →
    e.machine.stack.length + e.machine.alt.length ≤ Limit.stackItems

variable {e : Engine (σ × List Query)}

theorem Marked.failed (h : e.Marked c.recording s₁ k) {i : Instruction} (hnext : e.next? = some i)
    {err : ScriptError} {m : Machine (σ × List Query)}
    (hi : i.step e.context e.offset e.machine = .error err m) :
    Marked c.recording s₁ k { e with machine := m, status := .failed } := by
  have hchecker : e.context.checker = c.recording := h.checker
  obtain ⟨hcode, hstacks⟩ := Instruction.kept_of_error hchecker (h.room i hnext) hi
  refine ⟨h.update _ _ _ _ _, h.start, fun hindex hne => ?_, fun j hj hop => ?_⟩
  · change m.codeStart = k
    rw [hcode]
    exact h.codeStart hindex hne
  · obtain rfl : i = j := Option.some.inj (hnext.symm.trans hj)
    obtain ⟨hstack, halt⟩ := hstacks hop
    change m.stack.length + m.alt.length ≤ Limit.stackItems
    rw [hstack, halt]
    exact h.room i hnext hop

theorem Marked.within (h : e.Marked c.recording s₁ k) {i : Instruction} (hnext : e.next? = some i)
    {m : Machine (σ × List Query)} (hi : i.step e.context e.offset e.machine = .ok () m)
    (hs : step e = .ok false (e.moved 1 m)) :
    (e.moved 1 m).Marked c.recording s₁ (if e.separates then e.offset + 1 else k) := by
  have hchecker : e.context.checker = c.recording := h.checker
  have hdepth : m.stack.length + m.alt.length ≤ Limit.stackItems := (Instruction.step_ok.1 hi).2
  refine ⟨h.update _ _ _ _ _, fun hzero => ?_, fun hindex _ => ?_, fun _ _ _ => hdepth⟩
  · have hindex : e.scriptIndex = 0 := hzero
    rw [separates_of_index (by omega)]
    exact h.start hindex
  · have hold : e.machine.codeStart = k := by
      refine h.codeStart hindex ?_
      rw [hnext]
      exact fun hn => nomatch hn
    have hone : e.scriptIndex = 1 := hindex
    rw [separates_of_ok hnext hs]
    change m.codeStart = _
    by_cases hop : i.operation = .codeSeparator
    · rw [Instruction.step_codeSeparator hop (h.room i hnext hop)] at hi
      split at hi
      · cases hi
      · cases hi
        simp only [hone, hop, decide_true, Bool.true_and, hold]
    · have hasked : Asked e.machine.checker.2 e.machine.codeStart _
          (stateOf (i.step e.context e.offset e.machine)) :=
        Instruction.asked_of_step hchecker hop
      rw [hi] at hasked
      simp only [hop, decide_false, Bool.and_false, Bool.false_and, Bool.false_eq_true, if_false]
      exact hasked.1.trans hold

theorem Marked.last (h : e.Marked c.recording s₁ k) {i : Instruction}
    {m : Machine (σ × List Query)} (hi : i.step e.context e.offset e.machine = .ok () m)
    (hend : e.script.length ≤ e.offset + 1) (status : Status) :
    Marked c.recording s₁ (if e.separates then e.offset + 1 else k)
      { stateOf (finishScript (e.moved 1 m)) with status := status } := by
  have hreveals : (e.moved 1 m).Reveals c.recording s₁ := h.update _ _ _ _ _
  have hdepth : m.stack.length + m.alt.length ≤ Limit.stackItems := (Instruction.step_ok.1 hi).2
  have hstart : e.scriptIndex = 0 → (if e.separates then e.offset + 1 else k) = 0 := by
    intro hzero
    rw [separates_of_index (by omega)]
    exact h.start hzero
  rcases finishScript_cases hreveals with hstay | ⟨hlater, -, hindex, hmachine⟩
  · -- The conditionals are not closed, and nothing is next.
    have hover : (e.moved 1 m).next? = none := List.getElem?_eq_none hend
    rw [hstay]
    exact ⟨hreveals.update _ _ _ _ _, hstart, fun _ hne => absurd hover hne,
      fun j hj => absurd (hover.symm.trans hj) (fun hn => nomatch hn)⟩
  · generalize stateOf (finishScript (e.moved 1 m)) = f at hlater hindex hmachine ⊢
    have hlt : e.scriptIndex < f.scriptIndex := hindex
    refine ⟨hlater.update _ _ _ _ _, fun hzero => ?_, fun hone _ => ?_, fun j hj hop => ?_⟩
    · have hfzero : f.scriptIndex = 0 := hzero
      omega
    · have hfone : f.scriptIndex = 1 := hone
      have hzero : e.scriptIndex = 0 := by omega
      change f.machine.codeStart = _
      rw [hmachine hzero, hstart hzero]
      rfl
    · change f.machine.stack.length + f.machine.alt.length ≤ Limit.stackItems
      by_cases hfone : f.scriptIndex = 1
      · rw [hmachine (by omega)]
        change m.stack.length + 0 ≤ Limit.stackItems
        omega
      · have hpush : j.isPush = true := hlater.isPush_of_next? hfone hj
        exact absurd hpush (Instruction.not_isPush_of_codeSeparator hop)

/-- **One step** keeps the mark, or moves it behind the separator that it executes. -/
theorem Marked.next (h : e.Marked c.recording s₁ k) :
    (stateOf (step e)).Marked c.recording s₁ (if e.separates then e.offset + 1 else k) := by
  generalize hf : stateOf (step e) = f
  have hsteps : Steps e f := by
    rw [← hf]
    exact steps_stateOf e
  cases hsteps with
  | ended hnext =>
    rw [separates_of_error (step_of_next?_none hnext)]
    exact ⟨h.update _ _ _ _ _, h.start, h.codeStart, h.room⟩
  | failed hnext hi hs =>
    rw [separates_of_error hs]
    exact h.failed hnext hi
  | within hnext hi hs => exact h.within hnext hi hs
  | last _ hi hend status => exact h.last hi hend status

theorem marked_reached (h : e.Marked c.recording s₁ 0) (n : Nat) :
    (reached n e).Marked c.recording s₁ (mark e n) := by
  induction n with
  | zero => exact h
  | succ n ih => exact ih.next

/-- The questions of one instruction. Those about signatures come from a signature check in the
    revealed script, and name its end from the mark on. -/
theorem Marked.asked_of_step (h : e.Marked c.recording s₁ k) {i : Instruction}
    (hnext : e.next? = some i) :
    ∃ asked, (stateOf (i.step e.context e.offset e.machine)).checker.2 =
        asked ++ e.machine.checker.2 ∧
      ∀ q, .signature q ∈ asked → e.scriptIndex = 1 ∧ i.operation.isSignatureCheck = true ∧
        q.scriptCode = Script.toBytes (s₁.drop k) := by
  have hchecker : e.context.checker = c.recording := h.checker
  by_cases hop : i.operation = .codeSeparator
  · rw [Instruction.step_codeSeparator hop (h.room i hnext hop)]
    refine ⟨[], ?_, fun q hq => absurd hq List.not_mem_nil⟩
    split <;> rfl
  · have hasked : Asked e.machine.checker.2 e.machine.codeStart _
        (stateOf (i.step e.context e.offset e.machine)) :=
      Instruction.asked_of_step hchecker hop
    obtain ⟨-, asked, hlist, hall⟩ := hasked
    refine ⟨asked, hlist, fun q hq => ?_⟩
    obtain ⟨hcheck, hcode⟩ := hall q hq
    have hindex : e.scriptIndex = 1 := Decidable.byContradiction fun hne =>
      Instruction.not_isPush_of_isSignatureCheck hcheck (h.isPush_of_next? hne hnext)
    have hstart : e.machine.codeStart = k := by
      refine h.codeStart hindex ?_
      rw [hnext]
      exact fun hn => nomatch hn
    have hscript : e.context.script = s₁ := by
      change e.scripts.getD e.scriptIndex [] = s₁
      rw [hindex, h.second]
    rw [hstart, hscript] at hcode
    exact ⟨hindex, hcheck, hcode⟩

/-- The questions of one step. -/
theorem Marked.asked (h : e.Marked c.recording s₁ k) :
    ∃ asked, (stateOf (step e)).machine.checker.2 = asked ++ e.machine.checker.2 ∧
      ∀ q, .signature q ∈ asked → e.scriptIndex = 1 ∧
        (∃ i, e.next? = some i ∧ i.operation.isSignatureCheck = true) ∧
        q.scriptCode = Script.toBytes (s₁.drop k) := by
  -- Whatever else the step does, its questions are those of the instruction.
  have hinstruction {i : Instruction} {m : Machine (σ × List Query)} {e' : Engine (σ × List Query)}
      (hnext : e.next? = some i) (hi : stateOf (i.step e.context e.offset e.machine) = m)
      (he' : e'.machine.checker = m.checker) :
      ∃ asked, e'.machine.checker.2 = asked ++ e.machine.checker.2 ∧
        ∀ q, .signature q ∈ asked → e.scriptIndex = 1 ∧
          (∃ i, e.next? = some i ∧ i.operation.isSignatureCheck = true) ∧
          q.scriptCode = Script.toBytes (s₁.drop k) := by
    obtain ⟨asked, hlist, hall⟩ := h.asked_of_step hnext
    refine ⟨asked, ?_, fun q hq => ?_⟩
    · rw [he', ← hi, hlist]
    · obtain ⟨hindex, hcheck, hcode⟩ := hall q hq
      exact ⟨hindex, ⟨i, hnext, hcheck⟩, hcode⟩
  generalize hf : stateOf (step e) = f
  have hsteps : Steps e f := by
    rw [← hf]
    exact steps_stateOf e
  cases hsteps with
  | ended hnext => exact ⟨[], rfl, fun q hq => absurd hq List.not_mem_nil⟩
  | failed hnext hi hs => exact hinstruction hnext (congrArg stateOf hi) rfl
  | within hnext hi hs => exact hinstruction hnext (congrArg stateOf hi) rfl
  | @last i m hnext hi hend status =>
    have hreveals : (e.moved 1 m).Reveals c.recording s₁ := h.update _ _ _ _ _
    refine hinstruction hnext (congrArg stateOf hi) ?_
    rcases finishScript_cases hreveals with hstay | ⟨-, hlater, -⟩
    · change (stateOf (finishScript (e.moved 1 m))).machine.checker = _
      rw [hstay]
      rfl
    · exact hlater

/-- The scripts are the same when the questions of an engine are kept. -/
theorem Reveals.recorded {e : Engine σ} (h : e.Reveals c s₁) :
    e.recorded.Reveals c.recording s₁ :=
  ⟨congrArg Checker.recording h.checker, h.length, h.second, h.pushes, h.locking⟩

/-- An engine that is made from a witness is marked at the start, also when its questions are kept. -/
theorem marked_recorded {locking : Bytes} {witness : List Bytes} {F : Flags} {start : σ}
    {e : Engine σ} {s₀ : Script} (he : ofWitness locking witness F c start = .ok e)
    (hf : e.Fresh s₀ s₁) (hpush : ∀ i ∈ s₀, i.isPush = true) :
    e.recorded.Marked c.recording s₁ 0 := by
  have hmachine : e.machine = Machine.start start := machine_of_ofWitness he
  refine ⟨(reveals_of_ofWitness he hf hpush).recorded, fun _ => rfl, fun _ _ => ?_, fun _ _ _ => ?_⟩
  · change e.machine.codeStart = 0
    rw [hmachine]
    rfl
  · change e.machine.stack.length + e.machine.alt.length ≤ Limit.stackItems
    rw [hmachine]
    exact Nat.zero_le _

/-- **The signed code.** Whatever steps an engine takes, the questions of each step come behind those
    asked before. A question about a signature comes from a signature check of the revealed script,
    and its code is what the revealed bytes end with, behind the last separator that has been executed
    in that script. -/
theorem signed_code {locking : Bytes} {witness : List Bytes} {F : Flags} {start : σ} {e : Engine σ}
    (he : ofWitness locking witness F c start = .ok e) :
    ∃ w₀ w₁ rest script, witness = w₀ :: w₁ :: rest ∧ Script.parse w₁ = .ok script ∧
      ∀ n, ∃ asked,
        (reached (n + 1) e.recorded).machine.checker.2 =
          asked ++ (reached n e.recorded).machine.checker.2 ∧
        ∀ q, .signature q ∈ asked →
          (reached n e.recorded).scriptIndex = 1 ∧
          (∃ i, (reached n e.recorded).next? = some i ∧ i.operation.isSignatureCheck = true) ∧
          w₁ = Script.toBytes (script.take (mark e.recorded n)) ++ q.scriptCode := by
  obtain ⟨w₀, w₁, rest, s₀, s₁, hwitness, -, hw₁, hpush, hfresh⟩ := exists_fresh_of_ofWitness he
  refine ⟨w₀, w₁, rest, s₁, hwitness, hw₁, fun n => ?_⟩
  have hmarked := marked_reached (marked_recorded he hfresh hpush) n
  obtain ⟨asked, hlist, hall⟩ := hmarked.asked
  refine ⟨asked, hlist, fun q hq => ?_⟩
  obtain ⟨hindex, hcheck, hcode⟩ := hall q hq
  refine ⟨hindex, hcheck, ?_⟩
  rw [hcode, ← Script.toBytes_append, List.take_append_drop, Script.toBytes_of_parse hw₁]

/-- A signature and a key, and the script `0xab DROP CODESEPARATOR 0 IF CODESEPARATOR ENDIF
    CHECKSIG`. -/
def separatedWitness : List Bytes :=
  [[0x09, 0x30, 0x06, 0x02, 0x01, 0x01, 0x02, 0x01, 0x01, 0x01, 0x21, 0x02] ++
      List.replicate 31 0 ++ [1],
    [0x01, 0xab, 0x75, 0xab, 0x00, 0x63, 0xab, 0x68, 0xac]]

/-- The tenth step of this spend checks the signature. The byte that is pushed and the separator that
    is passed over do not count. -/
theorem signed_code_passedOver :
    ∃ (e : Engine Unit) (q : SignatureQuery),
      ofWitness [0x08, 0xd0, 0x07, 0, 0, 0, 0, 0, 0] separatedWitness {} .accepting () = .ok e ∧
      .signature q ∈ (reached 10 e.recorded).machine.checker.2 ∧
      q.scriptCode = [0x00, 0x63, 0xab, 0x68, 0xac] ∧ mark e.recorded 9 = 3 ∧
      ∃ w₁ script, separatedWitness[1]? = some w₁ ∧ Script.parse w₁ = .ok script ∧
        w₁ = Script.toBytes (script.take 3) ++ q.scriptCode := by
  have hrun : (do
      let e ← ofWitness [0x08, 0xd0, 0x07, 0, 0, 0, 0, 0, 0] separatedWitness {} .accepting ()
      return ((reached 9 e.recorded).machine.checker.2,
        (reached 10 e.recorded).signatureChecks.map SignatureQuery.scriptCode,
        mark e.recorded 9)) = .ok ([], [[0x00, 0x63, 0xab, 0x68, 0xac]], 3) := by
    decide +kernel
  obtain ⟨e, he, hcomputed⟩ := except_bind_ok.1 hrun
  obtain ⟨hbefore, hcodes, hmark⟩ :
      (reached 9 e.recorded).machine.checker.2 = [] ∧
      (reached 10 e.recorded).signatureChecks.map SignatureQuery.scriptCode =
        [[0x00, 0x63, 0xab, 0x68, 0xac]] ∧ mark e.recorded 9 = 3 := by
    simpa using Except.ok.inj hcomputed
  obtain ⟨q, hq, hcode⟩ := List.map_eq_singleton_iff.1 hcodes
  have hmem : .signature q ∈ (reached 10 e.recorded).machine.checker.2 := by
    have hsigned : q ∈ (reached 10 e.recorded).signatureChecks := by
      rw [hq]
      exact List.mem_singleton_self q
    obtain ⟨query, hquery, hsignature⟩ := List.mem_filterMap.1 hsigned
    cases query <;> cases hsignature
    exact hquery
  obtain ⟨w₀, w₁, rest, script, hwitness, hparse, hall⟩ := signed_code he
  obtain ⟨asked, hlist, hsigned⟩ := hall 9
  simp only [Nat.reduceAdd] at hlist
  have hasked : (reached 10 e.recorded).machine.checker.2 = asked ++ [] :=
    hlist.trans (congrArg (asked ++ ·) hbefore)
  have hqasked : .signature q ∈ asked := by
    rw [List.append_nil] at hasked
    exact hasked ▸ hmem
  obtain ⟨-, -, hsuffix⟩ := hsigned q hqasked
  rw [hmark] at hsuffix
  refine ⟨e, q, he, hmem, hcode, hmark, w₁, script, ?_, hparse, hsuffix⟩
  rw [hwitness]
  rfl

end Engine

end SpendScript

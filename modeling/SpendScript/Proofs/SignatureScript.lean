/-
  Signature scripts. The first script of a witness has instructions of the push range only, so each of its
  steps puts an item on the stack or fails for one of four reasons (`Instruction.fault?`). An engine gets
  through the script when no instruction has a fault, and then has the items in order and nothing else. It
  stops otherwise at the first fault (`Engine.signatureScript_outcome`).

  Only one fault depends on what came before, the last one: it counts the items. As many have been pushed as
  there are instructions before the fault (`Script.run_take_of_faultless`).
-/
import SpendScript.Proofs.Engine.Failure
import SpendScript.Proofs.Engine.Phases
import SpendScript.Proofs.Engine.Recording
import SpendScript.Proofs.Machine.Pushes

namespace SpendScript

variable {σ : Type}

theorem ite_some_eq_none {α : Type} {p : Prop} [Decidable p] {a : α} {x : Option α} :
    (if p then some a else x) = none ↔ ¬ p ∧ x = none := by
  split <;> simp [*]

namespace Instruction

variable {F : Flags} {ctx : Context σ} {offset n : Nat} {i : Instruction} {m : Machine σ}
  {err : ScriptError}

/-! ## Faults -/

/-- Why an instruction of the push range fails when it runs on `n` items, if it does. -/
def fault? (F : Flags) (n : Nat) (i : Instruction) : Option ScriptError :=
  if Limit.elementSize < i.data.length then some (.elementTooBig i.data.length)
  else if F.minimalData = true ∧ i.opcode.value ≤ Opcode.lastDataPush ∧ i.isMinimalPush = false then
    some (.notMinimalPush i.opcode i.data.length)
  else if i.operation = .reserved then some (.reservedOpcode i.opcode)
  else if Limit.stackItems < n + 1 then some (.stackOverflow (n + 1))
  else none

theorem not_longer_iff :
    ¬ (F.minimalData = true ∧ i.opcode.value ≤ Opcode.lastDataPush ∧ i.isMinimalPush = false) ↔
      i.MinimalFor F := by
  simp [MinimalFor]

theorem fault?_eq_none_iff :
    i.fault? F n = none ↔ i.Pushable F ∧ i.operation ≠ .reserved ∧ n < Limit.stackItems := by
  unfold fault?
  rw [ite_some_eq_none, ite_some_eq_none, ite_some_eq_none, ite_some_eq_none, not_longer_iff]
  constructor
  · rintro ⟨hsize, hminimal, hop, hroom, -⟩
    exact ⟨⟨Nat.le_of_not_lt hsize, hminimal⟩, hop, by omega⟩
  · rintro ⟨⟨hsize, hminimal⟩, hop, hroom⟩
    exact ⟨Nat.not_lt_of_le hsize, hminimal, hop, by omega, rfl⟩

/-- The push range has nothing that is refused in every branch. -/
theorem allowed_of_isPush (hpush : i.isPush = true) : i.Allowed := by
  by_cases hop : i.operation = .reserved
  · refine allowed_of_operation ?_ ?_ <;> rw [hop] <;> exact fun h => nomatch h
  · obtain ⟨item, hitem⟩ := pushed?_of_not_reserved hpush hop
    exact allowed_of_pushed? hitem

theorem checkLimits_of_oversized (hpush : i.isPush = true)
    (hsize : Limit.elementSize < i.data.length) :
    i.checkLimits m = .error (.elementTooBig i.data.length) m := by
  unfold checkLimits
  rw [if_pos hpush, if_pos hsize]
  rfl

theorem checkMinimal_of_longer (hlong : ctx.flags.minimalData = true ∧
    i.opcode.value ≤ Opcode.lastDataPush ∧ i.isMinimalPush = false) :
    i.checkMinimal ctx m = .error (.notMinimalPush i.opcode i.data.length) m := by
  unfold checkMinimal checkMinimalPush
  rw [hlong.1, decide_eq_true hlong.2.1, hlong.2.2]
  rfl

/-- An instruction of the push range that is short enough is left with the rule on minimal data and its
    effect. -/
theorem execute_of_size (ctx : Context σ) (offset : Nat) (hpush : i.isPush = true)
    (hx : m.branches.executing = true) (hsize : i.data.length ≤ Limit.elementSize) :
    i.execute ctx offset m = (do i.checkMinimal ctx; i.perform ctx offset : MachineM σ Unit) m := by
  have hlimits : i.checkLimits m = .ok () m := by
    rw [checkLimits_ok, within_of_isPush hpush, counted_of_isPush hpush]
    exact ⟨hsize, rfl⟩
  rw [execute_of_allowed (allowed_of_isPush hpush), bind_eq_of_ok hlimits]
  change (if m.branches.executing then _ else _ : MachineM σ Unit) m = _
  rw [if_pos hx]

/-- An instruction with a fault fails for that reason. -/
theorem step_of_fault? (hpush : i.isPush = true) (hx : m.branches.executing = true)
    (halt : m.alt = []) (hfault : i.fault? ctx.flags m.stack.length = some err) :
    ∃ m', i.step ctx offset m = .error err m' := by
  unfold fault? at hfault
  split at hfault
  case isTrue hsize =>
    cases hfault
    have hexecute : i.execute ctx offset m = .error (.elementTooBig i.data.length) m := by
      rw [execute_of_allowed (allowed_of_isPush hpush)]
      exact bind_eq_of_error (checkLimits_of_oversized hpush hsize)
    exact ⟨m, bind_eq_of_error hexecute⟩
  rename_i hsize
  have hsize : i.data.length ≤ Limit.elementSize := Nat.le_of_not_lt hsize
  have hexecute := execute_of_size ctx offset hpush hx hsize
  split at hfault
  case isTrue hlong =>
    cases hfault
    exact ⟨m, bind_eq_of_error (hexecute.trans (bind_eq_of_error (checkMinimal_of_longer hlong)))⟩
  rename_i hshort
  have hminimal : i.MinimalFor ctx.flags := not_longer_iff.1 hshort
  split at hfault
  case isTrue hop =>
    cases hfault
    have hcheck : i.checkMinimal ctx m = .ok () m := checkMinimal_ok.2 ⟨hminimal, rfl⟩
    have hexecute := hexecute.trans ((bind_eq_of_ok hcheck).trans (perform_of_reserved hop))
    exact ⟨m, bind_eq_of_error hexecute⟩
  rename_i hop
  split at hfault
  case isTrue hroom =>
    cases hfault
    obtain ⟨item, hitem⟩ := pushed?_of_not_reserved hpush hop
    refine ⟨{ m with stack := item :: m.stack }, ?_⟩
    rw [step_of_pushable hitem hx ⟨hsize, hminimal⟩]
    unfold checkDepth
    dsimp only
    rw [halt, List.length_cons, List.length_nil, Nat.add_zero, if_pos hroom]
  cases hfault

end Instruction

namespace Script

variable {F : Flags} {ctx : Context σ} {s : Script} {k : Nat}

/-- No instruction before a place of the script has a fault. -/
def FaultlessBefore (F : Flags) (s : Script) (k : Nat) : Prop :=
  ∀ n i, n < k → s[n]? = some i → i.fault? F n = none

/-- The first instruction of the script that has a fault. -/
structure FirstFault (F : Flags) (s : Script) (n : Nat) (i : Instruction) (err : ScriptError) :
    Prop where
  place : s[n]? = some i
  fault : i.fault? F n = some err
  before : s.FaultlessBefore F n

theorem FirstFault.lt_length {n : Nat} {i : Instruction} {err : ScriptError}
    (h : s.FirstFault F n i err) : n < s.length :=
  (List.getElem?_eq_some_iff.1 h.place).1

theorem faultless_or_exists_firstFault (F : Flags) (s : Script) (k : Nat) :
    s.FaultlessBefore F k ∨ ∃ n i err, s.FirstFault F n i err := by
  induction k with
  | zero => exact Or.inl fun n i hn => absurd hn (Nat.not_lt_zero n)
  | succ k ih =>
    refine ih.elim (fun hbefore => ?_) Or.inr
    by_cases hfault : ∃ i err, s[k]? = some i ∧ i.fault? F k = some err
    · obtain ⟨i, err, hi, herr⟩ := hfault
      exact Or.inr ⟨k, i, err, hi, herr, hbefore⟩
    · refine Or.inl fun n i hn hi => ?_
      rcases Nat.lt_succ_iff_lt_or_eq.1 hn with hn | rfl
      · exact hbefore n i hn hi
      · exact Option.eq_none_iff_forall_ne_some.2 fun err herr => hfault ⟨i, err, hi, herr⟩

theorem faultlessBefore_length_iff :
    s.FaultlessBefore F s.length ↔
      (∀ i ∈ s, i.Pushable F ∧ i.operation ≠ .reserved) ∧ s.length ≤ Limit.stackItems := by
  constructor
  · intro h
    refine ⟨fun i hi => ?_, ?_⟩
    · obtain ⟨n, hn, rfl⟩ := List.getElem_of_mem hi
      obtain ⟨hpushable, hop, -⟩ :=
        Instruction.fault?_eq_none_iff.1 (h n _ hn (List.getElem?_eq_getElem hn))
      exact ⟨hpushable, hop⟩
    · rcases hlast : s.length with _ | n
      · exact Nat.zero_le _
      · have hn : n < s.length := by omega
        exact (Instruction.fault?_eq_none_iff.1 (h n _ hn (List.getElem?_eq_getElem hn))).2.2
  · rintro ⟨hall, hroom⟩ n i hn hi
    obtain ⟨hpushable, hop⟩ := hall i (List.mem_of_getElem? hi)
    exact Instruction.fault?_eq_none_iff.2 ⟨hpushable, hop, by omega⟩

theorem FaultlessBefore.take (h : s.FaultlessBefore F k) (hk : k ≤ s.length) :
    FaultlessBefore F (s.take k) (s.take k).length := by
  intro n i hn hi
  rw [List.length_take_of_le hk] at hn
  rw [List.getElem?_take_of_lt hn] at hi
  exact h n i hn hi

theorem exists_items (h : ∀ i ∈ s, ∃ item, i.pushed? = some item) :
    ∃ items : List Bytes, s.map Instruction.pushed? = items.map some := by
  induction s with
  | nil => exact ⟨[], rfl⟩
  | cons i s ih =>
    obtain ⟨item, hitem⟩ := h i List.mem_cons_self
    obtain ⟨items, hitems⟩ := ih fun j hj => h j (List.mem_cons_of_mem i hj)
    exact ⟨item :: items, by rw [List.map_cons, List.map_cons, hitem, hitems]⟩

/-- As far as no instruction has a fault, a script of the push range pushes one item for each. -/
theorem run_take_of_faultless (ctx : Context σ) (hs : ∀ i ∈ s, i.isPush = true)
    (hk : k ≤ s.length) (h : s.FaultlessBefore ctx.flags k) (x : σ) :
    ∃ items : List Bytes, items.length = k ∧
      (s.take k).map Instruction.pushed? = items.map some ∧
      run ctx 0 (s.take k) (Machine.start x) =
        .ok () { Machine.start x with stack := items.reverse } := by
  have hpush : ∀ i ∈ s.take k, i.isPush = true := fun i hi => hs i (List.mem_of_mem_take hi)
  obtain ⟨hall, hroom⟩ := faultlessBefore_length_iff.1 (h.take hk)
  obtain ⟨items, hitems⟩ : ∃ items : List Bytes,
      (s.take k).map Instruction.pushed? = items.map some :=
    exists_items fun i hi => Instruction.pushed?_of_not_reserved (hpush i hi) (hall i hi).2
  have hlength : items.length = k := by
    have hmap := congrArg List.length hitems
    rw [List.length_map, List.length_map, List.length_take_of_le hk] at hmap
    exact hmap.symm
  rw [List.length_take_of_le hk] at hroom
  refine ⟨items, hlength, hitems, ?_⟩
  refine (run_pushes_ok hpush rfl (Nat.zero_le _)).2
    ⟨fun i hi => (hall i hi).1, items, hitems, ?_, ?_⟩
  · rw [show (Machine.start x).stack = [] from rfl, List.append_nil]
  · change items.length + 0 + 0 ≤ Limit.stackItems
    omega

end Script

namespace Engine

variable {F : Flags} {l u : Bytes} {us : List Bytes} {c : Checker σ} {s : Script} {x : σ}
  {e e' : Engine σ}

open Script (FaultlessBefore FirstFault)

/-! ## The first script -/

/-- An engine gets through a script without faults. It then has all items, and nothing else. -/
theorem after_of_faultless (he : ofWitness l (u :: us) F c x = .ok e)
    (hu : Script.parse u = .ok s) (h : s.FaultlessBefore F s.length) {items : List Bytes}
    (hitems : s.map Instruction.pushed? = items.map some) :
    after s.length e =
      some (e.resumed 1 { Machine.start x with stack := items.reverse }) := by
  obtain ⟨s₁, hf, hs⟩ := fresh_of_ofWitness he hu
  obtain ⟨-, -, -, rfl, -, hm⟩ := settings_of_ofWitness he
  obtain ⟨items', -, hitems', hrun⟩ :=
    Script.run_take_of_faultless (e.contextOf s) hs (Nat.le_refl _) h x
  rw [List.take_length] at hitems' hrun
  obtain rfl : items = items' :=
    (List.map_inj_right fun _ _ h => Option.some.inj h).1 (hitems.symm.trans hitems')
  rw [show Machine.start x = e.machine from hm.symm] at hrun
  have hafter := hf.after_first_of_run hrun (congrArg Machine.branches hm)
  rw [hm] at hafter
  exact hafter

/-- An engine stops at the first fault. -/
theorem step_of_firstFault (he : ofWitness l (u :: us) F c x = .ok e)
    (hu : Script.parse u = .ok s) {n : Nat} {i : Instruction} {err : ScriptError}
    (h : s.FirstFault F n i err) :
    ∃ f f', after n e = some f ∧ f.next? = some i ∧ step f = .error err f' ∧
      after s.length e = none := by
  obtain ⟨s₁, hf, hs⟩ := fresh_of_ofWitness he hu
  obtain ⟨-, -, -, rfl, -, hm⟩ := settings_of_ofWitness he
  have hn : n < s.length := h.lt_length
  -- The instructions before the fault have pushed one item each, and the engine walks up to it.
  obtain ⟨items, hlength, -, hrun⟩ :=
    Script.run_take_of_faultless e.context hs (Nat.le_of_lt hn) h.before x
  have hrange : e.offset + n < e.script.length := by
    rw [hf.offset, hf.script]
    omega
  obtain ⟨vs, status, hvs, hwalk⟩ := walk_take (m := { Machine.start x with stack := items.reverse })
    hrange (by rw [hf.drop_script, hf.offset, hm]; exact hrun)
  generalize hstop : ({ e.moved n { Machine.start x with stack := items.reverse } with
    status := status } : Engine σ) = f at hwalk
  have hafter (k : Nat) : after (n + k) e = after k f := by
    rw [← hvs]
    exact hwalk.after_add k
  have hnext : f.next? = some i := by
    rw [← hstop]
    change e.script[e.offset + n]? = some i
    rw [hf.script, hf.offset, Nat.zero_add]
    exact h.place
  obtain ⟨m', hi⟩ : ∃ m', i.step f.context f.offset f.machine = .error err m' := by
    rw [← hstop]
    refine Instruction.step_of_fault? (hs i (List.mem_of_getElem? h.place)) rfl rfl ?_
    change i.fault? e.flags items.reverse.length = some err
    rw [List.length_reverse, hlength]
    exact h.fault
  have hstep := step_of_instruction_error hnext hi
  refine ⟨f, _, hafter 0, hnext, hstep, ?_⟩
  obtain ⟨k, hk⟩ : ∃ k, s.length = n + (k + 1) := ⟨s.length - n - 1, by omega⟩
  rw [hk, hafter, after, hstep]

/-- The recorded engine is made like the engine itself. -/
theorem ofWitness_recorded {witness : List Bytes} (he : ofWitness l witness F c x = .ok e) :
    ofWitness l witness F c.recording (x, []) = .ok e.recorded := by
  obtain ⟨-, -, -, hflags, hchecker, hmachine⟩ := settings_of_ofWitness he
  rw [ofWitness_refit l witness F c x F c.recording (x, []), he]
  unfold recorded
  rw [hflags, hchecker, hmachine]
  rfl

/-- **Signature scripts.** An engine gets through its signature script just when every instruction is a
    push that may be executed and there are not too many of them. It then stands at the redeem script with
    the pushed items in order as its stack, and with nothing else: no other stack, no open conditional, no
    operation counted. Its checker has been asked nothing. Otherwise it stops at the first instruction with
    a fault, which is its error. -/
theorem signatureScript_outcome (he : ofWitness l (u :: us) F c x = .ok e)
    (hu : Script.parse u = .ok s) :
    ((∃ e', after s.length e = some e') ↔
      (∀ i ∈ s, i.Pushable F ∧ i.operation ≠ .reserved) ∧ s.length ≤ Limit.stackItems) ∧
    (∀ e', after s.length e = some e' → ∃ items : List Bytes,
      s.map Instruction.pushed? = items.map some ∧
      e' = e.resumed 1 { Machine.start x with stack := items.reverse } ∧
      after s.length e.recorded =
        some (e.recorded.resumed 1 { Machine.start (x, []) with stack := items.reverse })) ∧
    (after s.length e = none → ∃ n i err, s.FirstFault F n i err) ∧
    ∀ n i err, s.FirstFault F n i err →
      ∃ f f', after n e = some f ∧ f.next? = some i ∧ step f = .error err f' := by
  obtain ⟨_, -, hs⟩ := fresh_of_ofWitness he hu
  have hcases := s.faultless_or_exists_firstFault F s.length
  have hfaultless {e' : Engine σ} (he' : after s.length e = some e') :
      s.FaultlessBefore F s.length := by
    refine hcases.resolve_right fun ⟨n, i, err, h⟩ => ?_
    obtain ⟨_, _, -, -, -, hnone⟩ := step_of_firstFault he hu h
    cases he'.symm.trans hnone
  have hitems (h : s.FaultlessBefore F s.length) :
      ∃ items : List Bytes, s.map Instruction.pushed? = items.map some := by
    obtain ⟨hall, -⟩ := Script.faultlessBefore_length_iff.1 h
    exact Script.exists_items fun i hi => Instruction.pushed?_of_not_reserved (hs i hi) (hall i hi).2
  rw [← Script.faultlessBefore_length_iff]
  refine ⟨⟨fun ⟨e', he'⟩ => hfaultless he', fun h => ?_⟩, fun e' he' => ?_, fun hnone => ?_, ?_⟩
  · obtain ⟨items, hmap⟩ := hitems h
    exact ⟨_, after_of_faultless he hu h hmap⟩
  · have h := hfaultless he'
    obtain ⟨items, hmap⟩ := hitems h
    have hafter := after_of_faultless he hu h hmap
    exact ⟨items, hmap, Option.some.inj (he'.symm.trans hafter),
      after_of_faultless (ofWitness_recorded he) hu h hmap⟩
  · refine hcases.resolve_left fun h => ?_
    obtain ⟨items, hmap⟩ := hitems h
    cases hnone.symm.trans (after_of_faultless he hu h hmap)
  · intro n i err h
    obtain ⟨f, f', hafter, hnext, hstep, -⟩ := step_of_firstFault he hu h
    exact ⟨f, f', hafter, hnext, hstep⟩

/-- Two pushes get through, one of them of a number, and leave their two items. The reserved opcode
    behind them passes for a push until it runs. -/
theorem signatureScript_outcome_reserved :
    (∃ e : Engine Unit,
      ofWitness [0x08, 0xd0, 0x07, 0, 0, 0, 0, 0, 0] [[0x51, 0x01, 0x20], [0x51]]
        { minimalData := true } .accepting () = .ok e ∧
      after 2 e = some (e.resumed 1 { Machine.start () with stack := [[0x20], [0x01]] })) ∧
    ∃ e f f' : Engine Unit,
      ofWitness [0x08, 0xd0, 0x07, 0, 0, 0, 0, 0, 0] [[0x51, 0x01, 0x20, 0x50], [0x51]]
        { minimalData := true } .accepting () = .ok e ∧
      after 2 e = some f ∧ step f = .error (.reservedOpcode ⟨0x50⟩) f' := by
  have hpushes : Script.parse [0x51, 0x01, 0x20] = .ok [⟨⟨0x51⟩, []⟩, ⟨⟨0x01⟩, [0x20]⟩] := by
    decide +kernel
  have hparse : Script.parse [0x51, 0x01, 0x20, 0x50] =
      .ok [⟨⟨0x51⟩, []⟩, ⟨⟨0x01⟩, [0x20]⟩, ⟨⟨0x50⟩, []⟩] := by
    decide +kernel
  have hmade : ∀ w ∈ [[0x51, 0x01, 0x20], [0x51, 0x01, 0x20, 0x50]], (do
      let e ← ofWitness [0x08, 0xd0, 0x07, 0, 0, 0, 0, 0, 0] [w, [0x51]]
        { minimalData := true } .accepting ()
      return (e : Engine Unit).offset) = .ok 0 := by
    decide +kernel
  constructor
  · obtain ⟨e, he, -⟩ := except_bind_ok.1 (hmade [0x51, 0x01, 0x20] (by decide))
    obtain ⟨hthrough, hleft, -⟩ := signatureScript_outcome he hpushes
    have hpushable : ∀ i ∈ ([⟨⟨0x51⟩, []⟩, ⟨⟨0x01⟩, [0x20]⟩] : Script),
        i.Pushable { minimalData := true } ∧ i.operation ≠ .reserved := by
      intro i hi
      obtain rfl | rfl := List.mem_pair.1 hi
      · exact ⟨⟨by decide, fun _ hdata => absurd hdata (by decide)⟩, by decide⟩
      · exact ⟨⟨by decide, fun _ _ => by decide⟩, by decide⟩
    obtain ⟨e', he'⟩ := hthrough.2 ⟨hpushable, by decide⟩
    obtain ⟨items, hitems, rfl, -⟩ := hleft e' he'
    have hpushed : List.map Instruction.pushed? [⟨⟨0x51⟩, []⟩, ⟨⟨0x01⟩, [0x20]⟩] =
        [[0x01], [0x20]].map some := by
      decide +kernel
    obtain rfl : items = [[0x01], [0x20]] :=
      (List.map_inj_right fun _ _ h => Option.some.inj h).1 (hitems.symm.trans hpushed)
    exact ⟨e, he, he'⟩
  · obtain ⟨e, he, -⟩ := except_bind_ok.1 (hmade [0x51, 0x01, 0x20, 0x50] (by decide))
    have hfirst : FirstFault { minimalData := true }
        [⟨⟨0x51⟩, []⟩, ⟨⟨0x01⟩, [0x20]⟩, ⟨⟨0x50⟩, []⟩] 2 ⟨⟨0x50⟩, []⟩ (.reservedOpcode ⟨0x50⟩) := by
      refine ⟨rfl, by decide, fun n i hn hi => ?_⟩
      match n with
      | 0 =>
        cases hi
        decide
      | 1 =>
        cases hi
        decide
      | n + 2 => omega
    obtain ⟨f, f', hafter, -, hstep⟩ := (signatureScript_outcome he hparse).2.2.2 _ _ _ hfirst
    exact ⟨e, f, f', he, hafter, hstep⟩

end Engine

end SpendScript

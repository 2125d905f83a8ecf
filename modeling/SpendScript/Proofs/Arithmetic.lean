/-
  Arithmetic is exact. An operation on numbers that finds its operands on the stack leaves what an integer
  function makes of them in its shortest form, and otherwise it fails at the first item from the top that
  is no operand (`Instruction.Exact`). Operands have at most four bytes and locks five, so nothing comes
  near the ends of 64 bits: no step fails for a result that is out of range, and the least number has no
  opposite taken (`arithmetic_exact`).
-/
import SpendScript.Proofs.Engine.Failure
import SpendScript.Proofs.Opcode

namespace SpendScript

variable {σ : Type} {ctx : Context σ} {offset : Nat} {i : Instruction} {m m' : Machine σ} {n : Nat}

open Number MachineM StackM

/-! ## Operations on numbers -/

/-- No operation on numbers is refused, or leaves more items than it finds. -/
theorem Operation.ordinary_of_arity {op : Operation} (h : op.arity? = some n) :
    op ≠ .disabled ∧ op ≠ .alwaysIllegal ∧ op.grows = false := by
  cases op with
  | unary | binary | numEqualVerify | within =>
    exact ⟨(fun h => nomatch h), (fun h => nomatch h), rfl⟩
  | _ => cases h

/-- The results of operands come back from five bytes at most, and from no shorter ones. -/
theorem Operation.compute_spelled {op : Operation} {opcode : Opcode} {minimal : Bool}
    {operands : List Bytes} {results : List Int} (hall : ∀ x ∈ operands, IsOperand minimal x)
    (h : op.compute opcode (operands.map signMagnitude) = .ok results) :
    ∀ r ∈ results, isMinimal (encode r) = true ∧ (encode r).length ≤ 5 ∧
      signMagnitude (encode r) = r := by
  intro r hr
  have hfit : ∀ k ∈ operands.map signMagnitude, FitsOperand k := by
    intro k hk
    obtain ⟨x, hx, rfl⟩ := List.mem_map.1 hk
    exact (hall x hx).fitsOperand
  have hbound : r.natAbs < signBit 5 := natAbs_of_compute hfit h r hr
  exact ⟨isMinimal_encode r, length_encode_le_of_natAbs hbound, signMagnitude_encode r⟩

namespace Instruction

theorem not_isPush_of_arity (h : i.operation.arity? = some n) : ¬ i.isPush = true :=
  Opcode.not_isPush_of (p := fun op => op.arity?.isSome) rfl (fun _ => rfl) rfl
    (Option.isSome_of_eq_some h)

/-- Where instructions run and can be counted, an operation on numbers is performed. -/
theorem execute_of_arity (offset : Nat) (h : i.operation.arity? = some n)
    (hx : m.branches.executing = true) (hcount : m.opCount < Limit.operations) :
    i.execute ctx offset m = (onStack (popNumbers ctx.flags.minimalData n) >>= fun ks =>
      delivered (i.operation.compute i.opcode ks)) { m with opCount := m.opCount + 1 } := by
  obtain ⟨hdisabled, hillegal, -⟩ := Operation.ordinary_of_arity h
  rw [execute_of_counted offset (allowed_of_operation hdisabled hillegal) (not_isPush_of_arity h) hx
    hcount, perform_of_arity h]

/-- An instruction that leaves no more items than there are allowed to be is executed by a step. -/
theorem step_of_items (hgrows : i.operation.grows = false) (hitems : m.items ≤ Limit.stackItems) :
    i.step ctx offset m = i.execute ctx offset m := by
  have hle := Nat.le_trans (items_execute_le hgrows ctx offset m) hitems
  unfold step
  rcases hx : i.execute ctx offset m with ⟨_, m₁⟩ | ⟨err, m₁⟩
  · rw [hx] at hle
    exact (bind_eq_of_ok hx).trans (if_neg (Nat.not_lt_of_le hle))
  · exact bind_eq_of_error hx

/-- On this machine the operation on `n` numbers is exact. -/
structure Exact (ctx : Context σ) (offset : Nat) (i : Instruction) (n : Nat) (m : Machine σ) :
    Prop where
  /-- The operands are taken off, and the results take their place or the instruction fails. -/
  delivers : ∀ operands rest, Operands ctx.flags.minimalData n m.stack operands rest →
    i.execute ctx offset m = delivered (i.operation.compute i.opcode (operands.map signMagnitude))
      { m with stack := rest, opCount := m.opCount + 1 }
  /-- The results are in their shortest form, of at most five bytes. -/
  spelled : ∀ operands rest, Operands ctx.flags.minimalData n m.stack operands rest →
    ∀ results, i.operation.compute i.opcode (operands.map signMagnitude) = .ok results →
      ∀ r ∈ results, isMinimal (encode r) = true ∧ (encode r).length ≤ 5 ∧
        signMagnitude (encode r) = r
  /-- Without operands, the first item from the top that is missing or none of them is the error. -/
  fails : (¬ ∃ operands rest, Operands ctx.flags.minimalData n m.stack operands rest) →
    ∃ good, good.length < n ∧ (∀ x ∈ good, IsOperand ctx.flags.minimalData x) ∧
      (m.stack = good ∧ i.execute ctx offset m =
          .error (.stack .empty) { m with stack := [], opCount := m.opCount + 1 } ∨
        ∃ bad rest, m.stack = good ++ bad :: rest ∧ ¬ IsOperand ctx.flags.minimalData bad ∧
          i.execute ctx offset m = .error (.stack (.number (refusal bad)))
            { m with stack := rest, opCount := m.opCount + 1 })
  /-- The bound on the stacks has no part in it. -/
  step : m.items ≤ Limit.stackItems → i.step ctx offset m = i.execute ctx offset m

theorem exact_of_arity (h : i.operation.arity? = some n) (hx : m.branches.executing = true)
    (hcount : m.opCount < Limit.operations) : Exact ctx offset i n m := by
  have hexecute : i.execute ctx offset m = _ := execute_of_arity offset h hx hcount
  have herror {e : StackError} {rest : Stack}
      (hpop : popNumbers ctx.flags.minimalData n m.stack = .error e rest) :
      i.execute ctx offset m =
        .error (.stack e) { m with stack := rest, opCount := m.opCount + 1 } := by
    rw [hexecute]
    refine bind_eq_of_error ?_
    unfold onStack
    rw [hpop]
  refine ⟨fun operands rest hops => ?_, fun operands rest hops results hresults => ?_,
    fun hnone => ?_, step_of_items (Operation.ordinary_of_arity h).2.2⟩
  · have hpop : popNumbers ctx.flags.minimalData n m.stack =
        .ok (operands.map signMagnitude) rest := by
      have hall : ∀ x ∈ operands.reverse, IsOperand ctx.flags.minimalData x :=
        fun x hx => hops.all x (List.mem_reverse.1 hx)
      have hpop := popNumbers_of_operands hall rest
      rwa [List.length_reverse, hops.length, List.reverse_reverse, ← hops.stack] at hpop
    rw [hexecute]
    exact bind_eq_of_ok (onStack_ok.2 ⟨rest, hpop, rfl⟩)
  · exact Operation.compute_spelled hops.all hresults
  · obtain ⟨good, hlength, hall, hrest⟩ := (operands_cases _ n m.stack).resolve_left hnone
    refine ⟨good, hlength, hall, ?_⟩
    rcases hrest with hstack | ⟨bad, rest, hstack, hbad⟩
    · refine Or.inl ⟨hstack, herror ?_⟩
      rw [hstack]
      exact popNumbers_of_missing hall hlength
    · refine Or.inr ⟨bad, rest, hstack, hbad, herror ?_⟩
      rw [hstack]
      exact popNumbers_of_bad hall hbad hlength rest

end Instruction

/-! ## No overflow -/

/-- No step fails for a number, other than for one it has read. -/
theorem Engine.isNumber_of_step {e e' : Engine σ} {err : ScriptError}
    (h : Engine.step e = .error err e') : err.isNumber = false := by
  rcases step_error_cases h with ⟨-, rfl⟩ | ⟨i, m, -, hi⟩ | hclosing
  · rfl
  · exact (Instruction.told_step _ _ _ hi).isNumber
  · cases err <;> first | rfl | cases hclosing

/-- **Arithmetic is exact.** Where instructions run and another operation can be counted, an operation
    on numbers takes exactly its operands off the stack and leaves what the integer function makes of
    the numbers they spell; without operands it fails at the first item that is none. No step of any
    engine fails because a result is out of range. The number that an operation takes off the stack is
    never the least one of 64 bits, so all of them have an opposite and a distance from zero, and the
    numbers that are read from items, those of locks included, are far from it as well. -/
theorem arithmetic_exact :
    (∀ (ctx : Context σ) (offset : Nat) (i : Instruction) (n : Nat) (m : Machine σ),
      i.operation.arity? = some n → m.branches.executing = true →
      m.opCount < Limit.operations → i.Exact ctx offset n m) ∧
    (∀ (e e' : Engine σ) (err : ScriptError), Engine.step e = .error err e' →
      ∀ error : Number.Error, err ≠ .number error) ∧
    (∀ (f : UnaryOp) (minimal : Bool) (m m' : Machine σ) (k : Int),
      onStack (popNumber minimal) m = .ok k m' →
        -9223372036854775808 < k ∧ f.apply k = .ok (f.result k)) ∧
    ∀ (item : Bytes) (minimal : Bool) (max : Nat) (k : Int), max ≤ lockTimeSize →
      decode item minimal max = .ok k → k = signMagnitude item ∧ k.natAbs < 549755813888 := by
  refine ⟨fun ctx offset i n m => Instruction.exact_of_arity, ?_, ?_, ?_⟩
  · rintro e e' err h error rfl
    cases Engine.isNumber_of_step h
  · intro f minimal m m' k h
    obtain ⟨s, hs, -⟩ := onStack_ok.1 h
    have hk : FitsOperand k := fitsOperand_of_popNumber hs
    refine ⟨?_, (f.apply_of_fitsOperand hk).1⟩
    unfold FitsOperand at hk
    omega
  · intro item minimal max k hmax h
    have hmax' : max ≤ 8 := Nat.le_trans hmax (by decide)
    obtain ⟨hlength, -, rfl⟩ := (decode_ok_iff_spells hmax').1 h
    exact ⟨rfl, natAbs_signMagnitude_lt (n := 5) (by decide) (Nat.le_trans hlength hmax)⟩

/-- A context that asks for the shortest forms. -/
def minimalContext : Context Unit := ⟨.accepting, { minimalData := true }, true, []⟩

/-- `ADD` on twice the largest operand leaves five bytes, and `NEGATE` refuses to read those. The step
    of an engine that comes to the same item fails for reading it. -/
theorem arithmetic_exact_largest :
    Instruction.execute minimalContext 0 ⟨⟨0x93⟩, []⟩ { Machine.start () with
        stack := [[0xff, 0xff, 0xff, 0x7f], [0xff, 0xff, 0xff, 0x7f], [7]] } =
      .ok () { Machine.start () with stack := [[0xfe, 0xff, 0xff, 0xff, 0x00], [7]], opCount := 1 } ∧
    Instruction.execute minimalContext 0 ⟨⟨0x8f⟩, []⟩ { Machine.start () with
        stack := [[0xfe, 0xff, 0xff, 0xff, 0x00], [7]] } =
      .error (.stack (.number (.tooLong 5 4)))
        { Machine.start () with stack := [[7]], opCount := 1 } ∧
    UnaryOp.negate.apply (-2147483647) = .ok 2147483647 ∧
    signMagnitude [0xfe, 0xff, 0xff, 0xff, 0x00] = 4294967294 ∧
    ∃ e e' : Engine Unit, Engine.step e = .error (.stack (.number (.tooLong 5 4))) e' ∧
      ∀ error : Number.Error, ScriptError.stack (.number (.tooLong 5 4)) ≠ .number error := by
  obtain ⟨hexact, hstep, hunary, hread⟩ := @arithmetic_exact Unit
  have hadd := hexact minimalContext 0 ⟨⟨0x93⟩, []⟩ 2 { Machine.start () with
    stack := [[0xff, 0xff, 0xff, 0x7f], [0xff, 0xff, 0xff, 0x7f], [7]] } rfl rfl (by decide)
  have hnegate := hexact minimalContext 0 ⟨⟨0x8f⟩, []⟩ 1 { Machine.start () with
    stack := [[0xfe, 0xff, 0xff, 0xff, 0x00], [7]] } rfl rfl (by decide)
  have hrun : (do
      let e ← Engine.ofWitness [0x08, 0xd0, 0x07, 0, 0, 0, 0, 0, 0]
        [[0x05, 0xfe, 0xff, 0xff, 0xff, 0x00], [0x8f]] {} .accepting ()
      return Engine.failureOf (Engine.step (stateOf (Engine.step e)))) =
        .ok (some (.stack (.number (.tooLong 5 4)))) := by
    decide +kernel
  refine ⟨?_, ?_, ?_, ?_, ?_⟩
  · have hencode : encode 4294967294 = [0xfe, 0xff, 0xff, 0xff, 0x00] := by decide +kernel
    rw [hadd.delivers [[0xff, 0xff, 0xff, 0x7f], [0xff, 0xff, 0xff, 0x7f]] [[7]]
      ⟨rfl, rfl, by decide +kernel⟩, ← hencode]
    rfl
  · obtain ⟨good, hlength, -, hrest⟩ := hnegate.fails (by
      rintro ⟨operands, rest, hstack, hlength, hall⟩
      obtain ⟨x, rfl⟩ := List.length_eq_one_iff.1 hlength
      obtain ⟨rfl, -⟩ := List.cons_eq_cons.1 hstack
      exact absurd (hall _ (List.mem_singleton_self _)).1 (by decide))
    obtain rfl := List.length_eq_zero_iff.1 (Nat.lt_one_iff.1 hlength)
    rcases hrest with ⟨hstack, -⟩ | ⟨bad, rest, hstack, -, hfails⟩
    · cases hstack
    · obtain ⟨rfl, rfl⟩ := List.cons_eq_cons.1 hstack
      exact hfails
  · have hspells : signMagnitude [0xff, 0xff, 0xff, 0xff] = -2147483647 := by decide +kernel
    have hitem : IsOperand true [0xff, 0xff, 0xff, 0xff] := by decide
    have hpop := popNumber_of_isOperand hitem []
    rw [hspells] at hpop
    have hunder : onStack (popNumber true) { Machine.start () with
        stack := [[0xff, 0xff, 0xff, 0xff]] } = .ok (-2147483647) (Machine.start ()) :=
      onStack_ok.2 ⟨[], hpop, rfl⟩
    exact (hunary .negate true _ _ _ hunder).2
  · have hdecode : decode [0xfe, 0xff, 0xff, 0xff, 0x00] true 5 = .ok 4294967294 := by
      decide +kernel
    exact (hread _ _ _ _ (Nat.le_refl 5) hdecode).1.symm
  · obtain ⟨e, -, hcomputed⟩ := except_bind_ok.1 hrun
    have hfails := Except.ok.inj hcomputed
    rcases hx : Engine.step (stateOf (Engine.step e)) with ⟨_, e'⟩ | ⟨err, e'⟩ <;>
      rw [hx] at hfails
    · cases hfails
    · obtain rfl : err = .stack (.number (.tooLong 5 4)) := Option.some.inj hfails
      exact ⟨_, e', hx, hstep _ _ _ hx⟩

end SpendScript

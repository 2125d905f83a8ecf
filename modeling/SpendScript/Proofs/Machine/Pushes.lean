/-
  Scripts of pushes. A push puts its item on the stack and does nothing else; it can only be too
  long, not the shortest one where that is asked for, or one item too many. A script of pushes so
  leaves its items in order (`Script.run_pushes_ok`).
-/
import SpendScript.Proofs.Machine.Sequence
import SpendScript.Proofs.Opcode

namespace SpendScript

variable {σ : Type}

namespace Instruction

/-- The item that a push leaves. -/
def pushed? (i : Instruction) : Option Bytes :=
  match i.operation with
  | .pushBytes => some i.data
  | .pushNum n => some (Number.encode n)
  | _ => none

/-- A push that may be executed: short enough, and the shortest one where the flags ask for that. -/
structure Pushable (F : Flags) (i : Instruction) : Prop where
  size : i.data.length ≤ Limit.elementSize
  minimal : i.MinimalFor F

variable {ctx : Context σ} {offset : Nat} {i : Instruction} {m m' : Machine σ} {item : Bytes}

theorem isPush_of_pushed? (hi : i.pushed? = some item) : i.operation.isPush = true := by
  unfold pushed? at hi
  split at hi
  · next h => rw [h]; rfl
  · next h => rw [h]; rfl
  · cases hi

theorem allowed_of_pushed? (hi : i.pushed? = some item) : i.Allowed := by
  have hop : i.operation.isPush = true := isPush_of_pushed? hi
  refine allowed_of_operation ?_ ?_ <;> intro h <;> rw [h] at hop <;> exact Bool.false_ne_true hop

theorem pushed?_of_isPush (hi : i.operation.isPush = true) : ∃ item, i.pushed? = some item := by
  unfold pushed?
  split
  · exact ⟨_, rfl⟩
  · exact ⟨_, rfl⟩
  · next h₁ h₂ =>
    unfold Operation.isPush at hi
    split at hi
    · next h => exact absurd h h₁
    · next n h => exact absurd h (h₂ n)
    · cases hi

theorem perform_of_pushed? (hi : i.pushed? = some item) :
    i.perform ctx offset m = .ok () { m with stack := item :: m.stack } := by
  unfold pushed? at hi
  unfold perform
  dsimp only
  split at hi
  · next h =>
    rw [h, ← Option.some.inj hi]
    rfl
  · next h =>
    rw [h, ← Option.some.inj hi]
    rfl
  · cases hi

theorem perform_of_reserved (hop : i.operation = .reserved) :
    i.perform ctx offset m = .error (.reservedOpcode i.opcode) m := by
  unfold perform
  rw [hop]
  rfl

/-- Of the push range only the reserved opcode leaves no item. -/
theorem pushed?_of_not_reserved (hpush : i.isPush = true) (hop : i.operation ≠ .reserved) :
    ∃ item, i.pushed? = some item :=
  pushed?_of_isPush ((Opcode.operation_of_isPush hpush).resolve_right hop)

/-- What a push takes, and what it leaves. -/
theorem step_pushed_ok (hi : i.pushed? = some item) (hx : m.branches.executing = true) :
    i.step ctx offset m = .ok () m' ↔
      i.Pushable ctx.flags ∧ m' = { m with stack := item :: m.stack } ∧
        (item :: m.stack).length + m.alt.length ≤ Limit.stackItems := by
  have hop : i.operation.isPush = true := isPush_of_pushed? hi
  have hpush : i.isPush = true := Opcode.isPush_of_operation hop
  have hallowed : i.Allowed := allowed_of_pushed? hi
  rw [step_ok_of_executing hx, counted_of_isPush hpush, within_of_isPush hpush,
    perform_of_pushed? hi, EStateM.Result.ok.injEq]
  constructor
  · rintro ⟨⟨-, hsize, hmin, -, rfl⟩, hd⟩
    exact ⟨⟨hsize, hmin⟩, rfl, hd⟩
  · rintro ⟨⟨hsize, hmin⟩, rfl, hd⟩
    exact ⟨⟨hallowed, hsize, hmin, rfl, rfl⟩, hd⟩

/-- A push that may be executed puts its item on the stack, and then there must be room for it. -/
theorem step_of_pushable (hi : i.pushed? = some item) (hx : m.branches.executing = true)
    (hp : i.Pushable ctx.flags) :
    i.step ctx offset m = checkDepth { m with stack := item :: m.stack } := by
  have hop : i.operation.isPush = true := isPush_of_pushed? hi
  have hpush : i.isPush = true := Opcode.isPush_of_operation hop
  have hallowed : i.Allowed := allowed_of_pushed? hi
  have hacts : i.Acts ctx offset (i.counted m) { m with stack := item :: m.stack } := by
    unfold Acts
    rw [counted_branches, if_pos hx, counted_of_isPush hpush]
    exact ⟨hp.minimal, perform_of_pushed? hi⟩
  have hexecute : i.execute ctx offset m = .ok () { m with stack := item :: m.stack } :=
    execute_ok.2 ⟨hallowed, (within_of_isPush hpush).2 hp.size, hacts⟩
  simp only [step, Bind.bind, EStateM.bind, hexecute]

/-- Of the push range only the pushes can be executed. -/
theorem pushed?_of_step (hp : i.isPush = true) (hx : m.branches.executing = true)
    (h : i.step ctx offset m = .ok () m') : ∃ item, i.pushed? = some item := by
  refine pushed?_of_not_reserved hp fun hop => ?_
  rw [step_ok_of_executing hx, counted_of_isPush hp, perform_of_reserved hop] at h
  obtain ⟨⟨-, -, -, hperform⟩, -⟩ := h
  cases hperform

end Instruction

namespace Script

variable {ctx : Context σ} {offset : Nat} {s : Script} {m m' : Machine σ}

/-- **Scripts of pushes.** They run just when every instruction is a push that may be executed and
    there is room for all the items, and leave the items in order, the last one on top. -/
theorem run_pushes_ok (hs : ∀ i ∈ s, i.isPush = true) (hx : m.branches.executing = true)
    (hroom : m.stack.length + m.alt.length ≤ Limit.stackItems) :
    run ctx offset s m = .ok () m' ↔
      (∀ i ∈ s, i.Pushable ctx.flags) ∧ ∃ items : List Bytes,
        s.map Instruction.pushed? = items.map some ∧
        m' = { m with stack := items.reverse ++ m.stack } ∧
        items.length + m.stack.length + m.alt.length ≤ Limit.stackItems := by
  induction s generalizing offset m with
  | nil =>
    constructor
    · intro h
      cases h
      refine ⟨fun i hi => absurd hi List.not_mem_nil, [], rfl, rfl, ?_⟩
      rwa [List.length_nil, Nat.zero_add]
    · rintro ⟨-, items, hitems, rfl, -⟩
      obtain rfl := List.map_eq_nil_iff.1 hitems.symm
      rfl
  | cons i s ih =>
    have hs' : ∀ j ∈ s, j.isPush = true := fun j hj => hs j (List.mem_cons_of_mem i hj)
    rw [run_cons_ok]
    constructor
    · rintro ⟨m₁, hi, hrest⟩
      obtain ⟨item, hitem⟩ := Instruction.pushed?_of_step (hs i List.mem_cons_self) hx hi
      obtain ⟨hpushable, rfl, hdepth⟩ := (Instruction.step_pushed_ok hitem hx).1 hi
      obtain ⟨hall, items, hitems, rfl, hlen⟩ :=
        (ih (m := { m with stack := item :: m.stack }) hs' hx hdepth).1 hrest
      refine ⟨?_, item :: items, ?_, ?_, ?_⟩
      · intro j hj
        rcases List.mem_cons.1 hj with rfl | hj
        · exact hpushable
        · exact hall j hj
      · rw [List.map_cons, List.map_cons, hitem, hitems]
      · rw [List.reverse_cons, List.append_assoc]
        rfl
      · simp only [List.length_cons] at hlen ⊢
        omega
    · rintro ⟨hall, items, hitems, rfl, hlen⟩
      rcases items with _ | ⟨item, items⟩
      · cases hitems
      · rw [List.map_cons, List.map_cons, List.cons.injEq] at hitems
        obtain ⟨hitem, hitems⟩ := hitems
        have hdepth : (item :: m.stack).length + m.alt.length ≤ Limit.stackItems := by
          simp only [List.length_cons] at hlen ⊢
          omega
        have hall' : ∀ j ∈ s, j.Pushable ctx.flags := fun j hj =>
          hall j (List.mem_cons_of_mem i hj)
        refine ⟨{ m with stack := item :: m.stack }, ?_, ?_⟩
        · exact (Instruction.step_pushed_ok hitem hx).2 ⟨hall i List.mem_cons_self, rfl, hdepth⟩
        · refine (ih (m := { m with stack := item :: m.stack }) hs' hx hdepth).2
            ⟨hall', items, hitems, ?_, ?_⟩
          · rw [List.reverse_cons, List.append_assoc]
            rfl
          · simp only [List.length_cons] at hlen ⊢
            omega

end Script

end SpendScript

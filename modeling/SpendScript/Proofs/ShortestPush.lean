/-
  Minimal pushes. An item can be pushed in up to five ways: directly, behind a length of one, two or four
  bytes, and as a small number. Every other push of an item takes more bytes than `shortestPush`
  (`Instruction.Pushes.shortest_lt`), and the check for minimal pushes accepts a push of its operand just
  when it is that one (`Instruction.isMinimalPush_iff`). So the check asks for the least number of bytes,
  and exactly one push of each item has it (`Instruction.minimalPush_shortest`).
-/
import SpendScript.Proofs.Machine.Pushes
import SpendScript.Proofs.Script.Grammar

namespace SpendScript

/-- The push that leaves an item and takes the fewest bytes of script. -/
def shortestPush (item : Bytes) : Instruction :=
  match item with
  | [] => ⟨⟨0x00⟩, []⟩
  | [n] =>
    if 1 ≤ n.toNat ∧ n.toNat ≤ 16 then ⟨⟨0x50 + n⟩, []⟩
    else if n = 0x81 then ⟨⟨0x4f⟩, []⟩
    else ⟨⟨0x01⟩, [n]⟩
  | _ =>
    if item.length ≤ 75 then ⟨⟨UInt8.ofNat item.length⟩, item⟩
    else if item.length ≤ 0xff then ⟨⟨0x4c⟩, item⟩
    else ⟨⟨0x4d⟩, item⟩

/-- The number that an operation pushes, if it pushes one. -/
def Operation.number? : Operation → Option Int
  | pushNum n => some n
  | _ => none

namespace Opcode

/-- Only the opcodes up to the last data push push their operand. -/
theorem value_le_of_pushBytes {op : Opcode} (h : op.operation = .pushBytes) :
    op.value ≤ lastDataPush := by
  have hall := forall_of_table
    (p := fun op => !(op.operation == .pushBytes) || decide (op.value ≤ lastDataPush))
    (by decide +kernel) op
  rw [h] at hall
  simpa using hall

/-- The opcodes that push a number take no operand, and are the shortest push of the number, which is
    one byte. -/
theorem shortestPush_of_pushNum {op : Opcode} {n : Int} (h : op.operation = .pushNum n) :
    op.operandForm = .none ∧ shortestPush (Number.encode n) = ⟨op, []⟩ ∧
      (Number.encode n).length = 1 := by
  have hall := forall_of_table
    (p := fun op => op.operation.number?.all fun n =>
      decide (op.operandForm = .none ∧ shortestPush (Number.encode n) = ⟨op, []⟩ ∧
        (Number.encode n).length = 1))
    (by decide +kernel) op
  rw [h] at hall
  exact of_decide_eq_true hall

end Opcode

namespace Instruction

variable {F : Flags} {i j : Instruction} {item : Bytes}

/-! ## The pushes of an item -/

/-- The instruction is of the push range, and puts the item on every stack. -/
structure Pushes (i : Instruction) (item : Bytes) : Prop where
  wellFormed : i.WellFormed
  inRange : i.isPush = true
  leaves : ∀ (σ : Type) (ctx : Context σ) (offset : Nat) (m : Machine σ),
    i.perform ctx offset m = .ok () { m with stack := item :: m.stack }

theorem pushes_iff : i.Pushes item ↔ i.WellFormed ∧ i.pushed? = some item := by
  constructor
  · intro h
    refine ⟨h.wellFormed, ?_⟩
    -- Any machine tells which item the instruction leaves.
    have hleaves := h.leaves Unit ⟨.accepting, {}, true, []⟩ 0 (Machine.start ())
    have hop : i.operation ≠ .reserved := by
      intro hop
      rw [perform_of_reserved hop] at hleaves
      cases hleaves
    obtain ⟨item', hitem⟩ := pushed?_of_not_reserved h.inRange hop
    rw [perform_of_pushed? hitem] at hleaves
    simp only [EStateM.Result.ok.injEq, Machine.mk.injEq, List.cons.injEq] at hleaves
    rw [hitem, hleaves.2.1.1]
  · intro ⟨hw, hitem⟩
    exact ⟨hw, Opcode.isPush_of_operation (isPush_of_pushed? hitem), fun _ _ _ _ => perform_of_pushed? hitem⟩

/-- A push carries its item, or it is a small number and the shortest push. -/
theorem Pushes.cases (h : i.Pushes item) :
    i.data = item ∧ i.opcode.value ≤ Opcode.lastDataPush ∨
      i = shortestPush item ∧ item.length = 1 := by
  obtain ⟨hw, hi⟩ := pushes_iff.1 h
  unfold pushed? at hi
  split at hi
  · next hop => exact Or.inl ⟨Option.some.inj hi, Opcode.value_le_of_pushBytes hop⟩
  · next n hop =>
    obtain ⟨hform, hshortest, hlength⟩ := Opcode.shortestPush_of_pushNum hop
    have hdata : i.data = [] := by
      unfold WellFormed at hw
      rwa [hform] at hw
    rw [← Option.some.inj hi, hshortest, ← hdata]
    exact Or.inr ⟨rfl, hlength⟩
  · cases hi

/-- A well formed instruction up to the last data push pushes its operand. -/
theorem pushes_data (hw : i.WellFormed) (hvalue : i.opcode.value ≤ Opcode.lastDataPush) :
    i.Pushes i.data := by
  have hop : i.operation = .pushBytes := if_pos hvalue
  refine pushes_iff.2 ⟨hw, ?_⟩
  unfold pushed?
  rw [hop]

/-! ## The shortest push -/

theorem written_direct (h : item.length ≤ 75) :
    Written ⟨⟨UInt8.ofNat item.length⟩, item⟩ (UInt8.ofNat item.length :: item) := by
  have hvalue : (UInt8.ofNat item.length).toNat = item.length :=
    UInt8.toNat_ofNat_of_lt' (Nat.lt_of_le_of_lt h (by decide))
  exact .direct (by omega) hvalue.symm

/-- The shortest push is a small number for some items of one byte. For all others it is the first of the
    forms that can hold the length. -/
theorem shortestPush_cases (item : Bytes) :
    (item.length = 1 ∧ (shortestPush item).toBytes.length = 1) ∨
      (item.length ≤ 75 ∧ shortestPush item = ⟨⟨UInt8.ofNat item.length⟩, item⟩) ∨
      (75 < item.length ∧ item.length ≤ 0xff ∧ shortestPush item = ⟨⟨0x4c⟩, item⟩) ∨
      (0xff < item.length ∧ shortestPush item = ⟨⟨0x4d⟩, item⟩) := by
  match item with
  | [] => exact Or.inr (Or.inl ⟨by decide, rfl⟩)
  | [n] =>
    have hall := Opcode.forall_of_table
      (p := fun op => decide ((shortestPush [op.byte]).toBytes.length = 1 ∨
        shortestPush [op.byte] = ⟨⟨0x01⟩, [op.byte]⟩))
      (by decide +kernel) ⟨n⟩
    rcases of_decide_eq_true hall with hlength | hpush
    · exact Or.inl ⟨rfl, hlength⟩
    · exact Or.inr (Or.inl ⟨Nat.le_of_ble_eq_true rfl, hpush⟩)
  | b₀ :: b₁ :: bs =>
    unfold shortestPush
    dsimp only
    by_cases hdirect : (b₀ :: b₁ :: bs).length ≤ 75
    · rw [if_pos hdirect]
      exact Or.inr (Or.inl ⟨hdirect, rfl⟩)
    · rw [if_neg hdirect]
      by_cases hone : (b₀ :: b₁ :: bs).length ≤ 0xff
      · rw [if_pos hone]
        exact Or.inr (Or.inr (Or.inl ⟨by omega, hone, rfl⟩))
      · rw [if_neg hone]
        exact Or.inr (Or.inr (Or.inr ⟨by omega, rfl⟩))

theorem pushes_shortestPush (hsize : item.length ≤ 0xffff) : (shortestPush item).Pushes item := by
  rcases shortestPush_cases item with ⟨hone, -⟩ | ⟨hle, hpush⟩ | ⟨-, hle, hpush⟩ | ⟨-, hpush⟩
  · obtain ⟨n, rfl⟩ := List.length_eq_one_iff.1 hone
    have hall := Opcode.forall_of_table
      (p := fun op => decide ((shortestPush [op.byte]).WellFormed ∧
        (shortestPush [op.byte]).pushed? = some [op.byte]))
      (by decide +kernel) ⟨n⟩
    exact pushes_iff.2 (of_decide_eq_true hall)
  · rw [hpush]
    refine pushes_data (toBytes_of_written (written_direct hle)).1 ?_
    have hvalue : (UInt8.ofNat item.length).toNat = item.length :=
      UInt8.toNat_ofNat_of_lt' (Nat.lt_of_le_of_lt hle (by decide))
    change (UInt8.ofNat item.length).toNat ≤ 78
    omega
  · rw [hpush]
    exact pushes_data (Nat.lt_succ_of_le hle) (Nat.le_of_ble_eq_true rfl)
  · rw [hpush]
    exact pushes_data (Nat.lt_succ_of_le hsize) (Nat.le_of_ble_eq_true rfl)

theorem length_counted {b : UInt8} {width : Nat} (hb : (b, width) ∈ Opcode.countedPushes) :
    (Instruction.mk ⟨b⟩ item).toBytes.length = 1 + width + item.length := by
  unfold toBytes
  rw [Opcode.operandForm_counted hb]
  simp only [List.length_cons, List.length_append, Bytes.length_ofNatLE]
  omega

/-- **Every other push is longer.** -/
theorem Pushes.shortest_lt (hj : j.Pushes item) (hne : j ≠ shortestPush item) :
    (shortestPush item).toBytes.length < j.toBytes.length := by
  rcases hj.cases with ⟨rfl, hvalue⟩ | ⟨hshortest, -⟩
  · have hwritten := written_toBytes hj.wellFormed
    generalize j.toBytes = bs at hwritten ⊢
    have hcases := shortestPush_cases j.data
    cases hwritten with
    | @direct b data hb hlength =>
      dsimp only at hcases hne ⊢
      rw [List.length_cons]
      rcases hcases with ⟨hone, hshort⟩ | ⟨-, hpush⟩ | ⟨hlong, -⟩ | ⟨hlong, -⟩
      · omega
      · rw [hlength, UInt8.ofNat_toNat] at hpush
        exact absurd hpush.symm hne
      · omega
      · omega
    | @counted b front data hb hlength =>
      have hfits := Bytes.natLE_lt front
      simp only [Opcode.countedPushes, List.mem_cons, Prod.mk.injEq, List.not_mem_nil,
        or_false] at hb
      dsimp only at hcases hne ⊢
      simp only [List.length_cons, List.length_append]
      rcases hcases with ⟨hone, hshort⟩ | ⟨hle, hpush⟩ | ⟨-, hle, hpush⟩ | ⟨hlong, hpush⟩
      · omega
      · rw [hpush, (toBytes_of_written (written_direct hle)).2, List.length_cons]
        omega
      · rw [hpush, length_counted (show ((0x4c : UInt8), 1) ∈ Opcode.countedPushes by decide)]
        obtain ⟨rfl, -⟩ | ⟨-, hwidth⟩ | ⟨-, hwidth⟩ := hb
        · exact absurd hpush.symm hne
        · omega
        · omega
      · rw [hpush, length_counted (show ((0x4d : UInt8), 2) ∈ Opcode.countedPushes by decide)]
        obtain ⟨-, hwidth⟩ | ⟨rfl, -⟩ | ⟨-, hwidth⟩ := hb
        · rw [hwidth] at hfits
          change Bytes.natLE front < 256 at hfits
          omega
        · exact absurd hpush.symm hne
        · omega
    | alone hb =>
      exact absurd hvalue (Nat.not_le_of_lt hb)
  · exact absurd hshortest hne

/-- An item of more than 65535 bytes is pushed in one way only. -/
theorem Pushes.eq_of_long (hj : j.Pushes item) (hlong : 0xffff < item.length) :
    j = ⟨⟨0x4e⟩, item⟩ := by
  rcases hj.cases with ⟨rfl, hvalue⟩ | ⟨-, hone⟩
  · have hwritten := written_toBytes hj.wellFormed
    generalize j.toBytes = bs at hwritten
    cases hwritten with
    | @direct b data hb hlength =>
      dsimp only at hlong
      omega
    | @counted b front data hb hlength =>
      have hfits := Bytes.natLE_lt front
      simp only [Opcode.countedPushes, List.mem_cons, Prod.mk.injEq, List.not_mem_nil,
        or_false] at hb
      dsimp only at hlong
      obtain ⟨-, hwidth⟩ | ⟨-, hwidth⟩ | ⟨rfl, -⟩ := hb
      · rw [hwidth] at hfits
        change Bytes.natLE front < 256 at hfits
        omega
      · rw [hwidth] at hfits
        change Bytes.natLE front < 65536 at hfits
        omega
      · rfl
    | alone hb => exact absurd hvalue (Nat.not_le_of_lt hb)
  · omega

/-! ## The check -/

/-- The check accepts a push of its operand just when it is the shortest push. -/
theorem isMinimalPush_iff (hvalue : i.opcode.value ≤ Opcode.lastDataPush)
    (hsize : i.data.length ≤ 0xffff) : i.isMinimalPush = true ↔ i = shortestPush i.data := by
  obtain ⟨⟨b⟩, data⟩ := i
  have hop (c : UInt8) : decide (b.toNat = c.toNat) = true ↔
      Instruction.mk ⟨b⟩ data = ⟨⟨c⟩, data⟩ := by
    rw [decide_eq_true_iff, UInt8.toNat_inj, Instruction.mk.injEq, Opcode.mk.injEq]
    exact (and_iff_left rfl).symm
  have hnumber (k : Nat) (c : UInt8) (n : UInt8) (hk : 78 < k) : decide (b.toNat = k) = true ↔
      Instruction.mk ⟨b⟩ [n] = ⟨⟨c⟩, []⟩ := by
    refine iff_of_false ?_ fun h => nomatch congrArg Instruction.data h
    rw [decide_eq_true_iff]
    exact fun h => absurd (h ▸ hvalue) (Nat.not_le_of_lt hk)
  unfold isMinimalPush shortestPush
  dsimp only [Opcode.value] at hvalue hsize ⊢
  match data with
  | [] => exact hop 0x00
  | [n] =>
    dsimp only
    split
    · exact hnumber _ _ n (by omega)
    · split
      · exact hnumber _ _ n (by omega)
      · exact hop 0x01
  | b₀ :: b₁ :: bs =>
    dsimp only
    split
    · next hdirect =>
      have hlength : (UInt8.ofNat (b₀ :: b₁ :: bs).length).toNat = (b₀ :: b₁ :: bs).length :=
        UInt8.toNat_ofNat_of_lt' (Nat.lt_of_le_of_lt hdirect (by decide))
      rw [← hop, hlength]
    · split
      · exact hop 0x4c
      · exact hop 0x4d

/-- No other push can carry more than 65535 bytes, so nothing is asked of one that does. -/
theorem isMinimalPush_of_long (hlong : 0xffff < i.data.length) : i.isMinimalPush = true := by
  obtain ⟨op, data⟩ := i
  unfold isMinimalPush
  dsimp only at hlong ⊢
  match data with
  | [] => cases hlong
  | [n] => simp at hlong
  | b₀ :: b₁ :: bs =>
    dsimp only
    rw [if_neg (by omega), if_neg (by omega), if_neg (by omega)]

/-- The instruction is the only push of the item that takes so few bytes. -/
structure Shortest (i : Instruction) (item : Bytes) : Prop where
  pushes : i.Pushes item
  shorter : ∀ j : Instruction, j.Pushes item → j ≠ i → i.toBytes.length < j.toBytes.length

theorem Shortest.unique (h : i.Shortest item) (h' : j.Shortest item) : i = j := by
  by_cases heq : i = j
  · exact heq
  · have hlt := h.shorter j h'.pushes fun h => heq h.symm
    have hlt' := h'.shorter i h.pushes heq
    omega

theorem shortest_shortestPush (hsize : item.length ≤ 0xffff) :
    (shortestPush item).Shortest item :=
  ⟨pushes_shortestPush hsize, fun _ hj hne => hj.shortest_lt hne⟩

theorem shortest_of_long (hi : i.Pushes item) (hlong : 0xffff < item.length) : i.Shortest item := by
  refine ⟨hi, fun j hj hne => absurd ?_ hne⟩
  rw [hi.eq_of_long hlong, hj.eq_of_long hlong]

theorem exists_shortest (hsize : item.length < Bytes.capacity 4) :
    ∃ i : Instruction, i.Shortest item := by
  by_cases hlong : 0xffff < item.length
  · have hpushes : (Instruction.mk ⟨0x4e⟩ item).Pushes item :=
      pushes_data hsize (Nat.le_of_ble_eq_true rfl)
    exact ⟨_, shortest_of_long hpushes hlong⟩
  · exact ⟨_, shortest_shortestPush (Nat.le_of_not_lt hlong)⟩

/-- **The check for minimal pushes asks for the fewest bytes.** It accepts an instruction that pushes its
    operand just when every other push of the item takes more bytes, whether it carries the item or
    stands for a small number. There is always one such push: each item that can be pushed at all has
    exactly one push that is shorter than all others. -/
theorem minimalPush_shortest :
    (∀ i : Instruction, i.WellFormed → i.opcode.value ≤ Opcode.lastDataPush →
      (i.checkMinimalPush = .ok () ↔ i.Shortest i.data)) ∧
    ∀ item : Bytes, item.length < Bytes.capacity 4 →
      ∃ i : Instruction, i.Shortest item ∧ ∀ j : Instruction, j.Shortest item → j = i := by
  refine ⟨fun i hw hvalue => ?_, fun item hsize => ?_⟩
  · have hcheck : i.checkMinimalPush = .ok () ↔ i.isMinimalPush = true := by
      unfold checkMinimalPush
      cases i.isMinimalPush <;> simp
    rw [hcheck]
    by_cases hlong : 0xffff < i.data.length
    · exact iff_of_true (isMinimalPush_of_long hlong) (shortest_of_long (pushes_data hw hvalue) hlong)
    · have hsize := Nat.le_of_not_lt hlong
      rw [isMinimalPush_iff hvalue hsize]
      have hshortest := shortest_shortestPush hsize
      constructor
      · intro heq
        rwa [← heq] at hshortest
      · exact fun h => h.unique hshortest
  · obtain ⟨i, hi⟩ := exists_shortest hsize
    exact ⟨i, hi, fun j hj => hj.unique hi⟩

/-- 76 bytes are the fewest that need a length in front. The byte 0x81 is pushed as the number -1. -/
theorem minimalPush_shortest_firstCounted :
    (mk ⟨0x4c⟩ (List.replicate 76 0)).WellFormed ∧
      (mk ⟨0x4c⟩ (List.replicate 76 0)).Shortest (List.replicate 76 0) ∧
      ¬ (mk ⟨0x01⟩ [0x81]).Shortest [0x81] ∧
      ∃ i : Instruction, i.Shortest [0x81] ∧ ∀ j : Instruction, j.Shortest [0x81] → j = i := by
  have hcounted : (mk ⟨0x4c⟩ (List.replicate 76 0)).WellFormed := by decide
  have hdirect : (mk ⟨0x01⟩ [0x81]).WellFormed := by decide
  refine ⟨hcounted, ?_, ?_, ?_⟩
  · exact (minimalPush_shortest.1 _ hcounted (by decide)).1 rfl
  · rw [← minimalPush_shortest.1 _ hdirect (by decide)]
    exact fun h => nomatch h
  · exact minimalPush_shortest.2 [0x81] (by decide)

end Instruction

end SpendScript

/-
  The grammar of scripts. `Script.Written` says by the value of each first byte which bytes a script
  is written as, without the reader or the writer. They are those that the writer gives, just when
  the instructions are well formed (`Script.written_iff`); and the reader accepts what is written, up
  to the bound on the size, and nothing else (`Script.parse_grammar`). An instruction holds no more of
  its opcode than the byte, so the form of its operand and its operation are always those of the
  table.
-/
import SpendScript.Proofs.Opcode
import SpendScript.Proofs.Script.RoundTrip

namespace SpendScript

/-! ## The forms of an instruction -/

/-- The pushes that carry a length, with the number of bytes that it takes. -/
def Opcode.countedPushes : List (UInt8 × Nat) := [(0x4c, 1), (0x4d, 2), (0x4e, 4)]

/-- The bytes that an instruction is written as. -/
inductive Instruction.Written : Instruction → Bytes → Prop
  /-- A direct push stands for the length of its operand. -/
  | direct {b : UInt8} {data : Bytes} (hb : b.toNat ≤ 75) (hlength : data.length = b.toNat) :
      Written ⟨⟨b⟩, data⟩ (b :: data)
  /-- Three pushes spell the length in front of the operand, lowest byte first. It need not be as
      short as it could be. -/
  | counted {b : UInt8} {front data : Bytes} (hb : (b, front.length) ∈ Opcode.countedPushes)
      (hlength : data.length = Bytes.natLE front) : Written ⟨⟨b⟩, data⟩ (b :: front ++ data)
  /-- All other bytes stand alone. -/
  | alone {b : UInt8} (hb : 78 < b.toNat) : Written ⟨⟨b⟩, []⟩ [b]

/-- The bytes that a script is written as. -/
inductive Script.Written : Script → Bytes → Prop
  | nil : Written [] []
  | cons {i : Instruction} {s : Script} {front rest : Bytes} (hi : i.Written front)
      (hs : Written s rest) : Written (i :: s) (front ++ rest)

namespace Opcode

theorem operandForm_direct {op : Opcode} (h : op.value ≤ 75) :
    op.operandForm = .fixed op.value := if_pos (Nat.lt_succ_of_le h)

theorem operandForm_counted {b : UInt8} {width : Nat} (h : (b, width) ∈ countedPushes) :
    (Opcode.mk b).operandForm = .counted width := by
  simp only [countedPushes, List.mem_cons, Prod.mk.injEq, List.not_mem_nil, or_false] at h
  rcases h with ⟨rfl, rfl⟩ | ⟨rfl, rfl⟩ | ⟨rfl, rfl⟩ <;> rfl

theorem operandForm_alone {op : Opcode} (h : 78 < op.value) : op.operandForm = .none := by
  unfold operandForm
  rw [if_neg (by omega), if_neg (by omega), if_neg (by omega), if_neg (by omega)]

/-- A byte up to 78 is a direct push or carries a length. -/
theorem value_cases (op : Opcode) :
    op.value ≤ 75 ∨ (∃ width, (op.byte, width) ∈ countedPushes) ∨ 78 < op.value := by
  have hbyte (n : Nat) (h : op.value = n) : op.byte = UInt8.ofNat n :=
    congrArg Opcode.byte (eq_of_value h)
  rcases Nat.lt_or_ge op.value 76 with hlow | hlow
  · exact Or.inl (Nat.le_of_lt_succ hlow)
  · rcases Nat.lt_or_ge 78 op.value with hhigh | hhigh
    · exact Or.inr (Or.inr hhigh)
    · obtain h | h | h : op.value = 76 ∨ op.value = 77 ∨ op.value = 78 := by omega
      all_goals
        rw [hbyte _ h]
        exact Or.inr (Or.inl (by simp [countedPushes]))

end Opcode

/-! ## The grammar and the writer -/

namespace Instruction

instance (i : Instruction) : Decidable i.WellFormed :=
  match h : i.opcode.operandForm with
  | .none => decidable_of_iff (i.data = []) (by rw [WellFormed, h])
  | .fixed n => decidable_of_iff (i.data.length = n) (by rw [WellFormed, h])
  | .counted width => decidable_of_iff (i.data.length < Bytes.capacity width) (by rw [WellFormed, h])

theorem toBytes_of_written {i : Instruction} {bs : Bytes} (h : i.Written bs) :
    i.WellFormed ∧ i.toBytes = bs := by
  unfold WellFormed toBytes
  cases h with
  | @direct b data hb hlength =>
    have hform : (Opcode.mk b).operandForm = .fixed b.toNat := Opcode.operandForm_direct hb
    simp only [hform]
    exact ⟨hlength, trivial⟩
  | @counted b front data hb hlength =>
    have hform : (Opcode.mk b).operandForm = .counted front.length := Opcode.operandForm_counted hb
    simp only [hform, hlength, Bytes.ofNatLE_natLE]
    exact ⟨Bytes.natLE_lt front, rfl⟩
  | @alone b hb =>
    have hform : (Opcode.mk b).operandForm = .none := Opcode.operandForm_alone hb
    simp only [hform]
    exact ⟨trivial, trivial⟩

theorem written_toBytes {i : Instruction} (h : i.WellFormed) : i.Written i.toBytes := by
  obtain ⟨⟨b⟩, data⟩ := i
  unfold WellFormed at h
  unfold toBytes
  rcases Opcode.value_cases ⟨b⟩ with hb | ⟨width, hb⟩ | hb
  · simp only [Opcode.operandForm_direct hb] at h ⊢
    exact .direct hb h
  · simp only [Opcode.operandForm_counted hb] at h ⊢
    have hwidth : (Bytes.ofNatLE width data.length).length = width := Bytes.length_ofNatLE _ _
    have hvalue : Bytes.natLE (Bytes.ofNatLE width data.length) = data.length := by
      rw [Bytes.natLE_ofNatLE, Nat.mod_eq_of_lt h]
    rw [← hwidth] at hb
    exact .counted hb hvalue.symm
  · simp only [Opcode.operandForm_alone hb] at h ⊢
    obtain rfl : data = [] := h
    exact .alone hb

end Instruction

namespace Script

/-- A script is written as the bytes that the writer gives, and only if it is well formed. -/
theorem written_iff {s : Script} {bs : Bytes} :
    Written s bs ↔ (∀ i ∈ s, i.WellFormed) ∧ toBytes s = bs := by
  constructor
  · intro h
    induction h with
    | nil => exact ⟨fun i hi => absurd hi List.not_mem_nil, rfl⟩
    | @cons i s front rest hi _ ih =>
      obtain ⟨hwell, hfront⟩ := Instruction.toBytes_of_written hi
      obtain ⟨hall, hrest⟩ := ih
      rw [toBytes_cons, hfront, hrest]
      exact ⟨List.forall_mem_cons.2 ⟨hwell, hall⟩, rfl⟩
  · rintro ⟨hall, rfl⟩
    induction s with
    | nil => exact .nil
    | cons i s ih =>
      obtain ⟨hwell, hall⟩ := List.forall_mem_cons.1 hall
      exact .cons (Instruction.written_toBytes hwell) (ih hall)

/-- Bytes of any number are written by one script at most. -/
theorem Written.unique {s t : Script} {bs : Bytes} (hs : Written s bs) (ht : Written t bs) :
    s = t := by
  obtain ⟨hsall, hsbytes⟩ := written_iff.1 hs
  obtain ⟨htall, htbytes⟩ := written_iff.1 ht
  have hread : readAll bs = .ok s := hsbytes ▸ readAll_toBytes hsall
  have hread' : readAll bs = .ok t := htbytes ▸ readAll_toBytes htall
  exact Except.ok.inj (hread.symm.trans hread')

theorem length_le_of_parse {bs : Bytes} {s : Script} (h : parse bs = .ok s) :
    bs.length ≤ Limit.scriptSize := by
  unfold parse at h
  split at h
  · cases h
  · next hsize => exact Nat.le_of_not_lt hsize

theorem parse_ok_iff_written {bs : Bytes} {s : Script} :
    parse bs = .ok s ↔ bs.length ≤ Limit.scriptSize ∧ Written s bs := by
  rw [written_iff]
  constructor
  · intro h
    exact ⟨length_le_of_parse h, wellFormed_of_parse h, toBytes_of_parse h⟩
  · rintro ⟨hsize, hall, rfl⟩
    exact parse_toBytes hall hsize

/-- **The reader accepts exactly the grammar.** Bytes are read as a script just when there are at most
    10000 of them, the instructions are well formed and written back they are these bytes; that is,
    when the grammar has the script written as these bytes. So writing undoes reading, reading undoes
    writing, and no bytes are written by two scripts. -/
theorem parse_grammar (bs : Bytes) (s : Script) :
    (parse bs = .ok s ↔
      bs.length ≤ 10000 ∧ (∀ i ∈ s, i.WellFormed) ∧ toBytes s = bs) ∧
    ((∀ i ∈ s, i.WellFormed) ∧ toBytes s = bs ↔ Written s bs) ∧
    (parse bs = .ok s → toBytes s = bs) ∧
    ((∀ i ∈ s, i.WellFormed) → (toBytes s).length ≤ 10000 → parse (toBytes s) = .ok s) ∧
    ∀ t, Written s bs → Written t bs → s = t := by
  refine ⟨?_, written_iff.symm, toBytes_of_parse, parse_toBytes, fun t hs ht => hs.unique ht⟩
  rw [← written_iff]
  exact parse_ok_iff_written

/-- Every form of a push, an empty operand behind two bytes of length and a length that takes more
    bytes than it needs among them. -/
def everyForm : Script :=
  [⟨⟨0x00⟩, []⟩, ⟨⟨0x02⟩, [0xaa, 0xbb]⟩, ⟨⟨0x4c⟩, [0xcc]⟩, ⟨⟨0x4d⟩, []⟩, ⟨⟨0x4e⟩, [0xff]⟩, ⟨⟨0x50⟩, []⟩,
    ⟨⟨0xac⟩, []⟩]

theorem parse_grammar_everyForm :
    parse [0x00, 0x02, 0xaa, 0xbb, 0x4c, 0x01, 0xcc, 0x4d, 0, 0, 0x4e, 0x01, 0, 0, 0, 0xff, 0x50, 0xac]
        = .ok everyForm ∧
      (∀ i ∈ everyForm, i.WellFormed) ∧
      ∀ t, Written t (toBytes everyForm) → everyForm = t := by
  have hall : ∀ i ∈ everyForm, i.WellFormed := by decide
  obtain ⟨-, hwritten, -, hread, hunique⟩ := parse_grammar (toBytes everyForm) everyForm
  refine ⟨hread hall (by decide), hall, fun t => hunique t (hwritten.1 ⟨hall, rfl⟩)⟩

end Script

end SpendScript

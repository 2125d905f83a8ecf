/-
  Where reading fails. Bytes that are not too many fail to be a script at one place only: instructions
  come first, and behind them stands a push whose length or operand is cut short (`Script.CutShort`).
  The error says which push it is, how many bytes it wanted and how many were left, so it does not
  depend on what has been read before; and reading goes on behind a script as it would on its own
  (`Script.parse_append`).
-/
import SpendScript.Proofs.Script.Grammar

namespace SpendScript

namespace Script

/-- The bytes start with a push that is cut short, and the error tells its opcode, how many bytes it
    wanted and how many are left. -/
inductive CutShort : Bytes → ParseError → Prop
  /-- A direct push stands for more bytes than follow it. -/
  | direct {b : UInt8} {rest : Bytes} (hb : b.toNat ≤ 75) (hshort : rest.length < b.toNat) :
      CutShort (b :: rest) (.malformedPush ⟨b⟩ b.toNat rest.length)
  /-- The length in front of the operand is cut short. -/
  | count {b : UInt8} {width : Nat} {rest : Bytes} (hb : (b, width) ∈ Opcode.countedPushes)
      (hshort : rest.length < width) :
      CutShort (b :: rest) (.malformedPush ⟨b⟩ width rest.length)
  /-- The length is there and calls for more bytes than follow it. -/
  | operand {b : UInt8} {front rest : Bytes} (hb : (b, front.length) ∈ Opcode.countedPushes)
      (hshort : rest.length < Bytes.natLE front) :
      CutShort (b :: (front ++ rest)) (.malformedPush ⟨b⟩ (Bytes.natLE front) rest.length)

variable {a bs r r' : Bytes} {b : UInt8} {tail : Bytes} {s t : Script} {e e' : ParseError}

/-! ## One instruction -/

theorem takeOperand_of_cutShort (h : CutShort (b :: tail) e) :
    (Opcode.mk b).takeOperand tail = .error e := by
  unfold Opcode.takeOperand
  cases h with
  | direct hb hshort =>
    have hform : (Opcode.mk b).operandForm = .fixed b.toNat := Opcode.operandForm_direct hb
    simp only [hform]
    rw [if_pos hshort]
  | count hb hshort =>
    simp only [Opcode.operandForm_counted hb]
    rw [if_pos hshort]
  | @operand _ front rest hb hshort =>
    simp only [Opcode.operandForm_counted hb, List.take_left, List.drop_left]
    rw [if_neg (by rw [List.length_append]; omega), if_pos hshort]

theorem cutShort_of_takeOperand (h : (Opcode.mk b).takeOperand tail = .error e) :
    CutShort (b :: tail) e := by
  unfold Opcode.takeOperand at h
  rcases Opcode.value_cases ⟨b⟩ with hb | ⟨width, hb⟩ | hb
  · simp only [Opcode.operandForm_direct hb] at h
    split at h
    · next hshort =>
      cases h
      exact .direct hb hshort
    · cases h
  · simp only [Opcode.operandForm_counted hb] at h
    split at h
    · next hshort =>
      cases h
      exact .count hb hshort
    · next hwidth =>
      have hfront : (tail.take width).length = width := by
        rw [List.length_take]
        omega
      split at h
      · next hshort =>
        cases h
        rw [← hfront] at hb
        have hcut : CutShort (b :: (tail.take width ++ tail.drop width)) _ := .operand hb hshort
        rw [List.take_append_drop] at hcut
        exact hcut
      · cases h
  · simp only [Opcode.operandForm_alone hb] at h
    cases h

/-- A push is cut short just where its operand cannot be taken. -/
theorem cutShort_iff : CutShort (b :: tail) e ↔ (Opcode.mk b).takeOperand tail = .error e :=
  ⟨takeOperand_of_cutShort, cutShort_of_takeOperand⟩

/-- What is cut short starts with no instruction. -/
theorem not_cutShort_toBytes {i : Instruction} (hi : i.WellFormed) (rest : Bytes) :
    ¬ CutShort (i.toBytes ++ rest) e := by
  obtain ⟨tail, hbytes, htake⟩ := Instruction.takeOperand_toBytes hi rest
  rw [hbytes, cutShort_iff, htake]
  intro h
  cases h

theorem CutShort.unique (h : CutShort r e) (h' : CutShort r e') : e = e' := by
  rcases r with _ | ⟨b, tail⟩
  · cases h
  · rw [cutShort_iff] at h h'
    exact Except.error.inj (h.symm.trans h')

/-- Bytes start with one instruction at most. -/
theorem eq_of_toBytes_append {i j : Instruction} (hi : i.WellFormed) (hj : j.WellFormed)
    (h : i.toBytes ++ r = j.toBytes ++ r') : i = j ∧ r = r' := by
  obtain ⟨tail, hbytes, htake⟩ := Instruction.takeOperand_toBytes hi r
  obtain ⟨tail', hbytes', htake'⟩ := Instruction.takeOperand_toBytes hj r'
  obtain ⟨hbyte, rfl⟩ := List.cons.inj (hbytes.symm.trans (h.trans hbytes'))
  obtain ⟨⟨b⟩, data⟩ := i
  obtain ⟨⟨b'⟩, data'⟩ := j
  obtain rfl : b = b' := hbyte
  obtain ⟨rfl, rfl⟩ := Prod.mk.inj (Except.ok.inj (htake.symm.trans htake'))
  exact ⟨rfl, rfl⟩

/-! ## The place of a failure -/

theorem readAll_of_cutShort (h : CutShort r e) : readAll r = .error e := by
  rcases r with _ | ⟨b, tail⟩
  · cases h
  · rw [cutShort_iff] at h
    rw [readAll]
    split
    · next htake =>
      rw [htake] at h
      cases h
      rfl
    · next htake =>
      rw [h] at htake
      cases htake

/-- Where reading fails, it has read a script and stands at a push that is cut short. -/
theorem exists_of_readAll_error (h : readAll bs = .error e) :
    ∃ s r, (∀ i ∈ s, i.WellFormed) ∧ bs = toBytes s ++ r ∧ CutShort r e := by
  fun_induction readAll bs with
  | case1 => cases h
  | case2 b tail e₁ htake =>
    cases h
    exact ⟨[], b :: tail, fun _ hi => absurd hi List.not_mem_nil, rfl, cutShort_iff.2 htake⟩
  | case3 b tail data rest htake _ e₁ hrest ih =>
    cases h
    obtain ⟨s, r, hs, rfl, hcut⟩ := ih hrest
    obtain ⟨hi, hbytes⟩ := Instruction.toBytes_of_takeOperand htake
    refine ⟨⟨⟨b⟩, data⟩ :: s, r, List.forall_mem_cons.2 ⟨hi, hs⟩, ?_, hcut⟩
    rw [toBytes_cons, List.append_assoc]
    exact hbytes.symm
  | case4 => cases h

/-- There is one such place at most. -/
theorem eq_of_cutShort (hs : ∀ i ∈ s, i.WellFormed) (ht : ∀ i ∈ t, i.WellFormed)
    (hr : CutShort r e) (hr' : CutShort r' e') (h : toBytes s ++ r = toBytes t ++ r') :
    s = t ∧ r = r' := by
  induction s generalizing t with
  | nil =>
    cases t with
    | nil => exact ⟨rfl, h⟩
    | cons j t =>
      have hcut : CutShort (j.toBytes ++ (toBytes t ++ r')) e := by
        rw [← List.append_assoc, ← toBytes_cons, ← h]
        exact hr
      exact absurd hcut (not_cutShort_toBytes (ht j List.mem_cons_self) _)
  | cons i s ih =>
    obtain ⟨hi, hs'⟩ := List.forall_mem_cons.1 hs
    cases t with
    | nil =>
      have hcut : CutShort (i.toBytes ++ (toBytes s ++ r)) e' := by
        rw [← List.append_assoc, ← toBytes_cons, h]
        exact hr'
      exact absurd hcut (not_cutShort_toBytes hi _)
    | cons j t =>
      obtain ⟨hj, ht'⟩ := List.forall_mem_cons.1 ht
      rw [toBytes_cons, toBytes_cons, List.append_assoc, List.append_assoc] at h
      obtain ⟨rfl, hrest⟩ := eq_of_toBytes_append hi hj h
      obtain ⟨rfl, hrr⟩ := ih hs' ht' hrest
      exact ⟨rfl, hrr⟩

/-! ## Scripts behind each other -/

theorem readAll_append (ha : parse a = .ok s) (bs : Bytes) :
    readAll (a ++ bs) = (readAll bs).map (s ++ ·) := by
  rw [← toBytes_of_parse ha, readAll_toBytes_append (wellFormed_of_parse ha)]

theorem parse_of_length_le (h : bs.length ≤ Limit.scriptSize) : parse bs = readAll bs :=
  if_neg (Nat.not_lt_of_le h)

/-- Reading goes on behind a script as it would on its own. -/
theorem parse_append (ha : parse a = .ok s) (hsize : (a ++ bs).length ≤ Limit.scriptSize) :
    parse (a ++ bs) = (parse bs).map (s ++ ·) := by
  have hrest : bs.length ≤ Limit.scriptSize := by
    rw [List.length_append] at hsize
    omega
  rw [parse_of_length_le hsize, parse_of_length_le hrest, readAll_append ha]

/-- **Failures have one place.** Where at most 10000 bytes are no script, they have a beginning that is
    one and behind it a push that is cut short, and the error is the one of this push. There is no other
    way to split them like that. Behind a script, bytes are read as they are on their own, up to the bound
    on the size: a script is added, and a failure stays the same. -/
theorem parse_located (b : Bytes) :
    (∀ e, b.length ≤ 10000 → parse b = .error e →
      ∃ p r, (b = p ++ r ∧ (∃ s, parse p = .ok s) ∧ CutShort r e) ∧
        ∀ p' r' e', b = p' ++ r' → (∃ s, parse p' = .ok s) → CutShort r' e' →
          p' = p ∧ r' = r ∧ e' = e) ∧
    ∀ a s, parse a = .ok s → (a ++ b).length ≤ 10000 →
      (∀ t, parse b = .ok t → parse (a ++ b) = .ok (s ++ t)) ∧
      ∀ e, parse b = .error e → parse (a ++ b) = .error e := by
  refine ⟨fun e hsize h => ?_, fun a s ha hsize => ?_⟩
  · rw [parse_of_length_le hsize] at h
    obtain ⟨s, r, hs, rfl, hcut⟩ := exists_of_readAll_error h
    have hfront : (toBytes s).length ≤ Limit.scriptSize := by
      rw [List.length_append] at hsize
      exact Nat.le_trans (Nat.le_add_right _ _) hsize
    refine ⟨toBytes s, r, ⟨rfl, ⟨s, parse_toBytes hs hfront⟩, hcut⟩, ?_⟩
    rintro p' r' e' hsplit ⟨t, hp'⟩ hcut'
    rw [← toBytes_of_parse hp'] at hsplit ⊢
    obtain ⟨rfl, rfl⟩ := eq_of_cutShort hs (wellFormed_of_parse hp') hcut hcut' hsplit
    exact ⟨rfl, rfl, hcut'.unique hcut⟩
  · have happend : parse (a ++ b) = (parse b).map (s ++ ·) := parse_append ha hsize
    constructor
    · intro t hb
      rw [happend, hb]
      rfl
    · intro e hb
      rw [happend, hb]
      rfl

/-- The push of an empty operand behind two bytes of length, and then one that wants five bytes of
    three. -/
theorem parse_located_threeOfFive :
    ∃ p r, ([0x4d, 0, 0, 0x4c, 0x05, 1, 2, 3] : Bytes) = p ++ r ∧ p = [0x4d, 0, 0] ∧
      CutShort r (.malformedPush ⟨0x4c⟩ 5 3) ∧
      parse ([0x51] ++ [0x4d, 0, 0, 0x4c, 0x05, 1, 2, 3]) = .error (.malformedPush ⟨0x4c⟩ 5 3) := by
  have hcut : CutShort [0x4c, 0x05, 1, 2, 3] (.malformedPush ⟨0x4c⟩ 5 3) :=
    @CutShort.operand 0x4c [0x05] [1, 2, 3] (by decide) (by decide)
  have hfront : parse [0x51] = .ok [⟨⟨0x51⟩, []⟩] :=
    parse_toBytes (s := [⟨⟨0x51⟩, []⟩]) (by decide) (by decide)
  have hempty : parse [0x4d, 0, 0] = .ok [⟨⟨0x4d⟩, []⟩] :=
    parse_toBytes (s := [⟨⟨0x4d⟩, []⟩]) (by decide) (by decide)
  have herror : parse [0x4d, 0, 0, 0x4c, 0x05, 1, 2, 3] = .error (.malformedPush ⟨0x4c⟩ 5 3) := by
    have hpush : parse [0x4c, 0x05, 1, 2, 3] = .error (.malformedPush ⟨0x4c⟩ 5 3) :=
      (parse_of_length_le (by decide)).trans (readAll_of_cutShort hcut)
    have hread : parse ([0x4d, 0, 0] ++ [0x4c, 0x05, 1, 2, 3]) =
        (parse [0x4c, 0x05, 1, 2, 3]).map ([⟨⟨0x4d⟩, []⟩] ++ ·) := parse_append hempty (by decide)
    rw [hpush] at hread
    exact hread
  obtain ⟨hlocated, hbehind⟩ := parse_located [0x4d, 0, 0, 0x4c, 0x05, 1, 2, 3]
  obtain ⟨p, r, ⟨hsplit, -, hpush⟩, hunique⟩ := hlocated _ (by decide) herror
  have hplace := hunique [0x4d, 0, 0] [0x4c, 0x05, 1, 2, 3] _ rfl ⟨_, hempty⟩ hcut
  exact ⟨p, r, hsplit, hplace.1.symm, hpush, (hbehind [0x51] _ hfront (by decide)).2 _ herror⟩

end Script

end SpendScript

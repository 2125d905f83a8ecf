/-
  Reading undoes writing. The bytes of a script whose instructions are well formed are read back as
  that script (`Script.parse_toBytes`); the one thing that can prevent it is the bound on the size.
  Conversely whatever is read is well formed, and written back it is the bytes it was read from
  (`Script.wellFormed_of_parse`, `Script.toBytes_of_parse`).
-/
import SpendScript.Script.Parse

namespace SpendScript

/-- The operand of a well-formed instruction is what its opcode takes from the bytes written. -/
theorem Instruction.takeOperand_toBytes {i : Instruction} (hi : i.WellFormed) (rest : Bytes) :
    ∃ tail, i.toBytes ++ rest = i.opcode.byte :: tail ∧
      i.opcode.takeOperand tail = .ok (i.data, rest) := by
  unfold Instruction.WellFormed at hi
  unfold Instruction.toBytes Opcode.takeOperand
  generalize i.opcode.operandForm = form at hi ⊢
  rcases form with _ | n | width
  · have hnil : i.data = [] := hi
    refine ⟨rest, rfl, ?_⟩
    rw [hnil]
  · have hlen : i.data.length = n := hi
    refine ⟨i.data ++ rest, rfl, ?_⟩
    dsimp only
    rw [if_neg (by rw [List.length_append]; omega), ← hlen, List.take_left, List.drop_left]
  · have hlt : i.data.length < Bytes.capacity width := hi
    have hprefix : (Bytes.ofNatLE width i.data.length).length = width :=
      Bytes.length_ofNatLE width i.data.length
    have hvalue : Bytes.natLE (Bytes.ofNatLE width i.data.length) = i.data.length := by
      rw [Bytes.natLE_ofNatLE, Nat.mod_eq_of_lt hlt]
    have htake : (Bytes.ofNatLE width i.data.length ++ (i.data ++ rest)).take width =
        Bytes.ofNatLE width i.data.length := List.take_left' hprefix
    have hdrop : (Bytes.ofNatLE width i.data.length ++ (i.data ++ rest)).drop width =
        i.data ++ rest := List.drop_left' hprefix
    refine ⟨Bytes.ofNatLE width i.data.length ++ (i.data ++ rest), ?_, ?_⟩
    · rw [List.cons_append, List.append_assoc]
    · dsimp only
      rw [htake, hdrop, hvalue, if_neg (by rw [List.length_append]; omega),
        if_neg (by rw [List.length_append]; omega), List.take_left, List.drop_left]

/-- What an opcode takes as its operand makes a well-formed instruction, and written back this is
    the bytes it was taken from. -/
theorem Instruction.toBytes_of_takeOperand {op : Opcode} {tail data rest : Bytes}
    (h : op.takeOperand tail = .ok (data, rest)) :
    (Instruction.mk op data).WellFormed ∧
      (Instruction.mk op data).toBytes ++ rest = op.byte :: tail := by
  unfold Opcode.takeOperand at h
  unfold Instruction.WellFormed Instruction.toBytes
  dsimp only
  generalize op.operandForm = form at h ⊢
  cases form with
  | none =>
    cases h
    exact ⟨rfl, rfl⟩
  | fixed n =>
    dsimp only at h
    split at h
    · cases h
    · next hn =>
      cases h
      have hlen : (tail.take n).length = n := by
        rw [List.length_take]
        omega
      refine ⟨hlen, ?_⟩
      rw [List.cons_append, List.take_append_drop]
  | counted width =>
    dsimp only at h
    split at h
    · cases h
    · next hwidth =>
      split at h
      · cases h
      · next hn =>
        cases h
        have hfront : (tail.take width).length = width := by
          rw [List.length_take]
          omega
        have hlen : ((tail.drop width).take (Bytes.natLE (tail.take width))).length =
            Bytes.natLE (tail.take width) := by
          rw [List.length_take]
          omega
        have hlt : Bytes.natLE (tail.take width) < Bytes.capacity width := by
          have hbound := Bytes.natLE_lt (tail.take width)
          rwa [hfront] at hbound
        have hwritten : Bytes.ofNatLE width (Bytes.natLE (tail.take width)) = tail.take width := by
          have hback := Bytes.ofNatLE_natLE (tail.take width)
          rwa [hfront] at hback
        refine ⟨?_, ?_⟩
        · dsimp only
          rw [hlen]
          exact hlt
        · dsimp only
          rw [hlen, hwritten, List.cons_append, List.append_assoc, List.take_append_drop,
            List.take_append_drop]

namespace Script

/-- Behind a script reading goes on with what follows. -/
theorem readAll_toBytes_append {s : Script} (hs : ∀ i ∈ s, i.WellFormed) (bs : Bytes) :
    readAll (toBytes s ++ bs) = (readAll bs).map (s ++ ·) := by
  induction s with
  | nil =>
    rw [toBytes_nil, List.nil_append]
    cases readAll bs <;> rfl
  | cons i s ih =>
    have hrest : readAll (toBytes s ++ bs) = (readAll bs).map (s ++ ·) :=
      ih fun j hj => hs j (List.mem_cons_of_mem i hj)
    obtain ⟨tail, hbytes, htake⟩ :=
      Instruction.takeOperand_toBytes (hs i List.mem_cons_self) (toBytes s ++ bs)
    rw [toBytes_cons, List.append_assoc, hbytes, readAll]
    split
    · next e h =>
      rw [htake] at h
      cases h
    · next data rest h =>
      rw [htake] at h
      cases h
      rw [hrest]
      cases readAll bs <;> rfl

theorem readAll_toBytes {s : Script} (hs : ∀ i ∈ s, i.WellFormed) :
    readAll (toBytes s) = .ok s := by
  have h := readAll_toBytes_append hs []
  rw [List.append_nil, readAll] at h
  rw [h]
  change Except.ok (s ++ []) = _
  rw [List.append_nil]

/-- **Reading undoes writing.** -/
theorem parse_toBytes {s : Script} (hs : ∀ i ∈ s, i.WellFormed)
    (hsize : (toBytes s).length ≤ Limit.scriptSize) : parse (toBytes s) = .ok s := by
  unfold parse
  rw [if_neg (Nat.not_lt_of_le hsize), readAll_toBytes hs]

/-- A script that has been read is well formed, and written back it is the bytes it was read from. -/
theorem toBytes_of_readAll {bs : Bytes} {s : Script} (h : readAll bs = .ok s) :
    (∀ i ∈ s, i.WellFormed) ∧ toBytes s = bs := by
  induction s generalizing bs with
  | nil =>
    cases bs with
    | nil => simp
    | cons b tail =>
      rw [readAll] at h
      split at h
      · cases h
      · split at h <;> cases h
  | cons i s ih =>
    cases bs with
    | nil =>
      rw [readAll] at h
      cases h
    | cons b tail =>
      rw [readAll] at h
      split at h
      · cases h
      · next data rest htake =>
        split at h
        · cases h
        · next hrest =>
          cases h
          obtain ⟨hi, hbytes⟩ := Instruction.toBytes_of_takeOperand htake
          obtain ⟨hs, hback⟩ := ih hrest
          refine ⟨?_, ?_⟩
          · intro j hj
            cases hj with
            | head => exact hi
            | tail _ hj => exact hs j hj
          · rw [toBytes_cons, hback]
            exact hbytes

/-- **Writing undoes reading.** -/
theorem toBytes_of_parse {bs : Bytes} {s : Script} (h : parse bs = .ok s) : toBytes s = bs := by
  unfold parse at h
  split at h
  · cases h
  · exact (toBytes_of_readAll h).2

theorem wellFormed_of_parse {bs : Bytes} {s : Script} (h : parse bs = .ok s) :
    ∀ i ∈ s, i.WellFormed := by
  unfold parse at h
  split at h
  · cases h
  · exact (toBytes_of_readAll h).1

/-- Bytes that are a script of no instructions are no bytes. -/
theorem eq_nil_of_parse {bs : Bytes} (h : parse bs = .ok []) : bs = [] := by
  rcases bs with _ | ⟨b, tail⟩
  · rfl
  · unfold parse at h
    split at h
    · cases h
    · rw [readAll] at h
      split at h
      · cases h
      · split at h <;> cases h

end Script

end SpendScript

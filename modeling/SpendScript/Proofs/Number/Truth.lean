/-
  The truth of an item and the number it spells. Truth looks for a bit that is set, the sign apart, and
  reading a number puts bytes together. They agree on items of every length, on padded zeros and on the
  zero with a sign as well: an item is false just when it spells zero
  (`truth_eq_false_iff_signMagnitude`).
-/
import SpendScript.Proofs.Number.Codec
import SpendScript.Stack

namespace SpendScript

open Number

variable {item : Bytes}

theorem Bytes.natLE_eq_zero_iff {bs : Bytes} : natLE bs = 0 ↔ ∀ b ∈ bs, b = 0 := by
  refine ⟨fun h => ?_, natLE_eq_zero⟩
  induction bs with
  | nil => exact List.forall_mem_nil _
  | cons b bs ih =>
    rw [natLE, Nat.add_eq_zero_iff, Nat.mul_eq_zero] at h
    have hb : b = 0 := UInt8.toNat_inj.1 h.1
    have hrest : natLE bs = 0 := h.2.resolve_left (by decide)
    exact List.forall_mem_cons.2 ⟨hb, ih hrest⟩

/-- The last byte counts without the sign. -/
theorem truth_concat_eq_false_iff (front : Bytes) (last : UInt8) :
    truth (front ++ [last]) = false ↔ (∀ b ∈ front, b = 0) ∧ last.toNat % 128 = 0 := by
  have hreverse : (front ++ [last]).reverse = last :: front.reverse := by simp
  have hfront : front.any (· != 0) = false ↔ ∀ b ∈ front, b = 0 := by simp
  have hlast : (last &&& 0x7f != 0) = false ↔ last.toNat % 128 = 0 := by
    rw [← Bool.not_eq_true, magnitude_ne_zero_iff, Classical.not_not]
  unfold truth
  rw [hreverse]
  dsimp only
  rw [List.any_reverse, Bool.or_eq_false_iff, hfront, hlast]

/-- **What is false.** All bytes of the item are zero, but that the last one may hold the sign. -/
theorem truth_eq_false_iff :
    truth item = false ↔
      (∀ b ∈ item.dropLast, b = 0) ∧ ∀ b, item.getLast? = some b → b = 0x00 ∨ b = 0x80 := by
  rcases List.eq_nil_or_concat item with rfl | ⟨front, last, rfl⟩
  · simp [truth]
  · have hlast : last.toNat % 128 = 0 ↔ last = 0x00 ∨ last = 0x80 := by
      refine ⟨eq_of_magnitude_eq_zero, ?_⟩
      rintro (rfl | rfl) <;> rfl
    rw [List.concat_eq_append, truth_concat_eq_false_iff, List.dropLast_concat,
      List.getLast?_concat, hlast]
    simp

/-- **Truth is not being zero.** -/
theorem truth_eq_false_iff_signMagnitude : truth item = false ↔ signMagnitude item = 0 := by
  rcases List.eq_nil_or_concat item with rfl | ⟨front, last, rfl⟩
  · decide
  · have hpos : 0 < Bytes.capacity front.length := Bytes.capacity_pos front.length
    have hbyte : last.toNat < 256 := last.toNat_lt
    have hzero (low : Nat) : Bytes.natLE front + Bytes.capacity front.length * low = 0 ↔
        (∀ b ∈ front, b = 0) ∧ low = 0 := by
      rw [Nat.add_eq_zero_iff, Nat.mul_eq_zero, Bytes.natLE_eq_zero_iff,
        or_iff_right (Nat.ne_of_gt hpos)]
    rw [List.concat_eq_append, truth_concat_eq_false_iff, signMagnitude_concat]
    by_cases hsign : highBit last = true
    · have hge : 128 ≤ last.toNat := highBit_iff.1 hsign
      have hlow : last.toNat % 128 = last.toNat - 128 := by omega
      rw [if_pos hsign, Int.neg_eq_zero, Int.natCast_eq_zero, hzero, hlow]
    · have hlt : last.toNat < 128 := Nat.not_le.1 (mt highBit_iff.2 hsign)
      rw [if_neg hsign, Int.natCast_eq_zero, hzero, Nat.mod_eq_of_lt hlt]

theorem truth_eq_decide (item : Bytes) : truth item = decide (signMagnitude item ≠ 0) := by
  rw [Bool.eq_iff_iff, decide_eq_true_iff, ne_eq, ← truth_eq_false_iff_signMagnitude,
    Bool.not_eq_false]

/-- The item that stands for a truth value has it. -/
@[simp] theorem truth_ofTruth (b : Bool) : truth (ofTruth b) = b := by
  cases b <;> rfl

end SpendScript

/-
  The numbers that byte strings spell. The highest bit of a string is the sign and all other bits are
  the magnitude, lowest byte first (`signMagnitude`). Reading goes through a 64-bit word, and up to
  eight bytes nothing of the number is lost in it: the bytes do not overlap, and the magnitude leaves
  the highest bit free (`value_eq_signMagnitude`).
-/
import SpendScript.Number

namespace SpendScript

namespace Bytes

theorem capacity_pos (width : Nat) : 0 < capacity width := by
  induction width with
  | zero => exact Nat.zero_lt_one
  | succ width ih => exact Nat.mul_pos (by decide) ih

theorem capacity_mono {width width' : Nat} (h : width ≤ width') :
    capacity width ≤ capacity width' := by
  induction h with
  | refl => exact Nat.le_refl _
  | step _ ih =>
    rw [capacity]
    omega

/-- Shifting by whole bytes goes past all numbers of as many bytes. -/
theorem shiftLeft_eq_capacity_mul (n width : Nat) : n <<< (8 * width) = capacity width * n := by
  induction width with
  | zero => rw [Nat.mul_zero, Nat.shiftLeft_zero, capacity, Nat.one_mul]
  | succ width ih =>
    have hbyte (k : Nat) : k <<< 8 = 256 * k := by
      rw [Nat.shiftLeft_eq, Nat.mul_comm]
    rw [Nat.mul_succ, Nat.shiftLeft_add, ih, hbyte, capacity, Nat.mul_assoc]

end Bytes

namespace Number

open Bytes (natLE capacity)

/-! ## The number a string spells -/

/-- The weight of the highest bit of a byte string. -/
def signBit (length : Nat) : Nat := capacity length / 2

/-- The number a byte string spells: the highest bit is the sign, and all others are the magnitude. -/
def signMagnitude (bs : Bytes) : Int :=
  if natLE bs < signBit bs.length then natLE bs else -((natLE bs - signBit bs.length : Nat) : Int)

theorem signBit_succ (length : Nat) : signBit (length + 1) = 128 * capacity length := by
  unfold signBit
  rw [capacity]
  omega

theorem highBit_iff {b : UInt8} : highBit b = true ↔ 128 ≤ b.toNat := by
  have hall : ∀ n < 256, highBit (UInt8.ofNat n) = decide (128 ≤ n) := by decide +kernel
  have hb := hall b.toNat b.toNat_lt
  rw [UInt8.ofNat_toNat] at hb
  rw [hb, decide_eq_true_iff]

/-- The last byte tells the sign. -/
theorem signMagnitude_concat (front : Bytes) (last : UInt8) :
    signMagnitude (front ++ [last]) =
      if highBit last then -((natLE front + capacity front.length * (last.toNat - 128) : Nat) : Int)
      else (natLE front + capacity front.length * last.toNat : Nat) := by
  have hfront : natLE front < capacity front.length := Bytes.natLE_lt front
  unfold signMagnitude
  rw [Bytes.natLE_concat, List.length_append, List.length_singleton, signBit_succ]
  by_cases hlast : highBit last = true
  · have hge : 128 ≤ last.toNat := highBit_iff.1 hlast
    have hsplit : capacity front.length * last.toNat =
        capacity front.length * (last.toNat - 128) + 128 * capacity front.length := by
      rw [Nat.mul_comm 128, ← Nat.mul_add, Nat.sub_add_cancel hge]
    have hmagnitude : natLE front + capacity front.length * last.toNat -
        128 * capacity front.length =
          natLE front + capacity front.length * (last.toNat - 128) := by omega
    rw [if_pos hlast, if_neg (by omega), hmagnitude]
  · have hlt : last.toNat + 1 ≤ 128 := Nat.not_le.1 (mt highBit_iff.2 hlast)
    have hle : capacity front.length * (last.toNat + 1) ≤ capacity front.length * 128 :=
      Nat.mul_le_mul_left _ hlt
    rw [if_neg hlast, if_pos (by rw [Nat.mul_succ] at hle; omega)]

/-- A string of at most `n` bytes spells a number that leaves the highest bit of `n` bytes free. -/
theorem natAbs_signMagnitude_lt {bs : Bytes} {n : Nat} (hn : 0 < n) (h : bs.length ≤ n) :
    (signMagnitude bs).natAbs < signBit n := by
  have hpos : 0 < signBit n := by
    obtain ⟨k, rfl⟩ : ∃ k, n = k + 1 := ⟨n - 1, by omega⟩
    rw [signBit_succ]
    exact Nat.mul_pos (by decide) (Bytes.capacity_pos k)
  have hmono : signBit bs.length ≤ signBit n := Nat.div_le_div_right (Bytes.capacity_mono h)
  have hlt : natLE bs < capacity bs.length := Bytes.natLE_lt bs
  have heven : bs.length = 0 ∨ capacity bs.length = 2 * signBit bs.length := by
    cases bs with
    | nil => exact Or.inl rfl
    | cons b bs =>
      right
      rw [List.length_cons, signBit_succ, capacity]
      omega
  unfold signMagnitude
  split
  · omega
  · rcases heven with hzero | htwo
    · rw [List.length_eq_zero_iff.1 hzero]
      exact hpos
    · omega

/-! ## Reading -/

/-- The bytes of a word do not overlap while there are eight of them at most. -/
theorem wordFrom_eq {i : Nat} {bs : Bytes} (h : i + bs.length ≤ 8) :
    wordFrom i bs = natLE bs <<< (8 * i) := by
  induction bs generalizing i with
  | nil => exact (Nat.zero_shiftLeft _).symm
  | cons b bs ih =>
    rw [List.length_cons] at h
    have hshift : 8 * i % 64 = 8 * i := Nat.mod_eq_of_lt (by omega)
    have hrest : wordFrom (i + 1) bs = (natLE bs <<< 8) <<< (8 * i) := by
      rw [ih (by omega), Nat.mul_succ, Nat.add_comm, Nat.shiftLeft_add]
    have hlow : natLE (b :: bs) = b.toNat ||| natLE bs <<< 8 := by
      rw [natLE, Nat.or_comm, ← Nat.shiftLeft_add_eq_or_of_lt b.toNat_lt, Nat.shiftLeft_eq]
      omega
    rw [wordFrom, hshift, hrest, ← Nat.shiftLeft_or_distrib, hlow]

theorem wordFrom_zero {bs : Bytes} (h : bs.length ≤ 8) : wordFrom 0 bs = natLE bs := by
  rw [wordFrom_eq (by omega), Nat.mul_zero, Nat.shiftLeft_zero]

theorem wrap_of_natAbs_lt {n : Int} (h : n.natAbs < 9223372036854775808) : wrap n = n := by
  unfold wrap
  exact Int.bmod_eq_of_le_mul_two (by omega) (by omega)

/-- The number read from at most eight bytes is the one they spell. -/
theorem value_eq_signMagnitude {bs : Bytes} (h : bs.length ≤ 8) : value bs = signMagnitude bs := by
  have hbound : (signMagnitude bs).natAbs < 9223372036854775808 :=
    natAbs_signMagnitude_lt (by decide) h
  have hword : wordFrom 0 bs = natLE bs := wordFrom_zero h
  rcases List.eq_nil_or_concat bs with rfl | ⟨front, last, rfl⟩
  · rfl
  · rw [List.concat_eq_append] at h hbound hword ⊢
    have hlength : (front ++ [last]).length - 1 = front.length := by simp
    have hshift : 8 * front.length % 64 = 8 * front.length := by
      rw [List.length_append, List.length_singleton] at h
      exact Nat.mod_eq_of_lt (by omega)
    have hsign : 0x80 <<< (8 * front.length) = capacity front.length * 128 :=
      Bytes.shiftLeft_eq_capacity_mul 128 front.length
    have hspelled := signMagnitude_concat front last
    unfold value
    rw [List.getLast?_concat, hlength, hshift, hsign, hword, Bytes.natLE_concat]
    dsimp only
    by_cases hlast : highBit last = true
    · have hge : 128 ≤ last.toNat := highBit_iff.1 hlast
      have hsplit : capacity front.length * last.toNat =
          capacity front.length * (last.toNat - 128) + capacity front.length * 128 := by
        rw [← Nat.mul_add, Nat.sub_add_cancel hge]
      rw [if_pos hlast] at hspelled ⊢
      rw [hspelled] at hbound ⊢
      rw [hsplit, ← Nat.add_assoc, Nat.add_sub_cancel]
      exact wrap_of_natAbs_lt hbound
    · rw [if_neg hlast] at hspelled ⊢
      rw [hspelled] at hbound ⊢
      exact wrap_of_natAbs_lt hbound

end Number

end SpendScript

/-
  Writing and reading numbers. What is written spells the number (`signMagnitude_encode`) and is
  minimal (`isMinimal_encode`), and a minimal string is what its number is written as
  (`encode_signMagnitude`). A string that is not minimal can be shortened and still spell the number
  (`exists_shorter`), so minimal strings are the shortest ones. For the numbers of 64 bits and the
  strings of eight bytes this is a codec (`codec`).
-/
import Mathlib.Data.List.Basic
import SpendScript.Proofs.Number.SignMagnitude
import SpendScript.Proofs.Outcome

namespace SpendScript

namespace Number

open Bytes (natLE capacity shortestLE)

/-! ## The sign of a byte -/

/-- A byte holds more than the sign if some lower bit is set. -/
theorem magnitude_ne_zero_iff {b : UInt8} : (b &&& 0x7f != 0) = true ↔ b.toNat % 128 ≠ 0 := by
  have hall : ∀ n < 256, (UInt8.ofNat n &&& 0x7f != 0) = decide (n % 128 ≠ 0) := by decide +kernel
  have hb := hall b.toNat b.toNat_lt
  rw [UInt8.ofNat_toNat] at hb
  rw [hb, decide_eq_true_iff]

theorem toNat_or_sign {b : UInt8} (h : ¬ highBit b = true) :
    highBit (b ||| 0x80) = true ∧ (b ||| 0x80).toNat = b.toNat + 128 := by
  have hall : ∀ n < 128, (UInt8.ofNat n ||| 0x80).toNat = n + 128 := by decide +kernel
  have hb := hall b.toNat (Nat.not_le.1 (mt highBit_iff.2 h))
  rw [UInt8.ofNat_toNat] at hb
  exact ⟨highBit_iff.2 (by omega), hb⟩

/-- A byte with the sign set is one without it, and the sign. -/
theorem exists_or_sign {b : UInt8} (h : highBit b = true) :
    ∃ low : UInt8, b = low ||| 0x80 ∧ ¬ highBit low = true := by
  have hge : 128 ≤ b.toNat := highBit_iff.1 h
  have hlt : b.toNat < 256 := b.toNat_lt
  have hlow : (UInt8.ofNat (b.toNat - 128)).toNat = b.toNat - 128 := by
    rw [UInt8.toNat_ofNat']
    omega
  have hclear : ¬ highBit (UInt8.ofNat (b.toNat - 128)) = true := by
    rw [highBit_iff]
    omega
  refine ⟨UInt8.ofNat (b.toNat - 128), UInt8.toNat_inj.1 ?_, hclear⟩
  rw [(toNat_or_sign hclear).2]
  omega

/-- A byte that holds nothing but the sign. -/
theorem eq_of_magnitude_eq_zero {b : UInt8} (h : b.toNat % 128 = 0) : b = 0x00 ∨ b = 0x80 := by
  have hb : b.toNat < 256 := b.toNat_lt
  have hcases : b.toNat = 0 ∨ b.toNat = 128 := by omega
  exact hcases.imp (fun h => UInt8.toNat_inj.1 h) fun h => UInt8.toNat_inj.1 h

/-! ## The forms of a number

The sign has a byte of its own, or it is the highest bit of the last byte of the magnitude. -/

variable {n : Int} {bs front : Bytes} {last : UInt8}

theorem signMagnitude_concat_zero (bs : Bytes) : signMagnitude (bs ++ [0x00]) = natLE bs := by
  rw [signMagnitude_concat, if_neg (by decide)]
  rfl

theorem signMagnitude_concat_sign (bs : Bytes) : signMagnitude (bs ++ [0x80]) = -(natLE bs : Int) := by
  rw [signMagnitude_concat, if_pos (by decide)]
  rfl

theorem signMagnitude_low (h : ¬ highBit last = true) :
    signMagnitude (front ++ [last]) = natLE (front ++ [last]) := by
  rw [signMagnitude_concat, if_neg h, Bytes.natLE_concat]

theorem signMagnitude_low_or_sign (h : ¬ highBit last = true) :
    signMagnitude (front ++ [last ||| 0x80]) = -(natLE (front ++ [last]) : Int) := by
  obtain ⟨hhigh, hsum⟩ := toNat_or_sign h
  rw [signMagnitude_concat, if_pos hhigh, hsum, Nat.add_sub_cancel, Bytes.natLE_concat]

/-- The last byte decides about a string, and the one below it if the last one holds only the
    sign. -/
theorem isMinimal_concat (front : Bytes) (last : UInt8) :
    isMinimal (front ++ [last]) = true ↔
      last.toNat % 128 ≠ 0 ∨ ∃ init below, front = init ++ [below] ∧ highBit below = true := by
  rcases List.eq_nil_or_concat front with rfl | ⟨init, below, rfl⟩
  · change (last &&& 0x7f != 0) = true ↔ _
    rw [magnitude_ne_zero_iff]
    simp
  · have hreverse : (init ++ [below] ++ [last]).reverse = last :: below :: init.reverse := by simp
    unfold isMinimal
    rw [List.concat_eq_append, hreverse]
    dsimp only
    rw [Bool.or_eq_true, magnitude_ne_zero_iff]
    refine or_congr_right ⟨fun h => ⟨init, below, rfl, h⟩, ?_⟩
    rintro ⟨init', below', heq, h⟩
    obtain ⟨-, hbelow⟩ := List.append_inj' heq rfl
    cases hbelow
    exact h

/-! ## Writing -/

theorem encode_zero : encode 0 = [] := by
  unfold encode
  rw [Int.natAbs_zero, Bytes.shortestLE_zero]
  rfl

/-- The form of a number by the last byte of its magnitude. -/
theorem encode_of_shortestLE (h : shortestLE n.natAbs = front ++ [last]) :
    encode n =
      if highBit last then front ++ [last] ++ [if n < 0 then 0x80 else 0x00]
      else if n < 0 then front ++ [last ||| 0x80]
      else front ++ [last] := by
  unfold encode
  rw [h]
  dsimp only
  rw [List.getLast?_concat, List.dropLast_concat]

/-- Zero is the empty string, and the magnitude of any other number has a last byte that is not
    zero. -/
theorem encode_cases (n : Int) :
    n = 0 ∨ ∃ front last, shortestLE n.natAbs = front ++ [last] ∧ last ≠ 0 ∧
      n.natAbs = natLE (front ++ [last]) := by
  have hvalue := Bytes.natLE_shortestLE n.natAbs
  rcases List.eq_nil_or_concat (shortestLE n.natAbs) with hnil | ⟨front, last, h⟩
  · rw [hnil] at hvalue
    exact Or.inl (Int.natAbs_eq_zero.1 hvalue.symm)
  · rw [List.concat_eq_append] at h
    have hlast := Bytes.getLast?_shortestLE n.natAbs
    rw [h, List.getLast?_concat] at hlast
    rw [h] at hvalue
    exact Or.inr ⟨front, last, h, fun hzero => hlast (congrArg some hzero), hvalue.symm⟩

/-- What is written spells the number. -/
theorem signMagnitude_encode (n : Int) : signMagnitude (encode n) = n := by
  rcases encode_cases n with rfl | ⟨front, last, h, -, hvalue⟩
  · rw [encode_zero]
    rfl
  · rw [encode_of_shortestLE h]
    split
    · by_cases hneg : n < 0
      · rw [if_pos hneg, signMagnitude_concat_sign]
        omega
      · rw [if_neg hneg, signMagnitude_concat_zero]
        omega
    · next hlow =>
      by_cases hneg : n < 0
      · rw [if_pos hneg, signMagnitude_low_or_sign hlow]
        omega
      · rw [if_neg hneg, signMagnitude_low hlow]
        omega

/-- What is written is minimal. -/
theorem isMinimal_encode (n : Int) : isMinimal (encode n) = true := by
  rcases encode_cases n with rfl | ⟨front, last, h, hne, -⟩
  · rw [encode_zero]
    rfl
  · have hbyte : last.toNat ≠ 0 := fun hzero => hne (UInt8.toNat_inj.1 hzero)
    rw [encode_of_shortestLE h]
    split
    · next hhigh => exact (isMinimal_concat _ _).2 (Or.inr ⟨front, last, rfl, hhigh⟩)
    · next hlow =>
      have hlt : last.toNat < 128 := Nat.not_le.1 (mt highBit_iff.2 hlow)
      by_cases hneg : n < 0
      · obtain ⟨-, hsum⟩ := toNat_or_sign hlow
        rw [if_pos hneg]
        exact (isMinimal_concat _ _).2 (Or.inl (by omega))
      · rw [if_neg hneg]
        exact (isMinimal_concat _ _).2 (Or.inl (by omega))

/-- Bytes without a needless zero at their end are the magnitude of their number. -/
theorem shortestLE_of_natAbs (hlast : last ≠ 0) (hn : n.natAbs = natLE (front ++ [last])) :
    shortestLE n.natAbs = front ++ [last] := by
  rw [hn]
  refine Bytes.shortestLE_natLE ?_
  rw [List.getLast?_concat]
  exact fun hzero => hlast (Option.some.inj hzero)

theorem natLE_pos (hlast : last ≠ 0) : 0 < natLE (front ++ [last]) := by
  have hbyte : 0 < last.toNat := Nat.pos_of_ne_zero fun hzero => hlast (UInt8.toNat_inj.1 hzero)
  rw [Bytes.natLE_concat]
  exact Nat.add_pos_right _ (Nat.mul_pos (Bytes.capacity_pos _) hbyte)

/-- A minimal string is what its number is written as. -/
theorem encode_signMagnitude (h : isMinimal bs = true) : encode (signMagnitude bs) = bs := by
  rcases List.eq_nil_or_concat bs with rfl | ⟨front, last, rfl⟩
  · exact encode_zero
  · rw [List.concat_eq_append] at h ⊢
    by_cases hmagnitude : last.toNat % 128 = 0
    · -- The last byte is only the sign, and the one below it fills its byte.
      obtain ⟨init, below, rfl, hbelow⟩ :=
        ((isMinimal_concat _ _).1 h).resolve_left fun hne => hne hmagnitude
      have hne : below ≠ 0 := by
        rintro rfl
        cases hbelow
      have hpos : 0 < natLE (init ++ [below]) := natLE_pos hne
      rcases eq_of_magnitude_eq_zero hmagnitude with rfl | rfl
      · rw [signMagnitude_concat_zero, encode_of_shortestLE (shortestLE_of_natAbs hne rfl),
          if_pos hbelow, if_neg (by omega)]
      · rw [signMagnitude_concat_sign,
          encode_of_shortestLE (shortestLE_of_natAbs hne (Int.natAbs_neg _)), if_pos hbelow,
          if_pos (by omega)]
    · by_cases hhigh : highBit last = true
      · obtain ⟨low, rfl, hlow⟩ := exists_or_sign hhigh
        have hne : low ≠ 0 := by
          rintro rfl
          exact hmagnitude rfl
        have hpos : 0 < natLE (front ++ [low]) := natLE_pos hne
        rw [signMagnitude_low_or_sign hlow,
          encode_of_shortestLE (shortestLE_of_natAbs hne (Int.natAbs_neg _)), if_neg hlow,
          if_pos (by omega)]
      · have hne : last ≠ 0 := by
          rintro rfl
          exact hmagnitude rfl
        rw [signMagnitude_low hhigh, encode_of_shortestLE (shortestLE_of_natAbs hne rfl),
          if_neg hhigh, if_neg (by omega)]

/-! ## The shortest string -/

/-- A string that is not minimal spells a number that a shorter one spells too. -/
theorem exists_shorter (h : ¬ isMinimal bs = true) :
    ∃ bs', bs'.length < bs.length ∧ signMagnitude bs' = signMagnitude bs := by
  rcases List.eq_nil_or_concat bs with rfl | ⟨front, last, rfl⟩
  · exact absurd rfl h
  · rw [List.concat_eq_append, isMinimal_concat, not_or, not_not] at h
    obtain ⟨hmagnitude, hbelow⟩ := h
    rw [List.concat_eq_append]
    rcases List.eq_nil_or_concat front with rfl | ⟨init, below, rfl⟩
    · refine ⟨[], by simp, ?_⟩
      rcases eq_of_magnitude_eq_zero hmagnitude with rfl | rfl <;> rfl
    · rw [List.concat_eq_append] at hbelow ⊢
      have hlow : ¬ highBit below = true := fun hhigh => hbelow ⟨init, below, rfl, hhigh⟩
      rcases eq_of_magnitude_eq_zero hmagnitude with rfl | rfl
      · refine ⟨init ++ [below], by simp, ?_⟩
        rw [signMagnitude_concat_zero, signMagnitude_low hlow]
      · refine ⟨init ++ [below ||| 0x80], by simp, ?_⟩
        rw [signMagnitude_concat_sign, signMagnitude_low_or_sign hlow]

/-- No string of the number is shorter than what the number is written as. -/
theorem length_encode_le (bs : Bytes) : (encode (signMagnitude bs)).length ≤ bs.length := by
  generalize hn : bs.length = n
  induction n using Nat.strongRecOn generalizing bs with
  | ind n ih =>
    by_cases hminimal : isMinimal bs = true
    · have hsame : (encode (signMagnitude bs)).length = bs.length :=
        congrArg List.length (encode_signMagnitude hminimal)
      omega
    · obtain ⟨bs', hless, hsame⟩ := exists_shorter hminimal
      have hle := ih bs'.length (hn ▸ hless) bs' rfl
      rw [hsame] at hle
      omega

theorem isMinimal_iff_encode : isMinimal bs = true ↔ encode (signMagnitude bs) = bs := by
  refine ⟨encode_signMagnitude, fun h => ?_⟩
  rw [← h]
  exact isMinimal_encode _

theorem isMinimal_iff_shortest :
    isMinimal bs = true ↔
      ∀ bs' : Bytes, bs'.length < bs.length → signMagnitude bs' ≠ signMagnitude bs := by
  constructor
  · intro h bs' hless hsame
    have hle := length_encode_le bs'
    rw [hsame, encode_signMagnitude h] at hle
    omega
  · intro h
    by_contra hminimal
    obtain ⟨bs', hless, hsame⟩ := exists_shorter hminimal
    exact h bs' hless hsame

/-- A number whose magnitude leaves the highest bit of some bytes free is written in as many. -/
theorem length_encode_le_of_natAbs {width : Nat} (h : n.natAbs < signBit width) :
    (encode n).length ≤ width := by
  have htwice : 2 * signBit width ≤ capacity width := by
    unfold signBit
    omega
  obtain ⟨k, hk, hspells⟩ : ∃ k < capacity width,
      (if k < signBit width then (k : Int) else -((k - signBit width : Nat) : Int)) = n := by
    by_cases hneg : n < 0
    · exact ⟨n.natAbs + signBit width, by omega, by rw [if_neg (by omega)]; omega⟩
    · exact ⟨n.natAbs, by omega, by rw [if_pos h]; omega⟩
  have hsame : signMagnitude (Bytes.ofNatLE width k) = n := by
    unfold signMagnitude
    rw [Bytes.natLE_ofNatLE, Bytes.length_ofNatLE, Nat.mod_eq_of_lt hk, hspells]
  have hle := length_encode_le (Bytes.ofNatLE width k)
  rwa [hsame, Bytes.length_ofNatLE] at hle

/-! ## Eight bytes and 64 bits -/

theorem decode_ok {minimal : Bool} {max : Nat} :
    decode bs minimal max = .ok n ↔
      bs.length ≤ max ∧ (minimal = true → isMinimal bs = true) ∧ value bs = n := by
  unfold decode
  rw [except_ite_ok, except_ite_ok, Except.ok.injEq, Nat.not_lt]
  have hminimal : ¬ (minimal && !isMinimal bs) = true ↔
      (minimal = true → isMinimal bs = true) := by
    cases minimal <;> simp
  rw [hminimal]

/-- What is read from eight bytes at most is what they spell. -/
theorem decode_ok_iff_spells {minimal : Bool} {max : Nat} (hmax : max ≤ 8) :
    decode bs minimal max = .ok n ↔
      bs.length ≤ max ∧ (minimal = true → isMinimal bs = true) ∧ signMagnitude bs = n := by
  rw [decode_ok]
  refine and_congr_right fun hlength => ?_
  rw [value_eq_signMagnitude (Nat.le_trans hlength hmax)]

/-- **The codec.** Up to eight bytes, reading without the demand for the shortest form gives the number
    that the string spells: the word it goes through holds all bytes, and the magnitude stays below
    the sign of 64 bits. Every 64-bit number but the least is read back from what it is written as. A
    string is minimal just when its number is written as this string, and just when no shorter string
    is read as the same number. So reading with the demand for the shortest form succeeds, within the
    bound on the length, on what is written and on nothing else. -/
theorem codec (bs : Bytes) (v : Int) {max : Nat} (hmax : max ≤ 8) :
    (bs.length ≤ max → decode bs false max = .ok (signMagnitude bs) ∧
      wordFrom 0 bs = natLE bs ∧ (signMagnitude bs).natAbs < 9223372036854775808) ∧
    (-9223372036854775808 < v → v < 9223372036854775808 → decode (encode v) true 8 = .ok v) ∧
    (bs.length ≤ 8 →
      (isMinimal bs = true ↔ ∃ n, decode bs false 8 = .ok n ∧ encode n = bs) ∧
      (isMinimal bs = true ↔
        ∀ bs' : Bytes, bs'.length < bs.length → decode bs' false 8 ≠ decode bs false 8)) ∧
    ((∃ n, decode bs true max = .ok n) ↔
      bs.length ≤ max ∧
        ∃ n : Int, -9223372036854775808 ≤ n ∧ n < 9223372036854775808 ∧ encode n = bs) := by
  have hread {bs : Bytes} (h : bs.length ≤ 8) : decode bs false 8 = .ok (signMagnitude bs) :=
    (decode_ok_iff_spells (Nat.le_refl 8)).2 ⟨h, (fun h => nomatch h), rfl⟩
  have hbound {bs : Bytes} (h : bs.length ≤ 8) : (signMagnitude bs).natAbs < 9223372036854775808 :=
    natAbs_signMagnitude_lt (by decide) h
  refine ⟨fun hlength => ?_, fun hlow hhigh => ?_, fun hlength => ⟨?_, ?_⟩, ?_, ?_⟩
  · have hlength' : bs.length ≤ 8 := Nat.le_trans hlength hmax
    exact ⟨(decode_ok_iff_spells hmax).2 ⟨hlength, (fun h => nomatch h), rfl⟩,
      wordFrom_zero hlength', hbound hlength'⟩
  · have hlength : (encode v).length ≤ 8 :=
      length_encode_le_of_natAbs (show v.natAbs < 9223372036854775808 by omega)
    exact (decode_ok_iff_spells (Nat.le_refl 8)).2
      ⟨hlength, fun _ => isMinimal_encode v, signMagnitude_encode v⟩
  · rw [hread hlength, isMinimal_iff_encode]
    exact ⟨fun h => ⟨_, rfl, h⟩, fun ⟨n, hn, h⟩ => Except.ok.inj hn ▸ h⟩
  · rw [isMinimal_iff_shortest]
    refine forall_congr' fun bs' => forall_congr' fun hless => not_congr ?_
    rw [hread hlength, hread (by omega), Except.ok.injEq]
  · rintro ⟨n, hn⟩
    obtain ⟨hlength, hminimal, rfl⟩ := (decode_ok_iff_spells hmax).1 hn
    have hrange := hbound (Nat.le_trans hlength hmax)
    exact ⟨hlength, _, by omega, by omega, encode_signMagnitude (hminimal rfl)⟩
  · rintro ⟨hlength, n, -, -, rfl⟩
    exact ⟨n, (decode_ok_iff_spells hmax).2
      ⟨hlength, fun _ => isMinimal_encode n, signMagnitude_encode n⟩⟩

/-- The lowest number of eight bytes, whose sign is the highest bit of the word. -/
theorem codec_allOnes :
    decode (List.replicate 8 0xff) false 8 = .ok (-9223372036854775807) ∧
      decode (encode (-9223372036854775807)) true 8 = .ok (-9223372036854775807) ∧
      encode (-9223372036854775807) = List.replicate 8 0xff ∧
      ∃ n, decode (List.replicate 8 0xff) true 8 = .ok n := by
  have hlength : (List.replicate 8 (0xff : UInt8)).length ≤ 8 := by decide
  have hshortest : isMinimal (List.replicate 8 0xff) = true := by decide
  obtain ⟨hread, hback, hminimal, himage⟩ :=
    codec (List.replicate 8 0xff) (-9223372036854775807) (Nat.le_refl 8)
  have hvalue : decode (List.replicate 8 0xff) false 8 = .ok (-9223372036854775807) :=
    (hread hlength).1
  obtain ⟨n, hn, hwritten⟩ := (hminimal hlength).1.1 hshortest
  obtain rfl : -9223372036854775807 = n := Except.ok.inj (hvalue.symm.trans hn)
  exact ⟨hvalue, hback (by decide) (by decide), hwritten,
    himage.2 ⟨hlength, _, by decide, by decide, hwritten⟩⟩

end Number

end SpendScript

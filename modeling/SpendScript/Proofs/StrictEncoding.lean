/-
  The one encoding of a signature that is accepted. `StrictEncoding.der` writes two numbers down. A
  signature that passes is written in this way, and its S is at most half the order of the curve
  group (`eq_der_of_checkSignature`).
-/
import Mathlib.Data.List.GetD
import SpendScript.Curve
import SpendScript.Proofs.Outcome
import SpendScript.StrictEncoding

namespace SpendScript

namespace StrictEncoding

/-! ## Writing signatures -/

/-- The fewest big-endian bytes that spell a number, at least one, with the high bit of the first one
    clear. -/
def signedBE (n : Nat) : Bytes :=
  match (Bytes.shortestLE n).reverse with
  | [] => [0]
  | b :: bs => if 0x80 ≤ b then 0 :: b :: bs else b :: bs

/-- A number behind its mark and length. -/
def integer (n : Nat) : Bytes := 0x02 :: UInt8.ofNat (signedBE n).length :: signedBE n

/-- A signature by its two numbers. -/
def der (r s : Nat) : Bytes :=
  0x30 :: UInt8.ofNat (integer r ++ integer s).length :: (integer r ++ integer s)

theorem natBE_zero_cons (bs : Bytes) : Bytes.natBE (0 :: bs) = Bytes.natBE bs := by
  unfold Bytes.natBE
  rw [List.reverse_cons, Bytes.natLE_concat]
  rfl

/-- What is written is read back. -/
theorem natBE_signedBE (n : Nat) : Bytes.natBE (signedBE n) = n := by
  have hvalue : Bytes.natBE (Bytes.shortestLE n).reverse = n := by
    rw [Bytes.natBE, List.reverse_reverse, Bytes.natLE_shortestLE]
  unfold signedBE
  split
  · next hnil =>
    rw [hnil] at hvalue
    exact hvalue
  · next b bs hcons =>
    rw [hcons] at hvalue
    split
    · rw [natBE_zero_cons, hvalue]
    · exact hvalue

/-- The shortest form of a number whose first byte is not zero. -/
theorem signedBE_natBE_cons {b : UInt8} (hb : b ≠ 0) (bs : Bytes) :
    signedBE (Bytes.natBE (b :: bs)) = if 0x80 ≤ b then 0 :: b :: bs else b :: bs := by
  have hlast : (b :: bs).reverse.getLast? ≠ some 0 := by
    rw [List.getLast?_reverse]
    exact fun h => hb (Option.some.inj h)
  unfold signedBE Bytes.natBE
  rw [Bytes.shortestLE_natLE hlast, List.reverse_reverse]

/-! ## Reading signatures -/

/-- A component that passes is the shortest form of its number. -/
theorem eq_signedBE_of_checkComponent {c : Component} {mark : UInt8} {body : Bytes}
    (h : checkComponent c mark body = .ok ()) :
    mark = 0x02 ∧ body = signedBE (Bytes.natBE body) := by
  unfold checkComponent at h
  by_cases hmark : mark = 0x02
  · rw [if_neg (not_not_intro hmark)] at h
    refine ⟨hmark, ?_⟩
    rcases body with _ | ⟨b, _ | ⟨next, rest⟩⟩
    · cases h
    · by_cases hb : b = 0
      · rw [hb, natBE_zero_cons]
        decide +kernel
      · rw [signedBE_natBE_cons hb]
        dsimp only at h
        split at h
        · cases h
        · next hpositive => rw [if_neg hpositive]
    · dsimp only at h
      split at h
      · cases h
      · next hpositive =>
        split at h
        · cases h
        · next hneeded =>
          by_cases hb : b = 0
          · have hnext : 0x80 ≤ next := by
              rw [not_and, UInt8.not_lt] at hneeded
              exact hneeded hb
            have hne : next ≠ 0 := fun hzero => by
              rw [hzero] at hnext
              exact absurd hnext (by decide)
            rw [hb, natBE_zero_cons, signedBE_natBE_cons hne, if_pos hnext]
          · rw [signedBE_natBE_cons hb, if_neg hpositive]
  · rw [if_pos hmark] at h
    cases h

theorem drop_eq_getD {bs : Bytes} {k : Nat} (h : k + 2 ≤ bs.length) :
    bs.drop k = bs.getD k 0 :: bs.getD (k + 1) 0 :: bs.drop (k + 2) := by
  rw [List.getD_eq_getElem _ _ (by omega), List.getD_eq_getElem _ _ (by omega),
    ← List.drop_eq_getElem_cons, ← List.drop_eq_getElem_cons]

/-- A signature that can be cut is put together from its parts, behind their lengths. -/
theorem eq_of_split {sig : Bytes} {parts : Parts} (h : split sig = .ok parts) :
    sig = 0x30 :: UInt8.ofNat (sig.length - 2) ::
      (parts.rMark :: UInt8.ofNat parts.r.length :: parts.r ++
        parts.sMark :: UInt8.ofNat parts.s.length :: parts.s) := by
  unfold split at h
  simp only [except_ite_ok, Decidable.not_not] at h
  obtain ⟨hshort, -, hmark, hdeclared, -, hlengths, h⟩ := h
  cases h
  generalize hn : (sig.getD 3 0).toNat = n at hlengths ⊢
  have hr : ((sig.drop 4).take n).length = (sig.getD 3 0).toNat := by
    rw [List.length_take, List.length_drop]
    omega
  have hs : (sig.drop (n + 6)).length = (sig.getD (n + 5) 0).toNat := by
    rw [List.length_drop]
    omega
  have hbehind : sig.drop 4 = (sig.drop 4).take n ++
      sig.getD (n + 4) 0 :: sig.getD (n + 5) 0 :: sig.drop (n + 6) := by
    rw [← drop_eq_getD (by omega), Nat.add_comm n 4, ← List.drop_drop, List.take_append_drop]
  rw [hr, hs, ← hdeclared, ← hmark, UInt8.ofNat_toNat, UInt8.ofNat_toNat, UInt8.ofNat_toNat]
  calc sig = sig.drop 0 := rfl
    _ = sig.getD 0 0 :: sig.getD 1 0 :: sig.drop 2 := drop_eq_getD (by omega)
    _ = sig.getD 0 0 :: sig.getD 1 0 :: sig.getD 2 0 :: sig.getD 3 0 :: sig.drop 4 := by
      rw [drop_eq_getD (k := 2) (by omega)]
    _ = _ := congrArg (fun rest => _ :: _ :: _ :: _ :: rest) hbehind

/-- What is shaped like a signature is one written from two numbers, and its last bytes spell the
    second one. -/
theorem eq_der_of_checkShape {sig body : Bytes} (h : checkShape sig = .ok body) :
    ∃ r s, sig = der r s ∧ body = signedBE s := by
  simp only [checkShape, except_bind_ok] at h
  obtain ⟨parts, hsplit, _, hr, _, hs, hbody⟩ := h
  cases hbody
  obtain ⟨hrMark, hr⟩ := eq_signedBE_of_checkComponent hr
  obtain ⟨hsMark, hs⟩ := eq_signedBE_of_checkComponent hs
  refine ⟨Bytes.natBE parts.r, Bytes.natBE parts.s, ?_, hs⟩
  have hsig := eq_of_split hsplit
  have hintegers : parts.rMark :: UInt8.ofNat parts.r.length :: parts.r ++
      parts.sMark :: UInt8.ofNat parts.s.length :: parts.s =
      integer (Bytes.natBE parts.r) ++ integer (Bytes.natBE parts.s) := by
    unfold integer
    rw [hrMark, hsMark, ← hr, ← hs]
  rw [hintegers] at hsig
  have hlength : sig.length - 2 =
      (integer (Bytes.natBE parts.r) ++ integer (Bytes.natBE parts.s)).length := by
    have hcount := congrArg List.length hsig
    rw [List.length_cons, List.length_cons] at hcount
    exact Nat.sub_eq_of_eq_add hcount
  rw [hlength] at hsig
  exact hsig

/-- **The form of a signature.** A signature that passes is the one way to write down two numbers, and
    the second one is the lower of its two values. -/
theorem eq_der_of_checkSignature {sig : Bytes} (h : checkSignature sig = .ok ()) :
    ∃ r s, sig = der r s ∧ s ≤ Curve.order / 2 := by
  unfold checkSignature at h
  split at h
  · cases h
  · next body hshape =>
    rw [except_ite_ok] at h
    obtain ⟨r, s, hsig, rfl⟩ := eq_der_of_checkShape hshape
    have hhalf : halfOrder = Curve.order / 2 := by decide
    refine ⟨r, s, hsig, ?_⟩
    rw [natBE_signedBE, hhalf] at h
    exact Nat.le_of_not_lt h.1

/-! ## Hash types and keys -/

theorem isCompressed_iff {key : Bytes} :
    isCompressed key = true ↔
      key.length = 33 ∧ (key.head? = some 0x02 ∨ key.head? = some 0x03) := by
  simp [isCompressed]

theorem isUncompressed_iff {key : Bytes} :
    isUncompressed key = true ↔ key.length = 65 ∧ key.head? = some 0x04 := by
  simp [isUncompressed]

/-- A hash type passes when it is 1, 2 or 3 apart from its high bit, or when that is not asked for. -/
theorem checkHashType_ok {hashType : UInt8} {flags : Flags} :
    checkHashType hashType flags = .ok () ↔
      (flags.strictEncoding = true →
        hashType &&& 0x7f = 1 ∨ hashType &&& 0x7f = 2 ∨ hashType &&& 0x7f = 3) := by
  have hrange (base : UInt8) : (1 ≤ base ∧ base ≤ 3) ↔ base = 1 ∨ base = 2 ∨ base = 3 := by
    simp only [UInt8.le_iff_toNat_le, ← UInt8.toNat_inj, UInt8.reduceToNat]
    omega
  unfold checkHashType
  dsimp only
  rw [except_ite_ok, ← hrange]
  cases flags.strictEncoding with
  | false => simp
  | true =>
    simp only [Bool.true_and, Bool.not_eq_true', Bool.not_eq_false, Bool.and_eq_true,
      decide_eq_true_iff, and_true, forall_const]

/-- A key passes when it is of a kind that the spend and the flags accept. -/
theorem checkPublicKey_ok {key : Bytes} {versionZero : Bool} {flags : Flags} :
    checkPublicKey key versionZero flags = .ok () ↔
      (versionZero = true → isCompressed key = true) ∧
      (flags.strictEncoding = true → isCompressed key = true ∨ isUncompressed key = true) := by
  unfold checkPublicKey
  rw [except_ite_ok, except_ite_ok]
  cases versionZero <;> cases flags.strictEncoding <;> cases isCompressed key <;> simp

end StrictEncoding

end SpendScript

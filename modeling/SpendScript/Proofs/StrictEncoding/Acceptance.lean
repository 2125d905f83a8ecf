/-
  Which signatures pass the strict check. A signature passes just when it is written from two
  numbers, in at most 72 bytes, and the second number is not above half the group order. It is
  refused as high just when it is written so and the second number is above. Anything else has the
  wrong shape (`checkSignature_decides`).

  A number and its negative modulo the order are never both high or both low, so of the two values
  that S can have, one passes. The checks read no byte that is not there (`inspect_eq`).
-/
import SpendScript.Proofs.StrictEncoding.Reads

namespace SpendScript

namespace StrictEncoding

/-! ## The shortest form of a number -/

/-- The bytes spell the number as a signature does: there is a first byte, and its high bit is
    clear. -/
structure Spells (n : Nat) (body : Bytes) : Prop where
  value : Bytes.natBE body = n
  positive : ∃ b rest, body = b :: rest ∧ b < 0x80

/-- The shortest form of a number passes as a component. -/
theorem checkComponent_signedBE (c : Component) (n : Nat) :
    checkComponent c 0x02 (signedBE n) = .ok () := by
  have hfirst := Bytes.getLast?_shortestLE n
  rw [← List.head?_reverse] at hfirst
  unfold signedBE
  rcases hbytes : (Bytes.shortestLE n).reverse with _ | ⟨b, bs⟩
  · rfl
  · rw [hbytes] at hfirst
    have hb : b ≠ 0 := by simpa using hfirst
    dsimp only
    by_cases hhigh : 0x80 ≤ b
    · rw [if_pos hhigh]
      simp [checkComponent, UInt8.not_lt.2 hhigh]
    · rw [if_neg hhigh]
      rcases bs with _ | ⟨next, rest⟩ <;> simp [checkComponent, hhigh, hb]

theorem spells_of_checkComponent {c : Component} {mark : UInt8} {body : Bytes}
    (h : checkComponent c mark body = .ok ()) : Spells (Bytes.natBE body) body := by
  unfold checkComponent at h
  rw [except_ite_ok] at h
  rcases body with _ | ⟨b, rest⟩
  · cases h.2
  · have hpositive := (except_ite_ok.1 h.2).1
    exact ⟨rfl, b, rest, rfl, UInt8.not_le.1 hpositive⟩

theorem spells_signedBE (n : Nat) : Spells n (signedBE n) := by
  have h := spells_of_checkComponent (checkComponent_signedBE .r n)
  rwa [natBE_signedBE] at h

/-- The shortest form is the only one of its length. A longer one has a zero in front that it could
    do without. -/
theorem Spells.shortest {n : Nat} {body : Bytes} (h : Spells n body) :
    body = signedBE n ∨ (signedBE n).length < body.length := by
  induction body with
  | nil =>
    obtain ⟨-, b, rest, hnil, -⟩ := h
    cases hnil
  | cons b rest ih =>
    obtain ⟨hvalue, b', rest', hcons, hb⟩ := h
    cases hcons
    have hpositive : ¬ 0x80 ≤ b := UInt8.not_le.2 hb
    rcases rest with _ | ⟨next, rest⟩
    · left
      have hpasses : checkComponent .r 0x02 [b] = .ok () := by simp [checkComponent, hpositive]
      rw [← hvalue]
      exact (eq_signedBE_of_checkComponent hpasses).2
    · by_cases hpadded : b = 0 ∧ next < 0x80
      · right
        obtain ⟨rfl, hnext⟩ := hpadded
        rw [natBE_zero_cons] at hvalue
        have hshorter := ih ⟨hvalue, next, rest, rfl, hnext⟩
        rcases hshorter with hsame | hless
        · rw [← hsame]
          simp
        · simp only [List.length_cons] at hless ⊢
          omega
      · left
        have hpasses : checkComponent .r 0x02 (b :: next :: rest) = .ok () := by
          simp only [checkComponent, hpositive, hpadded]
          rfl
        rw [← hvalue]
        exact (eq_signedBE_of_checkComponent hpasses).2

/-- A number below the group order needs at most 33 bytes. -/
theorem length_signedBE_le {n : Nat} (h : n < Curve.order) : (signedBE n).length ≤ 33 := by
  have hcapacity : Curve.order ≤ Bytes.capacity 32 := by decide
  have hvalue : Bytes.natBE (0 :: Bytes.ofNatBE 32 n) = n := by
    rw [natBE_zero_cons, Bytes.natBE, Bytes.ofNatBE, List.reverse_reverse, Bytes.natLE_ofNatLE]
    exact Nat.mod_eq_of_lt (Nat.lt_of_lt_of_le h hcapacity)
  have hspells : Spells n (0 :: Bytes.ofNatBE 32 n) := ⟨hvalue, 0, _, rfl, by decide⟩
  have hlength : (0 :: Bytes.ofNatBE 32 n).length = 33 := by simp
  rcases hspells.shortest with hsame | hless
  · rw [← hsame]
    exact Nat.le_of_eq hlength
  · omega

/-! ## Signatures that pass -/

/-- The layout of a signature. -/
theorem der_eq (r s : Nat) :
    der r s = 0x30 :: UInt8.ofNat ((signedBE r).length + (signedBE s).length + 4) :: 0x02 ::
      UInt8.ofNat (signedBE r).length :: (signedBE r ++
        0x02 :: UInt8.ofNat (signedBE s).length :: signedBE s) := by
  have hlength : (integer r ++ integer s).length =
      (signedBE r).length + (signedBE s).length + 4 := by
    simp [integer]
    omega
  unfold der
  rw [hlength]
  rfl

theorem length_der (r s : Nat) :
    (der r s).length = (signedBE r).length + (signedBE s).length + 6 := by
  rw [der_eq]
  simp
  omega

theorem length_signedBE_pos (n : Nat) : 0 < (signedBE n).length := by
  obtain ⟨b, rest, hbody, -⟩ := (spells_signedBE n).positive
  rw [hbody]
  simp

/-- A signature that is not too long is cut into what it was written from. -/
theorem split_der {r s : Nat} (h : (der r s).length ≤ 72) :
    split (der r s) = .ok ⟨0x02, signedBE r, 0x02, signedBE s⟩ := by
  rw [length_der] at h
  have hr := length_signedBE_pos r
  have hs := length_signedBE_pos s
  -- The places of the signature, counted from the length of R.
  have hbehind (k : Nat) : (der r s).getD ((signedBE r).length + (k + 4)) 0 =
      (0x02 :: UInt8.ofNat (signedBE s).length :: signedBE s).getD k 0 := by
    rw [der_eq]
    simp [← Nat.add_assoc, List.getElem?_append_right]
  have hdeclared : ((der r s).getD 1 0).toNat = (signedBE r).length + (signedBE s).length + 4 := by
    rw [der_eq]
    exact UInt8.toNat_ofNat_of_lt (by change _ < 256; omega)
  have hrLength : ((der r s).getD 3 0).toNat = (signedBE r).length := by
    rw [der_eq]
    exact UInt8.toNat_ofNat_of_lt (by change _ < 256; omega)
  have hsLength : ((der r s).getD ((signedBE r).length + 5) 0).toNat = (signedBE s).length := by
    rw [hbehind 1]
    exact UInt8.toNat_ofNat_of_lt (by change _ < 256; omega)
  have hR : ((der r s).drop 4).take (signedBE r).length = signedBE r := by
    rw [der_eq]
    exact List.take_left
  have hS : (der r s).drop ((signedBE r).length + 6) = signedBE s := by
    rw [der_eq]
    show (signedBE r ++ 0x02 :: UInt8.ofNat (signedBE s).length :: signedBE s).drop
      ((signedBE r).length + 2) = signedBE s
    rw [← List.drop_drop, List.drop_left]
    rfl
  unfold split
  simp only [hdeclared, hrLength, hsLength, length_der, hR, hS, hbehind 0]
  rw [if_neg (by omega), if_neg (by omega), if_neg (by simp [der_eq]), if_neg (by omega),
    if_neg (by omega), if_neg (by omega)]
  rw [der_eq]
  rfl

theorem checkShape_ok {sig body : Bytes} :
    checkShape sig = .ok body ↔ ∃ r s, sig = der r s ∧ sig.length ≤ 72 ∧ body = signedBE s := by
  constructor
  · intro h
    obtain ⟨r, s, hsig, hbody⟩ := eq_der_of_checkShape h
    obtain ⟨parts, hsplit, -⟩ := except_bind_ok.1 h
    simp only [split, except_ite_ok, Nat.not_lt] at hsplit
    exact ⟨r, s, hsig, hsplit.2.1, hbody⟩
  · rintro ⟨r, s, rfl, hlength, rfl⟩
    simp only [checkShape, split_der hlength, except_bind_ok]
    exact ⟨_, rfl, (), checkComponent_signedBE .r r, (), checkComponent_signedBE .s s, rfl⟩

/-! ## The verdict -/

/-- What is refused for its shape is not written from two numbers, or is too long. -/
theorem checkSignature_der {e : DerError} {sig : Bytes} :
    checkSignature sig = .error (.der e) ↔ checkShape sig = .error e := by
  unfold checkSignature
  rcases checkShape sig with e' | body
  · simp
  · dsimp only
    split <;> simp

/-- The verdict on a signature of the right shape looks at S alone. -/
theorem checkSignature_written {r s : Nat} (h : (der r s).length ≤ 72) :
    checkSignature (der r s) = if halfOrder < s then .error .highS else .ok () := by
  unfold checkSignature
  rw [checkShape_ok.2 ⟨r, s, rfl, h, rfl⟩]
  dsimp only
  rw [natBE_signedBE]

/-- A signature that is not refused for its shape is written from two numbers, and its verdict looks
    at S alone. -/
theorem exists_der_of_checkSignature {sig : Bytes} {verdict : Except EncodingError Unit}
    (h : checkSignature sig = verdict) (hverdict : ∀ e, verdict ≠ .error (.der e)) :
    ∃ r s, sig = der r s ∧ sig.length ≤ 72 ∧
      verdict = if halfOrder < s then .error .highS else .ok () := by
  rcases hshape : checkShape sig with e | body
  · rw [checkSignature_der.2 hshape] at h
    exact absurd h.symm (hverdict e)
  · obtain ⟨r, s, rfl, hlength, -⟩ := checkShape_ok.1 hshape
    rw [checkSignature_written hlength] at h
    exact ⟨r, s, rfl, hlength, h.symm⟩

/-- What passes is written from two numbers, with a low S. -/
theorem checkSignature_ok {sig : Bytes} :
    checkSignature sig = .ok () ↔ ∃ r s, sig = der r s ∧ sig.length ≤ 72 ∧ s ≤ halfOrder := by
  constructor
  · intro h
    obtain ⟨r, s, hsig, hlength, hverdict⟩ := exists_der_of_checkSignature h (by simp)
    have hlow : ¬ halfOrder < s := fun hhigh => by simp [hhigh] at hverdict
    exact ⟨r, s, hsig, hlength, Nat.le_of_not_lt hlow⟩
  · rintro ⟨r, s, rfl, hlength, hlow⟩
    rw [checkSignature_written hlength, if_neg (Nat.not_lt_of_le hlow)]

theorem length_der_le {r s : Nat} (hr : r < Curve.order) (hs : s < Curve.order) :
    (der r s).length ≤ 72 := by
  have hR := length_signedBE_le hr
  have hS := length_signedBE_le hs
  rw [length_der]
  omega

/-- Of a number and its negative modulo the order, one is low and the other one is high. -/
theorem halfOrder_lt_sub {s : Nat} (hs : s < Curve.order) :
    halfOrder < Curve.order - s ↔ ¬ halfOrder < s := by
  have horder : Curve.order = 2 * halfOrder + 1 := by decide
  omega

/-- Of the two signatures that differ in the sign of S, one passes and the other one is high. -/
theorem checkSignature_twins {r s : Nat} (hr : r < Curve.order) (hpos : 0 < s)
    (hs : s < Curve.order) :
    (checkSignature (der r s) = .ok () ∧
        checkSignature (der r (Curve.order - s)) = .error .highS) ∨
      (checkSignature (der r s) = .error .highS ∧
        checkSignature (der r (Curve.order - s)) = .ok ()) := by
  have htwin : Curve.order - s < Curve.order := Nat.sub_lt (Nat.lt_trans hpos hs) hpos
  have hlow := checkSignature_written (length_der_le hr hs)
  have hhigh := checkSignature_written (length_der_le hr htwin)
  rw [hlow, hhigh]
  simp only [halfOrder_lt_sub hs]
  by_cases h : halfOrder < s <;> simp [h]

/-- **The strict check, exactly.** Every byte that it reads is there. It accepts what is written from
    two numbers in at most 72 bytes with a low S, refuses the same with a high S as high, and refuses
    anything else for its shape. A number is written in the fewest bytes that spell it. Of the two
    signatures that differ in the sign of S, one passes and the other one is high. -/
theorem checkSignature_decides (sig : Bytes) :
    (inspect sig).run = some (checkSignature sig) ∧
    (checkSignature sig = .ok () ↔ ∃ r s, sig = der r s ∧ sig.length ≤ 72 ∧ s ≤ halfOrder) ∧
    (checkSignature sig = .error .highS ↔
      ∃ r s, sig = der r s ∧ sig.length ≤ 72 ∧ halfOrder < s) ∧
    ((∃ e, checkSignature sig = .error (.der e)) ↔ ¬ ∃ r s, sig = der r s ∧ sig.length ≤ 72) ∧
    (∀ n, Spells n (signedBE n) ∧ ∀ body, Spells n body →
      body = signedBE n ∨ (signedBE n).length < body.length) ∧
    ∀ r s, r < Curve.order → 0 < s → s < Curve.order →
      (checkSignature (der r s) = .ok () ∧
          checkSignature (der r (Curve.order - s)) = .error .highS) ∨
        (checkSignature (der r s) = .error .highS ∧
          checkSignature (der r (Curve.order - s)) = .ok ()) := by
  refine ⟨congrArg ExceptT.run (inspect_eq sig), checkSignature_ok, ?_, ?_, ?_, ?_⟩
  · constructor
    · intro h
      obtain ⟨r, s, hsig, hlength, hverdict⟩ := exists_der_of_checkSignature h (by simp)
      refine ⟨r, s, hsig, hlength, Decidable.byContradiction fun hlow => ?_⟩
      simp [hlow] at hverdict
    · rintro ⟨r, s, rfl, hlength, hhigh⟩
      rw [checkSignature_written hlength, if_pos hhigh]
  · constructor
    · rintro ⟨e, h⟩ ⟨r, s, rfl, hlength⟩
      rw [checkSignature_written hlength] at h
      split at h <;> cases h
    · intro hshape
      rcases hcheck : checkShape sig with e | body
      · exact ⟨e, checkSignature_der.2 hcheck⟩
      · obtain ⟨r, s, hsig, hlength, -⟩ := checkShape_ok.1 hcheck
        exact absurd ⟨r, s, hsig, hlength⟩ hshape
  · intro n
    exact ⟨spells_signedBE n, fun body hbody => hbody.shortest⟩
  · intro r s hr hpos hs
    exact checkSignature_twins hr hpos hs

/-- The negative of 1 is high, and its twin passes. -/
theorem checkSignature_decides_negative :
    (1 < Curve.order ∧ 0 < Curve.order - 1 ∧ Curve.order - 1 < Curve.order) ∧
      checkSignature (der 1 (Curve.order - 1)) = .error .highS ∧
      checkSignature (der 1 (Curve.order - (Curve.order - 1))) = .ok () := by
  have hone : 1 < Curve.order := by decide
  have hpos : 0 < Curve.order - 1 := by decide
  have hnegative : Curve.order - 1 < Curve.order := by decide
  obtain ⟨-, -, hhigh, -, -, htwins⟩ := checkSignature_decides (der 1 (Curve.order - 1))
  have hfirst : checkSignature (der 1 (Curve.order - 1)) = .error .highS :=
    hhigh.2 ⟨1, Curve.order - 1, rfl, length_der_le hone hnegative, by decide⟩
  rcases htwins 1 (Curve.order - 1) hone hpos hnegative with ⟨hok, -⟩ | h
  · rw [hfirst] at hok
    cases hok
  · exact ⟨⟨hone, hpos, hnegative⟩, h⟩

end StrictEncoding

end SpendScript

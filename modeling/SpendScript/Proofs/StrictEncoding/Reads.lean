/-
  The bytes that the strict check of a signature reads. `inspect` makes the checks one by one and
  reads each byte by its place when it is needed; a place past the end would leave it without a
  result. It always has one, the verdict of the strict check (`inspect_eq`).
-/
import SpendScript.Proofs.StrictEncoding

namespace SpendScript

namespace StrictEncoding

/-! ## Checks that read -/

/-- A check that reads bytes by their places. Where a byte is not there it has no result, not even a
    refusal. -/
abbrev ReadM := ExceptT EncodingError Option

/-- The byte at a place. -/
def byteAt (sig : Bytes) (place : Nat) : ReadM UInt8 := ExceptT.lift sig[place]?

/-- So many bytes from a place on. -/
def bytesAt (sig : Bytes) (place length : Nat) : ReadM Bytes :=
  ExceptT.lift (if place + length ≤ sig.length then some ((sig.drop place).take length) else none)

/-- Goes on unless there is a reason not to. -/
def refuseIf (p : Prop) [Decidable p] (e : EncodingError) : ReadM Unit :=
  if p then throw e else return

/-- One of the two numbers, whose mark stands at the place. -/
def inspectNumber (c : Component) (sig : Bytes) (place length : Nat) : ReadM Unit := do
  let mark ← byteAt sig place
  refuseIf (mark ≠ 0x02) (.der (.missingMark c))
  refuseIf (length = 0) (.der (.emptyComponent c))
  let first ← byteAt sig (place + 2)
  refuseIf (0x80 ≤ first) (.der (.negativeComponent c))
  if 1 < length then
    let next ← byteAt sig (place + 3)
    refuseIf (first = 0 ∧ next < 0x80) (.der (.paddedComponent c))

/-- The checks of a signature in their order. Each byte is read when it is needed. -/
def inspect (sig : Bytes) : ReadM Unit := do
  let length := sig.length
  refuseIf (length < 8) (.der (.tooShort length))
  refuseIf (72 < length) (.der (.tooLong length))
  let mark ← byteAt sig 0
  refuseIf (mark ≠ 0x30) (.der (.wrongSequenceMark mark))
  let declared ← byteAt sig 1
  refuseIf (declared.toNat ≠ length - 2) (.der (.wrongTotalLength declared.toNat (length - 2)))
  let rLength ← byteAt sig 3
  refuseIf (length ≤ rLength.toNat + 5) (.der .sOutOfBounds)
  let sLength ← byteAt sig (rLength.toNat + 5)
  refuseIf (rLength.toNat + sLength.toNat + 6 ≠ length) (.der .wrongComponentLengths)
  inspectNumber .r sig 2 rLength.toNat
  inspectNumber .s sig (rLength.toNat + 4) sLength.toNat
  let body ← bytesAt sig (rLength.toNat + 6) sLength.toNat
  refuseIf (halfOrder < Bytes.natBE body) .highS

/-! ## Reading in range -/

theorem byteAt_bind {α : Type} {sig : Bytes} {place : Nat} (h : place < sig.length)
    (f : UInt8 → ReadM α) : byteAt sig place >>= f = f (sig.getD place 0) := by
  have hget : sig[place]? = some (sig.getD place 0) := by simp [h]
  unfold byteAt
  rw [hget]
  rfl

theorem refuseIf_bind {α : Type} {p : Prop} [Decidable p] {e : EncodingError}
    (f : Unit → ReadM α) : refuseIf p e >>= f = if p then throw e else f () := by
  unfold refuseIf
  split <;> rfl

/-- A number within the signature is checked as a component. -/
theorem inspectNumber_eq (c : Component) {sig : Bytes} {place length : Nat}
    (h : place + 2 + length ≤ sig.length) :
    inspectNumber c sig place length = ExceptT.mk (some
      ((checkComponent c (sig.getD place 0) ((sig.drop (place + 2)).take length)).mapError
        .der)) := by
  unfold inspectNumber checkComponent
  rw [byteAt_bind (by omega), refuseIf_bind]
  by_cases hmark : sig.getD place 0 ≠ 0x02
  · rw [if_pos hmark, if_pos hmark]
    rfl
  rw [if_neg hmark, if_neg hmark, refuseIf_bind]
  rcases length with _ | length
  · rfl
  rw [if_neg (Nat.succ_ne_zero length), byteAt_bind (by omega), refuseIf_bind]
  have hfirst : (sig.drop (place + 2)).take (length + 1) =
      sig.getD (place + 2) 0 :: (sig.drop (place + 3)).take length := by
    rw [List.getD_eq_getElem _ _ (by omega), List.drop_eq_getElem_cons (by omega)]
    rfl
  rw [hfirst]
  dsimp only
  by_cases hnegative : 0x80 ≤ sig.getD (place + 2) 0
  · rw [if_pos hnegative, if_pos hnegative]
    rfl
  rw [if_neg hnegative, if_neg hnegative]
  rcases length with _ | length
  · rfl
  have hnext : (sig.drop (place + 3)).take (length + 1) =
      sig.getD (place + 3) 0 :: (sig.drop (place + 4)).take length := by
    rw [List.getD_eq_getElem _ _ (by omega), List.drop_eq_getElem_cons (by omega)]
    rfl
  rw [if_pos (by omega), byteAt_bind (by omega), hnext]
  unfold refuseIf
  dsimp only
  split <;> rfl

theorem bytesAt_bind {α : Type} {sig : Bytes} {place length : Nat} (h : place + length ≤ sig.length)
    (f : Bytes → ReadM α) : bytesAt sig place length >>= f = f ((sig.drop place).take length) := by
  unfold bytesAt
  rw [if_pos h]
  rfl

/-- Every byte that the checks read is there, and read in this way a signature gets its verdict. -/
theorem inspect_eq (sig : Bytes) : inspect sig = ExceptT.mk (some (checkSignature sig)) := by
  unfold inspect checkSignature checkShape split
  dsimp only
  rw [refuseIf_bind]
  by_cases hshort : sig.length < 8
  · rw [if_pos hshort, if_pos hshort]
    rfl
  rw [if_neg hshort, if_neg hshort, refuseIf_bind]
  by_cases hlong : 72 < sig.length
  · rw [if_pos hlong, if_pos hlong]
    rfl
  rw [if_neg hlong, if_neg hlong, byteAt_bind (by omega), refuseIf_bind]
  by_cases hmark : sig.getD 0 0 ≠ 0x30
  · rw [if_pos hmark, if_pos hmark]
    rfl
  rw [if_neg hmark, if_neg hmark, byteAt_bind (by omega), refuseIf_bind]
  by_cases htotal : (sig.getD 1 0).toNat ≠ sig.length - 2
  · rw [if_pos htotal, if_pos htotal]
    rfl
  rw [if_neg htotal, if_neg htotal, byteAt_bind (by omega), refuseIf_bind]
  generalize (sig.getD 3 0).toNat = n
  by_cases hbounds : sig.length ≤ n + 5
  · rw [if_pos hbounds, if_pos hbounds]
    rfl
  rw [if_neg hbounds, if_neg hbounds, byteAt_bind (by omega), refuseIf_bind]
  generalize (sig.getD (n + 5) 0).toNat = k
  by_cases hlengths : n + k + 6 ≠ sig.length
  · rw [if_pos hlengths, if_pos hlengths]
    rfl
  rw [if_neg hlengths, if_neg hlengths, inspectNumber_eq .r (by omega),
    inspectNumber_eq .s (by omega), bytesAt_bind (by omega)]
  have hrest : (sig.drop (n + 6)).take k = sig.drop (n + 6) := by
    apply List.take_of_length_le
    rw [List.length_drop]
    omega
  have hparts (parts : Parts) : (Except.ok parts : Except DerError Parts) = pure parts := rfl
  rw [hrest, hparts, pure_bind]
  rcases checkComponent .r (sig.getD 2 0) ((sig.drop 4).take n) with e | _
  · rfl
  rcases checkComponent .s (sig.getD (n + 4) 0) (sig.drop (n + 6)) with e | _
  · rfl
  change refuseIf (halfOrder < Bytes.natBE (sig.drop (n + 6))) .highS = ExceptT.mk (some
    (if halfOrder < Bytes.natBE (sig.drop (n + 6)) then .error .highS else .ok ()))
  unfold refuseIf
  split <;> rfl

end StrictEncoding

end SpendScript

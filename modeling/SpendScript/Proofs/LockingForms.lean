/-
  The locking scripts that can be spent, byte by byte. A hash is locked by an empty push and one push of
  the 20 or 32 bytes, in any of the four forms of a push (`pushForms`). A height is locked by the push of
  its eight bytes. `Spend.program?` and `Spend.height?` look at parsed scripts; going through the grammar
  gives the bytes (`program?_iff`, `height?_iff`). Classification accepts these two kinds and no other
  script, and it reads the first two elements of the witness only (`Spend.classify_exact`).
-/
import SpendScript.Proofs.Engine.Construction
import SpendScript.Proofs.Script.Grammar

namespace SpendScript

namespace Script

/-- The bytes are pushes: at most 10000 bytes, written by instructions of the push range. -/
def PushOnly (bs : Bytes) : Prop :=
  bs.length ≤ 10000 ∧ ∃ s, Written s bs ∧ ∀ i ∈ s, i.opcode.value ≤ 0x60

theorem isPushOnly_iff {bs : Bytes} : isPushOnly bs = true ↔ PushOnly bs := by
  have hpushes (s : Script) :
      s.all Instruction.isPush = true ↔ ∀ i ∈ s, i.opcode.value ≤ 0x60 := by
    rw [List.all_eq_true]
    exact forall₂_congr fun i _ => decide_eq_true_iff
  unfold isPushOnly
  rcases hparse : parse bs with err | s
  · refine iff_of_false Bool.false_ne_true ?_
    rintro ⟨hsize, s, hs, -⟩
    rw [parse_ok_iff_written.2 ⟨hsize, hs⟩] at hparse
    cases hparse
  · obtain ⟨hsize, hs⟩ := parse_ok_iff_written.1 hparse
    rw [hpushes]
    constructor
    · exact fun hall => ⟨hsize, s, hs, hall⟩
    · rintro ⟨-, t, ht, hall⟩
      rw [hs.unique ht]
      exact hall

theorem written_pair {i j : Instruction} {bs : Bytes} :
    Written [i, j] bs ↔ ∃ front rest, i.Written front ∧ j.Written rest ∧ bs = front ++ rest := by
  constructor
  · rintro (_ | ⟨hi, _ | ⟨hj, _ | _⟩⟩)
    exact ⟨_, _, hi, hj, by rw [List.append_nil]⟩
  · rintro ⟨front, rest, hi, hj, rfl⟩
    have hrest := Written.cons hi (.cons hj .nil)
    rwa [List.append_nil] at hrest

end Script

/-! ## Pushes -/

/-- The ways to push bytes of which there are at most 75: their number alone, or one of the three bytes
    that announce a number of one, two or four bytes. -/
def pushForms (data : Bytes) : List Bytes :=
  [Bytes.ofNatLE 1 data.length ++ data,
    0x4c :: Bytes.ofNatLE 1 data.length ++ data,
    0x4d :: Bytes.ofNatLE 2 data.length ++ data,
    0x4e :: Bytes.ofNatLE 4 data.length ++ data]

variable {data bs : Bytes} {b : UInt8} {script : Script} {height : Nat}

theorem length_le_of_mem_pushForms (h : bs ∈ pushForms data) : bs.length ≤ data.length + 5 := by
  simp only [pushForms, List.mem_cons, List.not_mem_nil, or_false] at h
  rcases h with rfl | rfl | rfl | rfl <;>
    simp only [List.length_append, List.length_cons, Bytes.length_ofNatLE] <;> omega

/-- Only pushes have an operand. -/
theorem isPush_of_written {i : Instruction} (h : i.Written bs) (hne : i.data ≠ []) :
    i.isPush = true := by
  by_cases hpush : i.isPush = true
  · exact hpush
  · have hwell := (Instruction.toBytes_of_written h).1
    unfold Instruction.WellFormed at hwell
    rw [Opcode.operandForm_of_not_isPush hpush] at hwell
    exact absurd hwell hne

/-- The forms are those of an instruction with this operand. -/
theorem exists_written_iff (hpos : 0 < data.length) (hle : data.length ≤ 75) :
    (∃ op, Instruction.Written ⟨op, data⟩ bs) ↔ bs ∈ pushForms data := by
  constructor
  · rintro ⟨op, h⟩
    cases h with
    | @direct b _ _ hlength =>
      have hone : Bytes.ofNatLE 1 data.length = [b] := by
        rw [hlength]
        exact congrArg (· :: []) UInt8.ofNat_toNat
      unfold pushForms
      rw [hone]
      exact List.mem_cons_self
    | @counted b front _ hb hlength =>
      have hfront : Bytes.ofNatLE front.length data.length = front := by
        rw [hlength]
        exact Bytes.ofNatLE_natLE front
      simp only [Opcode.countedPushes, List.mem_cons, Prod.mk.injEq, List.not_mem_nil,
        or_false] at hb
      rcases hb with ⟨rfl, hwidth⟩ | ⟨rfl, hwidth⟩ | ⟨rfl, hwidth⟩ <;>
        rw [hwidth] at hfront <;> simp [pushForms, hfront]
    | alone => exact absurd hpos (Nat.lt_irrefl 0)
  · intro h
    have hcounted {op : UInt8} {width : Nat} (hb : (op, width) ∈ Opcode.countedPushes)
        (hfits : data.length < Bytes.capacity width) :
        Instruction.Written ⟨⟨op⟩, data⟩ (op :: Bytes.ofNatLE width data.length ++ data) := by
      refine .counted (by rwa [Bytes.length_ofNatLE]) ?_
      rw [Bytes.natLE_ofNatLE, Nat.mod_eq_of_lt hfits]
    simp only [pushForms, List.mem_cons, List.not_mem_nil, or_false] at h
    rcases h with rfl | rfl | rfl | rfl
    · have hvalue : (UInt8.ofNat data.length).toNat = data.length :=
        UInt8.toNat_ofNat_of_lt' (Nat.lt_of_le_of_lt hle (by decide))
      exact ⟨⟨UInt8.ofNat data.length⟩, .direct (by omega) hvalue.symm⟩
    · exact ⟨_, hcounted (by decide) (Nat.lt_of_le_of_lt hle (by decide))⟩
    · exact ⟨_, hcounted (by decide) (Nat.lt_of_le_of_lt hle (by decide))⟩
    · exact ⟨_, hcounted (by decide) (Nat.lt_of_le_of_lt hle (by decide))⟩

namespace Spend

variable {locking program redeem signature : Bytes} {witness : List Bytes} {spend : Spend}

/-! ## The two kinds of locking scripts -/

/-- The empty push is written in one way. -/
theorem written_empty {i : Instruction} (hi : i.opcode.value = 0x00) (h : i.Written bs) :
    i = ⟨⟨0x00⟩, []⟩ ∧ bs = [0x00] := by
  have hop : i.opcode = ⟨0x00⟩ := Opcode.eq_of_value hi
  cases h with
  | direct hb hlength =>
    cases hop
    rw [List.length_eq_zero_iff.1 hlength]
    exact ⟨rfl, rfl⟩
  | counted hb =>
    cases hop
    exact absurd hb (by simp [Opcode.countedPushes])
  | alone hb =>
    cases hop
    exact absurd hb (by decide)

theorem program?_ok : program? script = some program ↔
    ∃ version push : Instruction, script = [version, push] ∧ version.opcode.value = 0x00 ∧
      push.isPush = true ∧ push.data = program ∧ (program.length = 20 ∨ program.length = 32) := by
  unfold program?
  split
  · next version push =>
    constructor
    · intro h
      split at h
      · next hshape =>
        obtain rfl : push.data = program := Option.some.inj h
        exact ⟨version, push, rfl, hshape.1, hshape.2.1, rfl, hshape.2.2⟩
      · cases h
    · rintro ⟨_, _, heq, hversion, hpush, rfl, hlength⟩
      cases heq
      exact if_pos ⟨hversion, hpush, hlength⟩
  · next hno =>
    constructor
    · intro h
      cases h
    · rintro ⟨version, push, rfl, -⟩
      exact absurd rfl (hno version push)

/-- A locking script names a program just when it is an empty push and a push of the program. -/
theorem program?_iff : (∃ script, Script.parse locking = .ok script ∧ program? script = some program) ↔
    (program.length = 20 ∨ program.length = 32) ∧ locking ∈ (pushForms program).map (0x00 :: ·) := by
  constructor
  · rintro ⟨script, hparse, hprogram⟩
    obtain ⟨version, push, rfl, hversion, -, rfl, hlength⟩ := program?_ok.1 hprogram
    obtain ⟨-, hwritten⟩ := Script.parse_ok_iff_written.1 hparse
    obtain ⟨front, rest, hi, hj, rfl⟩ := Script.written_pair.1 hwritten
    obtain ⟨-, rfl⟩ := written_empty hversion hi
    have hforms := (exists_written_iff (by omega) (by omega)).1 ⟨push.opcode, hj⟩
    exact ⟨hlength, List.mem_map_of_mem hforms⟩
  · rintro ⟨hlength, hmem⟩
    obtain ⟨bs, hbs, rfl⟩ := List.mem_map.1 hmem
    obtain ⟨op, hwritten⟩ := (exists_written_iff (by omega) (by omega)).2 hbs
    have hpush : (Instruction.mk op program).isPush = true :=
      isPush_of_written hwritten (List.length_pos_iff.1 (show 0 < program.length by omega))
    have hsize : (0x00 :: bs).length ≤ Limit.scriptSize := by
      have hle := length_le_of_mem_pushForms hbs
      rw [List.length_cons, Limit.scriptSize]
      omega
    have hempty : Instruction.Written ⟨⟨0x00⟩, []⟩ [0x00] := .direct (by decide) rfl
    have hboth := Script.written_pair.2 ⟨_, _, hempty, hwritten, rfl⟩
    exact ⟨_, Script.parse_ok_iff_written.2 ⟨hsize, hboth⟩,
      program?_ok.2 ⟨_, _, rfl, rfl, hpush, rfl, hlength⟩⟩

/-- A locking script names a height just when it is the push of its eight bytes. -/
theorem height?_iff : (∃ script, Script.parse locking = .ok script ∧ height? script = some height) ↔
    height < 18446744073709551616 ∧ locking = 0x08 :: Bytes.ofNatLE 8 height := by
  constructor
  · rintro ⟨script, hparse, hheight⟩
    obtain ⟨data, rfl, rfl⟩ := height?_ok hheight
    have hlength : data.length = 8 := Script.wellFormed_of_parse hparse _ List.mem_cons_self
    have hbytes : Bytes.ofNatLE data.length (Bytes.natLE data) = data := Bytes.ofNatLE_natLE data
    have hlt : Bytes.natLE data < Bytes.capacity data.length := Bytes.natLE_lt data
    have hlocking : 0x08 :: data ++ [] = locking := Script.toBytes_of_parse hparse
    rw [hlength] at hbytes hlt
    refine ⟨hlt, ?_⟩
    rw [← hlocking, List.append_nil, hbytes]
  · rintro ⟨hlt, rfl⟩
    have hlength : (Bytes.ofNatLE 8 height).length = 8 := Bytes.length_ofNatLE 8 height
    have hwritten : Script.Written [⟨⟨0x08⟩, Bytes.ofNatLE 8 height⟩]
        ((0x08 :: Bytes.ofNatLE 8 height) ++ []) := .cons (.direct (by decide) hlength) .nil
    rw [List.append_nil] at hwritten
    have hsize : (0x08 :: Bytes.ofNatLE 8 height).length ≤ Limit.scriptSize := by
      rw [List.length_cons, hlength]
      decide
    refine ⟨_, Script.parse_ok_iff_written.2 ⟨hsize, hwritten⟩, ?_⟩
    have hvalue : Bytes.natLE (Bytes.ofNatLE 8 height) = height := by
      rw [Bytes.natLE_ofNatLE]
      exact Nat.mod_eq_of_lt hlt
    exact congrArg some hvalue

theorem ofScript_hashLocked_iff :
    ofScript script redeem = .ok (.hashLocked program) ↔
      program? script = some program ∧ commits program redeem = true := by
  unfold ofScript
  rcases program? script with _ | named
  · refine iff_of_false ?_ fun h => nomatch h.1
    dsimp only
    split
    · split <;> exact fun h => nomatch h
    · exact fun h => nomatch h
  · dsimp only
    by_cases hcommits : commits named redeem = true
    · rw [if_pos hcommits]
      constructor
      · intro h
        cases h
        exact ⟨rfl, hcommits⟩
      · rintro ⟨h, -⟩
        cases h
        rfl
    · rw [if_neg hcommits]
      constructor
      · intro h
        cases h
      · rintro ⟨h, h'⟩
        cases h
        exact absurd h' hcommits

theorem ofScript_lockHeight_iff :
    ofScript script redeem = .ok (.lockHeight height) ↔
      height? script = some height ∧ Limit.minLockHeight ≤ height ∧
        height < Limit.lockHeightBound := by
  refine ⟨ofScript_lockHeight, fun ⟨hheight, hbounds⟩ => ?_⟩
  obtain ⟨data, rfl, -⟩ := height?_ok hheight
  have hnone : program? [⟨⟨0x08⟩, data⟩] = none := rfl
  unfold ofScript
  rw [hnone]
  dsimp only
  rw [hheight]
  exact if_pos hbounds

/-- A program of one of the two sizes commits to the script just when it is its digest of that size. -/
theorem commits_iff (hlength : program.length = 20 ∨ program.length = 32) :
    commits program redeem = true ↔
      program = Digest.sha256 redeem ∨ program = Digest.hash160 redeem := by
  have hsha : (Digest.sha256 redeem).length = 32 := Digest.length_sha256 redeem
  have hhash : (Digest.hash160 redeem).length = 20 := Digest.length_hash160 redeem
  unfold commits
  rcases hlength with h | h
  · rw [if_neg (by omega), beq_iff_eq, eq_comm]
    exact (or_iff_right fun heq => by rw [heq] at h; omega).symm
  · rw [if_pos h, beq_iff_eq, eq_comm]
    exact (or_iff_left fun heq => by rw [heq] at h; omega).symm

/-! ## The witness -/

/-- The witness shows a signature script of pushes and the redeem script, and neither is empty. -/
structure Shows (witness : List Bytes) (signature redeem : Bytes) : Prop where
  first : witness[0]? = some signature
  second : witness[1]? = some redeem
  signature_ne : signature ≠ []
  redeem_ne : redeem ≠ []
  pushes : Script.PushOnly signature

theorem classify_ok_iff_shows : classify locking witness = .ok spend ↔
    ∃ signature redeem script, Shows witness signature redeem ∧
      Script.parse locking = .ok script ∧ ofScript script redeem = .ok spend := by
  constructor
  · intro h
    obtain ⟨w₀, w₁, rest, rfl⟩ := exists_cons_of_classify h
    obtain ⟨h₀, h₁, hpushes, script, hparse, hspend⟩ := classify_ok.1 h
    exact ⟨w₀, w₁, script, ⟨rfl, rfl, h₀, h₁, Script.isPushOnly_iff.1 hpushes⟩, hparse, hspend⟩
  · rintro ⟨w₀, w₁, script, hshows, hparse, hspend⟩
    rcases witness with _ | ⟨v₀, _ | ⟨v₁, rest⟩⟩
    · cases hshows.first
    · cases hshows.second
    · obtain rfl : v₀ = w₀ := Option.some.inj hshows.first
      obtain rfl : v₁ = w₁ := Option.some.inj hshows.second
      exact classify_ok.2 ⟨hshows.signature_ne, hshows.redeem_ne,
        Script.isPushOnly_iff.2 hshows.pushes, script, hparse, hspend⟩

/-- Elements behind the second one do not matter, also for the error. -/
theorem classify_take (locking : Bytes) (witness : List Bytes) :
    classify locking (witness.take 2) = classify locking witness := by
  have helement {position : Nat} (h : position < 2) :
      element (witness.take 2) position = element witness position := by
    unfold element
    rw [List.getElem?_take_of_lt h]
  unfold classify
  rw [helement (by decide), helement (by decide)]

/-- The output is locked by this height, and the witness is of the form that can spend it. -/
def LocksHeight (locking : Bytes) (witness : List Bytes) (height : Nat) : Prop :=
  (∃ signature redeem, Shows witness signature redeem) ∧
    locking = 0x08 :: Bytes.ofNatLE 8 height ∧ 1000 ≤ height ∧ height < 4194304

/-- The output is locked by this digest, and the witness shows the script that it is of. -/
def LocksHash (locking : Bytes) (witness : List Bytes) (program : Bytes) : Prop :=
  ∃ signature redeem, Shows witness signature redeem ∧
    (program = Digest.sha256 redeem ∨ program = Digest.hash160 redeem) ∧
    locking ∈ (pushForms program).map (0x00 :: ·)

theorem classify_lockHeight_iff :
    classify locking witness = .ok (.lockHeight height) ↔ LocksHeight locking witness height := by
  rw [classify_ok_iff_shows]
  constructor
  · rintro ⟨signature, redeem, script, hshows, hparse, hspend⟩
    obtain ⟨hheight, hbounds⟩ := ofScript_lockHeight_iff.1 hspend
    exact ⟨⟨signature, redeem, hshows⟩, (height?_iff.1 ⟨script, hparse, hheight⟩).2, hbounds⟩
  · rintro ⟨⟨signature, redeem, hshows⟩, hlocking, hbounds⟩
    obtain ⟨script, hparse, hheight⟩ := height?_iff.2 ⟨by omega, hlocking⟩
    exact ⟨signature, redeem, script, hshows, hparse,
      ofScript_lockHeight_iff.2 ⟨hheight, hbounds⟩⟩

theorem classify_hashLocked_iff :
    classify locking witness = .ok (.hashLocked program) ↔ LocksHash locking witness program := by
  rw [classify_ok_iff_shows]
  constructor
  · rintro ⟨signature, redeem, script, hshows, hparse, hspend⟩
    obtain ⟨hprogram, hcommits⟩ := ofScript_hashLocked_iff.1 hspend
    obtain ⟨hlength, hlocking⟩ := program?_iff.1 ⟨script, hparse, hprogram⟩
    exact ⟨signature, redeem, hshows, (commits_iff hlength).1 hcommits, hlocking⟩
  · rintro ⟨signature, redeem, hshows, hdigest, hlocking⟩
    have hlength : program.length = 20 ∨ program.length = 32 := by
      rcases hdigest with rfl | rfl
      · exact Or.inr (Digest.length_sha256 redeem)
      · exact Or.inl (Digest.length_hash160 redeem)
    obtain ⟨script, hparse, hprogram⟩ := program?_iff.2 ⟨hlength, hlocking⟩
    exact ⟨signature, redeem, script, hshows, hparse,
      ofScript_hashLocked_iff.2 ⟨hprogram, (commits_iff hlength).2 hdigest⟩⟩

/-- **The locking scripts that can be spent.** A height is accepted just when the locking script is the
    byte `0x08` and the eight bytes of the height, lowest first, and the height is at least 1000 and
    below 2²². A program is accepted just when the locking script is the byte `0x00` and one push of the
    program, in any of its four forms, and the program is the digest of the redeem script, by SHA-256 in
    32 bytes or by HASH160 in 20. In both cases the witness must show two scripts that are not empty,
    the first of them of pushes. No locking script is of both kinds, all others give an error, and
    elements behind the second one do not matter. -/
theorem classify_exact (locking : Bytes) (witness : List Bytes) :
    (∀ height, classify locking witness = .ok (.lockHeight height) ↔
      LocksHeight locking witness height) ∧
    (∀ program, classify locking witness = .ok (.hashLocked program) ↔
      LocksHash locking witness program) ∧
    (∀ redeem, (Digest.sha256 redeem).length = 32 ∧ (Digest.hash160 redeem).length = 20) ∧
    (∀ height program, ¬ (locking = 0x08 :: Bytes.ofNatLE 8 height ∧
      locking ∈ (pushForms program).map (0x00 :: ·))) ∧
    ((∃ err, classify locking witness = .error err) ↔
      (∀ height, ¬ LocksHeight locking witness height) ∧
        ∀ program, ¬ LocksHash locking witness program) ∧
    classify locking (witness.take 2) = classify locking witness := by
  refine ⟨fun _ => classify_lockHeight_iff, fun _ => classify_hashLocked_iff,
    fun redeem => ⟨Digest.length_sha256 redeem, Digest.length_hash160 redeem⟩, ?_, ?_,
    classify_take locking witness⟩
  · rintro height program ⟨rfl, hmem⟩
    obtain ⟨bs, -, heq⟩ := List.mem_map.1 hmem
    exact absurd (List.cons_eq_cons.1 heq).1 (by decide)
  · simp only [← classify_lockHeight_iff, ← classify_hashLocked_iff]
    rcases classify locking witness with err | spend
    · exact iff_of_true ⟨err, rfl⟩ ⟨(fun _ h => nomatch h), fun _ h => nomatch h⟩
    · refine iff_of_false (fun ⟨_, h⟩ => nomatch h) fun ⟨hheight, hprogram⟩ => ?_
      cases spend with
      | hashLocked program => exact hprogram program rfl
      | lockHeight height => exact hheight height rfl

/-- A digest behind four bytes of length, with a third element in the witness, and the lowest height. -/
theorem classify_exact_longestForm :
    classify (0x00 :: 0x4e :: 20 :: 0 :: 0 :: 0 :: Digest.hash160 [0x51]) [[0x51], [0x51], [0xff]] =
      .ok (.hashLocked (Digest.hash160 [0x51])) ∧
    classify [0x08, 0xe8, 0x03, 0, 0, 0, 0, 0, 0] [[0x51], [0x51]] = .ok (.lockHeight 1000) := by
  have hlength : (Digest.hash160 [0x51]).length = 20 := Digest.length_hash160 [0x51]
  have hpushes : Script.PushOnly [0x51] := Script.isPushOnly_iff.1 (by decide +kernel)
  have hform : 0x4e :: 20 :: 0 :: 0 :: 0 :: Digest.hash160 [0x51] ∈
      pushForms (Digest.hash160 [0x51]) := by
    unfold pushForms
    rw [hlength]
    exact List.mem_of_getElem? (i := 3) rfl
  constructor
  · refine ((classify_exact _ _).2.1 _).2 ⟨[0x51], [0x51], ?_, Or.inr rfl, List.mem_map_of_mem hform⟩
    exact ⟨rfl, rfl, List.cons_ne_nil _ _, List.cons_ne_nil _ _, hpushes⟩
  · refine ((classify_exact _ _).1 1000).2 ⟨⟨[0x51], [0x51], ?_⟩, rfl, by decide, by decide⟩
    exact ⟨rfl, rfl, List.cons_ne_nil _ _, List.cons_ne_nil _ _, hpushes⟩

end Spend

end SpendScript

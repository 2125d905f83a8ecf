/-
  Relative locks. A sequence number and a lock are compared after masking: the mask keeps bit 22, which
  tells time from blocks, and the low sixteen bits (`Spending.masked_ofNat`). One comparison of such words
  asks that the bits agree and that the low parts are in order (`Spending.reached_masked_iff`), whatever the
  other bits are. So `Instruction.perform_checkSequenceVerify` can say of every lock and every input what
  the opcode answers.

  The version is compared as a signed number: one with its high bit set counts as less than two, and no
  lock is met under it (`Instruction.perform_checkSequenceVerify_highVersion`).
-/
import Mathlib.Data.Nat.Bitwise
import SpendScript.Checker.Spending
import SpendScript.Proofs.Machine.Success

namespace SpendScript

namespace Spending

/-! ## Masked words -/

theorem and_sequenceMask (n : Nat) :
    n &&& sequenceMask = sequenceTimeFlag * (n.testBit 22).toNat + n % 65536 := by
  have hflag : n &&& 0x400000 = 0x400000 * (n.testBit 22).toNat := by
    rw [Nat.mul_comm]
    exact Nat.and_two_pow n 22
  have hvalue : n &&& 0xffff = n % 65536 := Nat.and_two_pow_sub_one_eq_mod n 16
  calc n &&& sequenceMask
      = (n &&& 0x400000) ||| (n &&& 0xffff) := Nat.and_or_distrib_left n 0x400000 0xffff
    _ = 0x400000 * (n.testBit 22).toNat ||| n % 65536 := by rw [hflag, hvalue]
    _ = 0x400000 * (n.testBit 22).toNat + n % 65536 :=
      (Nat.two_pow_add_eq_or_of_lt (i := 22) (by omega) _).symm

/-- Both parts of a masked number lie in its lowest 64 bits. -/
theorem masked_ofNat (n : Nat) :
    masked n = sequenceTimeFlag * (n.testBit 22).toNat + n % 65536 := by
  have hword : ((n : Int) % 18446744073709551616).toNat = n % 2 ^ 64 := by omega
  have hbit : (n % 2 ^ 64).testBit 22 = n.testBit 22 := by
    rw [Nat.testBit_mod_two_pow]
    exact Bool.true_and _
  have hvalue : n % 2 ^ 64 % 65536 = n % 65536 := Nat.mod_mod_of_dvd n (by decide)
  unfold masked
  rw [hword, and_sequenceMask, hbit, hvalue]

/-- Against the threshold at bit 22, masked numbers are of one kind when that bit agrees. They are in
    order then when their low parts are. -/
theorem reached_masked_iff (n lock : Nat) :
    reached sequenceTimeFlag (masked n) (masked lock) = true ↔
      lock.testBit 22 = n.testBit 22 ∧ lock % 65536 ≤ n % 65536 := by
  have hn : n % 65536 < 65536 := Nat.mod_lt n (by decide)
  have hlock : lock % 65536 < 65536 := Nat.mod_lt lock (by decide)
  rw [masked_ofNat, masked_ofNat]
  unfold reached sequenceTimeFlag
  rw [Bool.and_eq_true, decide_eq_true_iff, decide_eq_true_iff]
  cases n.testBit 22 <;> cases lock.testBit 22 <;> simp <;> omega

/-! ## The lock of an input -/

/-- A sequence number meets a lock: it takes part in relative locking, is of the same kind, and is at
    least as far. -/
structure Meets (n : UInt32) (lock : Nat) : Prop where
  enabled : n.toNat.testBit 31 = false
  kind : lock.testBit 22 = n.toNat.testBit 22
  value : lock % 65536 ≤ n.toNat % 65536

instance (n : UInt32) (lock : Nat) : Decidable (Meets n lock) :=
  decidable_of_iff (n.toNat.testBit 31 = false ∧ lock.testBit 22 = n.toNat.testBit 22 ∧
    lock % 65536 ≤ n.toNat % 65536)
    ⟨fun ⟨h₁, h₂, h₃⟩ => ⟨h₁, h₂, h₃⟩, fun ⟨h₁, h₂, h₃⟩ => ⟨h₁, h₂, h₃⟩⟩

/-- As a signed number, a version of at least two is one whose high bit is clear. -/
theorem two_le_version_iff (version : Int32) :
    ¬ version < 2 ↔ 2 ≤ version.toUInt32 ∧ 0 ≤ version := by
  rw [Int32.lt_iff_toInt_lt, Int32.le_iff_toInt_le, UInt32.le_iff_toNat_le]
  change ¬ version.toBitVec.toInt < 2 ↔ 2 ≤ version.toBitVec.toNat ∧ 0 ≤ version.toBitVec.toInt
  rw [BitVec.toInt_eq_toNat_cond]
  have := version.toBitVec.isLt
  split <;> omega

theorem sequenceReached_iff {s : Spending} {input : TxInput}
    (hinput : s.tx.inputs[s.index]? = some input) (lock : Nat) :
    s.sequenceReached lock = true ↔
      2 ≤ s.tx.version.toUInt32 ∧ 0 ≤ s.tx.version ∧ Meets input.sequence lock := by
  have hn : s.sequence? = some input.sequence := by
    unfold sequence?
    rw [hinput]
    rfl
  rw [← and_assoc, ← two_le_version_iff]
  unfold sequenceReached
  by_cases hversion : s.tx.version < 2
  · rw [if_pos hversion]
    exact iff_of_false Bool.false_ne_true fun h => h.1 hversion
  · rw [if_neg hversion, hn]
    simp only [Bool.and_eq_true, Bool.not_eq_true', reached_masked_iff]
    exact ⟨fun ⟨h₁, h₂, h₃⟩ => ⟨hversion, h₁, h₂, h₃⟩, fun ⟨_, h₁, h₂, h₃⟩ => ⟨h₁, h₂, h₃⟩⟩

end Spending

/-! ## The opcode -/

variable {σ : Type} {ctx : Context σ} {m : Machine σ} {item : Bytes} {below : Stack} {v : Int}

/-- A lock that can be read stays on the stack, and is refused if it is negative. -/
theorem peekLock_of_decode (hstack : m.stack = item :: below)
    (hv : Number.decode item ctx.flags.minimalData Number.lockTimeSize = .ok v) :
    peekLock ctx m = if v < 0 then .error (.negativeLockTime v) m else .ok v m := by
  have hpeek : (MachineM.onStack
      (StackM.peekNumber ctx.flags.minimalData Number.lockTimeSize) : MachineM σ Int) m = .ok v m := by
    have hread : StackM.peekNumber ctx.flags.minimalData Number.lockTimeSize m.stack =
        .ok v m.stack := by
      have htop : StackM.peek 0 m.stack = .ok item m.stack := by
        rw [hstack]
        rfl
      refine (bind_eq_of_ok htop).trans ?_
      unfold StackM.readNumber
      rw [hv]
    exact MachineM.onStack_ok.2 ⟨m.stack, hread, rfl⟩
  refine (bind_eq_of_ok hpeek).trans ?_
  split <;> rfl

namespace Instruction

variable {s : Spending} {input : TxInput} {i : Instruction} {offset : Nat}
  {ctx : Context (Option SignatureCache)} {m : Machine (Option SignatureCache)}

/-- **Relative locks.** The opcode leaves the machine as it is. It refuses a negative lock as such, and
    any other lock unless bit 31 of it is set or the input meets it in a transaction whose version is at
    least two and has its high bit clear. -/
theorem perform_checkSequenceVerify (hinput : s.tx.inputs[s.index]? = some input)
    (hchecker : ctx.checker = s.checker) (hflag : ctx.flags.checkSequence = true)
    (hop : i.operation = .checkSequenceVerify) (hstack : m.stack = item :: below)
    (hv : Number.decode item ctx.flags.minimalData Number.lockTimeSize = .ok v) :
    i.perform ctx offset m =
      if v < 0 then .error (.negativeLockTime v) m
      else if v.toNat.testBit 31 = true ∨
          2 ≤ s.tx.version.toUInt32 ∧ 0 ≤ s.tx.version ∧
            Spending.Meets input.sequence v.toNat then .ok () m
      else .error .unsatisfiedLockTime m := by
  have hlock := peekLock_of_decode hstack hv
  have hperform : i.perform ctx offset = checkSequenceVerify ctx i.opcode := by
    unfold perform
    rw [hop]
  rw [hperform]
  unfold checkSequenceVerify
  rw [hflag]
  by_cases hneg : v < 0
  · rw [if_pos hneg] at hlock ⊢
    exact bind_eq_of_error hlock
  · rw [if_neg hneg] at hlock ⊢
    refine (bind_eq_of_ok hlock).trans ?_
    by_cases hoff : v.toNat.testBit 31 = true
    · rw [if_pos (Or.inl hoff), hoff]
      rfl
    · have hask : MachineM.askSequence ctx.checker v m = .ok (s.sequenceReached v.toNat) m := by
        rw [hchecker, Int.toNat_of_nonneg (Int.not_lt.1 hneg)]
        rfl
      have hreached := Spending.sequenceReached_iff hinput v.toNat
      rw [Bool.eq_false_iff.2 hoff]
      refine (bind_eq_of_ok hask).trans ?_
      by_cases hmet : 2 ≤ s.tx.version.toUInt32 ∧ 0 ≤ s.tx.version ∧
          Spending.Meets input.sequence v.toNat
      · rw [if_pos (Or.inr hmet), hreached.2 hmet]
        rfl
      · rw [if_neg (not_or.2 ⟨Bool.false_ne_true, hmet⟩), Bool.eq_false_iff.2 (mt hreached.1 hmet)]
        rfl

/-- A spend by one input, in a transaction of the given version. -/
def oneInput (version : Int32) (sequence : UInt32) : Spending where
  tx :=
    { version := version
      inputs := [⟨⟨List.replicate 32 0, 0⟩, [], sequence, []⟩]
      outputs := []
      lockTime := 0 }
  index := 0
  amount := 1000

/-- A script of relative locks of the spend, under the flag for them. -/
def lockContext (s : Spending) : Context (Option SignatureCache) where
  checker := s.checker
  flags := { checkSequence := true, minimalData := true }
  versionZero := true
  script := [⟨⟨0xb2⟩, []⟩]

/-- A lock of ten blocks is met by a sequence number with bit 16 and other bits set that are no part of
    it, and the lock stays on the stack. -/
theorem perform_checkSequenceVerify_ten :
    perform (lockContext (oneInput 2 0x1f01000b)) 0 ⟨⟨0xb2⟩, []⟩
        { Machine.start none with stack := [[10], [7]] } =
      .ok () { Machine.start none with stack := [[10], [7]] } := by
  rw [perform_checkSequenceVerify (s := oneInput 2 0x1f01000b) (v := 10) rfl rfl rfl (by decide) rfl
    (by decide), if_neg (by decide), if_pos (by decide)]

/-- With its high bit set the version is at least two as a word of four bytes, and the sequence number
    meets the lock. The opcode refuses it all the same. -/
theorem perform_checkSequenceVerify_highVersion :
    (oneInput (-1) 10).tx.version.toUInt32 = 0xffffffff ∧ Number.decode [10] true 5 = .ok 10 ∧
      Spending.Meets 10 10 ∧
      perform (lockContext (oneInput (-1) 10)) 0 ⟨⟨0xb2⟩, []⟩
          { Machine.start none with stack := [[10]] } =
        .error .unsatisfiedLockTime { Machine.start none with stack := [[10]] } := by
  refine ⟨by decide, by decide, by decide, ?_⟩
  rfl

end Instruction

end SpendScript

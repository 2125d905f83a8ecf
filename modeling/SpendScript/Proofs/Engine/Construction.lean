/-
  What it takes to make an engine. Both scripts of the witness must be there and not be empty, the
  first must be one of pushes, and both must parse (`Engine.ofWitness_ok`). For an output locked by
  a hash the second must be what the hash commits to (`Spend.classify_of_commitsTo`); one locked by
  a height has a locking script that pushes the height (`Spend.parse_of_lockHeight`). The engine then
  stands before the first instruction of the two scripts (`Engine.exists_fresh_of_ofWitness`).
-/
import SpendScript.Engine
import SpendScript.Proofs.Opcode
import SpendScript.Proofs.Outcome
import SpendScript.Proofs.Script.RoundTrip

namespace SpendScript

namespace Spend

variable {locking w₀ w₁ : Bytes} {rest : List Bytes} {spend : Spend}

theorem element_ok {witness : List Bytes} {position : Nat} {bs : Bytes} :
    element witness position = .ok bs ↔ witness[position]? = some bs ∧ bs ≠ [] := by
  unfold element
  rcases witness[position]? with _ | (_ | ⟨b, bs'⟩)
  · constructor
    · intro h
      cases h
    · rintro ⟨h, -⟩
      cases h
  · constructor
    · intro h
      cases h
    · rintro ⟨h, hne⟩
      exact absurd (Option.some.inj h).symm hne
  · constructor
    · intro h
      cases h
      exact ⟨rfl, List.cons_ne_nil b bs'⟩
    · rintro ⟨h, -⟩
      cases h
      rfl

theorem classify_ok :
    classify locking (w₀ :: w₁ :: rest) = .ok spend ↔
      w₀ ≠ [] ∧ w₁ ≠ [] ∧ Script.isPushOnly w₀ = true ∧
        ∃ script, Script.parse locking = .ok script ∧ ofScript script w₁ = .ok spend := by
  unfold classify
  simp only [except_bind_ok, mapError_ok, element_ok, except_guard_ok, Bool.not_eq_true',
    Bool.not_eq_false]
  constructor
  · rintro ⟨w, ⟨hw, h₀⟩, w', ⟨hw', h₁⟩, hpush, hscript⟩
    obtain rfl : w₀ = w := Option.some.inj hw
    obtain rfl : w₁ = w' := Option.some.inj hw'
    exact ⟨h₀, h₁, hpush, hscript⟩
  · rintro ⟨h₀, h₁, hpush, hscript⟩
    exact ⟨w₀, ⟨rfl, h₀⟩, w₁, ⟨rfl, h₁⟩, hpush, hscript⟩

/-- Only a witness of at least two elements can be classified. -/
theorem exists_cons_of_classify {witness : List Bytes} (h : classify locking witness = .ok spend) :
    ∃ w₀ w₁ rest, witness = w₀ :: w₁ :: rest := by
  unfold classify at h
  simp only [except_bind_ok, mapError_ok, element_ok] at h
  obtain ⟨w₀, ⟨h₀, -⟩, w₁, ⟨h₁, -⟩, -⟩ := h
  rcases witness with _ | ⟨v₀, _ | ⟨v₁, rest⟩⟩
  · cases h₀
  · cases h₁
  · exact ⟨v₀, v₁, rest, rfl⟩

/-- The output is locked by a hash, and the hash is one of the redeem script. -/
def CommitsTo (locking program redeem : Bytes) : Prop :=
  ∃ script, Script.parse locking = .ok script ∧ program? script = some program ∧
    commits program redeem = true

/-- Every redeem script has an output that its SHA-256 digest locks. -/
theorem commitsTo_sha256 (redeem : Bytes) :
    CommitsTo (0x00 :: 0x20 :: Digest.sha256 redeem) (Digest.sha256 redeem) redeem := by
  have hlen : (Digest.sha256 redeem).length = 32 := Digest.length_sha256 redeem
  have hcommits : commits (Digest.sha256 redeem) redeem = true := by
    unfold commits
    rw [if_pos hlen, beq_self_eq_true]
  generalize Digest.sha256 redeem = digest at hlen hcommits ⊢
  have hbytes : Script.toBytes [⟨⟨0x00⟩, []⟩, ⟨⟨0x20⟩, digest⟩] = 0x00 :: 0x20 :: digest := by
    change 0x00 :: 0x20 :: (digest ++ []) = 0x00 :: 0x20 :: digest
    rw [List.append_nil]
  refine ⟨[⟨⟨0x00⟩, []⟩, ⟨⟨0x20⟩, digest⟩], ?_, ?_, hcommits⟩
  · rw [← hbytes]
    refine Script.parse_toBytes ?_ ?_
    · simp only [List.mem_cons, List.not_mem_nil, or_false, forall_eq_or_imp, forall_eq]
      exact ⟨rfl, hlen⟩
    · rw [hbytes, List.length_cons, List.length_cons, hlen]
      decide
  · unfold program?
    exact if_pos ⟨rfl, rfl, Or.inr hlen⟩

theorem classify_of_commitsTo {program : Bytes} (hl : CommitsTo locking program w₁)
    (h : classify locking (w₀ :: w₁ :: rest) = .ok spend) : spend = .hashLocked program := by
  obtain ⟨script, hparse, hprogram, hcommits⟩ := hl
  obtain ⟨-, -, -, script', hparse', hspend⟩ := classify_ok.1 h
  rw [hparse] at hparse'
  cases hparse'
  unfold ofScript at hspend
  rw [hprogram] at hspend
  dsimp only at hspend
  rw [if_pos hcommits] at hspend
  cases hspend
  rfl

theorem height?_ok {script : Script} {height : Nat} (h : height? script = some height) :
    ∃ data, script = [⟨⟨0x08⟩, data⟩] ∧ Bytes.natLE data = height := by
  unfold height? at h
  split at h
  · next push =>
    split at h
    · next hvalue =>
      have hop : push.opcode = ⟨0x08⟩ := Opcode.eq_of_value hvalue
      refine ⟨push.data, ?_, Option.some.inj h⟩
      rw [← hop]
    · cases h
  · cases h

theorem ofScript_lockHeight {script : Script} {redeem : Bytes} {height : Nat}
    (h : ofScript script redeem = .ok (.lockHeight height)) :
    height? script = some height ∧ Limit.minLockHeight ≤ height ∧
      height < Limit.lockHeightBound := by
  unfold ofScript at h
  split at h
  · split at h <;> cases h
  · split at h
    · next n hheight =>
      split at h
      · next hbounds =>
        cases h
        exact ⟨hheight, hbounds⟩
      · cases h
    · cases h

/-- A spend locked by a height has a locking script that pushes the eight bytes of the height. -/
theorem parse_of_lockHeight {witness : List Bytes} {height : Nat}
    (h : classify locking witness = .ok (.lockHeight height)) :
    ∃ data, Script.parse locking = .ok [⟨⟨0x08⟩, data⟩] ∧ data.length = 8 ∧
      Bytes.natLE data = height ∧ Limit.minLockHeight ≤ height ∧
      height < Limit.lockHeightBound := by
  obtain ⟨w₀, w₁, rest, rfl⟩ := exists_cons_of_classify h
  obtain ⟨-, -, -, script, hparse, hspend⟩ := classify_ok.1 h
  obtain ⟨hheight, hbounds⟩ := ofScript_lockHeight hspend
  obtain ⟨data, rfl, hdata⟩ := height?_ok hheight
  have hlen : (Instruction.mk ⟨0x08⟩ data).WellFormed :=
    Script.wellFormed_of_parse hparse _ List.mem_cons_self
  exact ⟨data, hparse, hlen, hdata, hbounds⟩

end Spend

namespace Engine

variable {σ : Type} {locking w₀ w₁ : Bytes} {rest : List Bytes} {flags : Flags} {c : Checker σ}
  {start : σ} {e : Engine σ}

theorem ofWitness_ok :
    ofWitness locking (w₀ :: w₁ :: rest) flags c start = .ok e ↔
      ∃ spend s₀ s₁, Spend.classify locking (w₀ :: w₁ :: rest) = .ok spend ∧
        Script.parse w₀ = .ok s₀ ∧ Script.parse w₁ = .ok s₁ ∧
        e = {
          checker := c
          flags := flags
          spend := spend
          locking := locking
          witness := w₀ :: w₁ :: rest
          scripts := [s₀, s₁]
          scriptIndex := 0
          offset := 0
          expanded := false
          status := .ready
          machine := Machine.start start } := by
  unfold ofWitness
  simp only [except_bind_ok, mapError_ok, List.take_succ_cons, List.take_zero, List.mapM_cons,
    List.mapM_nil]
  constructor
  · rintro ⟨spend, hc, scripts, ⟨s₀, h₀, s, ⟨s₁, h₁, t, ht, hs⟩, hscripts⟩, he⟩
    cases ht
    cases hs
    cases hscripts
    cases he
    exact ⟨spend, s₀, s₁, hc, h₀, h₁, rfl⟩
  · rintro ⟨spend, s₀, s₁, hc, h₀, h₁, rfl⟩
    exact ⟨spend, hc, [s₀, s₁], ⟨s₀, h₀, [s₁], ⟨s₁, h₁, [], rfl, rfl⟩, rfl⟩, rfl⟩

/-- An engine before its first instruction, with the scripts of its witness. -/
structure Fresh (e : Engine σ) (s₀ s₁ : Script) : Prop where
  scripts : e.scripts = [s₀, s₁]
  first : s₀ ≠ []
  second : s₁ ≠ []
  scriptIndex : e.scriptIndex = 0
  offset : e.offset = 0
  expanded : e.expanded = false

/-- An engine has what it was made with, and a machine that has run nothing. -/
theorem settings_of_ofWitness {witness : List Bytes}
    (h : ofWitness locking witness flags c start = .ok e) :
    Spend.classify locking witness = .ok e.spend ∧ e.locking = locking ∧ e.witness = witness ∧
      e.flags = flags ∧ e.checker = c ∧ e.machine = Machine.start start := by
  unfold ofWitness at h
  obtain ⟨spend, hspend, h⟩ := except_bind_ok.1 h
  obtain ⟨scripts, -, h⟩ := except_bind_ok.1 h
  cases h
  exact ⟨hspend, rfl, rfl, rfl, rfl, rfl⟩

theorem machine_of_ofWitness {witness : List Bytes}
    (h : ofWitness locking witness flags c start = .ok e) : e.machine = Machine.start start := by
  obtain ⟨-, -, -, -, -, hmachine⟩ := settings_of_ofWitness h
  exact hmachine

/-- The locking script of a spend locked by a height is the push of the height. -/
theorem lockingScript_of_isLockHeight {witness : List Bytes}
    (h : ofWitness locking witness flags c start = .ok e) (hs : e.spend.isLockHeight = true) :
    ∃ data, e.lockingScript = [⟨⟨0x08⟩, data⟩] ∧ data.length = 8 ∧
      Limit.minLockHeight ≤ Bytes.natLE data ∧ Bytes.natLE data < Limit.lockHeightBound := by
  obtain ⟨hspend, hlocking, -⟩ := settings_of_ofWitness h
  cases hkind : e.spend with
  | hashLocked program =>
    rw [hkind] at hs
    cases hs
  | lockHeight height =>
    rw [hkind] at hspend
    obtain ⟨data, hparse, hlen, rfl, hbounds⟩ := Spend.parse_of_lockHeight hspend
    refine ⟨data, ?_, hlen, hbounds⟩
    unfold lockingScript
    rw [hlocking, hparse]

/-- An engine is made from a witness with two scripts, the first one of pushes only. -/
theorem exists_fresh_of_ofWitness {witness : List Bytes}
    (h : ofWitness locking witness flags c start = .ok e) :
    ∃ w₀ w₁ rest s₀ s₁, witness = w₀ :: w₁ :: rest ∧ Script.parse w₀ = .ok s₀ ∧
      Script.parse w₁ = .ok s₁ ∧ (∀ i ∈ s₀, i.isPush = true) ∧ e.Fresh s₀ s₁ := by
  obtain ⟨hspend, -⟩ := settings_of_ofWitness h
  obtain ⟨w₀, w₁, rest, rfl⟩ := Spend.exists_cons_of_classify hspend
  obtain ⟨_, s₀, s₁, hclass, h₀, h₁, rfl⟩ := ofWitness_ok.1 h
  obtain ⟨hne₀, hne₁, hpush, -⟩ := Spend.classify_ok.1 hclass
  have hs₀ : s₀ ≠ [] := by
    rintro rfl
    exact hne₀ (Script.eq_nil_of_parse h₀)
  have hs₁ : s₁ ≠ [] := by
    rintro rfl
    exact hne₁ (Script.eq_nil_of_parse h₁)
  have hall : ∀ i ∈ s₀, i.isPush = true := by
    unfold Script.isPushOnly at hpush
    rw [h₀] at hpush
    exact List.all_eq_true.1 hpush
  exact ⟨w₀, w₁, rest, s₀, s₁, rfl, h₀, h₁, hall, rfl, hs₀, hs₁, rfl, rfl, rfl⟩

/-- The first script of a new engine is what its first element spells, a script of the push range. -/
theorem fresh_of_ofWitness {s₀ : Script} (h : ofWitness locking (w₀ :: rest) flags c start = .ok e)
    (hs₀ : Script.parse w₀ = .ok s₀) :
    ∃ s₁, e.Fresh s₀ s₁ ∧ ∀ i ∈ s₀, i.isPush = true := by
  obtain ⟨_, _, _, s, s₁, hwitness, hs, -, hpush, hfresh⟩ := exists_fresh_of_ofWitness h
  obtain ⟨rfl, -⟩ := List.cons_eq_cons.1 hwitness
  obtain rfl : s₀ = s := Except.ok.inj (hs₀.symm.trans hs)
  exact ⟨s₁, hfresh, hpush⟩

end Engine

end SpendScript

/-
  Two machines side by side. A coupling says how they correspond: the second may hold further items
  below its stack, be inside other conditionals, have counted fewer operations, and have a checker
  with a state of its own. An exact coupling carries errors over from the first to the second. The
  second machine may run under fewer rules than the first (`Flags.Relaxes`).
-/
import SpendScript.Machine.Execute
import SpendScript.Proofs.Machine.Locality
import SpendScript.Proofs.Simulation

namespace SpendScript

namespace Flags

/-- Every rule of `F` is one of `G`. -/
structure Sub (F G : Flags) : Prop where
  strictEncoding : F.strictEncoding = true → G.strictEncoding = true
  minimalData : F.minimalData = true → G.minimalData = true
  discourageUpgradableNops : F.discourageUpgradableNops = true → G.discourageUpgradableNops = true
  checkLockTime : F.checkLockTime = true → G.checkLockTime = true
  checkSequence : F.checkSequence = true → G.checkSequence = true
  nullDummy : F.nullDummy = true → G.nullDummy = true

instance : HasSubset Flags := ⟨Sub⟩

/-- `F` asks for less than `G`. A lock that only `G` checks is an upgradable opcode for `F`, which
    `F` must not refuse for that. -/
structure Relaxes (F G : Flags) : Prop where
  sub : F ⊆ G
  locks : F.discourageUpgradableNops = false ∨
    (F.checkLockTime = G.checkLockTime ∧ F.checkSequence = G.checkSequence)

theorem Sub.refl (F : Flags) : F ⊆ F := ⟨id, id, id, id, id, id⟩

theorem Relaxes.refl (F : Flags) : F.Relaxes F := ⟨Sub.refl F, Or.inr ⟨rfl, rfl⟩⟩

end Flags

/-- How two machines correspond. -/
structure Coupling (σ τ : Type) where
  /-- The items that the second machine has below those of the first. -/
  below : Stack
  /-- How the open conditionals correspond. -/
  branches : Branches → Branches → Prop
  /-- How the states of the checkers correspond. -/
  checker : σ → τ → Prop
  /-- Errors are carried over as well. -/
  exact : Prop
  below_of_exact : exact → below = []

namespace Coupling

variable {σ τ α : Type} {K : Coupling σ τ}

/-- The two machines correspond. -/
structure Holds (K : Coupling σ τ) (m : Machine σ) (n : Machine τ) : Prop where
  stack : n.stack = m.stack ++ K.below
  alt : n.alt = m.alt
  branches : K.branches m.branches n.branches
  opCount_le : n.opCount ≤ m.opCount
  opCount_eq : K.exact → n.opCount = m.opCount
  codeStart : n.codeStart = m.codeStart
  checker : K.checker m.checker n.checker

/-- The rules that two coupled machines run under: flags that ask no more of the second, and
    checkers that answer alike and keep their states in correspondence. A lock that the second
    machine does not check is asked about by the first alone. -/
structure Settings (K : Coupling σ τ) (c : Checker σ) (G : Flags) (d : Checker τ) (F : Flags) :
    Prop where
  flags : F.Relaxes G
  flags_eq : K.exact → F = G
  signature : ∀ q s t, K.checker s t →
    (d.checkSignature q t).1 = (c.checkSignature q s).1 ∧
      K.checker (c.checkSignature q s).2 (d.checkSignature q t).2
  lockTime : ∀ n s t, K.checker s t →
    (d.checkLockTime n t).1 = (c.checkLockTime n s).1 ∧
      K.checker (c.checkLockTime n s).2 (d.checkLockTime n t).2
  sequence : ∀ n s t, K.checker s t →
    (d.checkSequence n t).1 = (c.checkSequence n s).1 ∧
      K.checker (c.checkSequence n s).2 (d.checkSequence n t).2
  lockTime_alone : F.checkLockTime ≠ G.checkLockTime →
    ∀ n s t, K.checker s t → K.checker (c.checkLockTime n s).2 t
  sequence_alone : F.checkSequence ≠ G.checkSequence →
    ∀ n s t, K.checker s t → K.checker (c.checkSequence n s).2 t

/-- The contexts of two coupled machines, which run the same script. -/
structure Contexts (K : Coupling σ τ) (c : Context σ) (d : Context τ) : Prop extends
    Settings K c.checker c.flags d.checker d.flags where
  script : d.script = c.script
  versionZero : d.versionZero = c.versionZero

/-- From coupled machines, `y` does what `x` does. -/
abbrev Follows (K : Coupling σ τ) (x : MachineM σ α) (y : MachineM τ α) : Prop :=
  SpendScript.Follows K.Holds K.exact x y

/-! ## The parts of a machine -/

open MachineM StackM

theorem follows_onStack {f g : StackM α} (h : Lifts f g) (he : K.exact → g = f) :
    K.Follows (onStack f) (onStack g) := by
  intro m n hk
  unfold onStack
  rcases hf : f m.stack with ⟨a, s⟩ | ⟨e, s⟩
  · rw [hk.stack, h m.stack a s K.below hf]
    exact .ok a { hk with stack := rfl }
  · intro hx
    have hs : n.stack = m.stack := by rw [hk.stack, K.below_of_exact hx, List.append_nil]
    rw [hs, he hx, hf]
    refine ⟨_, rfl, { hk with stack := ?_ }⟩
    rw [K.below_of_exact hx, List.append_nil]

theorem follows_onStack_self {f : StackM α} (h : Lifts f f) : K.Follows (onStack f) (onStack f) :=
  follows_onStack h fun _ => rfl

theorem follows_onAlt (f : StackM α) : K.Follows (onAlt f) (onAlt f) := by
  intro m n hk
  unfold onAlt
  rw [hk.alt]
  have hk' (s : Stack) : K.Holds { m with alt := s } { n with alt := s } := { hk with alt := rfl }
  rcases f m.alt with ⟨a, s⟩ | ⟨e, s⟩
  · exact .ok a (hk' s)
  · exact .error _ (hk' s)

theorem follows_countOperations (k : Nat) :
    K.Follows (countOperations k) (countOperations k) := by
  intro m n hk
  have hle := hk.opCount_le
  unfold countOperations
  dsimp only
  by_cases hm : Limit.operations < m.opCount + k
  · rw [if_pos hm]
    intro he
    rw [hk.opCount_eq he, if_pos hm]
    exact ⟨_, rfl, { hk with opCount_le := Nat.le_refl _, opCount_eq := fun _ => rfl }⟩
  · have hn : ¬ Limit.operations < n.opCount + k := by omega
    rw [if_neg hm, if_neg hn]
    refine ⟨_, rfl, { hk with opCount_le := Nat.add_le_add_right hle k, opCount_eq := ?_ }⟩
    intro he
    rw [hk.opCount_eq he]

theorem follows_executing (hb : ∀ b b', K.branches b b' → b'.executing = b.executing) :
    K.Follows (executing) (executing) := by
  intro m n hk
  unfold MachineM.executing
  rw [hb _ _ hk.branches]
  exact .ok _ hk

theorem follows_ofNumber (r : Except Number.Error α) : K.Follows (ofNumber r) (ofNumber r) :=
  follows_ofExcept _ (fun _ h => h) fun _ => rfl

theorem follows_ofEncoding {r r' : Except EncodingError Unit} (h : r = .ok () → r' = .ok ())
    (he : K.exact → r' = r) : K.Follows (ofEncoding r) (ofEncoding r') :=
  follows_ofExcept _ (fun _ hr => h hr) he

end Coupling

end SpendScript

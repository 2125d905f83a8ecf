/-
  Verifications with a cache of any kind. A verification does two things with a cache: it looks a
  signature up, and it adds one that was not known and is valid. It depends on nothing else of the
  cache (`CacheService`), so two verifications are compared by what their caches make of one
  signature (`Spending.verifyBy_alike`).

  A cache is honest if it knows valid signatures only, as long as only valid ones are added. With an
  honest cache a verification ends as it does without one (`Spending.verifyBy_honest`).
-/
import SpendScript.Proofs.Engine.Coupling
import SpendScript.Proofs.RecentSignatures
import SpendScript.Verify

namespace SpendScript

variable {γ δ : Type}

/-- The signature is one of its digest and its key. -/
def CachedSignature.valid (e : CachedSignature) : Bool := e.signature.isValid e.digest e.key

/-- What a cache does for a verification. -/
structure CacheService (γ : Type) where
  /-- Whether the signature is known, and the cache after the question. -/
  lookup : CachedSignature → γ → Bool × γ
  add : CachedSignature → γ → γ

namespace CacheService

/-- The answer to a call. That to an addition is not looked at. -/
def serve (A : CacheService γ) : SignatureCache.Call → γ → Bool × γ
  | .lookup e, c => A.lookup e c
  | .add e, c => (true, A.add e c)

/-- Checks a signature with the help of a cache. -/
def check (A : CacheService γ) (e : CachedSignature) (c : γ) : Bool × γ :=
  let (known, c) := A.lookup e c
  if known then (true, c)
  else if e.valid then (true, A.add e c)
  else (false, c)

/-- What checking a signature makes of a cache. -/
theorem check_snd (A : CacheService γ) (e : CachedSignature) (c : γ) :
    (A.check e c).2 =
      if (A.lookup e c).1 = false ∧ e.valid = true then A.add e (A.lookup e c).2
      else (A.lookup e c).2 := by
  unfold check
  dsimp only
  cases (A.lookup e c).1 <;> cases e.valid <;> rfl

/-- The caches in these states tell the truth about signatures. -/
structure Honest (A : CacheService γ) (I : γ → Prop) : Prop where
  known {c : γ} {e : CachedSignature} (h : I c) (hknown : (A.lookup e c).1 = true) : e.valid = true
  lookup {c : γ} (h : I c) (e : CachedSignature) : I (A.lookup e c).2
  add {c : γ} {e : CachedSignature} (h : I c) (he : e.valid = true) : I (A.add e c)

/-- Related caches give the same answer about every signature, and stay related. -/
def Alike (A : CacheService γ) (B : CacheService δ) (R : γ → δ → Prop) : Prop :=
  ∀ e c d, R c d → (B.check e d).1 = (A.check e c).1 ∧ R (A.check e c).2 (B.check e d).2

variable {A : CacheService γ} {B : CacheService δ} {I : γ → Prop} {J : δ → Prop}
  {R : γ → δ → Prop} {c : γ} {d : δ}

/-- An honest cache answers as the curve does. -/
theorem Honest.check (hA : A.Honest I) (h : I c) (e : CachedSignature) :
    (A.check e c).1 = e.valid ∧ I (A.check e c).2 := by
  have hlook : I (A.lookup e c).2 := hA.lookup h e
  unfold CacheService.check
  dsimp only
  by_cases hk : (A.lookup e c).1 = true
  · rw [if_pos hk]
    exact ⟨(hA.known h hk).symm, hlook⟩
  · rw [if_neg hk]
    by_cases hv : e.valid = true
    · rw [if_pos hv]
      exact ⟨hv.symm, hA.add hlook hv⟩
    · rw [if_neg hv]
      exact ⟨(Bool.eq_false_iff.2 hv).symm, hlook⟩

/-- Honest caches give the same answers whatever is in them. -/
theorem Honest.alike (hA : A.Honest I) (hB : B.Honest J)
    (hR : ∀ e c d, I c → J d → R c d → R (A.check e c).2 (B.check e d).2) :
    Alike A B fun c d => I c ∧ J d ∧ R c d := by
  rintro e c d ⟨hc, hd, h⟩
  obtain ⟨hvA, hcA⟩ := hA.check hc e
  obtain ⟨hvB, hdB⟩ := hB.check hd e
  exact ⟨hvB.trans hvA.symm, hcA, hdB, hR e c d hc hd h⟩

end CacheService

namespace SignatureCache

/-- The cache there may be. -/
def service : CacheService (Option SignatureCache) where
  lookup e
    | none => (false, none)
    | some c =>
      let (known, c) := c.lookup e.digest e.signature e.key
      (known, some c)
  add e c := c.map fun c => c.add e.digest e.signature e.key

theorem check_service_none (e : CachedSignature) : service.check e none = (e.valid, none) := by
  unfold CacheService.check service
  cases e.valid <;> rfl

end SignatureCache

/-! ## Verdicts -/

namespace Spending

open CacheService

variable {A : CacheService γ} {B : CacheService δ} {R : γ → δ → Prop} {c : γ} {d : δ}

/-- The checker of the spend with a cache of this kind. -/
def checkerBy (s : Spending) (A : CacheService γ) : Checker γ where
  checkSignature q c :=
    match s.digest? q with
    | none => (.error (.sigHash "invalid input index"), c)
    | some digest =>
      let (valid, c) := A.check ⟨digest, q.signature, q.key⟩ c
      (.ok valid, c)
  checkLockTime n c := (s.lockTimeReached n, c)
  checkSequence n c := (s.sequenceReached n, c)

/-- Verifies that a spend may unlock a script. -/
def verifyBy (s : Spending) (A : CacheService γ) (locking : Bytes) (flags : Flags) (c : γ) :
    Verdict × γ :=
  match s.tx.inputs[s.index]? with
  | none => (.error (.witness (.inputIndex s.index s.tx.inputs.length)), c)
  | some input =>
    match Engine.ofWitness locking input.witness flags (s.checkerBy A) c with
    | .error e => (.error e, c)
    | .ok engine =>
      match engine.execute with
      | .ok () engine => (.ok (), engine.machine.checker)
      | .error e engine => (.error e, engine.machine.checker)

theorem checkDigest_eq (digest : Bytes) (q : SignatureQuery) (cache : Option SignatureCache) :
    checkDigest digest q cache =
      SignatureCache.service.check ⟨digest, q.signature, q.key⟩ cache := by
  cases cache with
  | none => exact (SignatureCache.check_service_none ⟨digest, q.signature, q.key⟩).symm
  | some c => rfl

theorem checker_eq (s : Spending) : s.checker = s.checkerBy SignatureCache.service := by
  unfold checker checkerBy
  congr 1
  funext q cache
  rcases s.digest? q with _ | digest
  · rfl
  · dsimp only
    rw [checkDigest_eq]

/-- The cache of signatures is one kind of cache. -/
theorem verify_eq (s : Spending) (locking : Bytes) (flags : Flags)
    (cache : Option SignatureCache) :
    s.verify locking flags cache = s.verifyBy SignatureCache.service locking flags cache := by
  unfold verify verifyBy Engine.ofSpending
  rw [← checker_eq]
  rcases s.tx.inputs[s.index]? with _ | input
  · rfl
  · dsimp only
    rcases Engine.ofWitness locking input.witness flags s.checker cache with err | e
    · rfl
    · dsimp only
      rcases e.execute with ⟨_, e'⟩ | ⟨err, e'⟩ <;> rfl

theorem settings_alike (s : Spending) (F : Flags) (h : Alike A B R) :
    (Coupling.ofCheckers R True).Settings (s.checkerBy A) F (s.checkerBy B) F where
  flags := .refl F
  flags_eq _ := rfl
  signature := by
    intro q c d hcd
    unfold checkerBy
    dsimp only
    rcases s.digest? q with _ | digest
    · exact ⟨rfl, hcd⟩
    · obtain ⟨hv, hr⟩ := h ⟨digest, q.signature, q.key⟩ c d hcd
      exact ⟨congrArg Except.ok hv, hr⟩
  lockTime _ _ _ hcd := ⟨rfl, hcd⟩
  sequence _ _ _ hcd := ⟨rfl, hcd⟩
  lockTime_alone h := absurd rfl h
  sequence_alone h := absurd rfl h

/-- **One verdict.** Caches that are alike lead to the same verdict, and are alike after it. -/
theorem verifyBy_alike (s : Spending) (locking : Bytes) (flags : Flags) (h : Alike A B R)
    (hcd : R c d) :
    (s.verifyBy B locking flags d).1 = (s.verifyBy A locking flags c).1 ∧
      R (s.verifyBy A locking flags c).2 (s.verifyBy B locking flags d).2 := by
  have hlevel := Coupling.level_ofCheckers R True
  unfold verifyBy
  rcases s.tx.inputs[s.index]? with _ | input
  · exact ⟨rfl, hcd⟩
  · dsimp only
    rw [Engine.ofWitness_refit locking input.witness flags (s.checkerBy A) c flags
      (s.checkerBy B) d]
    rcases he : Engine.ofWitness locking input.witness flags (s.checkerBy A) c with err | e
    · exact ⟨rfl, hcd⟩
    · obtain ⟨hchecker, hflags, hmachine⟩ := Engine.ofWitness_fresh he
      have hcoupled : (Coupling.ofCheckers R True).Engines e
          (e.refit (s.checkerBy B) flags (Machine.start d)) := by
        refine ⟨s.checkerBy B, flags, _, rfl, ?_, ?_⟩
        · rw [hchecker, hflags]
          exact settings_alike s flags h
        · rw [hmachine]
          exact Engine.holds_start hlevel hcd
      dsimp only [Except.map]
      rcases hx : e.execute with ⟨_, e'⟩ | ⟨err, e'⟩
      · obtain ⟨f, hf, _, _, _, rfl, -, hk⟩ := (Engine.follows_execute hlevel).ok hcoupled hx
        rw [hf]
        exact ⟨rfl, hk.checker⟩
      · obtain ⟨f, hf, _, _, _, rfl, -, hk⟩ :=
          (Engine.follows_execute hlevel).error trivial hcoupled hx
        rw [hf]
        exact ⟨rfl, hk.checker⟩

/-- With an honest cache the verdict is the one without a cache, and the cache stays honest. -/
theorem verifyBy_honest (s : Spending) (locking : Bytes) (flags : Flags) {I : γ → Prop}
    (hA : A.Honest I) (h : I c) :
    (s.verifyBy A locking flags c).1 = (s.verify locking flags none).1 ∧
      I (s.verifyBy A locking flags c).2 := by
  have halike : Alike A SignatureCache.service fun c cache => I c ∧ cache = none := by
    rintro e c _ ⟨hc, rfl⟩
    obtain ⟨hv, hkept⟩ := hA.check hc e
    rw [SignatureCache.check_service_none]
    exact ⟨hv.symm, hkept, rfl⟩
  obtain ⟨hverdict, hkept, -⟩ := s.verifyBy_alike locking flags halike ⟨h, rfl⟩
  rw [verify_eq]
  exact ⟨hverdict.symm, hkept⟩

end Spending

end SpendScript

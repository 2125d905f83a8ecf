/-
  The signature cache never changes a verdict. Every cached signature is valid for its digest and
  its key (`SignatureCache.Valid`), whatever has been looked up, stored or dropped. So the cache is
  an honest one (`honest_service`): a run with it ends as the run without one, and leaves a cache of
  that kind for the next call.

  Whole inputs come one after the other here, in any order. In `SideBySide` they take turns with the
  cache, and the cache may keep any map.
-/
import Mathlib.Data.List.Basic
import SpendScript.Proofs.CacheService

namespace SpendScript

/-! ## What the cache holds -/

namespace SignatureCache

variable {c : SignatureCache} {digest : Bytes} {sig : Signature} {key : PublicKey}

/-- Every cached signature is valid for its digest and key. -/
def Valid (c : SignatureCache) : Prop :=
  ∀ e ∈ c.entries, e.signature.isValid e.digest e.key = true

theorem valid_empty (capacity : Nat) : (empty capacity).Valid := by
  intro e he
  exact absurd he List.not_mem_nil

/-- The entry of a digest is a valid signature of that digest. -/
theorem Valid.of_find? (h : c.Valid) {entry : CachedSignature} (hf : c.find? digest = some entry) :
    entry.digest = digest ∧ entry.signature.isValid digest entry.key = true := by
  have hd : entry.digest = digest := by
    have hp := List.find?_some hf
    exact eq_of_beq hp
  have hv := h entry (List.mem_of_find?_eq_some hf)
  rw [hd] at hv
  exact ⟨hd, hv⟩

theorem Valid.promote (h : c.Valid) {entry : CachedSignature}
    (he : entry.signature.isValid entry.digest entry.key = true) : (c.promote entry).Valid := by
  intro e hmem
  rcases List.mem_cons.1 hmem with rfl | hold
  · exact he
  · exact h e ((List.mem_filter.1 hold).1)

theorem Valid.lookup (h : c.Valid) : (c.lookup digest sig key).2.Valid := by
  unfold SignatureCache.lookup
  rcases hf : c.find? digest with _ | entry
  · exact h
  · obtain ⟨hd, hv⟩ := h.of_find? hf
    rw [← hd] at hv
    exact h.promote hv

/-- What the cache knows is valid. Digest, signature and key all have to agree for that. -/
theorem Valid.of_lookup (h : c.Valid) (hl : (c.lookup digest sig key).1 = true) :
    sig.isValid digest key = true := by
  unfold SignatureCache.lookup at hl
  rcases hf : c.find? digest with _ | entry
  · rw [hf] at hl
    exact absurd hl Bool.false_ne_true
  · rw [hf] at hl
    obtain ⟨-, hv⟩ := h.of_find? hf
    obtain ⟨rfl, rfl⟩ : entry.signature = sig ∧ entry.key = key := by simpa using hl
    exact hv

/-- Entries that are dropped take nothing from the validity of the others. -/
theorem Valid.add (h : c.Valid) (hs : sig.isValid digest key = true) :
    (c.add digest sig key).Valid := by
  intro e he
  exact h.promote hs e (List.mem_of_mem_take he)

end SignatureCache

/-- There is no cache, or a valid one. -/
def Trusted (cache : Option SignatureCache) : Prop := ∀ c ∈ cache, c.Valid

theorem trusted_some {c : SignatureCache} (h : c.Valid) : Trusted (some c) := by
  intro c' hc
  obtain rfl := Option.some.inj hc
  exact h

theorem trusted_empty (capacity : Nat) : Trusted (some (.empty capacity)) :=
  trusted_some (SignatureCache.valid_empty capacity)

/-- Such a cache tells the truth about signatures. -/
theorem honest_service : SignatureCache.service.Honest Trusted where
  known {cache e} h hknown := by
    cases cache with
    | none => exact absurd hknown Bool.false_ne_true
    | some c => exact (h c rfl).of_lookup hknown
  lookup {cache} h e := by
    cases cache with
    | none => exact h
    | some c => exact trusted_some (h c rfl).lookup
  add {cache e} h he := by
    cases cache with
    | none => exact h
    | some c => exact trusted_some ((h c rfl).add he)

/-! ## Answers about signatures -/

namespace Spending

/-- A cache that can be trusted answers as the curve does, and stays one that can be trusted. -/
theorem checkDigest_trusted (digest : Bytes) (q : SignatureQuery) {cache : Option SignatureCache}
    (h : Trusted cache) :
    (checkDigest digest q cache).1 = q.signature.isValid digest q.key ∧
      Trusted (checkDigest digest q cache).2 := by
  rw [checkDigest_eq]
  exact honest_service.check h _

/-- One verdict is the verdict without a cache, and leaves a cache that can be trusted. -/
theorem verify_trusted (s : Spending) (locking : Bytes) (flags : Flags)
    {cache : Option SignatureCache} (h : Trusted cache) :
    (s.verify locking flags cache).1 = (s.verify locking flags none).1 ∧
      Trusted (s.verify locking flags cache).2 := by
  rw [s.verify_eq locking flags cache]
  exact s.verifyBy_honest locking flags honest_service h

end Spending

/-! ## Calls that share a cache -/

namespace Transaction

/-- Verifies the inputs in an order of its own, and gives the verdicts in the order of the
    inputs. -/
def verifyScheduled (tx : Transaction) (spent : List TxOutput) (flags : Flags) (order : List Nat)
    (cache : Option SignatureCache) : List Verdict × Option SignatureCache :=
  let (verdicts, cache) := tx.verifyEach spent flags order cache
  ((List.range tx.inputs.length).filterMap fun i => (order.zip verdicts).lookup i, cache)

/-- The verdict on an input, found without a cache. -/
def verdict (tx : Transaction) (spent : List TxOutput) (flags : Flags) (index : Nat) : Verdict :=
  match spent[index]? with
  | none => .error (.witness (.inputIndex index spent.length))
  | some output => (Spending.verify ⟨tx, index, output.amount⟩ output.script flags none).1

variable (tx : Transaction) (spent : List TxOutput) (flags : Flags) {cache : Option SignatureCache}

theorem verifyAt_trusted (index : Nat) (h : Trusted cache) :
    (tx.verifyAt spent flags index cache).1 = tx.verdict spent flags index ∧
      Trusted (tx.verifyAt spent flags index cache).2 := by
  unfold verifyAt verdict
  rcases spent[index]? with _ | output
  · exact ⟨rfl, h⟩
  · exact Spending.verify_trusted _ _ _ h

theorem verifyEach_trusted (order : List Nat) (h : Trusted cache) :
    (tx.verifyEach spent flags order cache).1 = order.map (tx.verdict spent flags) ∧
      Trusted (tx.verifyEach spent flags order cache).2 := by
  induction order generalizing cache with
  | nil => exact ⟨rfl, h⟩
  | cons index order ih =>
    obtain ⟨hv, hc⟩ := verifyAt_trusted tx spent flags index h
    obtain ⟨hvs, hcs⟩ := ih hc
    unfold verifyEach
    dsimp only
    rw [hv, hvs]
    exact ⟨rfl, hcs⟩

/-- Each input is found next to its own verdict. -/
theorem lookup_zip_map {f : Nat → Verdict} {order : List Nat} {i : Nat} (hi : i ∈ order) :
    (order.zip (order.map f)).lookup i = some (f i) := by
  induction order with
  | nil => exact absurd hi List.not_mem_nil
  | cons j order ih =>
    rw [List.map_cons, List.zip_cons_cons, List.lookup_cons]
    by_cases hj : i = j
    · rw [hj, beq_self_eq_true]
    · rw [beq_false_of_ne hj]
      exact ih ((List.mem_cons.1 hi).resolve_left hj)

theorem verifyScheduled_trusted {order : List Nat}
    (hperm : order.Perm (List.range tx.inputs.length)) (h : Trusted cache) :
    (tx.verifyScheduled spent flags order cache).1 =
        (List.range tx.inputs.length).map (tx.verdict spent flags) ∧
      Trusted (tx.verifyScheduled spent flags order cache).2 := by
  obtain ⟨hv, hc⟩ := verifyEach_trusted tx spent flags order h
  refine ⟨?_, hc⟩
  unfold verifyScheduled
  dsimp only
  have hlook : ∀ i ∈ List.range tx.inputs.length,
      (order.zip (order.map (tx.verdict spent flags))).lookup i =
        some (tx.verdict spent flags i) := by
    intro i hi
    exact lookup_zip_map (hperm.mem_iff.2 hi)
  rw [hv, List.filterMap_congr hlook, List.filterMap_eq_map']

end Transaction

/-- A call that verifies one input, or all inputs of a transaction in some order. -/
inductive Call where
  | input (s : Spending) (locking : Bytes) (flags : Flags)
  | inputs (tx : Transaction) (spent : List TxOutput) (flags : Flags) (order : List Nat)
    (perm : order.Perm (List.range tx.inputs.length))

namespace Call

/-- The verdicts of a call that uses the cache, and the cache it leaves. -/
def run : Call → Option SignatureCache → List Verdict × Option SignatureCache
  | input s locking flags, cache =>
    let (verdict, cache) := s.verify locking flags cache
    ([verdict], cache)
  | inputs tx spent flags order _, cache => tx.verifyScheduled spent flags order cache

/-- The verdicts of calls one after the other, which share the cache. -/
def runAll : List Call → Option SignatureCache → List (List Verdict) × Option SignatureCache
  | [], cache => ([], cache)
  | call :: calls, cache =>
    let (verdicts, cache) := call.run cache
    let (rest, cache) := runAll calls cache
    (verdicts :: rest, cache)

/-- The verdicts of a call made on its own, without a cache. -/
def alone : Call → List Verdict
  | input s locking flags => [(s.verify locking flags none).1]
  | inputs tx spent flags _ _ => (List.range tx.inputs.length).map (tx.verdict spent flags)

theorem run_trusted (call : Call) {cache : Option SignatureCache} (h : Trusted cache) :
    (call.run cache).1 = call.alone ∧ Trusted (call.run cache).2 := by
  rcases call with ⟨s, locking, flags⟩ | ⟨tx, spent, flags, order, hperm⟩
  · obtain ⟨hv, hc⟩ := s.verify_trusted locking flags h
    exact ⟨congrArg (fun v => [v]) hv, hc⟩
  · exact Transaction.verifyScheduled_trusted tx spent flags hperm h

theorem runAll_trusted (calls : List Call) {cache : Option SignatureCache} (h : Trusted cache) :
    (runAll calls cache).1 = calls.map alone ∧ Trusted (runAll calls cache).2 := by
  induction calls generalizing cache with
  | nil => exact ⟨rfl, h⟩
  | cons call calls ih =>
    obtain ⟨hv, hc⟩ := call.run_trusted h
    obtain ⟨hvs, hcs⟩ := ih hc
    unfold runAll
    dsimp only
    rw [hv, hvs]
    exact ⟨rfl, hcs⟩

/-- **The cache is transparent.** Calls that share a cache, empty at first and of any capacity, give
    the verdicts they give without one. After them all inputs of any transaction get their own
    verdicts, in the order of the inputs. -/
theorem runAll_eq_alone (capacity : Nat) (calls : List Call) :
    (runAll calls (some (.empty capacity))).1 = calls.map alone ∧
      ∀ (tx : Transaction) (spent : List TxOutput) (flags : Flags),
        (tx.verifyInputs spent flags (runAll calls (some (.empty capacity))).2).1 =
          (List.range tx.inputs.length).map (tx.verdict spent flags) := by
  have hempty : Trusted (some (.empty capacity)) :=
    trusted_some (SignatureCache.valid_empty capacity)
  obtain ⟨hv, hc⟩ := runAll_trusted calls hempty
  refine ⟨hv, fun tx spent flags => ?_⟩
  exact (Transaction.verifyEach_trusted tx spent flags (List.range tx.inputs.length) hc).1

end Call

end SpendScript

/-
  What a signature cache holds after any history of calls. Storing a digest is a use of it, and so is
  looking it up where it is found. The cache holds the digests used last, each with the signature and
  the key stored last under it, and as many of them as it has room for (`SignatureCache.recent_afterCalls`).

  A use moves its digest to the front and takes nothing else out, but for the last digest where there
  is no more room. That cuts off the same digest as moving it in the list of all that have ever been
  used would (`take_eraseDups_cons`), so the cache is the front of that list after every call.
-/
import Mathlib.Data.List.Nodup
import SpendScript.SignatureCache

namespace SpendScript

/-! ## Lists without repetitions, in the order of first occurrence -/

section Lists

variable {α : Type} [BEq α] [LawfulBEq α]

theorem eraseDups_filter (p : α → Bool) (xs : List α) :
    (xs.filter p).eraseDups = xs.eraseDups.filter p := by
  match xs with
  | [] => rfl
  | x :: xs =>
    have hshorter := eraseDups_filter p (xs.filter fun y => !y == x)
    rw [List.eraseDups_cons]
    by_cases hx : p x = true
    · rw [List.filter_cons_of_pos hx, List.filter_cons_of_pos hx, List.eraseDups_cons, ← hshorter,
        List.filter_comm]
    · -- Nothing that `p` keeps is `x`, so it does not matter that `x` is taken out.
      have hsame : (xs.filter fun y => !y == x).filter p = xs.filter p := by
        rw [List.filter_filter]
        refine List.filter_congr fun y _ => ?_
        by_cases hy : y = x
        · simp [hy, hx]
        · simp [hy]
      rw [List.filter_cons_of_neg hx, List.filter_cons_of_neg hx, ← hshorter, hsame,
        eraseDups_filter p xs]
termination_by xs.length
decreasing_by
  · exact Nat.lt_succ_of_le (List.length_filter_le _ _)
  · exact Nat.lt_succ_self _

theorem nodup_eraseDups (xs : List α) : xs.eraseDups.Nodup := by
  induction xs with
  | nil => exact List.nodup_nil
  | cons x xs ih =>
    rw [List.eraseDups_cons, eraseDups_filter, List.nodup_cons]
    refine ⟨fun hx => ?_, ih.filter _⟩
    simpa using (List.mem_filter.1 hx).2

/-- Lists of the same elements have as many different ones. -/
theorem length_eraseDups_congr {xs ys : List α} (h : ∀ x, x ∈ xs ↔ x ∈ ys) :
    xs.eraseDups.length = ys.eraseDups.length := by
  refine ((List.perm_ext_iff_of_nodup (nodup_eraseDups xs) (nodup_eraseDups ys)).2 ?_).length_eq
  intro x
  rw [List.mem_eraseDups, List.mem_eraseDups, h x]

/-- Where an element is taken out, one more place fills the same room. -/
theorem take_filter_ne {xs : List α} (hn : xs.Nodup) (x : α) (n : Nat) :
    ((xs.take (n + 1)).filter (· != x)).take n = (xs.filter (· != x)).take n := by
  induction xs generalizing n with
  | nil => rfl
  | cons y xs ih =>
    obtain ⟨hy, hn⟩ := List.nodup_cons.1 hn
    rw [List.take_succ_cons]
    by_cases hx : y = x
    · have hall (zs : List α) (hzs : zs ⊆ xs) : zs.filter (· != x) = zs := by
        refine List.filter_eq_self.2 fun z hz => ?_
        have hz : z ≠ y := fun heq => hy (heq ▸ hzs hz)
        simpa [← hx] using hz
      have hout : ¬ (fun z => z != x) y = true := by simp [hx]
      rw [List.filter_cons_of_neg (p := fun z => z != x) hout,
        List.filter_cons_of_neg (p := fun z => z != x) hout,
        hall _ (List.take_subset n xs), hall _ (List.Subset.refl xs), List.take_take, Nat.min_self]
    · have hin : (fun z => z != x) y = true := by simp [hx]
      rw [List.filter_cons_of_pos (p := fun z => z != x) hin,
        List.filter_cons_of_pos (p := fun z => z != x) hin]
      cases n with
      | zero => rfl
      | succ n => rw [List.take_succ_cons, List.take_succ_cons, ih hn n]

/-- **One use.** Of the different elements used last, only the front is needed to know the front after
    one more use. -/
theorem take_eraseDups_cons (x : α) (xs : List α) (n : Nat) :
    (x :: xs).eraseDups.take n = (x :: (xs.eraseDups.take n).filter (· != x)).take n := by
  rw [List.eraseDups_cons, eraseDups_filter]
  cases n with
  | zero => rfl
  | succ n =>
    rw [List.take_succ_cons, List.take_succ_cons, take_filter_ne (nodup_eraseDups xs)]
    rfl

/-- The use of an element at the front puts nothing out. -/
theorem take_eraseDups_cons_of_mem {x : α} {xs : List α} {n : Nat} (h : x ∈ xs.eraseDups.take n) :
    (x :: xs).eraseDups.take n = x :: (xs.eraseDups.take n).filter (· != x) := by
  have hshorter : ((xs.eraseDups.take n).filter (· != x)).length < (xs.eraseDups.take n).length :=
    List.length_filter_lt_length_iff_exists.2 ⟨x, h, by simp⟩
  have hle : (xs.eraseDups.take n).length ≤ n := List.length_take_le n _
  rw [take_eraseDups_cons, List.take_of_length_le]
  rw [List.length_cons]
  omega

end Lists

namespace SignatureCache

/-! ## What is stored -/

variable {c : SignatureCache} {digest : Bytes} {sig : Signature} {key : PublicKey}
  {entry : CachedSignature}

/-- The digests that are stored, the one used last first. -/
def digests (c : SignatureCache) : List Bytes := c.entries.map CachedSignature.digest

theorem of_find? (h : c.find? digest = some entry) : entry ∈ c.entries ∧ entry.digest = digest := by
  have hfound := List.find?_some h
  exact ⟨List.mem_of_find?_eq_some h, eq_of_beq hfound⟩

theorem not_mem_digests_of_find? (h : c.find? digest = none) : digest ∉ c.digests := by
  intro hmem
  obtain ⟨entry, hentry, rfl⟩ := List.mem_map.1 hmem
  exact List.find?_eq_none.1 h entry hentry (beq_self_eq_true _)

theorem digests_promote (c : SignatureCache) (entry : CachedSignature) :
    (c.promote entry).digests = entry.digest :: c.digests.filter (· != entry.digest) := by
  unfold promote digests
  rw [List.map_cons, List.filter_map]
  rfl

theorem digests_add (c : SignatureCache) (digest : Bytes) (sig : Signature) (key : PublicKey) :
    (c.add digest sig key).digests =
      (digest :: c.digests.filter (· != digest)).take c.limit := by
  unfold add digests
  rw [List.map_take]
  exact congrArg (List.take c.limit) (digests_promote c ⟨digest, sig, key⟩)

theorem of_mem_promote {e : CachedSignature} (h : e ∈ (c.promote entry).entries) :
    e = entry ∨ e ∈ c.entries ∧ entry.digest ≠ e.digest := by
  rcases List.mem_cons.1 h with heq | hold
  · exact Or.inl heq
  · obtain ⟨hmem, hne⟩ := List.mem_filter.1 hold
    exact Or.inr ⟨hmem, (bne_iff_ne.1 hne).symm⟩

/-! ## Uses -/

variable {us : List Bytes} {es : List CachedSignature}

/-- Uses, the latest first, with that of a digest that is looked up where others are stored. It is one
    if the digest is stored, whatever signature and key are stored under it. -/
def useStored (stored : List Bytes) (digest : Bytes) (earlier : List Bytes) : List Bytes :=
  if digest ∈ stored then digest :: earlier else earlier

/-- Of what has been added, the latest first, the first one with this digest. -/
def latest? (es : List CachedSignature) (digest : Bytes) : Option CachedSignature :=
  es.find? fun e => e.digest == digest

theorem latest?_cons_self (e : CachedSignature) : latest? (e :: es) e.digest = some e :=
  List.find?_cons_of_pos (p := fun a : CachedSignature => a.digest == e.digest)
    (beq_self_eq_true e.digest)

theorem latest?_cons_of_ne {e : CachedSignature} (h : e.digest ≠ digest) :
    latest? (e :: es) digest = latest? es digest :=
  List.find?_cons_of_neg (p := fun a : CachedSignature => a.digest == digest) (mt eq_of_beq h)

/-- The cache holds the digests used last, as far as there is room, each with what has been added last
    under it. Uses and additions are listed with the latest first. -/
structure Recent (us : List Bytes) (es : List CachedSignature) (c : SignatureCache) : Prop where
  digests : c.digests = us.eraseDups.take c.limit
  latest : ∀ e ∈ c.entries, latest? es e.digest = some e

theorem recent_empty (capacity : Nat) : Recent [] [] (empty capacity) :=
  ⟨List.take_nil.symm, fun _ he => absurd he List.not_mem_nil⟩

namespace Recent

/-- Only what is used is stored. -/
theorem mem_uses (h : Recent us es c) (hd : digest ∈ c.digests) : digest ∈ us := by
  rw [h.digests] at hd
  exact List.mem_eraseDups.1 (List.mem_of_mem_take hd)

/-- **Storing** is a use of the digest, and takes the place of what has been stored under it. -/
theorem add (h : Recent us es c) (digest : Bytes) (sig : Signature) (key : PublicKey) :
    Recent (digest :: us) (⟨digest, sig, key⟩ :: es) (c.add digest sig key) where
  digests := by
    rw [digests_add, h.digests]
    exact (take_eraseDups_cons digest us c.limit).symm
  latest e he := by
    rcases of_mem_promote (List.mem_of_mem_take he) with rfl | ⟨hmem, hne⟩
    · exact latest?_cons_self _
    · rw [latest?_cons_of_ne hne]
      exact h.latest e hmem

/-- **Looking up** is a use of the digest if it is found, and nothing is taken out. -/
theorem lookup (h : Recent us es c) (digest : Bytes) (sig : Signature) (key : PublicKey) :
    Recent (useStored c.digests digest us) es (c.lookup digest sig key).2 := by
  unfold SignatureCache.lookup useStored
  rcases hf : c.find? digest with _ | entry
  · rw [if_neg (not_mem_digests_of_find? hf)]
    exact h
  · obtain ⟨hmem, rfl⟩ := of_find? hf
    have hd : entry.digest ∈ c.digests := List.mem_map_of_mem hmem
    rw [if_pos hd]
    refine ⟨?_, fun e he => ?_⟩
    · rw [h.digests] at hd
      rw [digests_promote, h.digests]
      exact (take_eraseDups_cons_of_mem hd).symm
    · rcases of_mem_promote he with rfl | ⟨hold, -⟩
      · exact h.latest e hmem
      · exact h.latest e hold

/-- The answer is yes for the signature and the key added last, as long as they are stored. -/
theorem lookup_eq_true_iff (h : Recent us es c) :
    (c.lookup digest sig key).1 = true ↔
      digest ∈ c.digests ∧ latest? es digest = some ⟨digest, sig, key⟩ := by
  unfold SignatureCache.lookup
  rcases hf : c.find? digest with _ | entry
  · exact iff_of_false Bool.false_ne_true fun hd => not_mem_digests_of_find? hf hd.1
  · obtain ⟨hmem, rfl⟩ := of_find? hf
    have hd : entry.digest ∈ c.digests := List.mem_map_of_mem hmem
    rw [h.latest entry hmem]
    constructor
    · intro hanswer
      obtain ⟨rfl, rfl⟩ : entry.signature = sig ∧ entry.key = key := by simpa using hanswer
      exact ⟨hd, rfl⟩
    · rintro ⟨-, heq⟩
      obtain ⟨-, hsig, hkey⟩ := CachedSignature.mk.inj (Option.some.inj heq)
      simp [hsig, hkey]

end Recent

/-! ## Histories -/

/-- A call of a cache. -/
inductive Call where
  | add (entry : CachedSignature)
  | lookup (entry : CachedSignature)
  deriving DecidableEq

/-- The cache that a call leaves. -/
def Call.run (c : SignatureCache) : Call → SignatureCache
  | .add e => c.add e.digest e.signature e.key
  | .lookup e => (c.lookup e.digest e.signature e.key).2

/-- The cache after calls of an empty one, the latest call first. -/
def afterCalls (capacity : Nat) : List Call → SignatureCache
  | [] => empty capacity
  | call :: earlier => call.run (afterCalls capacity earlier)

/-- What calls have added. -/
def added : List Call → List CachedSignature
  | [] => []
  | .add e :: earlier => e :: added earlier
  | .lookup _ :: earlier => added earlier

/-- The digests that calls have used. -/
def uses (capacity : Nat) : List Call → List Bytes
  | [] => []
  | .add e :: earlier => e.digest :: uses capacity earlier
  | .lookup e :: earlier =>
    useStored (afterCalls capacity earlier).digests e.digest (uses capacity earlier)

theorem limit_afterCalls (capacity : Nat) (calls : List Call) :
    (afterCalls capacity calls).limit = min capacity maxEntries := by
  have hcapacity : (afterCalls capacity calls).capacity = capacity := by
    induction calls with
    | nil => rfl
    | cons call earlier ih =>
      cases call with
      | add e => exact ih
      | lookup e =>
        unfold afterCalls Call.run SignatureCache.lookup
        dsimp only
        split <;> exact ih
  unfold limit
  rw [hcapacity]

/-- **Every history** leaves what has been used last. -/
theorem recent_history (capacity : Nat) (calls : List Call) :
    Recent (uses capacity calls) (added calls) (afterCalls capacity calls) := by
  induction calls with
  | nil => exact recent_empty capacity
  | cons call earlier ih =>
    cases call with
    | add e => exact ih.add e.digest e.signature e.key
    | lookup e => exact ih.lookup e.digest e.signature e.key

/-- Nothing is used that has not been added. -/
theorem mem_uses_iff (capacity : Nat) (calls : List Call) (digest : Bytes) :
    digest ∈ uses capacity calls ↔ digest ∈ (added calls).map CachedSignature.digest := by
  induction calls with
  | nil => exact Iff.rfl
  | cons call earlier ih =>
    cases call with
    | add e =>
      unfold uses added
      rw [List.map_cons, List.mem_cons, List.mem_cons, ih]
    | lookup e =>
      unfold uses added useStored
      rw [← ih]
      split
      · next hstored =>
        have hused := (recent_history capacity earlier).mem_uses hstored
        rw [List.mem_cons, or_iff_right_of_imp]
        rintro rfl
        exact hused
      · exact Iff.rfl

/-- **The signatures used last.** After any calls the cache holds the digests used last, the last one
    first, and as many different ones as its capacity. It is full once that many different ones have been
    added. It answers yes to the signature and the key that have been added last under a stored digest,
    and to nothing else. -/
theorem recent_afterCalls {capacity : Nat} (hcapacity : capacity ≤ maxEntries) (calls : List Call) :
    (afterCalls capacity calls).digests = (uses capacity calls).eraseDups.take capacity ∧
      (afterCalls capacity calls).size =
        min capacity ((added calls).map CachedSignature.digest).eraseDups.length ∧
      ∀ digest sig key, ((afterCalls capacity calls).lookup digest sig key).1 = true ↔
        digest ∈ (afterCalls capacity calls).digests ∧
          latest? (added calls) digest = some ⟨digest, sig, key⟩ := by
  have hrecent := recent_history capacity calls
  have hdigests : (afterCalls capacity calls).digests =
      (uses capacity calls).eraseDups.take capacity := by
    rw [hrecent.digests, limit_afterCalls, Nat.min_eq_left hcapacity]
  refine ⟨hdigests, ?_, fun _ _ _ => hrecent.lookup_eq_true_iff⟩
  calc (afterCalls capacity calls).size
      = (afterCalls capacity calls).digests.length := (List.length_map _).symm
    _ = min capacity (uses capacity calls).eraseDups.length := by rw [hdigests, List.length_take]
    _ = min capacity ((added calls).map CachedSignature.digest).eraseDups.length := by
      rw [length_eraseDups_congr (mem_uses_iff capacity calls)]

end SignatureCache

end SpendScript

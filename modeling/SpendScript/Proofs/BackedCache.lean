/-
  Signature caches, whatever map is behind them. All that is asked of the map is that reading and storing
  make an entry the one used last, and that the entries used longest ago are let go while there are more
  than its limit (`RecencyMap.Lawful`). A cache on such a map is always in step with the cache that keeps
  a list (`BackedCache.backs_afterCalls`), so it holds the signatures used last
  (`BackedCache.holds_recent`).

  Nothing is asked of storing in a map without room, because a cache without capacity never does that.
-/
import SpendScript.Proofs.RecentSignatures
import SpendScript.SignatureCache.Backed

namespace SpendScript

/-- What a map that forgets promises. -/
structure RecencyMap.Lawful {κ ν μ : Type} [BEq κ] (L : RecencyMap κ ν μ) : Prop where
  limit_empty {n : Nat} (h : n ≤ SignatureCache.maxEntries) : L.limit (L.empty n) = n
  entries_empty (n : Nat) : L.entries (L.empty n) = []
  size_eq (m : μ) : L.size m = (L.entries m).length
  get_eq (k : κ) (m : μ) : (L.get k m).1 = (L.entries m).lookup k
  limit_get (k : κ) (m : μ) : L.limit (L.get k m).2 = L.limit m
  /-- What is found becomes the entry used last. -/
  entries_get_found {k : κ} {v : ν} {m : μ} (h : (L.entries m).lookup k = some v) :
    L.entries (L.get k m).2 = (k, v) :: (L.entries m).filter fun e => e.1 != k
  entries_get_missing {k : κ} {m : μ} (h : (L.entries m).lookup k = none) :
    L.entries (L.get k m).2 = L.entries m
  limit_insert (k : κ) (v : ν) (m : μ) : L.limit (L.insert k v m) = L.limit m
  /-- What is stored becomes the entry used last, in place of any other of its key. As many entries
      stay as there is room for. -/
  entries_insert (k : κ) (v : ν) {m : μ} (h : 0 < L.limit m) :
    L.entries (L.insert k v m) =
      ((k, v) :: (L.entries m).filter fun e => e.1 != k).take (L.limit m)

namespace BackedCache

open SignatureCache (Call latest? added maxEntries useStored)

/-- An entry of a map as a cached signature. -/
def ofEntry (e : Bytes × Signature × PublicKey) : CachedSignature := ⟨e.1, e.2.1, e.2.2⟩

theorem find?_ofEntry (es : List (Bytes × Signature × PublicKey)) (digest : Bytes) :
    (es.map ofEntry).find? (fun e => e.digest == digest) =
      (es.lookup digest).map fun entry => ofEntry (digest, entry) := by
  induction es with
  | nil => rfl
  | cons e es ih =>
    rw [List.map_cons, List.lookup_cons]
    by_cases he : e.1 = digest
    · subst he
      rw [List.find?_cons_of_pos (p := fun a : CachedSignature => a.digest == e.1)
        (beq_self_eq_true e.1), beq_self_eq_true]
      rfl
    · rw [List.find?_cons_of_neg (p := fun a : CachedSignature => a.digest == digest)
        (mt eq_of_beq he), beq_false_of_ne (Ne.symm he), ih]

theorem filter_ofEntry (es : List (Bytes × Signature × PublicKey)) (digest : Bytes) :
    (es.map ofEntry).filter (fun e => e.digest != digest) =
      (es.filter fun e => e.1 != digest).map ofEntry := List.filter_map

/-! ## A cache on a map, and a cache on a list -/

variable {μ : Type} {L : RecencyMap Bytes (Signature × PublicKey) μ} {c : BackedCache μ}
  {s : SignatureCache}

/-- A cache on a map is in step with one on a list. -/
structure Backs (L : RecencyMap Bytes (Signature × PublicKey) μ) (c : BackedCache μ)
    (s : SignatureCache) : Prop where
  capacity : c.capacity = s.capacity
  limit : L.limit c.map = s.limit
  entries : (L.entries c.map).map ofEntry = s.entries
  disabled : s.capacity = 0 → s.entries = []

theorem backs_empty (hL : L.Lawful) (capacity : Nat) :
    Backs L (empty L capacity) (SignatureCache.empty capacity) where
  capacity := rfl
  limit := hL.limit_empty (Nat.min_le_right _ _)
  entries := congrArg (List.map ofEntry) (hL.entries_empty _)
  disabled _ := rfl

namespace Backs

theorem find?_eq (h : Backs L c s) (digest : Bytes) :
    s.find? digest =
      ((L.entries c.map).lookup digest).map fun entry => ofEntry (digest, entry) := by
  unfold SignatureCache.find?
  rw [← h.entries, find?_ofEntry]

theorem digests_eq (h : Backs L c s) : (L.entries c.map).map Prod.fst = s.digests := by
  unfold SignatureCache.digests
  rw [← h.entries, List.map_map]
  rfl

theorem size_eq (hL : L.Lawful) (h : Backs L c s) : c.size L = s.size := by
  unfold size SignatureCache.size
  rw [hL.size_eq, ← h.entries, List.length_map]

/-- The entries once one of them has been made the one used last. -/
theorem entries_promote (h : Backs L c s) (digest : Bytes) (entry : Signature × PublicKey) :
    ((digest, entry) :: (L.entries c.map).filter fun e => e.1 != digest).map ofEntry =
      (s.promote (ofEntry (digest, entry))).entries := by
  rw [List.map_cons, ← filter_ofEntry, h.entries]
  rfl

theorem lookup (hL : L.Lawful) (h : Backs L c s) (digest : Bytes) (sig : Signature)
    (key : PublicKey) :
    (c.lookup L digest sig key).1 = (s.lookup digest sig key).1 ∧
      Backs L (c.lookup L digest sig key).2 (s.lookup digest sig key).2 := by
  have hget := hL.get_eq digest c.map
  have hlimit := hL.limit_get digest c.map
  have hfind := h.find?_eq digest
  unfold BackedCache.lookup SignatureCache.lookup
  rcases hfound : (L.entries c.map).lookup digest with _ | entry
  · have hentries := hL.entries_get_missing hfound
    rw [hfound] at hget hfind
    rw [hfind]
    generalize L.get digest c.map = answer at hget hlimit hentries ⊢
    obtain ⟨found, map⟩ := answer
    obtain rfl : found = none := hget
    exact ⟨rfl, h.capacity, hlimit.trans h.limit, hentries ▸ h.entries, h.disabled⟩
  · have hentries := hL.entries_get_found hfound
    rw [hfound] at hget hfind
    rw [hfind]
    generalize L.get digest c.map = answer at hget hlimit hentries ⊢
    obtain ⟨found, map⟩ := answer
    obtain rfl : found = some entry := hget
    refine ⟨rfl, h.capacity, hlimit.trans h.limit, ?_, fun hzero => ?_⟩
    · exact (congrArg (List.map ofEntry) hentries).trans (h.entries_promote digest entry)
    · -- Without capacity nothing would have been found.
      rw [SignatureCache.find?, h.disabled hzero] at hfind
      cases hfind

theorem add (hL : L.Lawful) (h : Backs L c s) (digest : Bytes) (sig : Signature)
    (key : PublicKey) : Backs L (c.add L digest sig key) (s.add digest sig key) := by
  unfold BackedCache.add
  by_cases hzero : c.capacity = 0
  · rw [if_pos hzero]
    have hs : s.capacity = 0 := h.capacity.symm.trans hzero
    have hadded : (s.add digest sig key).entries = [] := by
      have hnone : s.limit = 0 := by
        unfold SignatureCache.limit
        rw [hs, Nat.zero_min]
      change List.take s.limit _ = []
      rw [hnone, List.take_zero]
    exact ⟨h.capacity, h.limit, (h.entries.trans (h.disabled hs)).trans hadded.symm,
      fun _ => hadded⟩
  · rw [if_neg hzero]
    have hroom : 0 < L.limit c.map := by
      rw [h.limit]
      unfold SignatureCache.limit
      exact Nat.lt_min.2 ⟨Nat.pos_of_ne_zero (h.capacity ▸ hzero), by decide⟩
    refine ⟨h.capacity, (hL.limit_insert _ _ _).trans h.limit, ?_,
      fun hs => absurd (h.capacity.trans hs) hzero⟩
    change (L.entries (L.insert digest (sig, key) c.map)).map ofEntry = List.take s.limit _
    rw [hL.entries_insert digest (sig, key) hroom, List.map_take, h.entries_promote, h.limit]
    rfl

end Backs

/-! ## A cache on a list is such a map -/

/-- A cached signature as an entry of a map. -/
def toEntry (e : CachedSignature) : Bytes × Signature × PublicKey := (e.digest, e.signature, e.key)

theorem map_ofEntry_toEntry (es : List CachedSignature) : (es.map toEntry).map ofEntry = es := by
  rw [List.map_map]
  exact List.map_id es

/-- A cache that keeps a list, used as a map. -/
def listMap : RecencyMap Bytes (Signature × PublicKey) SignatureCache where
  empty := SignatureCache.empty
  get digest s :=
    match s.find? digest with
    | none => (none, s)
    | some e => (some (e.signature, e.key), s.promote e)
  insert digest v s := s.add digest v.1 v.2
  size := SignatureCache.size
  limit := SignatureCache.limit
  entries s := s.entries.map toEntry

theorem find?_listMap (s : SignatureCache) (digest : Bytes) :
    s.find? digest = ((listMap.entries s).lookup digest).map fun v => ofEntry (digest, v) := by
  rw [← find?_ofEntry]
  exact congrArg (List.find? _) (map_ofEntry_toEntry s.entries).symm

theorem entries_promote_listMap (s : SignatureCache) (e : CachedSignature) :
    (s.promote e).entries.map toEntry =
      toEntry e :: (listMap.entries s).filter fun a => a.1 != e.digest :=
  congrArg (List.cons (toEntry e)) (List.filter_map (f := toEntry) (p := fun a => a.1 != e.digest)
    (l := s.entries)).symm

theorem lawful_listMap : listMap.Lawful where
  limit_empty := Nat.min_eq_left
  entries_empty _ := rfl
  size_eq s := (List.length_map toEntry).symm
  get_eq digest s := by
    have hfind := find?_listMap s digest
    unfold listMap at hfind ⊢
    dsimp only at hfind ⊢
    rw [hfind]
    cases ((s.entries.map toEntry).lookup digest) <;> rfl
  limit_get digest s := by
    unfold listMap
    dsimp only
    split <;> rfl
  entries_get_found {digest v s} h := by
    have hfind := find?_listMap s digest
    rw [h] at hfind
    have hget : (listMap.get digest s).2 = s.promote (ofEntry (digest, v)) := by
      unfold listMap
      dsimp only
      rw [hfind]
      rfl
    rw [hget]
    exact entries_promote_listMap s (ofEntry (digest, v))
  entries_get_missing {digest s} h := by
    have hfind := find?_listMap s digest
    rw [h] at hfind
    have hget : (listMap.get digest s).2 = s := by
      unfold listMap
      dsimp only
      rw [hfind]
      rfl
    rw [hget]
  limit_insert _ _ _ := rfl
  entries_insert digest v s _ := by
    change (List.take s.limit _).map toEntry = _
    rw [List.map_take]
    exact congrArg (List.take s.limit) (entries_promote_listMap s ⟨digest, v.1, v.2⟩)

/-! ## Histories -/

variable (L) in
/-- The cache that a call leaves. -/
def run (c : BackedCache μ) : Call → BackedCache μ
  | .add e => c.add L e.digest e.signature e.key
  | .lookup e => (c.lookup L e.digest e.signature e.key).2

variable (L) in
/-- The cache after calls of an empty one, the latest call first. -/
def afterCalls (capacity : Nat) : List Call → BackedCache μ
  | [] => empty L capacity
  | call :: earlier => (afterCalls capacity earlier).run L call

variable (L) in
/-- The digests that are stored, the one used last first. -/
def digests (c : BackedCache μ) : List Bytes := (L.entries c.map).map Prod.fst

variable (L) in
/-- The digests that calls have used. -/
def uses (capacity : Nat) : List Call → List Bytes
  | [] => []
  | .add e :: earlier => e.digest :: uses capacity earlier
  | .lookup e :: earlier =>
    useStored ((afterCalls L capacity earlier).digests L) e.digest (uses capacity earlier)

/-- **Every history** keeps a cache on a map in step with one on a list. -/
theorem backs_afterCalls (hL : L.Lawful) (capacity : Nat) (calls : List Call) :
    Backs L (afterCalls L capacity calls) (SignatureCache.afterCalls capacity calls) := by
  induction calls with
  | nil => exact backs_empty hL capacity
  | cons call earlier ih =>
    cases call with
    | add e => exact ih.add hL e.digest e.signature e.key
    | lookup e => exact (ih.lookup hL e.digest e.signature e.key).2

theorem uses_eq (hL : L.Lawful) (capacity : Nat) (calls : List Call) :
    uses L capacity calls = SignatureCache.uses capacity calls := by
  induction calls with
  | nil => rfl
  | cons call earlier ih =>
    cases call with
    | add e => exact congrArg (List.cons _) ih
    | lookup e =>
      rw [uses, SignatureCache.uses, digests, (backs_afterCalls hL capacity earlier).digests_eq, ih]

/-- **The signatures used last.** After any calls a cache on a map that forgets holds the digests used
    last, the last one first, and as many different ones as its capacity. It is full once that many
    different ones have been added. It answers yes to the signature and the key that have been added last
    under a stored digest, and to nothing else. -/
theorem holds_recent (hL : L.Lawful) {capacity : Nat} (hcapacity : capacity ≤ maxEntries)
    (calls : List Call) :
    (afterCalls L capacity calls).digests L = (uses L capacity calls).eraseDups.take capacity ∧
      (afterCalls L capacity calls).size L =
        min capacity ((added calls).map CachedSignature.digest).eraseDups.length ∧
      ∀ digest sig key, ((afterCalls L capacity calls).lookup L digest sig key).1 = true ↔
        digest ∈ (afterCalls L capacity calls).digests L ∧
          latest? (added calls) digest = some ⟨digest, sig, key⟩ := by
  have hbacks := backs_afterCalls hL capacity calls
  obtain ⟨hdigests, hsize, hanswers⟩ := SignatureCache.recent_afterCalls hcapacity calls
  have hsame : (afterCalls L capacity calls).digests L =
      (SignatureCache.afterCalls capacity calls).digests := hbacks.digests_eq
  refine ⟨?_, (hbacks.size_eq hL).trans hsize, fun digest sig key => ?_⟩
  · rw [hsame, hdigests, uses_eq hL]
  · rw [(hbacks.lookup hL digest sig key).1, hsame]
    exact hanswers digest sig key

/-- An entry whose digest repeats one byte. -/
def repeating (b : UInt8) (r : Nat) : CachedSignature :=
  ⟨List.replicate 32 b, ⟨r, 1⟩, ⟨1, 2⟩⟩

/-- Two digests are stored, and the first one is looked up with a signature that is not its own. -/
def promoting : List Call := [.lookup (repeating 1 7), .add (repeating 2 1), .add (repeating 1 1)]

/-- With room for two, the third digest takes the place of the second: the answer about the first was no,
    but was a use. -/
theorem holds_recent_promoting :
    ((afterCalls listMap 2 promoting.tail).lookup listMap (repeating 1 7).digest
        ⟨7, 1⟩ ⟨1, 2⟩).1 = false ∧
      (afterCalls listMap 2 (.add (repeating 3 1) :: promoting)).digests listMap =
        [List.replicate 32 3, List.replicate 32 1] ∧
      (afterCalls listMap 2 (.add (repeating 3 1) :: promoting)).size listMap = 2 ∧
      ((afterCalls listMap 2 (.add (repeating 3 1) :: promoting)).lookup listMap
        (repeating 1 1).digest ⟨1, 1⟩ ⟨1, 2⟩).1 = true := by
  have hroom : 2 ≤ maxEntries := by decide
  obtain ⟨-, -, hbefore⟩ := holds_recent lawful_listMap hroom promoting.tail
  obtain ⟨hdigests, hsize, hafter⟩ :=
    holds_recent lawful_listMap hroom (.add (repeating 3 1) :: promoting)
  refine ⟨?_, hdigests.trans (by decide), hsize.trans (by decide), (hafter _ _ _).2 ?_⟩
  · exact Bool.eq_false_iff.2 (mt (hbefore _ _ _).1 (by decide))
  · rw [hdigests]
    decide

end BackedCache

end SpendScript

/-
  Inputs verified side by side, those of one transaction or of many. They share one cache and nothing
  else. Between any two calls that one of them makes of the cache, the others may make calls of theirs;
  the calls themselves do not overlap.

  A turn takes an input to its next call, which is found on a log of the answers it has had, and makes
  that call of the shared cache (`SideBySide.turn`). A schedule lists whose turn it is. Under every
  schedule an honest cache stays honest, an input that is done has the verdict it has without a cache,
  and with enough turns it is done (`SideBySide.turns_eq_alone`). So it is for verifications one
  after the other, whatever map is behind their cache (`BackedCache.verdicts_eq_alone`).
-/
import SpendScript.Proofs.BackedCache
import SpendScript.Proofs.Replay

namespace SpendScript

/-! ## Turns -/

/-- The cache that inputs share, and the answers that each of them has had from it. -/
structure SideBySide (γ : Type) where
  cache : γ
  log : Nat → List Answered

namespace SideBySide

variable {γ : Type} (jobs : Nat → Job)

/-- Nothing has been asked yet. -/
def start (c : γ) : SideBySide γ := ⟨c, fun _ => []⟩

/-- The verdict on an input that is done. -/
def verdict? (w : SideBySide γ) (i : Nat) : Option Verdict :=
  match (jobs i).resume (w.log i) with
  | (verdict, .reading _) => some verdict
  | (_, .asking _ _) => none

/-- An input that is not done makes its next call. -/
def turn (A : CacheService γ) (i : Nat) (w : SideBySide γ) : SideBySide γ :=
  match ((jobs i).resume (w.log i)).2 with
  | .reading _ => w
  | .asking call _ =>
    let (known, cache) := A.serve call w.cache
    ⟨cache, Function.update w.log i (w.log i ++ [(call, known)])⟩

/-- The inputs take turns as scheduled. -/
def turns (A : CacheService γ) : List Nat → SideBySide γ → SideBySide γ
  | [], w => w
  | i :: schedule, w => turns A schedule (w.turn jobs A i)

variable {jobs} {A : CacheService γ} {I : γ → Prop} {w : SideBySide γ} {i j : Nat}

variable (jobs) in
/-- An input is done, or its next turn makes the call it asks for. -/
theorem turn_cases (A : CacheService γ) (w : SideBySide γ) (i : Nat) :
    (w.verdict? jobs i = some ((jobs i).resume (w.log i)).1 ∧ w.turn jobs A i = w) ∨
      ∃ call rest, ((jobs i).resume (w.log i)).2 = .asking call rest ∧
        w.verdict? jobs i = none ∧
        w.turn jobs A i = ⟨(A.serve call w.cache).2,
          Function.update w.log i (w.log i ++ [(call, (A.serve call w.cache).1)])⟩ := by
  unfold turn verdict?
  rcases (jobs i).resume (w.log i) with ⟨verdict, rest | ⟨call, rest⟩⟩
  · exact Or.inl ⟨rfl, rfl⟩
  · exact Or.inr ⟨call, rest, rfl, rfl, rfl⟩

variable (jobs) in
/-- What every turn keeps: the cache is honest, and so are its answers. -/
structure Fine (I : γ → Prop) (w : SideBySide γ) : Prop where
  cache : I w.cache
  log : ∀ i, (jobs i).Answers (w.log i)

theorem fine_start {c : γ} (h : I c) : (start c).Fine jobs I := ⟨h, fun _ => .nil⟩

/-- **A turn** makes a call that an honest cache can bear. -/
theorem Fine.turn (hA : A.Honest I) (h : w.Fine jobs I) (i : Nat) : (w.turn jobs A i).Fine jobs I := by
  obtain ⟨-, hsame⟩ | ⟨call, rest, hask, -, hturn⟩ := turn_cases jobs A w i
  · rw [hsame]
    exact h
  · have hcache : I (A.serve call w.cache).2 := by
      cases call with
      | lookup e => exact hA.lookup h.cache e
      | add e => exact hA.add h.cache ((h.log i).resume.2.added e rest hask)
    have hlog : (jobs i).Answers (w.log i ++ [(call, (A.serve call w.cache).1)]) := by
      refine (h.log i).append hask ?_
      rintro e rfl hknown
      exact hA.known h.cache hknown
    rw [hturn]
    refine ⟨hcache, ?_⟩
    exact (Function.forall_update_iff w.log fun j log => (jobs j).Answers log).2
      ⟨hlog, fun j _ => h.log j⟩

theorem Fine.turns (hA : A.Honest I) (schedule : List Nat) (h : w.Fine jobs I) :
    (w.turns jobs A schedule).Fine jobs I := by
  induction schedule generalizing w with
  | nil => exact h
  | cons i schedule ih => exact ih (h.turn hA i)

/-- An input that is done has its own verdict. -/
theorem Fine.verdict? (h : w.Fine jobs I) (i : Nat) :
    w.verdict? jobs i = none ∨ w.verdict? jobs i = some (jobs i).verdict := by
  have hverdict := (h.log i).resume.1
  unfold SideBySide.verdict?
  generalize (jobs i).resume (w.log i) = run at hverdict ⊢
  rcases run with ⟨verdict, _ | _⟩
  · exact Or.inr (congrArg some hverdict)
  · exact Or.inl rfl

/-! ## Enough turns -/

/-- An input that is done makes no more calls. -/
theorem log_turn_of_done (h : w.verdict? jobs i ≠ none) (j : Nat) :
    (w.turn jobs A j).log i = w.log i := by
  obtain ⟨-, hsame⟩ | ⟨_, _, -, hasks, hturn⟩ := turn_cases jobs A w j
  · rw [hsame]
  · have hij : i ≠ j := by
      rintro rfl
      exact h hasks
    rw [hturn]
    exact Function.update_of_ne hij _ _

/-- One that is not done makes a call in each of its turns. -/
theorem length_log_turn (h : w.verdict? jobs i = none) (j : Nat) :
    ((w.turn jobs A j).log i).length = (w.log i).length + if j = i then 1 else 0 := by
  obtain ⟨hdone, hsame⟩ | ⟨_, _, -, -, hturn⟩ := turn_cases jobs A w j
  · have hij : j ≠ i := by
      rintro rfl
      rw [h] at hdone
      cases hdone
    rw [hsame, if_neg hij, Nat.add_zero]
  · rw [hturn]
    by_cases hij : j = i
    · subst hij
      rw [if_pos rfl]
      dsimp only
      rw [Function.update_self, List.length_append, List.length_singleton]
    · rw [if_neg hij]
      dsimp only
      rw [Function.update_of_ne (Ne.symm hij), Nat.add_zero]

theorem verdict?_turn_ne_none (h : w.verdict? jobs i ≠ none) (j : Nat) :
    (w.turn jobs A j).verdict? jobs i ≠ none := by
  unfold SideBySide.verdict? at h ⊢
  rw [log_turn_of_done h j]
  exact h

theorem verdict?_turns_ne_none (h : w.verdict? jobs i ≠ none) (schedule : List Nat) :
    (w.turns jobs A schedule).verdict? jobs i ≠ none := by
  induction schedule generalizing w with
  | nil => exact h
  | cons j schedule ih => exact ih (verdict?_turn_ne_none h j)

/-- Unless an input is done after its turns, it has made as many calls. -/
theorem count_le_length (A : CacheService γ) (schedule : List Nat) (w : SideBySide γ) :
    (w.turns jobs A schedule).verdict? jobs i ≠ none ∨
      (w.log i).length + schedule.count i ≤ ((w.turns jobs A schedule).log i).length := by
  induction schedule generalizing w with
  | nil => exact Or.inr (Nat.le_refl _)
  | cons j schedule ih =>
    by_cases hdone : w.verdict? jobs i = none
    · rcases ih (w.turn jobs A j) with hlater | hle
      · exact Or.inl hlater
      · refine Or.inr (Nat.le_trans (Nat.le_of_eq ?_) hle)
        rw [length_log_turn hdone, List.count_cons]
        simp only [beq_iff_eq]
        omega
    · exact Or.inl (verdict?_turns_ne_none hdone (j :: schedule))

/-- An input that has as many turns as it has calls to make is done. -/
theorem Fine.done (hA : A.Honest I) (h : w.Fine jobs I) {schedule : List Nat}
    (hcount : (jobs i).calls ≤ schedule.count i) :
    (w.turns jobs A schedule).verdict? jobs i ≠ none := by
  rcases count_le_length A schedule w with hdone | hle
  · exact hdone
  · intro hnone
    -- With one more turn the input would make one call too many.
    have hmore := (((h.turns hA schedule).turn hA i).log i).length_le
    rw [length_log_turn hnone, if_pos rfl] at hmore
    omega

variable (jobs) in
/-- **Side by side.** Whatever turns the inputs take, an honest cache stays honest, and an input that
    is done has the verdict it has without a cache. It is done once it has had as many turns as it has
    calls to make. -/
theorem turns_eq_alone (hA : A.Honest I) {c : γ} (h : I c) (schedule : List Nat) :
    I ((start c).turns jobs A schedule).cache ∧ ∀ i,
      (((start c).turns jobs A schedule).verdict? jobs i = none ∨
        ((start c).turns jobs A schedule).verdict? jobs i = some (jobs i).verdict) ∧
      ((jobs i).calls ≤ schedule.count i →
        ((start c).turns jobs A schedule).verdict? jobs i = some (jobs i).verdict) := by
  have hstart : (start c).Fine jobs I := fine_start h
  have hend := hstart.turns hA schedule
  refine ⟨hend.cache, fun i => ⟨hend.verdict? i, fun hcount => ?_⟩⟩
  exact (hend.verdict? i).resolve_left (hstart.done hA hcount)

/-! ## Whole inputs -/

theorem turns_append (A : CacheService γ) (schedule later : List Nat) (w : SideBySide γ) :
    w.turns jobs A (schedule ++ later) = (w.turns jobs A schedule).turns jobs A later := by
  induction schedule generalizing w with
  | nil => rfl
  | cons i schedule ih => exact ih (w.turn jobs A i)

variable (jobs) in
/-- In turns of one input, all that the cache answers goes to this input. -/
theorem turns_replicate (A : CacheService γ) (n i : Nat) (w : SideBySide γ) :
    (∃ log, (w.turns jobs A (List.replicate n i)).log i = w.log i ++ log ∧
        Replay.Written A w.cache log (w.turns jobs A (List.replicate n i)).cache) ∧
      ∀ j, j ≠ i → (w.turns jobs A (List.replicate n i)).log j = w.log j := by
  induction n generalizing w with
  | zero => exact ⟨⟨[], (List.append_nil _).symm, rfl⟩, fun _ _ => rfl⟩
  | succ n ih =>
    rw [List.replicate_succ]
    unfold turns
    obtain ⟨-, hsame⟩ | ⟨call, _, -, -, hturn⟩ := turn_cases jobs A w i
    · rw [hsame]
      exact ih w
    · obtain ⟨⟨log, hlog, hwritten⟩, hothers⟩ := ih (w.turn jobs A i)
      refine ⟨⟨(call, (A.serve call w.cache).1) :: log, ?_, rfl, ?_⟩, fun j hj => ?_⟩
      · rw [hlog, hturn]
        dsimp only
        rw [Function.update_self, List.append_assoc]
        rfl
      · rw [hturn] at hwritten ⊢
        exact hwritten
      · rw [hothers j hj, hturn]
        exact Function.update_of_ne hj _ _

/-- An input that takes all its turns in a row leaves the cache as its verification does. -/
theorem Fine.cache_row (hA : A.Honest I) (h : w.Fine jobs I) (hfresh : w.log i = []) :
    (w.turns jobs A (List.replicate (jobs i).calls i)).cache =
      ((jobs i).verifyBy A w.cache).2 := by
  have hend := h.turns hA (List.replicate (jobs i).calls i)
  have hdone := h.done hA (i := i) (Nat.le_of_eq List.count_replicate_self.symm)
  obtain ⟨⟨log, hlog, hwritten⟩, -⟩ := turns_replicate jobs A (jobs i).calls i w
  rw [hfresh, List.nil_append] at hlog
  have hanswers := hend.log i
  unfold SideBySide.verdict? at hdone
  rw [hlog] at hanswers hdone
  rcases hresume : (jobs i).resume log with ⟨verdict, rest | ⟨call, rest⟩⟩
  · exact (hanswers.cache_eq hA h.cache hwritten (congrArg Prod.snd hresume)).symm
  · rw [hresume] at hdone
    exact absurd rfl hdone

variable (jobs) in
/-- Inputs one after the other, each with all its turns in a row. -/
def rows (order : List Nat) : List Nat :=
  order.flatMap fun i => List.replicate (jobs i).calls i

theorem calls_le_count_rows {order : List Nat} (hi : i ∈ order) :
    (jobs i).calls ≤ (rows jobs order).count i := by
  have hrow : List.replicate (jobs i).calls i ∈
      order.map fun i => List.replicate (jobs i).calls i :=
    List.mem_map.2 ⟨i, hi, rfl⟩
  exact List.replicate_sublist_iff.1 (List.sublist_flatten_of_mem hrow)

theorem Fine.cache_rows {tx : Transaction} {spent : List TxOutput} {flags : Flags}
    {w : SideBySide (Option SignatureCache)} (h : w.Fine (tx.jobs spent flags) Trusted)
    {order : List Nat} (hnodup : order.Nodup) (hfresh : ∀ i ∈ order, w.log i = []) :
    (w.turns (tx.jobs spent flags) SignatureCache.service
        (rows (tx.jobs spent flags) order)).cache =
      (tx.verifyEach spent flags order w.cache).2 := by
  induction order generalizing w with
  | nil => rfl
  | cons i order ih =>
    obtain ⟨hi, hnodup⟩ := List.nodup_cons.1 hnodup
    have hrow := h.cache_row honest_service (hfresh i List.mem_cons_self)
    have hothers := (turns_replicate (tx.jobs spent flags) SignatureCache.service
      (tx.jobs spent flags i).calls i w).2
    have hlater := ih (h.turns honest_service _) hnodup fun j hj => by
      rw [hothers j fun heq => hi (heq ▸ hj)]
      exact hfresh j (List.mem_cons_of_mem i hj)
    unfold rows at hlater ⊢
    rw [List.flatMap_cons, turns_append, hlater, hrow, ← Job.verifyAt_eq]
    rfl

/-- **Whole inputs** one after the other are one of the schedules, which leaves the same cache and gives
    the same verdicts. -/
theorem turns_rows (tx : Transaction) (spent : List TxOutput) (flags : Flags) {order : List Nat}
    (hnodup : order.Nodup) {cache : Option SignatureCache} (h : Trusted cache) :
    ((start cache).turns (tx.jobs spent flags) SignatureCache.service
          (rows (tx.jobs spent flags) order)).cache =
        (tx.verifyEach spent flags order cache).2 ∧
      order.map (((start cache).turns (tx.jobs spent flags) SignatureCache.service
          (rows (tx.jobs spent flags) order)).verdict? (tx.jobs spent flags)) =
        (tx.verifyEach spent flags order cache).1.map some := by
  refine ⟨(fine_start h).cache_rows hnodup fun _ _ => rfl, ?_⟩
  obtain ⟨-, hverdicts⟩ :=
    turns_eq_alone (tx.jobs spent flags) honest_service h (rows (tx.jobs spent flags) order)
  rw [(tx.verifyEach_trusted spent flags order h).1, List.map_map]
  exact List.map_congr_left fun i hi => (hverdicts i).2 (calls_le_count_rows hi)

end SideBySide

/-! ## Verifications one after the other -/

/-- What is verified with a shared cache: one spend, or inputs side by side, which may be those of one
    transaction or of many. -/
inductive Verification where
  | single (s : Spending) (locking : Bytes) (flags : Flags)
  | inputs (count : Nat) (jobs : Nat → Job) (schedule : List Nat)

namespace Verification

variable {γ : Type}

/-- The verdicts without a cache. -/
def alone : Verification → List Verdict
  | single s locking flags => [(s.verify locking flags none).1]
  | inputs count jobs _ => (List.range count).map fun i => (jobs i).verdict

/-- Every input has as many turns as it has calls to make. -/
def Fair : Verification → Prop
  | single _ _ _ => True
  | inputs count jobs schedule => ∀ i < count, (jobs i).calls ≤ schedule.count i

/-- The verdicts that are reached, and the cache that is left. -/
def run (A : CacheService γ) : Verification → γ → List (Option Verdict) × γ
  | single s locking flags, c =>
    let (verdict, c) := s.verifyBy A locking flags c
    ([some verdict], c)
  | inputs count jobs schedule, c =>
    let w := (SideBySide.start c).turns jobs A schedule
    ((List.range count).map (w.verdict? jobs), w.cache)

/-- Verifications one after the other, which share the cache. -/
def runAll (A : CacheService γ) : List Verification → γ → List (List (Option Verdict)) × γ
  | [], c => ([], c)
  | v :: vs, c =>
    let (verdicts, c) := v.run A c
    let (rest, c) := runAll A vs c
    (verdicts :: rest, c)

variable {A : CacheService γ} {I : γ → Prop} {c : γ}

theorem run_honest (hA : A.Honest I) (h : I c) {v : Verification} (hfair : v.Fair) :
    (v.run A c).1 = v.alone.map some ∧ I (v.run A c).2 := by
  cases v with
  | single s locking flags =>
    obtain ⟨hverdict, hkept⟩ := s.verifyBy_honest locking flags hA h
    exact ⟨congrArg (fun v => [some v]) hverdict, hkept⟩
  | inputs count jobs schedule =>
    obtain ⟨hkept, hverdicts⟩ := SideBySide.turns_eq_alone jobs hA h schedule
    refine ⟨?_, hkept⟩
    unfold run alone
    rw [List.map_map]
    refine List.map_congr_left fun i hi => ?_
    exact (hverdicts i).2 (hfair i (List.mem_range.1 hi))

theorem runAll_honest (hA : A.Honest I) (h : I c) {vs : List Verification}
    (hfair : ∀ v ∈ vs, v.Fair) :
    (runAll A vs c).1 = vs.map (fun v => v.alone.map some) ∧ I (runAll A vs c).2 := by
  induction vs generalizing c with
  | nil => exact ⟨rfl, h⟩
  | cons v vs ih =>
    obtain ⟨hv, hc⟩ := run_honest hA h (hfair v List.mem_cons_self)
    obtain ⟨hvs, hcs⟩ := ih hc fun v hmem => hfair v (List.mem_cons_of_mem _ hmem)
    unfold runAll
    dsimp only
    rw [hv, hvs]
    exact ⟨rfl, hcs⟩

/-- There is always a fair schedule: the inputs one after the other, in any order. -/
theorem fair_rows (jobs : Nat → Job) {count : Nat} {order : List Nat}
    (hperm : order.Perm (List.range count)) :
    (inputs count jobs (SideBySide.rows jobs order)).Fair := by
  intro i hi
  exact SideBySide.calls_le_count_rows (hperm.mem_iff.2 (List.mem_range.2 hi))

end Verification

/-! ## A cache on any map -/

namespace BackedCache

variable {μ : Type} {L : RecencyMap Bytes (Signature × PublicKey) μ}

variable (L) in
/-- A cache on a map, as verifications use it. -/
def service : CacheService (BackedCache μ) where
  lookup e c := c.lookup L e.digest e.signature e.key
  add e c := c.add L e.digest e.signature e.key

/-- A cache on a map is honest while it is in step with a valid one on a list. -/
theorem honest_service (hL : L.Lawful) :
    (service L).Honest fun c => ∃ s, Backs L c s ∧ s.Valid where
  known := by
    rintro c e ⟨s, hbacks, hvalid⟩ hknown
    refine hvalid.of_lookup ?_
    rw [← (hbacks.lookup hL e.digest e.signature e.key).1]
    exact hknown
  lookup := by
    rintro c ⟨s, hbacks, hvalid⟩ e
    exact ⟨_, (hbacks.lookup hL e.digest e.signature e.key).2, hvalid.lookup⟩
  add := by
    rintro c e ⟨s, hbacks, hvalid⟩ he
    exact ⟨_, hbacks.add hL e.digest e.signature e.key, hvalid.add he⟩

/-- **The cache is transparent**, whatever map it keeps and however inputs take turns with it.
    Verifications that share a cache, empty at first and of any capacity, give the
    verdicts they give without one. -/
theorem verdicts_eq_alone (hL : L.Lawful) (capacity : Nat) {vs : List Verification}
    (hfair : ∀ v ∈ vs, v.Fair) :
    (Verification.runAll (service L) vs (empty L capacity)).1 =
      vs.map fun v => v.alone.map some :=
  (Verification.runAll_honest (honest_service hL)
    ⟨_, backs_empty hL capacity, SignatureCache.valid_empty capacity⟩ hfair).1

end BackedCache

end SpendScript

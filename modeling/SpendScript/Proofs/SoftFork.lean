/-
  Each optional rule is a soft fork: what is accepted with more rules is accepted with fewer. The
  run is the same one, step for step, and asks about the same signatures.

  There is one exception. A lock opcode that is not checked counts as an opcode kept for soft forks,
  so it fails where such opcodes are discouraged. Dropping a lock rule while keeping
  `discourageUpgradableNops` may therefore refuse what was accepted (`Flags.Relaxes` rules this
  out).
-/
import SpendScript.Proofs.Engine.Recording

namespace SpendScript

variable {σ : Type}

/-! ## Checkers with locks that leave no trace -/

namespace Checker

/-- The answer to a question, and the state after it. -/
def answer (c : Checker σ) : Query → σ → Except SignatureError Bool × σ
  | .signature q, s => c.checkSignature q s
  | .lockTime n, s => (.ok (c.checkLockTime n s).1, (c.checkLockTime n s).2)
  | .sequence n, s => (.ok (c.checkSequence n s).1, (c.checkSequence n s).2)

/-- The answers to questions put one after the other. -/
def answers (c : Checker σ) : List Query → σ → List (Except SignatureError Bool)
  | [], _ => []
  | q :: qs, s => (c.answer q s).1 :: answers c qs (c.answer q s).2

/-- From both states all questions to come get the same answers. -/
def Alike (c : Checker σ) (s t : σ) : Prop := ∀ qs, c.answers qs s = c.answers qs t

/-- Questions about locks change no later answer. -/
structure LocksUnseen (c : Checker σ) : Prop where
  lockTime : ∀ n s, c.Alike (c.checkLockTime n s).2 s
  sequence : ∀ n s, c.Alike (c.checkSequence n s).2 s

variable {c : Checker σ} {s t u : σ}

theorem Alike.trans (h : c.Alike s t) (h' : c.Alike t u) : c.Alike s u := by
  intro qs
  rw [h qs, h' qs]

/-- States that are alike stay so, and answer alike. -/
theorem Alike.answer (h : c.Alike s t) (q : Query) :
    (c.answer q t).1 = (c.answer q s).1 ∧ c.Alike (c.answer q s).2 (c.answer q t).2 := by
  have hcons (qs : List Query) := List.cons_eq_cons.1 (h (q :: qs))
  have hfirst : (c.answer q s).1 = (c.answer q t).1 := (hcons []).1
  refine ⟨hfirst.symm, fun qs => ?_⟩
  exact (hcons qs).2

theorem Alike.lockTime (h : c.Alike s t) (n : Int) :
    (c.checkLockTime n t).1 = (c.checkLockTime n s).1 ∧
      c.Alike (c.checkLockTime n s).2 (c.checkLockTime n t).2 := by
  obtain ⟨hanswer, hstates⟩ := h.answer (.lockTime n)
  exact ⟨Except.ok.inj hanswer, hstates⟩

theorem Alike.sequence (h : c.Alike s t) (n : Int) :
    (c.checkSequence n t).1 = (c.checkSequence n s).1 ∧
      c.Alike (c.checkSequence n s).2 (c.checkSequence n t).2 := by
  obtain ⟨hanswer, hstates⟩ := h.answer (.sequence n)
  exact ⟨Except.ok.inj hanswer, hstates⟩

end Checker

/-! ## The two couplings -/

namespace Coupling

variable {c : Checker σ}

/-- The second machine runs under fewer rules. Errors of the first may be errors of a rule that
    the second does not have. -/
def relaxed (c : Checker σ) : Coupling σ σ := ofCheckers c.Alike False

/-- The same for recorded runs: questions about locks may be missing from the second record. -/
def relaxedRecord (c : Checker σ) : Coupling (σ × List Query) (σ × List Query) :=
  ofCheckers
    (fun s t => c.Alike s.1 t.1 ∧
      t.2.filterMap Query.signature? = s.2.filterMap Query.signature?)
    False

theorem settings_relaxed (hc : c.LocksUnseen) {F G : Flags} (hFG : F.Relaxes G) :
    (relaxed c).Settings c G c F where
  flags := hFG
  flags_eq := False.elim
  signature q _ _ h := h.answer (.signature q)
  lockTime n _ _ h := h.lockTime n
  sequence n _ _ h := h.sequence n
  lockTime_alone _ n s _ h := (hc.lockTime n s).trans h
  sequence_alone _ n s _ h := (hc.sequence n s).trans h

theorem settings_relaxedRecord (hc : c.LocksUnseen) {F G : Flags} (hFG : F.Relaxes G) :
    (relaxedRecord c).Settings c.recording G c.recording F where
  flags := hFG
  flags_eq := False.elim
  signature := by
    intro q s t h
    obtain ⟨hanswer, hstates⟩ := h.1.answer (.signature q)
    exact ⟨hanswer, hstates, congrArg (List.cons q) h.2⟩
  lockTime := by
    intro n s t h
    obtain ⟨hanswer, hstates⟩ := h.1.lockTime n
    exact ⟨hanswer, hstates, h.2⟩
  sequence := by
    intro n s t h
    obtain ⟨hanswer, hstates⟩ := h.1.sequence n
    exact ⟨hanswer, hstates, h.2⟩
  lockTime_alone _ n s _ h := ⟨(hc.lockTime n s.1).trans h.1, h.2⟩
  sequence_alone _ n s _ h := ⟨(hc.sequence n s.1).trans h.1, h.2⟩

end Coupling

namespace Engine

/-- What a spectator sees of an engine: both stacks and the place of the next instruction. -/
structure View where
  stack : Stack
  alt : Stack
  scriptIndex : Nat
  offset : Nat
  deriving DecidableEq

/-- The view of an engine. -/
def view (e : Engine σ) : View := ⟨e.machine.stack, e.machine.alt, e.scriptIndex, e.offset⟩

theorem view_of_engines {K : Coupling σ σ} (hl : K.Level) (e f : Engine σ) (h : K.Engines e f) :
    f.view = e.view := by
  obtain ⟨d, F, n, rfl, -, hk⟩ := h
  unfold view refit
  rw [hl.stack hk, hk.alt]

theorem signatureChecks_of_engines {c : Checker σ} (e f : Engine (σ × List Query))
    (h : (Coupling.relaxedRecord c).Engines e f) : f.signatureChecks = e.signatureChecks := by
  obtain ⟨d, F, n, rfl, -, hk⟩ := h
  exact hk.checker.2

/-- **Flags are soft forks.** A spend that is accepted under `G` is accepted under fewer flags `F`.
    Both runs show the same stacks and the same place in the scripts after every number of steps,
    and have asked about the same signatures. -/
theorem execute_of_relaxes {c : Checker σ} (hc : c.LocksUnseen) {F G : Flags}
    (hFG : F.Relaxes G) {locking : Bytes} {witness : List Bytes} {start : σ} {g g' : Engine σ}
    (hg : ofWitness locking witness G c start = .ok g) (hx : execute g = .ok () g') :
    ∃ f f', ofWitness locking witness F c start = .ok f ∧ execute f = .ok () f' ∧
      (∀ n, (after n f).map view = (after n g).map view) ∧
      ∀ n, (after n f.recorded).map signatureChecks = (after n g.recorded).map signatureChecks := by
  obtain ⟨hgc, hgf, hgm⟩ := ofWitness_fresh hg
  have hf : ofWitness locking witness F c start = .ok (g.refit c F (Machine.start start)) := by
    rw [ofWitness_refit locking witness G c start, hg]
    rfl
  have hlevel : (Coupling.relaxed c).Level := Coupling.level_ofCheckers _ _
  have hset : (Coupling.relaxed c).Settings g.checker g.flags c F := by
    rw [hgc, hgf]
    exact Coupling.settings_relaxed hc hFG
  have hcoupled : (Coupling.relaxed c).Engines g (g.refit c F (Machine.start start)) := by
    refine ⟨c, F, _, rfl, hset, ?_⟩
    rw [hgm]
    exact holds_start hlevel fun _ => rfl
  obtain ⟨f', hf', -⟩ := (follows_execute hlevel).ok hcoupled hx
  obtain ⟨g₁, -, hrun, -, -⟩ := execute_ok.1 hx
  refine ⟨_, f', hf, hf', ?_, ?_⟩
  · exact after_map_eq hlevel (view_of_engines hlevel) hrun hcoupled
  · obtain ⟨r, hr, -⟩ := run_recorded hrun
    have hlevelRecord : (Coupling.relaxedRecord c).Level := Coupling.level_ofCheckers _ _
    have hrec : (Coupling.relaxedRecord c).Settings g.checker.recording g.flags c.recording F := by
      rw [hgc, hgf]
      exact Coupling.settings_relaxedRecord hc hFG
    have hrecorded : (Coupling.relaxedRecord c).Engines g.recorded
        (g.refit c F (Machine.start start)).recorded := by
      refine ⟨c.recording, F, _, rfl, hrec, ?_⟩
      unfold recorded refit
      rw [hgm]
      exact holds_start hlevelRecord ⟨fun _ => rfl, rfl⟩
    exact after_map_eq hlevelRecord signatureChecks_of_engines hr hrecorded

/-- The redeem script `1 OP_CLTV` on an output locked at height 2000: it is accepted with the lock
    checked, hence also where the opcode does nothing. -/
theorem execute_of_relaxes_lockTime :
    ∃ g g' : Engine Unit,
      ofWitness [0x08, 0xd0, 0x07, 0, 0, 0, 0, 0, 0] [[0x51], [0x51, 0xb1]]
        { minimalData := true, checkLockTime := true } Checker.accepting () = .ok g ∧
      execute g = .ok () g' ∧
      ∃ f f', ofWitness [0x08, 0xd0, 0x07, 0, 0, 0, 0, 0, 0] [[0x51], [0x51, 0xb1]]
          {} Checker.accepting () = .ok f ∧ execute f = .ok () f' ∧
        (∀ n, (after n f).map view = (after n g).map view) ∧
        ∀ n, (after n f.recorded).map signatureChecks =
          (after n g.recorded).map signatureChecks := by
  have haccepts : accepts (ofWitness [0x08, 0xd0, 0x07, 0, 0, 0, 0, 0, 0] [[0x51], [0x51, 0xb1]]
      { minimalData := true, checkLockTime := true } Checker.accepting ()) = true := by
    decide +kernel
  obtain ⟨g, g', hg, hx⟩ := accepts_iff.1 haccepts
  have hlocks : Checker.accepting.LocksUnseen := ⟨fun _ _ _ => rfl, fun _ _ _ => rfl⟩
  have hFG : Flags.Relaxes {} { minimalData := true, checkLockTime := true } :=
    ⟨by constructor <;> decide, Or.inl rfl⟩
  exact ⟨g, g', hg, hx, execute_of_relaxes hlocks hFG hg hx⟩

/-- The exception: the same spend is refused where the lock is not checked but opcodes kept for soft
    forks are discouraged. -/
example :
    accepts (ofWitness [0x08, 0xd0, 0x07, 0, 0, 0, 0, 0, 0] [[0x51], [0x51, 0xb1]]
      { discourageUpgradableNops := true, checkLockTime := true } Checker.accepting ()) = true ∧
    accepts (ofWitness [0x08, 0xd0, 0x07, 0, 0, 0, 0, 0, 0] [[0x51], [0x51, 0xb1]]
      { discourageUpgradableNops := true } Checker.accepting ()) = false := by
  decide +kernel

end Engine

end SpendScript

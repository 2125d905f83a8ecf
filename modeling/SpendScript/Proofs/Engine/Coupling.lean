/-
  Coupled engines run alike. Two engines are coupled when they differ in their checkers, flags and
  machines only, and these are coupled. The steps of coupled engines, their runs and their verdicts
  then correspond (`follows_step`, `follows_run`, `follows_execute`); under a coupling that is not
  exact this holds for runs that succeed.
-/
import SpendScript.Proofs.Engine.Steps
import SpendScript.Proofs.Machine.CoupledInstruction

namespace SpendScript

variable {σ τ : Type}

/-- The engine at the same point of its run, with another checker, other flags and another
    machine. -/
def Engine.refit (e : Engine σ) (d : Checker τ) (F : Flags) (n : Machine τ) : Engine τ where
  checker := d
  flags := F
  spend := e.spend
  locking := e.locking
  witness := e.witness
  scripts := e.scripts
  scriptIndex := e.scriptIndex
  offset := e.offset
  expanded := e.expanded
  status := e.status
  machine := n

namespace Coupling

variable {K : Coupling σ τ}

/-- Two engines at the same point of their runs, on coupled machines. -/
def Engines (K : Coupling σ τ) (e : Engine σ) (f : Engine τ) : Prop :=
  ∃ d F n, f = e.refit d F n ∧ K.Settings e.checker e.flags d F ∧ K.Holds e.machine n

/-- Whole runs are compared where neither the items below the stack nor the open conditionals
    differ. -/
structure Level (K : Coupling σ τ) : Prop where
  below : K.below = []
  branches : K.branches = Eq

/-- The coupling of machines that differ in the states of their checkers, and in what they have
    counted where errors are not carried over. -/
def ofCheckers (R : σ → τ → Prop) (exact : Prop) : Coupling σ τ where
  below := []
  branches := Eq
  checker := R
  exact := exact
  below_of_exact _ := rfl

theorem level_ofCheckers (R : σ → τ → Prop) (exact : Prop) : (ofCheckers R exact).Level :=
  ⟨rfl, rfl⟩

theorem Level.stack (hl : K.Level) {m : Machine σ} {n : Machine τ} (hk : K.Holds m n) :
    n.stack = m.stack := by rw [hk.stack, hl.below, List.append_nil]

theorem Level.branches_eq (hl : K.Level) {m : Machine σ} {n : Machine τ} (hk : K.Holds m n) :
    n.branches = m.branches := by
  have h := hk.branches
  rw [hl.branches] at h
  exact h.symm

end Coupling

namespace Engine

variable {K : Coupling σ τ}

theorem next?_of_engines {e : Engine σ} {f : Engine τ} (h : K.Engines e f) : f.next? = e.next? := by
  obtain ⟨d, F, n, rfl, -, -⟩ := h
  rfl

/-! ## Parts of a step -/

theorem follows_check (hl : K.Level) (final : Bool) :
    Follows K.Engines K.exact (check final) (check final) := by
  rintro e - ⟨d, F, n, rfl, hs, hk⟩
  have hk₀ : K.Engines e (e.refit d F n) := ⟨d, F, n, rfl, hs, hk⟩
  unfold check
  refine .ite (fun _ => .error _ hk₀) fun _ => ?_
  rw [show (e.refit d F n).machine.stack = e.machine.stack from hl.stack hk]
  rcases e.machine.stack with _ | ⟨item, rest⟩
  · exact .error _ hk₀
  · have hk₁ : K.Engines { e with machine := { e.machine with stack := rest } }
        { e.refit d F n with machine := { n with stack := rest } } := by
      refine ⟨d, F, _, rfl, hs, { hk with stack := ?_ }⟩
      rw [hl.below, List.append_nil]
    exact .ite (fun _ => .error _ hk₀) fun _ => .ite (fun _ => .ok () hk₁) fun _ => .error _ hk₁

theorem follows_expand (hl : K.Level) : Follows K.Engines K.exact expand expand := by
  intro e f h
  unfold expand
  rcases hc : check false e with ⟨_, e₁⟩ | ⟨err, e₁⟩
  · obtain ⟨f₁, hf, d, F, n, rfl, hs, hk⟩ := (follows_check hl false).ok h hc
    rw [hf]
    dsimp only
    rw [show (e₁.refit d F n).locking = e₁.locking from rfl]
    rcases Script.parse e₁.locking with err | script
    · exact .error _ ⟨d, F, n, rfl, hs, hk⟩
    · have hstack : e₁.witness.tail.reverse = e₁.witness.tail.reverse ++ K.below := by
        rw [hl.below, List.append_nil]
      refine .ok () ⟨d, F, { n with stack := e₁.witness.tail.reverse }, rfl, hs, ?_⟩
      exact { hk with stack := hstack }
  · intro he
    obtain ⟨f₁, hf, h₁⟩ := (follows_check hl false).error he h hc
    rw [hf]
    exact ⟨f₁, rfl, h₁⟩

theorem follows_expandIfDue (hl : K.Level) :
    Follows K.Engines K.exact expandIfDue expandIfDue := by
  intro e f h
  have hdue : f.mustExpand = e.mustExpand := by
    obtain ⟨d, F, n, rfl, -, -⟩ := h
    rfl
  unfold expandIfDue
  rw [hdue]
  exact .ite (fun _ => follows_expand hl e f h) fun _ => .ok () h

theorem follows_enterScript : Follows K.Engines K.exact enterScript enterScript := by
  rintro e - ⟨d, F, n, rfl, hs, hk⟩
  exact .ok _ ⟨d, F, { n with codeStart := 0 }, rfl, hs, { hk with codeStart := rfl }⟩

theorem follows_leaveScript (hl : K.Level) :
    Follows K.Engines K.exact leaveScript leaveScript := by
  rintro e - ⟨d, F, n, rfl, hs, hk⟩
  unfold leaveScript
  rw [show (e.refit d F n).machine.branches = e.machine.branches from hl.branches_eq hk]
  refine .ite (fun _ => ?_) fun _ => .error _ ⟨d, F, n, rfl, hs, hk⟩
  refine .ok () ⟨d, F, { n with alt := [], opCount := 0 }, rfl, hs, ?_⟩
  exact { hk with alt := rfl, opCount_le := Nat.le_refl _, opCount_eq := fun _ => rfl }

theorem follows_finishScript (hl : K.Level) :
    Follows K.Engines K.exact finishScript finishScript :=
  (follows_leaveScript hl).bind fun _ =>
    (follows_expandIfDue hl).bind fun _ => follows_enterScript

/-- Coupled engines execute the next instruction alike. -/
theorem follows_advance (hl : K.Level) : Follows K.Engines K.exact advance advance := by
  rintro e - ⟨d, F, n, rfl, hs, hk⟩
  unfold advance
  rw [show (e.refit d F n).next? = e.next? from rfl]
  rcases e.next? with _ | i
  · exact .error _ ⟨d, F, n, rfl, hs, hk⟩
  · have hinstr : K.Follows (i.step e.context e.offset)
        (i.step (e.refit d F n).context e.offset) := by
      have hexec (b b' : Branches) (h : K.branches b b') : b'.executing = b.executing := by
        rw [hl.branches] at h
        rw [h]
      have hc : K.Contexts e.context (e.refit d F n).context := ⟨hs, rfl, rfl⟩
      exact Coupling.follows_step hc hl.below hexec _ i fun _ => hl.branches
    dsimp only
    rcases hi : i.step e.context e.offset e.machine with ⟨_, m⟩ | ⟨err, m⟩
    · obtain ⟨n', hn, hk'⟩ := hinstr.ok hk hi
      rw [show i.step (e.refit d F n).context (e.refit d F n).offset (e.refit d F n).machine =
        .ok () n' from hn]
      have hnext : K.Engines
          { e with machine := m, status := .running, offset := e.offset + 1 }
          { e.refit d F n with machine := n', status := .running, offset := e.offset + 1 } :=
        ⟨d, F, n', rfl, hs, hk'⟩
      exact .ite (fun _ => .ok false hnext) fun _ => follows_finishScript hl _ _ hnext
    · intro he
      obtain ⟨n', hn, hk'⟩ := hinstr.error he hk hi
      rw [show i.step (e.refit d F n).context (e.refit d F n).offset (e.refit d F n).machine =
        .error err n' from hn]
      exact ⟨_, rfl, d, F, n', rfl, hs, hk'⟩

/-! ## Steps and runs -/

/-- Marking both engines keeps them coupled. -/
theorem engines_status {e : Engine σ} {f : Engine τ} (h : K.Engines e f) (status : Status) :
    K.Engines { e with status := status } { f with status := status } := by
  obtain ⟨d, F, n, rfl, hs, hk⟩ := h
  exact ⟨d, F, n, rfl, hs, hk⟩

theorem follows_step (hl : K.Level) : Follows K.Engines K.exact step step := by
  intro e f h
  unfold step
  rcases ha : advance e with ⟨done, e'⟩ | ⟨err, e'⟩
  · obtain ⟨f', hf, h'⟩ := (follows_advance hl).ok h ha
    rw [hf]
    exact .ok done h'
  · intro he
    obtain ⟨f', hf, h'⟩ := (follows_advance hl).error he h ha
    rw [hf]
    exact ⟨_, rfl, engines_status h' .failed⟩

/-- Coupled engines run to their ends alike. -/
theorem follows_run (hl : K.Level) : Follows K.Engines K.exact (α := Unit) run run := by
  intro e
  induction e using run.induct with
  | case1 e err e' hs =>
    intro f h
    rw [run_eq e, hs]
    intro he
    obtain ⟨f', hf, h'⟩ := (follows_step hl).error he h hs
    rw [run_eq f, hf]
    exact ⟨f', rfl, h'⟩
  | case2 e e' hs =>
    intro f h
    obtain ⟨f', hf, h'⟩ := (follows_step hl).ok h hs
    rw [run_eq e, hs, run_eq f, hf]
    exact .ok () h'
  | case3 e e' hs hlt ih =>
    intro f h
    obtain ⟨f', hf, h'⟩ := (follows_step hl).ok h hs
    rw [run_eq e, hs, run_eq f, hf]
    exact ih f' h'

/-- Coupled engines come to the same verdict. -/
theorem follows_execute (hl : K.Level) : Follows K.Engines K.exact execute execute := by
  have hrun : Follows K.Engines K.exact (do run; check true : EngineM σ Unit)
      (do run; check true : EngineM τ Unit) :=
    (follows_run hl).bind fun _ => follows_check hl true
  intro e f h
  unfold execute
  rcases hx : (do run; check true : EngineM σ Unit) e with ⟨_, e'⟩ | ⟨err, e'⟩
  · obtain ⟨f', hf, h'⟩ := hrun.ok h hx
    rw [hf]
    exact .ok () (engines_status h' .success)
  · intro he
    obtain ⟨f', hf, h'⟩ := hrun.error he h hx
    rw [hf]
    exact ⟨_, rfl, engines_status h' .failed⟩

/-- When the first of two coupled engines runs to its end, what can be seen of both is the same
    after every number of steps. -/
theorem after_map_eq {β : Type} (hl : K.Level) {p : Engine σ → β} {q : Engine τ → β}
    (hpq : ∀ e f, K.Engines e f → q f = p e) {e e' : Engine σ} (hr : run e = .ok () e')
    {f : Engine τ} (h : K.Engines e f) (n : Nat) : (after n f).map q = (after n e).map p := by
  induction n generalizing e f with
  | zero => exact congrArg some (hpq e f h)
  | succ n ih =>
    rcases run_ok.1 hr with hs | ⟨e₁, hs, hr₁⟩
    · obtain ⟨f', hf, h'⟩ := (follows_step hl).ok h hs
      unfold after
      rw [hs, hf]
      -- Both runs have ended: there is no next instruction, and no step succeeds any more.
      cases n with
      | zero => exact congrArg some (hpq e' f' h')
      | succ n =>
        have he : e'.next? = none := next?_of_done hs
        have hf : f'.next? = none := (next?_of_engines h').trans he
        dsimp only
        rw [after_succ_of_next?_none he, after_succ_of_next?_none hf]
        rfl
    · obtain ⟨f₁, hf, h₁⟩ := (follows_step hl).ok h hs
      unfold after
      rw [hs, hf]
      exact ih hr₁ h₁

/-! ## Fresh engines -/

/-- Checker and flags do not decide whether a witness makes an engine. -/
theorem ofWitness_refit (locking : Bytes) (witness : List Bytes) (G : Flags) (c : Checker σ) (s : σ)
    (F : Flags) (d : Checker τ) (t : τ) :
    ofWitness locking witness F d t =
      (ofWitness locking witness G c s).map fun e => e.refit d F (Machine.start t) := by
  unfold ofWitness
  rcases Spend.classify locking witness with err | spend
  · rfl
  · rcases (witness.take 2).mapM (fun bs => (Script.parse bs).mapError ScriptError.parse) with
      err | scripts <;> rfl

theorem ofWitness_fresh {locking : Bytes} {witness : List Bytes} {G : Flags} {c : Checker σ} {s : σ}
    {e : Engine σ} (h : ofWitness locking witness G c s = .ok e) :
    e.checker = c ∧ e.flags = G ∧ e.machine = Machine.start s := by
  have hr := ofWitness_refit locking witness G c s G c s
  rw [h] at hr
  have he : e = e.refit c G (Machine.start s) := Except.ok.inj hr
  exact ⟨congrArg Engine.checker he, congrArg Engine.flags he, congrArg Engine.machine he⟩

/-- Two machines before their first instruction. -/
theorem holds_start (hl : K.Level) {s : σ} {t : τ} (h : K.checker s t) :
    K.Holds (Machine.start s) (Machine.start t) := by
  refine ⟨?_, rfl, ?_, Nat.le_refl _, fun _ => rfl, rfl, h⟩
  · rw [hl.below]
    rfl
  · rw [hl.branches]
    rfl

end Engine

end SpendScript

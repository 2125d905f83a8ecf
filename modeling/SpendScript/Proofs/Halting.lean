/-
  Executions halt, and with an error of the run. A fresh engine takes one step for each instruction of
  its two scripts, and one more for the height of a height lock; no run is longer
  (`Engine.execute_halts`). After `k` steps it stands at the instruction that comes after `k` others
  (`Place`), so there always is a next one until the last has run, and the locking script is added just
  when both scripts have run. The errors of parsing, of a witness that does not fit, of a step past the
  end and of a check before it are left to those who make engines and those who use them otherwise.
-/
import Mathlib.Data.List.Basic
import SpendScript.Proofs.Engine.Calls

namespace SpendScript

namespace Engine

variable {σ : Type} {c : Checker σ} {F : Flags} {start : σ} {locking : Bytes} {witness : List Bytes}
  {s₀ s₁ : Script} {e e' f f' g : Engine σ} {err : ScriptError} {done : Bool} {k n : Nat}

/-! ## Runs of a given length -/

/-- The run of an engine ends with its `n`th step. -/
inductive Halts : Engine σ → Nat → EStateM.Result ScriptError (Engine σ) Unit → Prop
  | failed {e e' : Engine σ} {err : ScriptError} (h : step e = .error err e') :
      Halts e 1 (.error err e')
  | done {e e' : Engine σ} (h : step e = .ok true e') : Halts e 1 (.ok () e')
  | next {e e₁ : Engine σ} {n : Nat} {r : EStateM.Result ScriptError (Engine σ) Unit}
      (h : step e = .ok false e₁) (hr : Halts e₁ n r) : Halts e (n + 1) r

theorem exists_halts_run (e : Engine σ) : ∃ n, Halts e n (run e) := by
  fun_induction run e with
  | case1 e err e' h => exact ⟨1, .failed h⟩
  | case2 e e' h => exact ⟨1, .done h⟩
  | case3 e e₁ h _ ih =>
    obtain ⟨n, hn⟩ := ih
    exact ⟨n + 1, .next h hn⟩

/-! ## Where a run stands -/

/-- The steps of a whole run: one for each instruction. -/
def runLength (e : Engine σ) (s₀ s₁ : Script) : Nat :=
  s₀.length + s₁.length + if e.spend.isLockHeight then 1 else 0

/-- The engine `f` stands at an instruction that `k` others come before: one of the first script, one
    of the second, or the height that the locking script pushes. -/
inductive Place (e : Engine σ) (s₀ s₁ : Script) : Nat → Engine σ → Prop
  | first {f : Engine σ} (hindex : f.scriptIndex = 0) (hoffset : f.offset < s₀.length)
      (hx : f.expanded = false) : Place e s₀ s₁ f.offset f
  | second {f : Engine σ} (hindex : f.scriptIndex = 1) (hoffset : f.offset < s₁.length)
      (hx : f.expanded = false) : Place e s₀ s₁ (s₀.length + f.offset) f
  | height {f : Engine σ} (hindex : f.scriptIndex = 2) (hoffset : f.offset = 0)
      (hx : f.expanded = true) : Place e s₀ s₁ (s₀.length + s₁.length) f

/-- The run has come to its end. -/
structure Over (e f : Engine σ) : Prop where
  index : f.scripts.length ≤ f.scriptIndex
  expanded : f.expanded = e.spend.isLockHeight

section Scripts

variable (hk : Kept e f) (hfresh : e.Fresh s₀ s₁)

include hk hfresh

theorem scripts_of_not_expanded (hx : f.expanded = false) : f.scripts = [s₀, s₁] := by
  rw [hk.scripts, hx, hfresh.scripts]
  rfl

theorem scripts_of_expanded (hx : f.expanded = true) :
    f.scripts = [s₀, s₁, e.lockingScript] := by
  rw [hk.scripts, hx, hfresh.scripts]
  rfl

theorem script_first (hindex : f.scriptIndex = 0) (hx : f.expanded = false) : f.script = s₀ := by
  unfold script
  rw [scripts_of_not_expanded hk hfresh hx, hindex]
  rfl

theorem script_second (hindex : f.scriptIndex = 1) (hx : f.expanded = false) : f.script = s₁ := by
  unfold script
  rw [scripts_of_not_expanded hk hfresh hx, hindex]
  rfl

theorem script_height (hindex : f.scriptIndex = 2) (hx : f.expanded = true) :
    f.script = e.lockingScript := by
  unfold script
  rw [scripts_of_expanded hk hfresh hx, hindex]
  rfl

end Scripts

/-- The locking script of a height lock is one push. -/
theorem length_lockingScript (he : ofWitness locking witness F c start = .ok e)
    (hheight : e.spend.isLockHeight = true) : e.lockingScript.length = 1 := by
  obtain ⟨data, hlocking, -⟩ := lockingScript_of_isLockHeight he hheight
  rw [hlocking]
  rfl

namespace Place

theorem lt_runLength (hk : Kept e f) (hp : Place e s₀ s₁ k f) : k < e.runLength s₀ s₁ := by
  unfold runLength
  cases hp with
  | first _ hoffset => omega
  | second _ hoffset => omega
  | height _ _ hx =>
    rw [if_pos (hk.expanded hx)]
    omega

/-- The scripts after `k` steps. -/
theorem scripts (hfresh : e.Fresh s₀ s₁) (hk : Kept e f) (hp : Place e s₀ s₁ k f) :
    f.scripts = if e.spend.isLockHeight = true ∧ s₀.length + s₁.length ≤ k then
      [s₀, s₁, e.lockingScript] else [s₀, s₁] := by
  cases hp with
  | first _ hoffset hx =>
    rw [scripts_of_not_expanded hk hfresh hx, if_neg]
    omega
  | second _ hoffset hx =>
    rw [scripts_of_not_expanded hk hfresh hx, if_neg]
    omega
  | height _ _ hx =>
    rw [scripts_of_expanded hk hfresh hx, if_pos ⟨hk.expanded hx, Nat.le_refl _⟩]

theorem offset_lt (he : ofWitness locking witness F c start = .ok e) (hfresh : e.Fresh s₀ s₁)
    (hk : Kept e f) (hp : Place e s₀ s₁ k f) : f.offset < f.script.length := by
  cases hp with
  | first hindex hoffset hx =>
    rw [script_first hk hfresh hindex hx]
    exact hoffset
  | second hindex hoffset hx =>
    rw [script_second hk hfresh hindex hx]
    exact hoffset
  | height hindex hoffset hx =>
    rw [script_height hk hfresh hindex hx, hoffset, length_lockingScript he (hk.expanded hx)]
    exact Nat.zero_lt_one

/-- There is a next instruction. -/
theorem next?_ne_none (he : ofWitness locking witness F c start = .ok e) (hfresh : e.Fresh s₀ s₁)
    (hk : Kept e f) (hp : Place e s₀ s₁ k f) : f.next? ≠ none := by
  intro hnext
  have hlast : f.script.length ≤ f.offset := List.getElem?_eq_none_iff.1 hnext
  exact absurd (hp.offset_lt he hfresh hk) (Nat.not_lt_of_le hlast)

/-- The first script has a next instruction or is followed by the second one. -/
theorem step_first (hfresh : e.Fresh s₀ s₁) (hk : Kept e f) (hr : Ready f)
    (hindex : f.scriptIndex = 0) (hx : f.expanded = false) (h : Engine.step f = .ok done f') :
    done = false ∧ Place e s₀ s₁ (f.offset + 1) f' := by
  have hscripts := scripts_of_not_expanded hk hfresh hx
  have hscript := script_first hk hfresh hindex hx
  have hresults := results_step hr
  rw [h] at hresults
  cases hresults with
  | @within i m _ _ hlt =>
    rw [hscript] at hlt
    exact ⟨rfl, .first (f := f.moved 1 m) hindex hlt hx⟩
  | @next i m _ _ hend _ _ =>
    rw [hscript] at hend
    rw [hscripts, hindex, hend]
    exact ⟨rfl, .second (f := (f.moved 1 m).entered 1 (Script.cleared m)) rfl
      (List.length_pos_iff.2 hfresh.second) hx⟩
  | expands _ _ _ hdue =>
    cases hindex.symm.trans hdue.1

/-- The second script has a next instruction, is followed by the locking script of a height lock, or is
    the last one. -/
theorem step_second (hfresh : e.Fresh s₀ s₁) (hk : Kept e f) (hr : Ready f)
    (hindex : f.scriptIndex = 1) (hx : f.expanded = false) (h : Engine.step f = .ok done f') :
    (done = false ∧ Place e s₀ s₁ (s₀.length + f.offset + 1) f') ∨
      done = true ∧ s₀.length + f.offset + 1 = e.runLength s₀ s₁ ∧ Over e f' := by
  have hscripts := scripts_of_not_expanded hk hfresh hx
  have hscript := script_second hk hfresh hindex hx
  have hresults := results_step hr
  rw [h] at hresults
  cases hresults with
  | @within i m _ _ hlt =>
    rw [hscript] at hlt
    exact Or.inl ⟨rfl, .second (f := f.moved 1 m) hindex hlt hx⟩
  | next _ _ hend hdue =>
    have hheight : e.spend.isLockHeight = false := by
      rw [← hk.spend]
      exact Bool.eq_false_iff.2 fun hheight => hdue ⟨hindex, hheight, hx⟩
    rw [hscript] at hend
    refine Or.inr ⟨?_, ?_, ?_, ?_⟩
    · rw [hscripts, hindex]
      rfl
    · unfold runLength
      rw [hheight, if_neg Bool.false_ne_true]
      omega
    · change f.scripts.length ≤ f.scriptIndex + 1
      rw [hscripts, hindex]
      exact Nat.le_refl _
    · exact hx.trans hheight.symm
  | @expands i m _ _ hend =>
    rw [hscript] at hend
    refine Or.inl ⟨rfl, ?_⟩
    rw [Nat.add_assoc, hend]
    exact .height (congrArg (· + 1) hindex) rfl rfl

/-- The locking script is the last one, and its height is its only instruction. -/
theorem step_height (he : ofWitness locking witness F c start = .ok e) (hfresh : e.Fresh s₀ s₁)
    (hk : Kept e f) (hindex : f.scriptIndex = 2) (hoffset : f.offset = 0) (hx : f.expanded = true)
    (h : Engine.step f = .ok done f') :
    done = true ∧ s₀.length + s₁.length + 1 = e.runLength s₀ s₁ ∧ Over e f' := by
  have hheight : e.spend.isLockHeight = true := hk.expanded hx
  have hscripts := scripts_of_expanded hk hfresh hx
  have hresults := results_step (hk.ready he)
  rw [h] at hresults
  cases hresults with
  | within _ _ hlt =>
    rw [script_height hk hfresh hindex hx, hoffset, length_lockingScript he hheight] at hlt
    exact absurd hlt (Nat.lt_irrefl 1)
  | next =>
    refine ⟨?_, ?_, ?_, ?_⟩
    · rw [hscripts, hindex]
      rfl
    · unfold runLength
      rw [hheight, if_pos rfl]
    · change f.scripts.length ≤ f.scriptIndex + 1
      rw [hscripts, hindex]
      exact Nat.le_refl _
    · exact hx.trans hheight.symm
  | expands _ _ _ hdue =>
    cases hindex.symm.trans hdue.1

/-- **One step** goes to the next instruction, or it is the last one of the run. -/
theorem step (he : ofWitness locking witness F c start = .ok e) (hfresh : e.Fresh s₀ s₁)
    (hk : Kept e f) (hp : Place e s₀ s₁ k f) (h : Engine.step f = .ok done f') :
    (done = false ∧ Place e s₀ s₁ (k + 1) f') ∨
      done = true ∧ k + 1 = e.runLength s₀ s₁ ∧ Over e f' := by
  have hr : Ready f := hk.ready he
  cases hp with
  | first hindex _ hx => exact Or.inl (step_first hfresh hk hr hindex hx h)
  | second hindex _ hx => exact step_second hfresh hk hr hindex hx h
  | height hindex hoffset hx => exact Or.inr (step_height he hfresh hk hindex hoffset hx h)

end Place

/-! ## Whole runs -/

/-- The run of a fresh engine is at its first instruction. -/
theorem place_of_fresh (hfresh : e.Fresh s₀ s₁) : Place e s₀ s₁ 0 e := by
  have hplace : Place e s₀ s₁ e.offset e := by
    refine .first hfresh.scriptIndex ?_ hfresh.expanded
    rw [hfresh.offset]
    exact List.length_pos_iff.2 hfresh.first
  rw [hfresh.offset] at hplace
  exact hplace

/-- A step fails like that only where nothing is left to run. -/
theorem isMisuse_of_step (hr : Ready f) (hnext : f.next? ≠ none) (h : step f = .error err f') :
    err.isMisuse = false := by
  have hresults := results_step hr
  rw [h] at hresults
  cases hresults with
  | ended hnone => exact absurd hnone hnext
  | failed _ hi => exact (Instruction.explained_step _ _ _ hi).misuse
  | refused _ _ herr => exact herr

section Run

variable (he : ofWitness locking witness F c start = .ok e) (hfresh : e.Fresh s₀ s₁)

include he hfresh

/-- After `n` further steps a run stands at an instruction or has come to its end. -/
theorem place_of_after (hk : Kept e f) (hp : Place e s₀ s₁ k f) (h : after n f = some g) :
    Kept e g ∧ (Place e s₀ s₁ (k + n) g ∨ k + n = e.runLength s₀ s₁ ∧ Over e g) := by
  induction n generalizing k f with
  | zero =>
    obtain rfl : f = g := Option.some.inj h
    exact ⟨hk, Or.inl hp⟩
  | succ n ih =>
    rcases hs : step f with ⟨done, f₁⟩ | ⟨err, f₁⟩ <;> rw [after, hs] at h
    · have hk₁ : Kept e f₁ := hk.of_step hs
      rcases hp.step he hfresh hk hs with ⟨-, hp₁⟩ | ⟨rfl, hlength, hover⟩
      · have hadd : k + (n + 1) = k + 1 + n := by omega
        rw [hadd]
        exact ih hk₁ hp₁ h
      · cases n with
        | zero =>
          obtain rfl : f₁ = g := Option.some.inj h
          exact ⟨hk₁, Or.inr ⟨hlength, hover⟩⟩
        | succ n => cases (after_succ_of_next?_none (next?_of_done hs) n).symm.trans h
    · cases h

theorem halts_le (hk : Kept e f) (hp : Place e s₀ s₁ k f)
    {r : EStateM.Result ScriptError (Engine σ) Unit} (h : Halts f n r) :
    k + n ≤ e.runLength s₀ s₁ := by
  induction h generalizing k with
  | failed | done => exact hp.lt_runLength hk
  | next hs _ ih =>
    have hkept := hk.of_step hs
    rcases hp.step he hfresh hk hs with ⟨-, hp₁⟩ | ⟨hdone, -⟩
    · have hle := ih hkept hp₁
      omega
    · cases hdone

theorem isMisuse_of_run (hk : Kept e f) (hp : Place e s₀ s₁ k f)
    (h : run f = .error err f') : err.isMisuse = false := by
  fun_induction run f generalizing k with
  | case1 f err₁ f₁ hs =>
    cases h
    exact isMisuse_of_step (hk.ready he) (hp.next?_ne_none he hfresh hk) hs
  | case2 => cases h
  | case3 f f₁ hs _ ih =>
    have hkept := hk.of_step hs
    rcases hp.step he hfresh hk hs with ⟨-, hp₁⟩ | ⟨hdone, -⟩
    · exact ih hkept hp₁ h
    · cases hdone

theorem over_of_run (hk : Kept e f) (hp : Place e s₀ s₁ k f) (h : run f = .ok () f') :
    Over e f' := by
  fun_induction run f generalizing k with
  | case1 => cases h
  | case2 f f₁ hs =>
    cases h
    rcases hp.step he hfresh hk hs with ⟨hdone, -⟩ | ⟨-, -, hover⟩
    · cases hdone
    · exact hover
  | case3 f f₁ hs _ ih =>
    have hkept := hk.of_step hs
    rcases hp.step he hfresh hk hs with ⟨-, hp₁⟩ | ⟨hdone, -⟩
    · exact ih hkept hp₁ h
    · cases hdone

end Run

/-- The check behind the end of a run finds that it is over. -/
theorem isMisuse_of_check {final : Bool} (hend : f.scripts.length ≤ f.scriptIndex)
    (h : check final f = .error err f') : err.isMisuse = false := by
  unfold check at h
  rw [if_neg (Nat.not_lt_of_le hend)] at h
  split at h
  · cases h
    rfl
  · split at h
    · cases h
      rfl
    · dsimp only at h
      split at h <;> cases h
      rfl

theorem isMisuse_of_execute (he : ofWitness locking witness F c start = .ok e)
    (hfresh : e.Fresh s₀ s₁) (h : execute e = .error err e') : err.isMisuse = false := by
  have hk : Kept e e := kept_of_ofWitness he
  have hp : Place e s₀ s₁ 0 e := place_of_fresh hfresh
  rcases execute_error.1 h with ⟨e₁, hrun, rfl⟩ | ⟨e₁, e₂, hrun, hcheck, rfl⟩
  · exact isMisuse_of_run he hfresh hk hp hrun
  · exact isMisuse_of_check (over_of_run he hfresh hk hp hrun).index hcheck

/-- A failed step leaves the scripts as they are. -/
theorem scripts_of_step_error (hr : Ready f) (h : step f = .error err f') :
    f'.scripts = f.scripts := by
  have hresults := results_step hr
  rw [h] at hresults
  cases hresults with
  | ended | failed => rfl
  | refused _ _ _ hscripts => exact hscripts

/-- **Executions halt.** A fresh engine runs for at most one step for each instruction of its two
    scripts, and for one more if it is locked by a height. The locking script of a height lock is added
    when both scripts have run, and otherwise the scripts stay as they are, also where a step fails. The
    error of an execution is none of parsing, of a witness that does not fit, of a step past the end or
    of a check before it; and whatever has been called before, a step has such an error only where no
    instruction is left. -/
theorem execute_halts (he : ofWitness locking witness F c start = .ok e) :
    ∃ w₀ w₁ rest s₀ s₁, witness = w₀ :: w₁ :: rest ∧ Script.parse w₀ = .ok s₀ ∧
      Script.parse w₁ = .ok s₁ ∧ e.scripts = [s₀, s₁] ∧
      (∃ n ≤ s₀.length + s₁.length + (if e.spend.isLockHeight then 1 else 0), Halts e n (run e)) ∧
      (∀ k f, after k e = some f →
        k ≤ s₀.length + s₁.length + (if e.spend.isLockHeight then 1 else 0) ∧
        f.scripts = (if e.spend.isLockHeight = true ∧ s₀.length + s₁.length ≤ k then
          [s₀, s₁, e.lockingScript] else [s₀, s₁]) ∧
        ∀ err f', step f = .error err f' → f'.scripts = f.scripts) ∧
      (∀ err e', execute e = .error err e' → (∀ p, err ≠ .parse p) ∧ (∀ w, err ≠ .witness w) ∧
        (∀ i o n, err ≠ .pastEnd i o n) ∧ err ≠ .unfinished) ∧
      ∀ f err f', Calls e f → step f = .error err f' → err.isMisuse = true → f.next? = none := by
  obtain ⟨w₀, w₁, rest, s₀, s₁, hwitness, hw₀, hw₁, -, hfresh⟩ := exists_fresh_of_ofWitness he
  have hk : Kept e e := kept_of_ofWitness he
  have hp : Place e s₀ s₁ 0 e := place_of_fresh hfresh
  refine ⟨w₀, w₁, rest, s₀, s₁, hwitness, hw₀, hw₁, hfresh.scripts, ?_, fun k f hf => ?_, ?_, ?_⟩
  · obtain ⟨n, hn⟩ := exists_halts_run e
    have hle := halts_le he hfresh hk hp hn
    rw [Nat.zero_add] at hle
    exact ⟨n, hle, hn⟩
  · obtain ⟨hkept, hplace⟩ := place_of_after he hfresh hk hp hf
    rw [Nat.zero_add] at hplace
    have hfailed : ∀ err f', step f = .error err f' → f'.scripts = f.scripts :=
      fun err f' h => scripts_of_step_error (hkept.ready he) h
    rcases hplace with hplace | ⟨hlength, hover⟩
    · exact ⟨Nat.le_of_lt (hplace.lt_runLength hkept), hplace.scripts hfresh hkept, hfailed⟩
    · refine ⟨Nat.le_of_eq hlength, ?_, hfailed⟩
      rcases hx : f.expanded with _ | _
      · rw [scripts_of_not_expanded hkept hfresh hx, if_neg]
        rw [← hover.expanded, hx]
        exact fun h => Bool.false_ne_true h.1
      · rw [scripts_of_expanded hkept hfresh hx, if_pos]
        refine ⟨hkept.expanded hx, ?_⟩
        unfold runLength at hlength
        omega
  · intro err e' h
    have hmisuse := isMisuse_of_execute he hfresh h
    refine ⟨?_, ?_, ?_, ?_⟩
    all_goals
      intros
      rintro rfl
      cases hmisuse
  · intro f err f' hf h hmisuse
    by_contra hnext
    rw [isMisuse_of_step ((hf.kept hk).ready he) hnext h] at hmisuse
    cases hmisuse

/-- `1` and `1 2` under a height: the run has four steps at most, and the third one adds the locking
    script. -/
theorem execute_halts_height :
    ∃ e : Engine Unit,
      ofWitness [0x08, 0xd0, 0x07, 0, 0, 0, 0, 0, 0] [[0x51], [0x51, 0x52]] {} .accepting () = .ok e ∧
      (∃ n ≤ 4, Halts e n (run e)) ∧ (after 3 e).isSome = true ∧
      (∀ f, after 2 e = some f → f.scripts.length = 2) ∧
      ∀ f, after 3 e = some f → f.scripts.length = 3 := by
  have hrun : (do
      let e ← ofWitness [0x08, 0xd0, 0x07, 0, 0, 0, 0, 0, 0] [[0x51], [0x51, 0x52]] {} .accepting ()
      return (e.spend.isLockHeight, (after 3 e).isSome)) = .ok (true, true) := by
    decide +kernel
  have hfirst : Script.parse [0x51] = .ok [⟨⟨0x51⟩, []⟩] := by decide +kernel
  have hsecond : Script.parse [0x51, 0x52] = .ok [⟨⟨0x51⟩, []⟩, ⟨⟨0x52⟩, []⟩] := by decide +kernel
  obtain ⟨e, he, hcomputed⟩ := except_bind_ok.1 hrun
  obtain ⟨hheight, hsome⟩ : e.spend.isLockHeight = true ∧ (after 3 e).isSome = true := by
    simpa using Except.ok.inj hcomputed
  obtain ⟨_, _, _, s₀, s₁, hcons, hw₀, hw₁, -, hhalts, hafter, -, -⟩ := execute_halts he
  cases hcons
  obtain rfl := Except.ok.inj (hfirst.symm.trans hw₀)
  obtain rfl := Except.ok.inj (hsecond.symm.trans hw₁)
  rw [hheight] at hhalts
  refine ⟨e, he, hhalts, hsome, fun f hf => ?_, fun f hf => ?_⟩
  · rw [(hafter 2 f hf).2.1, hheight]
    rfl
  · rw [(hafter 3 f hf).2.1, hheight]
    rfl

end Engine

end SpendScript

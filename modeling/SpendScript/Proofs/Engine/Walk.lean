/-
  Runs as walks along the instructions. A walk is a sequence of steps that succeed and do not end
  the run, with the instructions they execute. Within a script an engine walks from its place to the
  last instruction, or to one that fails (`walk_script`). What is defined by steps follows from that:
  the run (`Walk.run_eq`), the instructions it executes (`Walk.visited_eq`), and the engine after
  the script (`after_script`).
-/
import SpendScript.Proofs.Engine.Steps

namespace SpendScript

/-- An instruction at its place. -/
structure Visit where
  scriptIndex : Nat
  offset : Nat
  instruction : Instruction
  deriving DecidableEq

/-- The instructions of a script from a place on, in order. -/
def Script.visits (scriptIndex offset : Nat) (s : Script) : List Visit :=
  (s.zipIdx offset).map fun (i, o) => ⟨scriptIndex, o, i⟩

@[simp] theorem Script.visits_nil (scriptIndex offset : Nat) :
    visits scriptIndex offset [] = [] := rfl

@[simp] theorem Script.visits_cons (scriptIndex offset : Nat) (i : Instruction) (s : Script) :
    visits scriptIndex offset (i :: s) =
      ⟨scriptIndex, offset, i⟩ :: visits scriptIndex (offset + 1) s := rfl

@[simp] theorem Script.length_visits (scriptIndex offset : Nat) (s : Script) :
    (visits scriptIndex offset s).length = s.length := by
  simp [visits]

namespace Engine

variable {σ : Type} {e e' e₁ : Engine σ}

/-- The next instruction at its place, if the run is not over. -/
def visit? (e : Engine σ) : Option Visit := e.next?.map (⟨e.scriptIndex, e.offset, ·⟩)

/-- The instructions that a run executes without failing, in order. -/
def visited (e : Engine σ) : List Visit :=
  match h : step e with
  | .error _ _ => []
  | .ok true _ => e.visit?.toList
  | .ok false e' =>
    have : e'.remaining < e.remaining := remaining_lt_of_step h
    e.visit?.toList ++ visited e'
termination_by e.remaining

theorem visited_eq (e : Engine σ) :
    visited e = match step e with
      | .error _ _ => []
      | .ok true _ => e.visit?.toList
      | .ok false e' => e.visit?.toList ++ visited e' := by
  rw [visited]
  split <;> next h => simp only [h]

/-! ## Walks -/

/-- Steps that succeed and do not end the run, with the instructions they execute. -/
inductive Walk : Engine σ → List Visit → Engine σ → Prop
  | nil (e : Engine σ) : Walk e [] e
  | cons {e e₁ e' : Engine σ} {v : Visit} {vs : List Visit} (hv : e.visit? = some v)
      (hs : step e = .ok false e₁) (hw : Walk e₁ vs e') : Walk e (v :: vs) e'

namespace Walk

variable {vs : List Visit}

theorem run_eq (h : Walk e vs e') : run e = run e' := by
  induction h with
  | nil e => rfl
  | cons hv hs hw ih =>
    rw [Engine.run_eq, hs]
    exact ih

theorem visited_eq (h : Walk e vs e') : visited e = vs ++ visited e' := by
  induction h with
  | nil e => rfl
  | cons hv hs hw ih =>
    rw [Engine.visited_eq, hs, hv]
    exact congrArg (List.cons _) ih

theorem after_add (h : Walk e vs e') (n : Nat) : after (vs.length + n) e = after n e' := by
  induction h with
  | nil e => rw [List.length_nil, Nat.zero_add]
  | cons hv hs hw ih =>
    rw [List.length_cons, Nat.add_right_comm, after, hs, ← ih]

end Walk

/-! ## One script -/

/-- The engine after instructions of the running script: `k` of them have run and have left `m`. -/
def moved (e : Engine σ) (k : Nat) (m : Machine σ) : Engine σ :=
  { e with machine := m, status := .running, offset := e.offset + k }

theorem moved_moved (j k : Nat) (m m' : Machine σ) :
    (e.moved j m).moved k m' = e.moved (j + k) m' := by
  unfold moved
  rw [Nat.add_assoc]

/-- Past the next instruction there is one more behind the engine. -/
theorem take_moved {i : Instruction} (hnext : e.next? = some i) (m : Machine σ) :
    (e.moved 1 m).script.take (e.moved 1 m).offset = e.script.take e.offset ++ [i] := by
  change e.script.take (e.offset + 1) = _
  rw [List.take_add_one, show e.script[e.offset]? = some i from hnext]
  rfl

theorem visit?_of_lt (ho : e.offset < e.script.length) :
    e.visit? = some ⟨e.scriptIndex, e.offset, e.script[e.offset]⟩ := by
  have hnext : e.next? = some e.script[e.offset] := List.getElem?_eq_getElem ho
  unfold visit?
  rw [hnext]
  rfl

/-- What a step does with an instruction that has run. -/
theorem advance_of_step_ok (ho : e.offset < e.script.length) {m : Machine σ}
    (hi : (e.script[e.offset]).step e.context e.offset e.machine = .ok () m) :
    advance e = if e.offset + 1 < e.script.length then .ok false (e.moved 1 m)
      else finishScript (e.moved 1 m) := by
  have hnext : e.next? = some e.script[e.offset] := List.getElem?_eq_getElem ho
  unfold advance
  rw [hnext]
  dsimp only
  rw [hi]
  rfl

theorem advance_of_step_error (ho : e.offset < e.script.length) {err : ScriptError}
    {m : Machine σ}
    (hi : (e.script[e.offset]).step e.context e.offset e.machine = .error err m) :
    advance e = .error err (e.moved 0 m) := by
  have hnext : e.next? = some e.script[e.offset] := List.getElem?_eq_getElem ho
  unfold advance
  rw [hnext]
  dsimp only
  rw [hi]
  rfl

/-- **One script.** An engine in a script walks to its last instruction and then does what comes at
    the end of the script, or it walks to an instruction that fails. -/
theorem walk_script (ho : e.offset < e.script.length) :
    ∃ vs e₁, Walk e vs e₁ ∧ vs.length < (e.script.drop e.offset).length ∧
      match Script.run e.context e.offset (e.script.drop e.offset) e.machine with
      | .ok () m =>
        vs ++ e₁.visit?.toList =
            Script.visits e.scriptIndex e.offset (e.script.drop e.offset) ∧
          advance e₁ = finishScript (e.moved (e.script.drop e.offset).length m)
      | .error err _ => ∃ e₂, advance e₁ = .error err e₂ := by
  generalize hk : e.script.length - e.offset = k
  induction k generalizing e with
  | zero => omega
  | succ k ih =>
    have hcons : e.script.drop e.offset = e.script[e.offset] :: e.script.drop (e.offset + 1) :=
      List.drop_eq_getElem_cons ho
    have hvisit := visit?_of_lt ho
    rw [hcons]
    rcases hi : (e.script[e.offset]).step e.context e.offset e.machine with ⟨_, m⟩ | ⟨err, m⟩
    · have hadvance := advance_of_step_ok ho hi
      rw [Script.run_cons_of_ok hi]
      by_cases hlt : e.offset + 1 < e.script.length
      · -- The step stays within the script, and the walk goes on from the next instruction.
        have hk₁ : (e.moved 1 m).script.length - (e.moved 1 m).offset = k := by
          change e.script.length - (e.offset + 1) = k
          omega
        obtain ⟨vs, e₁, hwalk, hlen, hend⟩ := ih (e := e.moved 1 m) hlt hk₁
        have hstep : step e = .ok false (e.moved 1 m) := step_ok.2 (hadvance.trans (if_pos hlt))
        refine ⟨_ :: vs, e₁, .cons hvisit hstep hwalk, Nat.succ_lt_succ hlen, ?_⟩
        change match Script.run e.context (e.offset + 1) (e.script.drop (e.offset + 1)) m with
          | .ok () m' => _
          | .error err _ => _ at hend
        generalize Script.run e.context (e.offset + 1) (e.script.drop (e.offset + 1)) m = r
          at hend ⊢
        rcases r with ⟨_, m'⟩ | ⟨err, m'⟩
        · obtain ⟨hvs, hlast⟩ := hend
          refine ⟨congrArg (List.cons _) hvs, ?_⟩
          rw [hlast, moved_moved, List.length_cons, Nat.add_comm]
          rfl
        · exact hend
      · -- The step is the last one of the script.
        have hnil : e.script.drop (e.offset + 1) = [] :=
          List.drop_eq_nil_of_le (Nat.le_of_not_lt hlt)
        rw [hnil]
        refine ⟨[], e, .nil e, Nat.zero_lt_one, ?_, hadvance.trans (if_neg hlt)⟩
        rw [hvisit]
        rfl
    · rw [Script.run_cons_of_error hi]
      exact ⟨[], e, .nil e, Nat.succ_pos _, _, advance_of_step_error ho hi⟩

/-- A walk that has only the next instruction left of a script is one short of its length. -/
theorem length_eq_of_visits {vs : List Visit} {scriptIndex offset : Nat} {s : Script}
    (hvs : vs ++ e.visit?.toList = Script.visits scriptIndex offset s) (hlen : vs.length < s.length) :
    s.length = vs.length + 1 := by
  have hlength := congrArg List.length hvs
  rw [List.length_append, Script.length_visits] at hlength
  have hone : e.visit?.toList.length ≤ 1 := by cases e.visit? <;> simp
  omega

/-- As long as instructions of the script succeed and it goes on behind them, the engine walks. -/
theorem walk_take {k : Nat} {m : Machine σ} (hk : e.offset + k < e.script.length)
    (hrun : Script.run e.context e.offset ((e.script.drop e.offset).take k) e.machine =
      .ok () m) :
    ∃ vs status, vs.length = k ∧ Walk e vs { e.moved k m with status := status } := by
  induction k generalizing e with
  | zero =>
    rw [List.take_zero] at hrun
    cases hrun
    exact ⟨[], e.status, rfl, .nil e⟩
  | succ k ih =>
    have ho : e.offset < e.script.length := by omega
    rw [List.drop_eq_getElem_cons ho, List.take_succ_cons, Script.run_cons_ok] at hrun
    obtain ⟨m₁, hi, hrest⟩ := hrun
    have hstep : step e = .ok false (e.moved 1 m₁) :=
      step_ok.2 ((advance_of_step_ok ho hi).trans (if_pos (by omega)))
    have hk₁ : (e.moved 1 m₁).offset + k < (e.moved 1 m₁).script.length := by
      change e.offset + 1 + k < e.script.length
      omega
    obtain ⟨vs, status, hlength, hwalk⟩ := ih (e := e.moved 1 m₁) hk₁ hrest
    rw [moved_moved, Nat.add_comm] at hwalk
    exact ⟨_ :: vs, status, congrArg (· + 1) hlength, .cons (visit?_of_lt ho) hstep hwalk⟩

/-- An engine gets through a script when its instructions succeed and its end does. -/
theorem after_of_run {m : Machine σ} {done : Bool} (ho : e.offset < e.script.length)
    (hrun : Script.run e.context e.offset (e.script.drop e.offset) e.machine = .ok () m)
    (hfinish : finishScript (e.moved (e.script.drop e.offset).length m) = .ok done e') :
    after (e.script.drop e.offset).length e = some e' := by
  obtain ⟨vs, e₁, hwalk, hlen, hend⟩ := walk_script ho
  rw [hrun] at hend
  obtain ⟨hvs, hadvance⟩ := hend
  have hlast := length_eq_of_visits hvs hlen
  have hstep : step e₁ = .ok done e' := step_ok.2 (hadvance.trans hfinish)
  rw [hlast, hwalk.after_add, after, hstep]
  rfl

/-- An engine that gets through a script has run its instructions, and has done what comes at the
    end of the script. -/
theorem after_script (ho : e.offset < e.script.length)
    (h : after (e.script.drop e.offset).length e = some e') :
    ∃ m done, Script.run e.context e.offset (e.script.drop e.offset) e.machine = .ok () m ∧
      finishScript (e.moved (e.script.drop e.offset).length m) = .ok done e' := by
  obtain ⟨vs, e₁, hwalk, hlen, hend⟩ := walk_script ho
  obtain ⟨n, hn⟩ : ∃ n, (e.script.drop e.offset).length = vs.length + (n + 1) :=
    ⟨(e.script.drop e.offset).length - vs.length - 1, by omega⟩
  rw [hn, hwalk.after_add, after] at h
  generalize Script.run e.context e.offset (e.script.drop e.offset) e.machine = r at hend ⊢
  rcases r with ⟨_, m⟩ | ⟨err, m⟩
  · obtain ⟨hvs, hadvance⟩ := hend
    -- The walk leaves out one instruction only, so the next step is the last one.
    have hzero : n = 0 := by
      have hlast := length_eq_of_visits hvs hlen
      omega
    refine ⟨m, ?_⟩
    rcases hs : step e₁ with ⟨done, e₂⟩ | ⟨err, e₂⟩
    · rw [hs, hzero] at h
      have he : e₂ = e' := Option.some.inj h
      rw [step_ok, hadvance, he] at hs
      exact ⟨done, rfl, hs⟩
    · rw [hs] at h
      cases h
  · obtain ⟨e₂, hadvance⟩ := hend
    rw [step_of_advance_error hadvance] at h
    cases h

/-- A run within a script runs its instructions, each once and in order, does what comes at the end
    of the script, and goes on if that is not the end of the run. -/
theorem run_script_ok (ho : e.offset < e.script.length) (h : run e = .ok () e') :
    ∃ m done e₂, Script.run e.context e.offset (e.script.drop e.offset) e.machine = .ok () m ∧
      finishScript (e.moved (e.script.drop e.offset).length m) = .ok done e₂ ∧
      (done = false → run e₂ = .ok () e') ∧
      visited e = Script.visits e.scriptIndex e.offset (e.script.drop e.offset) ++
        if done then [] else visited e₂ := by
  obtain ⟨vs, e₁, hwalk, -, hend⟩ := walk_script ho
  rw [hwalk.run_eq] at h
  have hvisited := hwalk.visited_eq
  rw [visited_eq e₁] at hvisited
  generalize Script.run e.context e.offset (e.script.drop e.offset) e.machine = r at hend ⊢
  rcases r with ⟨_, m⟩ | ⟨err, m⟩
  · obtain ⟨hvs, hadvance⟩ := hend
    have hfinish (done : Bool) (e₂ : Engine σ) (hs : step e₁ = .ok done e₂) :
        finishScript (e.moved (e.script.drop e.offset).length m) = .ok done e₂ := by
      rw [← hadvance]
      exact step_ok.1 hs
    rcases run_ok.1 h with hs | ⟨e₂, hs, hrun⟩
    · rw [hs, hvs] at hvisited
      refine ⟨m, true, e', rfl, hfinish true e' hs, (fun h => nomatch h), ?_⟩
      rw [hvisited, if_pos rfl, List.append_nil]
    · rw [hs] at hvisited
      refine ⟨m, false, e₂, rfl, hfinish false e₂ hs, fun _ => hrun, ?_⟩
      rw [hvisited, ← List.append_assoc, hvs]
      rfl
  · obtain ⟨e₂, hadvance⟩ := hend
    rw [run_eq, step_of_advance_error hadvance] at h
    cases h

end Engine

end SpendScript

/-
  Runs script by script. A run within a script comes to what the instructions of the script come
  to, and then to what follows the end of the script (`outcome_run_script`): the next script, the
  locking script of a height lock, or the end of the run. The two scripts of a witness so run one
  after the other on one machine (`Fresh.outcome_run`, `Fresh.outcome_run_resumed`). A spend that is
  locked by a hash is then over (`Fresh.outcome_run_hashLocked`), and is accepted when they leave a
  single true item (`accepts_hashLocked`).
-/
import SpendScript.Proofs.Engine.Construction
import SpendScript.Proofs.Engine.Walk

namespace SpendScript

namespace Engine

variable {σ : Type} {e e' : Engine σ}

open Script (cleared close close_ok runWhole runPair)

/-! ## One script -/

/-- What a run comes to after a step: the step was the last one, or the run goes on. -/
def continued (p : Bool × Engine σ) : Except ScriptError (Unit × Engine σ) :=
  if p.1 then .ok ((), p.2) else outcome (run p.2)

theorem outcome_run (e : Engine σ) : outcome (run e) = outcome (advance e) >>= continued := by
  rw [run_eq]
  unfold step
  rcases advance e with ⟨done, e₁⟩ | ⟨err, e₁⟩
  · cases done <;> rfl
  · rfl

/-- **One script.** A run within a script comes to what the instructions of the script do from the
    next one on, and then to what follows the end of the script. -/
theorem outcome_run_script (ho : e.offset < e.script.length) :
    outcome (run e) =
      outcome (Script.run e.context e.offset (e.script.drop e.offset) e.machine) >>= fun p =>
        outcome (finishScript (e.moved (e.script.drop e.offset).length p.2)) >>= continued := by
  obtain ⟨vs, e₁, hwalk, -, hend⟩ := walk_script ho
  rw [hwalk.run_eq, outcome_run]
  generalize Script.run e.context e.offset (e.script.drop e.offset) e.machine = r at hend ⊢
  rcases r with ⟨_, m⟩ | ⟨err, m⟩
  · rw [hend.2]
    rfl
  · obtain ⟨e₂, hadvance⟩ := hend
    rw [hadvance]
    rfl

/-- At the start of a script that is not empty there is a next instruction. -/
theorem offset_lt_length (hoffset : e.offset = 0) (hne : e.script ≠ []) :
    e.offset < e.script.length := by
  rw [hoffset]
  exact List.length_pos_iff.2 hne

/-- What instructions of a script read. -/
def contextOf (e : Engine σ) (s : Script) : Context σ := { e.context with script := s }

/-- The same from the start of a script. -/
theorem outcome_run_whole {s : Script} (hscript : e.script = s) (hoffset : e.offset = 0)
    (hne : s ≠ []) :
    outcome (run e) = outcome (Script.run (e.contextOf s) 0 s e.machine) >>= fun p =>
      outcome (finishScript (e.moved s.length p.2)) >>= continued := by
  subst hscript
  have hrun := outcome_run_script (offset_lt_length hoffset hne)
  simp only [hoffset, List.drop_zero] at hrun
  exact hrun

/-- A run from the start of a script runs each of its instructions once and in order, does what comes
    at its end, and goes on if that is not the end of the run. -/
theorem run_whole_ok {s : Script} (hscript : e.script = s) (hoffset : e.offset = 0) (hne : s ≠ [])
    (h : run e = .ok () e') :
    ∃ m done e₂, Script.run (e.contextOf s) 0 s e.machine = .ok () m ∧
      finishScript (e.moved s.length m) = .ok done e₂ ∧ (done = false → run e₂ = .ok () e') ∧
      visited e = Script.visits e.scriptIndex 0 s ++ if done then [] else visited e₂ := by
  subst hscript
  have hrun := run_script_ok (offset_lt_length hoffset hne) h
  simp only [hoffset, List.drop_zero] at hrun
  exact hrun

/-! ## The end of a script -/

/-- The engine at the start of a script. -/
def entered (e : Engine σ) (index : Nat) (m : Machine σ) : Engine σ :=
  { e with scriptIndex := index, offset := 0, machine := m }

/-- The locking script of a height lock is added when the running script ends. -/
def Due (e : Engine σ) : Prop :=
  e.scriptIndex = 1 ∧ e.spend.isLockHeight = true ∧ e.expanded = false

theorem mustExpand_departed : e.departed.mustExpand = true ↔ e.Due := by
  have hindex : e.scriptIndex + 1 = 2 ↔ e.scriptIndex = 1 := by omega
  exact mustExpand_iff.trans (and_congr_left' hindex)

theorem outcome_leaveScript (e : Engine σ) :
    outcome (leaveScript e) = outcome (close e.machine) >>= fun _ => .ok ((), e.departed) := by
  unfold leaveScript close
  by_cases hb : e.machine.branches.isEmpty = true
  · rw [if_pos hb, if_pos hb]
    rfl
  · rw [if_neg hb, if_neg hb]
    rfl

/-- At the end of a script the conditionals must be closed. Where no locking script is due, the next
    script that is not empty follows, if there is one. -/
theorem outcome_finishScript (hdue : ¬ e.Due) {index : Nat}
    (hindex : (if e.scripts[e.scriptIndex + 1]? = some [] then e.scriptIndex + 2
      else e.scriptIndex + 1) = index) :
    outcome (finishScript e) = outcome (close e.machine) >>= fun p =>
      .ok (decide (e.scripts.length ≤ index), e.entered index p.2) := by
  have hmust : ¬ e.departed.mustExpand = true := mt mustExpand_departed.1 hdue
  unfold finishScript
  rw [outcome_bind, outcome_leaveScript]
  unfold close
  by_cases hb : e.machine.branches.isEmpty = true
  · rw [if_pos hb]
    change outcome ((expandIfDue >>= fun _ => enterScript) e.departed) = _
    have hexpand : expandIfDue e.departed = .ok () e.departed := if_neg hmust
    rw [outcome_bind, hexpand, ← hindex]
    rfl
  · rw [if_neg hb]
    rfl

theorem outcome_finishScript_next (hdue : ¬ e.Due) {next : Script}
    (hnext : e.scripts[e.scriptIndex + 1]? = some next) (hne : next ≠ []) :
    outcome (finishScript e) = outcome (close e.machine) >>= fun p =>
      .ok (false, e.entered (e.scriptIndex + 1) p.2) := by
  have hlt : e.scriptIndex + 1 < e.scripts.length := (List.getElem?_eq_some_iff.1 hnext).1
  have hindex : ¬ e.scripts[e.scriptIndex + 1]? = some [] := by
    rw [hnext]
    exact fun h => hne (Option.some.inj h)
  rw [outcome_finishScript hdue (if_neg hindex), decide_eq_false (Nat.not_le_of_lt hlt)]

theorem outcome_finishScript_last (hdue : ¬ e.Due) (hlast : e.scripts.length = e.scriptIndex + 1) :
    outcome (finishScript e) = outcome (close e.machine) >>= fun p =>
      .ok (true, e.entered (e.scriptIndex + 1) p.2) := by
  have hindex : ¬ e.scripts[e.scriptIndex + 1]? = some [] := by
    rw [List.getElem?_eq_none (Nat.le_of_eq hlast)]
    exact fun h => nomatch h
  rw [outcome_finishScript hdue (if_neg hindex), decide_eq_true (Nat.le_of_eq hlast)]

/-- The top item must be true. -/
def requireTrue : Stack → Except ScriptError Unit
  | [] => .error .emptyStack
  | item :: _ => if truth item then .ok () else .error .scriptFailed

/-- The engine at the start of the locking script, whose stack is the rest of the witness. -/
def relocked (e : Engine σ) (m : Machine σ) : Engine σ :=
  { e with
    scripts := e.scripts ++ [e.lockingScript]
    scriptIndex := e.scriptIndex + 1
    offset := 0
    expanded := true
    machine := { m with stack := e.witness.tail.reverse } }

/-- A script is only left out where it cannot be read. -/
theorem parse_of_lockingScript (hlocking : e.lockingScript ≠ []) :
    Script.parse e.locking = .ok e.lockingScript := by
  rcases hparse : Script.parse e.locking with err | script
  · refine absurd ?_ hlocking
    unfold lockingScript
    rw [hparse]
  · rw [lockingScript_of_parse hparse]

/-- The locking script is added when all scripts have run and have left a true item. -/
theorem outcome_expand (hend : e.scripts.length ≤ e.scriptIndex) (hlocking : e.lockingScript ≠ []) :
    outcome (expand e) = requireTrue e.machine.stack >>= fun _ =>
      .ok ((), { e.setStack e.witness.tail with
        scripts := e.scripts ++ [e.lockingScript], expanded := true }) := by
  unfold expand check
  rw [if_neg (Nat.not_lt_of_le hend)]
  rcases e.machine.stack with _ | ⟨item, below⟩
  · rfl
  · by_cases ht : truth item = true
    · simp [requireTrue, ht, outcome, Bind.bind, Except.bind, setStack,
        parse_of_lockingScript hlocking]
    · simp [requireTrue, ht, outcome, Bind.bind, Except.bind]

theorem enterScript_of_next {next : Script} (hnext : e.scripts[e.scriptIndex]? = some next)
    (hne : next ≠ []) :
    enterScript e = .ok false { e with machine := { e.machine with codeStart := 0 } } := by
  have hlt : e.scriptIndex < e.scripts.length := (List.getElem?_eq_some_iff.1 hnext).1
  have hfull : ¬ e.scripts[e.scriptIndex]? = some [] := by
    rw [hnext]
    exact fun h => hne (Option.some.inj h)
  unfold enterScript
  dsimp only
  rw [if_neg hfull, decide_eq_false (Nat.not_le_of_lt hlt)]

/-- Where the locking script is due, the top item must be true at the end of the script. The locking
    script then follows. -/
theorem outcome_finishScript_due (hdue : e.Due) (hscripts : e.scripts.length = 2)
    (hlocking : e.lockingScript ≠ []) :
    outcome (finishScript e) = outcome (close e.machine) >>= fun p =>
      requireTrue p.2.stack >>= fun _ => .ok (false, e.relocked p.2) := by
  have hmust : e.departed.mustExpand = true := mustExpand_departed.2 hdue
  obtain ⟨hindex, -, -⟩ := hdue
  have hnext : (e.scripts ++ [e.lockingScript])[e.scriptIndex + 1]? = some e.lockingScript := by
    rw [hindex, List.getElem?_append_right (by omega), hscripts]
    rfl
  have hend : (e.departed).scripts.length ≤ (e.departed).scriptIndex := by
    change e.scripts.length ≤ e.scriptIndex + 1
    omega
  unfold finishScript close
  rw [outcome_bind, outcome_leaveScript]
  unfold close
  by_cases hb : e.machine.branches.isEmpty = true
  · rw [if_pos hb]
    change outcome ((expandIfDue >>= fun _ => enterScript) e.departed) =
      requireTrue e.machine.stack >>= fun _ => .ok (false, e.relocked (cleared e.machine))
    have hexpand : expandIfDue e.departed = expand e.departed := if_pos hmust
    rw [outcome_bind, hexpand, outcome_expand hend hlocking, bind_assoc]
    refine bind_congr fun _ => ?_
    change outcome (enterScript _) = _
    rw [enterScript_of_next hnext hlocking]
    rfl
  · rw [if_neg hb]
    rfl

/-! ## The two scripts of a witness -/

/-- The engine at the start of a script, when others have run before. -/
def resumed (e : Engine σ) (index : Nat) (m : Machine σ) : Engine σ :=
  { e with status := .running, scriptIndex := index, offset := 0, machine := m }

section Pair

variable {s₀ s₁ : Script} (hf : e.Fresh s₀ s₁)

include hf

theorem Fresh.script : e.script = s₀ := by
  unfold Engine.script
  rw [hf.scripts, hf.scriptIndex]
  rfl

theorem Fresh.offset_lt : e.offset < e.script.length := by
  refine offset_lt_length hf.offset ?_
  rw [hf.script]
  exact hf.first

theorem Fresh.drop_script : e.script.drop e.offset = s₀ := by
  rw [hf.offset, hf.script, List.drop_zero]

theorem Fresh.context_eq : e.context = e.contextOf s₀ := by
  rw [contextOf, ← hf.script]
  rfl

theorem Fresh.script_resumed (m : Machine σ) : (e.resumed 1 m).script = s₁ := by
  change e.scripts.getD 1 [] = s₁
  rw [hf.scripts]
  rfl

/-- At the end of the first script the second one follows. -/
theorem Fresh.outcome_finishScript (k : Nat) (m : Machine σ) :
    outcome (finishScript (e.moved k m)) = outcome (close m) >>= fun p =>
      .ok (false, e.resumed 1 p.2) := by
  have hdue : ¬ (e.moved k m).Due := by
    intro h
    have hindex : e.scriptIndex = 1 := h.1
    rw [hf.scriptIndex] at hindex
    exact absurd hindex (by decide)
  have hnext : (e.moved k m).scripts[(e.moved k m).scriptIndex + 1]? = some s₁ := by
    change e.scripts[e.scriptIndex + 1]? = some s₁
    rw [hf.scripts, hf.scriptIndex]
    rfl
  rw [outcome_finishScript_next hdue hnext hf.second]
  change _ = outcome (close m) >>= fun p => .ok (false, e.resumed (0 + 1) p.2)
  rw [← hf.scriptIndex]
  rfl

/-- An engine that gets through the first script has run it, and stands before the second one. -/
theorem Fresh.after_first (h : after s₀.length e = some e') :
    ∃ m, Script.run (e.contextOf s₀) 0 s₀ e.machine = .ok () m ∧ m.branches = [] ∧
      e' = e.resumed 1 (cleared m) := by
  rw [← hf.drop_script] at h
  obtain ⟨m, done, hrun, hfinish⟩ := after_script hf.offset_lt h
  rw [hf.drop_script, hf.offset] at hrun
  rw [← outcome_ok, hf.outcome_finishScript, except_bind_ok] at hfinish
  obtain ⟨⟨_, m₁⟩, hclose, hentered⟩ := hfinish
  obtain ⟨hbranches, rfl⟩ := close_ok.1 (outcome_ok.1 hclose)
  cases hentered
  exact ⟨m, hf.context_eq ▸ hrun, hbranches, rfl⟩

/-- An engine whose first script runs and closes its conditionals gets through it. -/
theorem Fresh.after_first_of_run {m : Machine σ}
    (hrun : Script.run (e.contextOf s₀) 0 s₀ e.machine = .ok () m) (hbranches : m.branches = []) :
    after s₀.length e = some (e.resumed 1 (cleared m)) := by
  have hclose : close m = .ok () (cleared m) := close_ok.2 ⟨hbranches, rfl⟩
  have hfinish : finishScript (e.moved s₀.length m) = .ok false (e.resumed 1 (cleared m)) := by
    rw [← outcome_ok, hf.outcome_finishScript, hclose]
    rfl
  have hrun' : Script.run e.context e.offset (e.script.drop e.offset) e.machine = .ok () m := by
    rw [hf.drop_script, hf.offset, hf.context_eq]
    exact hrun
  rw [← hf.drop_script] at hfinish ⊢
  exact after_of_run hf.offset_lt hrun' hfinish

/-- The first script runs, and the run goes on with the second one. -/
theorem Fresh.outcome_run :
    outcome (run e) = outcome (runWhole (e.contextOf s₀) e.machine) >>= fun p =>
      outcome (run (e.resumed 1 p.2)) := by
  unfold runWhole
  rw [outcome_run_whole hf.script hf.offset hf.first, outcome_bind, bind_assoc]
  refine bind_congr fun p => ?_
  rw [hf.outcome_finishScript, bind_assoc]
  rfl

/-- The second script runs. What follows its end depends on the kind of the spend. -/
theorem Fresh.outcome_run_resumed (m : Machine σ) :
    outcome (run (e.resumed 1 m)) =
      outcome (Script.run (e.contextOf s₁) 0 s₁ m) >>= fun p =>
        outcome (finishScript ((e.resumed 1 m).moved s₁.length p.2)) >>= continued :=
  outcome_run_whole (hf.script_resumed m) rfl hf.second

/-- At the end of the second script a spend locked by a hash is over. -/
theorem Fresh.outcome_finishScript_hashLocked (hs : e.spend.isLockHeight = false)
    (m m₁ : Machine σ) :
    outcome (finishScript ((e.resumed 1 m).moved s₁.length m₁)) =
      outcome (close m₁) >>= fun p => .ok (true, e.resumed 2 p.2) := by
  have hdue : ¬ ((e.resumed 1 m).moved s₁.length m₁).Due := by
    intro h
    have hheight : e.spend.isLockHeight = true := h.2.1
    rw [hs] at hheight
    exact Bool.false_ne_true hheight
  refine outcome_finishScript_last hdue ?_
  change e.scripts.length = 2
  rw [hf.scripts]
  rfl

/-- At the end of the second script a spend locked by a height must have a true item on top, and its
    locking script follows. -/
theorem Fresh.outcome_finishScript_lockHeight (hs : e.spend.isLockHeight = true)
    (hlocking : e.lockingScript ≠ []) (m m₁ : Machine σ) :
    outcome (finishScript ((e.resumed 1 m).moved s₁.length m₁)) =
      outcome (close m₁) >>= fun p => requireTrue p.2.stack >>= fun _ =>
        .ok (false, (e.resumed 1 p.2).relocked p.2) := by
  have hdue : ((e.resumed 1 m).moved s₁.length m₁).Due := ⟨rfl, hs, hf.expanded⟩
  have hscripts : e.scripts.length = 2 := by
    rw [hf.scripts]
    rfl
  exact outcome_finishScript_due hdue hscripts hlocking

theorem Fresh.script_relocked (m : Machine σ) :
    ((e.resumed 1 m).relocked m).script = e.lockingScript := by
  change (e.scripts ++ [e.lockingScript]).getD 2 [] = _
  rw [hf.scripts]
  rfl

/-- Nothing follows the locking script. -/
theorem Fresh.outcome_finishScript_relocked (m : Machine σ) (k : Nat) (m₁ : Machine σ) :
    outcome (finishScript (((e.resumed 1 m).relocked m).moved k m₁)) =
      outcome (close m₁) >>= fun p => .ok (true, ((e.resumed 1 m).relocked m).entered 3 p.2) := by
  have hdue : ¬ (((e.resumed 1 m).relocked m).moved k m₁).Due :=
    fun h => Bool.false_ne_true h.2.2.symm
  have hlast : (e.scripts ++ [e.lockingScript]).length = 2 + 1 := by
    rw [hf.scripts]
    rfl
  exact outcome_finishScript_last hdue hlast

/-! ## Spends locked by a hash -/

/-- A spend locked by a hash runs the two scripts of its witness, one after the other on one
    machine. -/
theorem Fresh.outcome_run_hashLocked (hs : e.spend.isLockHeight = false) :
    outcome (run e) =
      outcome (runPair (e.contextOf s₀) (e.contextOf s₁) e.machine) >>= fun p =>
        .ok ((), e.resumed 2 p.2) := by
  unfold runPair
  rw [hf.outcome_run, outcome_bind, bind_assoc]
  refine bind_congr fun p => ?_
  unfold runWhole
  rw [hf.outcome_run_resumed, outcome_bind, bind_assoc]
  refine bind_congr fun q => ?_
  rw [hf.outcome_finishScript_hashLocked hs, bind_assoc]
  rfl

end Pair

/-- The final check of a spend that has not been expanded asks for a single true item. -/
theorem check_true_ok (hx : e.expanded = false) (hend : e.scripts.length ≤ e.scriptIndex) :
    (∃ e', check true e = .ok () e') ↔ ∃ item, e.machine.stack = [item] ∧ truth item = true := by
  unfold check
  rw [if_neg (Nat.not_lt_of_le hend), hx]
  rcases e.machine.stack with _ | ⟨item, rest⟩
  · constructor
    · rintro ⟨e', h⟩
      cases h
    · rintro ⟨item, h, -⟩
      cases h
  · rcases rest with _ | ⟨next, rest⟩
    · dsimp only
      by_cases ht : truth item = true
      · simp [ht]
      · simp [ht]
    · constructor
      · rintro ⟨e', h⟩
        cases h
      · rintro ⟨_, h, -⟩
        cases h

/-- **A spend locked by a hash** runs the two scripts of its witness, one after the other on one
    stack. It is accepted just when both run through, close their conditionals and leave a single
    true item. -/
theorem accepts_hashLocked {program : Bytes} {s₀ s₁ : Script}
    (hspend : e.spend = .hashLocked program) (hscripts : e.scripts = [s₀, s₁]) (h₀ : s₀ ≠ [])
    (h₁ : s₁ ≠ []) (hindex : e.scriptIndex = 0) (hoffset : e.offset = 0) (hx : e.expanded = false) :
    (∃ e', execute e = .ok () e') ↔
      ∃ m₀ m₁ item, Script.run (e.contextOf s₀) 0 s₀ e.machine = .ok () m₀ ∧ m₀.branches = [] ∧
        Script.run (e.contextOf s₁) 0 s₁ (cleared m₀) = .ok () m₁ ∧ m₁.branches = [] ∧
        m₁.stack = [item] ∧ truth item = true := by
  have hs : e.spend.isLockHeight = false := by
    rw [hspend]
    rfl
  have hfresh : e.Fresh s₀ s₁ := ⟨hscripts, h₀, h₁, hindex, hoffset, hx⟩
  have hrun (e₁ : Engine σ) : run e = .ok () e₁ ↔
      ∃ m, runPair (e.contextOf s₀) (e.contextOf s₁) e.machine = .ok () m ∧ e₁ = e.resumed 2 m := by
    rw [← outcome_ok, hfresh.outcome_run_hashLocked hs]
    rcases runPair (e.contextOf s₀) (e.contextOf s₁) e.machine with ⟨_, m⟩ | ⟨err, m⟩
    · simp [outcome, Bind.bind, Except.bind, eq_comm]
    · simp [outcome, Bind.bind, Except.bind]
  have hcheck (m : Machine σ) : (∃ e', check true (e.resumed 2 m) = .ok () e') ↔
      ∃ item, m.stack = [item] ∧ truth item = true := by
    refine check_true_ok hx ?_
    change e.scripts.length ≤ 2
    rw [hscripts]
    exact Nat.le_refl _
  constructor
  · rintro ⟨e', hexec⟩
    obtain ⟨e₁, e₂, hr, hfinal, -⟩ := execute_ok.1 hexec
    obtain ⟨m, hpair, rfl⟩ := (hrun e₁).1 hr
    obtain ⟨m₀, m₁, hm₀, hb₀, hm₁, hb₁, rfl⟩ := Script.runPair_ok.1 hpair
    obtain ⟨item, hitem⟩ := (hcheck _).1 ⟨e₂, hfinal⟩
    exact ⟨m₀, m₁, item, hm₀, hb₀, hm₁, hb₁, hitem⟩
  · rintro ⟨m₀, m₁, item, hm₀, hb₀, hm₁, hb₁, hitem⟩
    have hpair := Script.runPair_ok.2 ⟨m₀, m₁, hm₀, hb₀, hm₁, hb₁, rfl⟩
    obtain ⟨e₂, hfinal⟩ := (hcheck (cleared m₁)).2 ⟨item, hitem⟩
    exact ⟨_, execute_ok.2 ⟨_, e₂, (hrun _).2 ⟨_, hpair, rfl⟩, hfinal, rfl⟩⟩

end Engine

end SpendScript

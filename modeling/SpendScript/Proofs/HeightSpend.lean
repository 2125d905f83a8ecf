/-
  Spends locked by a height. After the two scripts of the witness the top item must be true; the
  stack is then replaced by the rest of the witness, and the locking script pushes the height on it.
  This push may be executed under all rules and leaves a true item, so that only the bound on the
  stack can stop it. What the spend comes to is a short expression of the two scripts and of the
  number of witness elements (`Fresh.outcome_execute_lockHeight`): neither the height nor the further
  elements matter otherwise.
-/
import Mathlib.Data.List.Basic
import SpendScript.Proofs.Engine.Phases
import SpendScript.Proofs.Machine.Pushes
import SpendScript.Proofs.Number.Truth
import SpendScript.Verify

namespace SpendScript

variable {σ : Type}

/-! ## The locking script -/

/-- An item is true if its number is not zero and does not reach the sign. -/
theorem truth_of_natLE {bs : Bytes} (hpos : Bytes.natLE bs ≠ 0)
    (hlt : Bytes.natLE bs < Number.signBit bs.length) : truth bs = true := by
  have hspells : Number.signMagnitude bs = Bytes.natLE bs := if_pos hlt
  rw [truth_eq_decide, hspells, decide_eq_true_iff]
  exact Int.natCast_ne_zero.2 hpos

/-- The push of a height may be executed under all rules. -/
theorem pushable_height {data : Bytes} (hlen : data.length = 8) (F : Flags) :
    (Instruction.mk ⟨0x08⟩ data).Pushable F := by
  refine ⟨?_, fun _ _ => ?_⟩
  · change data.length ≤ 520
    omega
  · unfold Instruction.isMinimalPush
    match data with
    | b₀ :: b₁ :: bs =>
      have hdirect : (b₀ :: b₁ :: bs).length ≤ 75 := by omega
      dsimp only
      rw [if_pos hdirect, hlen]
      rfl

theorem truth_height {data : Bytes} (hlen : data.length = 8)
    (hlow : Limit.minLockHeight ≤ Bytes.natLE data)
    (hhigh : Bytes.natLE data < Limit.lockHeightBound) : truth data = true := by
  unfold Limit.minLockHeight at hlow
  unfold Limit.lockHeightBound at hhigh
  refine truth_of_natLE (by omega) ?_
  rw [hlen]
  exact Nat.lt_trans hhigh (by decide)

namespace Engine

open Script (cleared close close_ok runPair)

variable {e e' : Engine σ}

/-! ## The run -/

/-- What an engine finds: its run and the final check pass, or the error. -/
def verdict (e : Engine σ) : Verdict :=
  match execute e with
  | .ok () _ => .ok ()
  | .error err _ => .error err

theorem outcome_execute (e : Engine σ) :
    outcome (execute e) = outcome (run e) >>= fun p => outcome (check true p.2) >>= fun q =>
      .ok ((), { q.2 with status := .success }) := by
  have hseq : outcome ((do run; check true : EngineM σ Unit) e) =
      outcome (run e) >>= fun p => outcome (check true p.2) := outcome_bind run _ e
  rw [← bind_assoc, ← hseq]
  unfold execute
  rcases (do run; check true : EngineM σ Unit) e with ⟨_, e₁⟩ | ⟨err, e₁⟩ <;> rfl

/-- The final check of a spend that has been expanded takes the true item off the stack. -/
theorem check_true_of_expanded (hx : e.expanded = true) (hend : e.scripts.length ≤ e.scriptIndex)
    {item : Bytes} {below : Stack} (hstack : e.machine.stack = item :: below)
    (ht : truth item = true) :
    check true e = .ok () { e with machine := { e.machine with stack := below } } := by
  unfold check
  rw [if_neg (Nat.not_lt_of_le hend), hstack]
  simp [hx, ht]

/-- The engine that has accepted a spend locked by a height. -/
def released (e : Engine σ) (m : Machine σ) : Engine σ :=
  { (e.resumed 1 m).relocked m with
    scriptIndex := 3
    status := .success
    machine := { cleared m with stack := e.witness.tail.reverse } }

/-- The locking script pushes the height, if there is room for it. -/
theorem Fresh.outcome_run_relocked {s₀ s₁ : Script} (hf : e.Fresh s₀ s₁) (hwitness : e.witness ≠ [])
    {data : Bytes} (hlocking : e.lockingScript = [⟨⟨0x08⟩, data⟩]) (hlen : data.length = 8)
    {m : Machine σ} (hb : m.branches = []) (halt : m.alt = []) :
    outcome (run ((e.resumed 1 m).relocked m)) =
      if Limit.stackItems < e.witness.length then .error (.stackOverflow e.witness.length)
      else .ok ((), ((e.resumed 1 m).relocked m).entered 3
        (cleared { m with stack := data :: e.witness.tail.reverse })) := by
  have hexecuting : m.branches.executing = true := by
    rw [hb]
    rfl
  have hstep : (Instruction.mk ⟨0x08⟩ data).step
      (((e.resumed 1 m).relocked m).contextOf [⟨⟨0x08⟩, data⟩]) 0
      { m with stack := e.witness.tail.reverse } =
        checkDepth { m with stack := data :: e.witness.tail.reverse } :=
    Instruction.step_of_pushable rfl hexecuting (pushable_height hlen _)
  have hitems : (data :: e.witness.tail.reverse).length + m.alt.length = e.witness.length := by
    have hpos : 0 < e.witness.length := List.length_pos_iff.2 hwitness
    simp only [halt, List.length_cons, List.length_reverse, List.length_tail, List.length_nil]
    omega
  unfold checkDepth at hstep
  dsimp only at hstep
  rw [hitems] at hstep
  have hscript := (hf.script_relocked m).trans hlocking
  rw [outcome_run_whole hscript rfl (List.cons_ne_nil _ _)]
  change outcome (Script.run _ 0 _ { m with stack := e.witness.tail.reverse }) >>= _ = _
  by_cases hroom : Limit.stackItems < e.witness.length
  · rw [if_pos hroom] at hstep
    rw [Script.run_cons_of_error hstep, if_pos hroom]
    rfl
  · rw [if_neg hroom] at hstep
    have hclose : close { m with stack := data :: e.witness.tail.reverse } =
        .ok () (cleared { m with stack := data :: e.witness.tail.reverse }) :=
      close_ok.2 ⟨hb, rfl⟩
    have hfinish := hf.outcome_finishScript_relocked m 1
      { m with stack := data :: e.witness.tail.reverse }
    rw [hclose] at hfinish
    rw [Script.run_cons_of_ok hstep, if_neg hroom]
    exact congrArg (· >>= continued) hfinish

/-- **A spend locked by a height** runs the two scripts of its witness, must then have a true item on
    top, and must have room for the height on the rest of the witness. -/
theorem Fresh.outcome_execute_lockHeight {s₀ s₁ : Script} (hf : e.Fresh s₀ s₁)
    (hheight : e.spend.isLockHeight = true) (hwitness : e.witness ≠ []) {data : Bytes}
    (hlocking : e.lockingScript = [⟨⟨0x08⟩, data⟩]) (hlen : data.length = 8)
    (ht : truth data = true) :
    outcome (execute e) =
      outcome (runPair (e.contextOf s₀) (e.contextOf s₁) e.machine) >>= fun p =>
        requireTrue p.2.stack >>= fun _ =>
          if Limit.stackItems < e.witness.length then .error (.stackOverflow e.witness.length)
          else .ok ((), e.released p.2) := by
  have hrun : outcome (run e) =
      outcome (runPair (e.contextOf s₀) (e.contextOf s₁) e.machine) >>= fun p =>
        requireTrue p.2.stack >>= fun _ => outcome (run ((e.resumed 1 p.2).relocked p.2)) := by
    unfold runPair
    rw [hf.outcome_run, outcome_bind, bind_assoc]
    refine bind_congr fun p => ?_
    unfold Script.runWhole
    rw [hf.outcome_run_resumed, outcome_bind, bind_assoc]
    refine bind_congr fun q => ?_
    have hne : e.lockingScript ≠ [] := by
      rw [hlocking]
      exact List.cons_ne_nil _ _
    rw [hf.outcome_finishScript_lockHeight hheight hne, bind_assoc]
    refine bind_congr fun r => ?_
    rw [bind_assoc]
    rfl
  rw [outcome_execute, hrun, bind_assoc]
  rcases hpair : runPair (e.contextOf s₀) (e.contextOf s₁) e.machine with ⟨_, m⟩ | ⟨err, m⟩
  · obtain ⟨m₀, m₁, -, -, -, hb, rfl⟩ := Script.runPair_ok.1 hpair
    have hlock : outcome (run ((e.resumed 1 (cleared m₁)).relocked (cleared m₁))) = _ :=
      hf.outcome_run_relocked hwitness hlocking hlen hb rfl
    change (requireTrue m₁.stack >>= fun _ =>
      outcome (run ((e.resumed 1 (cleared m₁)).relocked (cleared m₁)))) >>= _ = _
    rw [bind_assoc, hlock]
    refine bind_congr fun _ => ?_
    by_cases hroom : Limit.stackItems < e.witness.length
    · rw [if_pos hroom, if_pos hroom]
      rfl
    · rw [if_neg hroom, if_neg hroom]
      have hend : (e.scripts ++ [e.lockingScript]).length ≤ 3 := by
        rw [hf.scripts]
        exact Nat.le_refl _
      have hcheck : check true (((e.resumed 1 (cleared m₁)).relocked (cleared m₁)).entered 3
          (cleared { cleared m₁ with stack := data :: e.witness.tail.reverse })) = _ :=
        check_true_of_expanded rfl hend rfl ht
      exact congrArg (outcome · >>= fun q => .ok ((), { q.2 with status := .success })) hcheck
  · rfl

theorem requireTrue_ok {s : Stack} {u : Unit} :
    requireTrue s = .ok u ↔ ∃ item below, s = item :: below ∧ truth item = true := by
  unfold requireTrue
  rcases s with _ | ⟨item, below⟩
  · simp
  · by_cases ht : truth item = true <;> simp [ht]

theorem verdict_eq (e : Engine σ) : verdict e = outcome (execute e) >>= fun _ => .ok () := by
  unfold verdict
  rcases execute e with ⟨_, e'⟩ | ⟨err, e'⟩ <;> rfl

/-! ## From the witness to the verdict -/

section Spend

variable {F : Flags} {c : Checker σ} {start : σ} {locking w₀ w₁ : Bytes} {rest : List Bytes}
  {height : Nat} {s₀ s₁ : Script}

theorem outcome_execute_of_classify
    (hclass : Spend.classify locking (w₀ :: w₁ :: rest) = .ok (.lockHeight height))
    (he : ofWitness locking (w₀ :: w₁ :: rest) F c start = .ok e)
    (hw₀ : Script.parse w₀ = .ok s₀) (hw₁ : Script.parse w₁ = .ok s₁) :
    outcome (execute e) =
      outcome (runPair ⟨c, F, false, s₀⟩ ⟨c, F, false, s₁⟩ (Machine.start start)) >>= fun p =>
        requireTrue p.2.stack >>= fun _ =>
          if Limit.stackItems < rest.length + 2 then .error (.stackOverflow (rest.length + 2))
          else .ok ((), e.released p.2) := by
  obtain ⟨hspend, -, hwitness, hflags, hchecker, hmachine⟩ := settings_of_ofWitness he
  obtain ⟨_, _, _, t₀, t₁, hcons, ht₀, ht₁, -, hfresh⟩ := exists_fresh_of_ofWitness he
  cases hcons
  obtain rfl : s₀ = t₀ := Except.ok.inj (hw₀.symm.trans ht₀)
  obtain rfl : s₁ = t₁ := Except.ok.inj (hw₁.symm.trans ht₁)
  have hkind : e.spend = .lockHeight height := Except.ok.inj (hspend.symm.trans hclass)
  have hcontext (s : Script) : e.contextOf s = ⟨c, F, false, s⟩ := by
    unfold contextOf context
    rw [hkind, hflags, hchecker]
    rfl
  have hheight : e.spend.isLockHeight = true := by
    rw [hkind]
    rfl
  obtain ⟨data, hscript, hlen, hlow, hhigh⟩ := lockingScript_of_isLockHeight he hheight
  have htrue : truth data = true := truth_height hlen hlow hhigh
  have hne : e.witness ≠ [] := by
    rw [hwitness]
    exact List.cons_ne_nil _ _
  have hlength : e.witness.length = rest.length + 2 := by
    rw [hwitness]
    rfl
  rw [hfresh.outcome_execute_lockHeight hheight hne hscript hlen htrue, hcontext, hcontext,
    hmachine, hlength]

theorem execute_ok_of_classify
    (hclass : Spend.classify locking (w₀ :: w₁ :: rest) = .ok (.lockHeight height))
    (he : ofWitness locking (w₀ :: w₁ :: rest) F c start = .ok e)
    (hw₀ : Script.parse w₀ = .ok s₀) (hw₁ : Script.parse w₁ = .ok s₁) :
    execute e = .ok () e' ↔ rest.length + 2 ≤ Limit.stackItems ∧ ∃ m item below,
      runPair ⟨c, F, false, s₀⟩ ⟨c, F, false, s₁⟩ (Machine.start start) = .ok () m ∧
      m.stack = item :: below ∧ truth item = true ∧ e' = e.released m := by
  rw [← outcome_ok, outcome_execute_of_classify hclass he hw₀ hw₁, except_bind_ok]
  constructor
  · rintro ⟨⟨_, m⟩, hpair, h⟩
    obtain ⟨_, htop, h⟩ := except_bind_ok.1 h
    obtain ⟨item, below, hstack, ht⟩ := requireTrue_ok.1 htop
    by_cases hroom : Limit.stackItems < rest.length + 2
    · rw [if_pos hroom] at h
      cases h
    · rw [if_neg hroom] at h
      cases h
      exact ⟨Nat.le_of_not_lt hroom, m, item, below, outcome_ok.1 hpair, hstack, ht, rfl⟩
  · rintro ⟨hroom, m, item, below, hpair, hstack, ht, rfl⟩
    refine ⟨((), m), outcome_ok.2 hpair, except_bind_ok.2 ⟨(), ?_, ?_⟩⟩
    · exact requireTrue_ok.2 ⟨item, below, hstack, ht⟩
    · exact if_neg (Nat.not_lt_of_le hroom)

/-- **What a height locks.** An engine whose locking script asks for a height accepts just when the
    witness has at most 1000 elements and its two scripts run through and leave a true item on top.
    The stack is then the rest of the witness. The verdict, down to the error, is that for any other
    height, and for any other elements after the two scripts in the same number. -/
theorem execute_lockHeight {witness : List Bytes}
    (hclass : Spend.classify locking witness = .ok (.lockHeight height))
    (he : ofWitness locking witness F c start = .ok e) :
    ∃ w₀ w₁ rest s₀ s₁, witness = w₀ :: w₁ :: rest ∧ Script.parse w₀ = .ok s₀ ∧
      Script.parse w₁ = .ok s₁ ∧
      ((∃ e', execute e = .ok () e') ↔
        witness.length ≤ Limit.stackItems ∧ ∃ m item below,
          runPair ⟨c, F, false, s₀⟩ ⟨c, F, false, s₁⟩ (Machine.start start) = .ok () m ∧
          m.stack = item :: below ∧ truth item = true) ∧
      (∀ e', execute e = .ok () e' → e'.machine.stack = witness.tail.reverse) ∧
      ∀ (locking' : Bytes) (height' : Nat) (rest' : List Bytes) (f : Engine σ),
        Spend.classify locking' (w₀ :: w₁ :: rest') = .ok (.lockHeight height') →
        rest'.length = rest.length → ofWitness locking' (w₀ :: w₁ :: rest') F c start = .ok f →
        f.verdict = e.verdict := by
  obtain ⟨w₀, w₁, rest, s₀, s₁, rfl, hw₀, hw₁, -, -⟩ := exists_fresh_of_ofWitness he
  have hok (e' : Engine σ) : execute e = .ok () e' ↔ _ :=
    execute_ok_of_classify hclass he hw₀ hw₁
  refine ⟨w₀, w₁, rest, s₀, s₁, rfl, hw₀, hw₁, ?_, ?_, ?_⟩
  · constructor
    · rintro ⟨e', hexec⟩
      obtain ⟨hroom, m, item, below, hpair, hstack, ht, -⟩ := (hok e').1 hexec
      exact ⟨hroom, m, item, below, hpair, hstack, ht⟩
    · rintro ⟨hroom, m, item, below, hpair, hstack, ht⟩
      exact ⟨_, (hok _).2 ⟨hroom, m, item, below, hpair, hstack, ht, rfl⟩⟩
  · intro e' hexec
    obtain ⟨-, m, -, -, -, -, -, rfl⟩ := (hok e').1 hexec
    obtain ⟨-, -, hwitness, -⟩ := settings_of_ofWitness he
    change e.witness.tail.reverse = _
    rw [hwitness]
  · intro locking' height' rest' f hclass' hlength hf
    rw [verdict_eq, verdict_eq, outcome_execute_of_classify hclass he hw₀ hw₁,
      outcome_execute_of_classify hclass' hf hw₀ hw₁, hlength, bind_assoc, bind_assoc]
    refine bind_congr fun p => ?_
    rw [bind_assoc, bind_assoc]
    refine bind_congr fun _ => ?_
    by_cases hroom : Limit.stackItems < rest.length + 2
    · rw [if_pos hroom, if_pos hroom]
    · rw [if_neg hroom, if_neg hroom]
      rfl

/-- Two heights over one pair of scripts, which leave three items. The further element of the witness
    is on the stack at the end and can be exchanged. -/
theorem execute_lockHeight_twoHeights :
    ∃ e f e' : Engine Unit,
      ofWitness [0x08, 0xd0, 0x07, 0, 0, 0, 0, 0, 0] [[0x51], [0x51, 0x52], [0xaa]]
        { minimalData := true } .accepting () = .ok e ∧
      ofWitness [0x08, 0xe8, 0x03, 0, 0, 0, 0, 0, 0] [[0x51], [0x51, 0x52], []]
        { minimalData := true } .accepting () = .ok f ∧
      execute e = .ok () e' ∧ e'.machine.stack = [[0xaa], [0x51, 0x52]] ∧
      f.verdict = e.verdict := by
  have hclass : Spend.classify [0x08, 0xd0, 0x07, 0, 0, 0, 0, 0, 0]
      [[0x51], [0x51, 0x52], [0xaa]] = .ok (.lockHeight 2000) := by
    decide +kernel
  have hclass' : Spend.classify [0x08, 0xe8, 0x03, 0, 0, 0, 0, 0, 0] [[0x51], [0x51, 0x52], []] =
      .ok (.lockHeight 1000) := by
    decide +kernel
  have haccepts : accepts (ofWitness [0x08, 0xd0, 0x07, 0, 0, 0, 0, 0, 0]
      [[0x51], [0x51, 0x52], [0xaa]] { minimalData := true } .accepting ()) = true := by
    decide +kernel
  have haccepts' : accepts (ofWitness [0x08, 0xe8, 0x03, 0, 0, 0, 0, 0, 0]
      [[0x51], [0x51, 0x52], []] { minimalData := true } .accepting ()) = true := by
    decide +kernel
  obtain ⟨e, e', he, hexec⟩ := accepts_iff.1 haccepts
  obtain ⟨f, -, hf, -⟩ := accepts_iff.1 haccepts'
  obtain ⟨_, _, _, _, _, hcons, -, -, -, hstack, hothers⟩ := execute_lockHeight hclass he
  cases hcons
  exact ⟨e, f, e', he, hf, hexec, hstack e' hexec, hothers _ 1000 _ f hclass' rfl hf⟩

end Spend

end Engine

end SpendScript

/-
  When computations succeed. A sequence succeeds just when its parts do, one after the other, and a
  guard just when it does not fail and the rest succeeds. A computation with a state comes to one without
  when the state of its failures is left out (`outcome`).
-/

namespace SpendScript

variable {ε ι ρ α β : Type}

/-! ## Computations with a state -/

/-- A sequence of two actions succeeds just when both do, one after the other. -/
theorem bind_ok {x : EStateM ε ρ α} {f : α → EStateM ε ρ β} {m m'' : ρ} {b : β} :
    (x >>= f) m = .ok b m'' ↔ ∃ a m', x m = .ok a m' ∧ f a m' = .ok b m'' := by
  simp only [Bind.bind, EStateM.bind]
  rcases x m with ⟨a, m'⟩ | ⟨e, m'⟩
  · constructor
    · intro h
      exact ⟨a, m', rfl, h⟩
    · rintro ⟨a', m₁, h₁, h₂⟩
      cases h₁
      exact h₂
  · constructor
    · intro h
      cases h
    · rintro ⟨a', m₁, h₁, h₂⟩
      cases h₁

/-- A sequence goes on from what its first part leaves. -/
theorem bind_eq_of_ok {x : EStateM ε ρ α} {f : α → EStateM ε ρ β} {a : α} {s s' : ρ}
    (h : x s = .ok a s') : (x >>= f) s = f a s' := by
  simp only [Bind.bind, EStateM.bind, h]

theorem bind_eq_of_error {x : EStateM ε ρ α} {f : α → EStateM ε ρ β} {e : ε} {s s' : ρ}
    (h : x s = .error e s') : (x >>= f) s = .error e s' := by
  simp only [Bind.bind, EStateM.bind, h]

/-- A sequence fails when its first part does, or its second part on what the first one leaves. -/
theorem bind_error {x : EStateM ε ρ α} {f : α → EStateM ε ρ β} {e : ε} {s s'' : ρ} :
    (x >>= f) s = .error e s'' ↔
      x s = .error e s'' ∨ ∃ a s', x s = .ok a s' ∧ f a s' = .error e s'' := by
  rcases hx : x s with ⟨a, s'⟩ | ⟨e', s'⟩
  · rw [bind_eq_of_ok hx]
    constructor
    · intro h
      exact Or.inr ⟨a, s', rfl, h⟩
    · rintro (h | ⟨a', s₁, h, hf⟩)
      · cases h
      · cases h
        exact hf
  · rw [bind_eq_of_error hx]
    constructor
    · intro h
      cases h
      exact Or.inl rfl
    · rintro (h | ⟨a', s₁, h, -⟩)
      · cases h
        rfl
      · cases h

theorem pure_ok {a b : α} {m m' : ρ} :
    (pure a : EStateM ε ρ α) m = .ok b m' ↔ b = a ∧ m' = m := by
  change EStateM.Result.ok a m = .ok b m' ↔ _
  rw [EStateM.Result.ok.injEq]
  exact and_congr eq_comm eq_comm

/-- A guard that throws on `p` succeeds just when `p` fails and the rest succeeds. -/
theorem guard_ok {p : Prop} [Decidable p] {e : ε} {x : EStateM ε ρ α} {m m' : ρ} {a : α} :
    (if p then (throw e) >>= fun _ : PUnit => x else x) m = .ok a m' ↔ ¬ p ∧ x m = .ok a m' := by
  by_cases hp : p
  · rw [if_pos hp]
    constructor
    · intro h
      cases h
    · rintro ⟨h, -⟩
      exact absurd hp h
  · rw [if_neg hp]
    exact ⟨fun h => ⟨hp, h⟩, fun h => h.2⟩

/-- What a computation comes to: its answer and the state it leaves, or its error alone. -/
def outcome : EStateM.Result ε ρ α → Except ε (α × ρ)
  | .ok a s => .ok (a, s)
  | .error e _ => .error e

theorem outcome_ok {r : EStateM.Result ε ρ α} {a : α} {s : ρ} :
    outcome r = .ok (a, s) ↔ r = .ok a s := by
  rcases r with ⟨b, t⟩ | ⟨e, t⟩ <;> simp [outcome]

theorem outcome_bind (x : EStateM ε ρ α) (f : α → EStateM ε ρ β) (s : ρ) :
    outcome ((x >>= f) s) = outcome (x s) >>= fun p => outcome (f p.1 p.2) := by
  simp only [Bind.bind, EStateM.bind]
  rcases x s with ⟨a, t⟩ | ⟨e, t⟩ <;> rfl

/-! ## Computations without a state -/

theorem except_bind_ok {x : Except ε α} {f : α → Except ε β} {b : β} :
    (x >>= f) = .ok b ↔ ∃ a, x = .ok a ∧ f a = .ok b := by
  rcases x with e | a
  · constructor
    · intro h
      cases h
    · rintro ⟨a, h, -⟩
      cases h
  · constructor
    · intro h
      exact ⟨a, rfl, h⟩
    · rintro ⟨a', h, hf⟩
      cases h
      exact hf

theorem mapError_ok {r : Except ε α} {wrap : ε → ι} {a : α} :
    r.mapError wrap = .ok a ↔ r = .ok a := by
  rcases r with e | b
  · constructor <;> intro h <;> cases h
  · constructor <;> intro h <;> cases h <;> rfl

theorem except_guard_ok {p : Prop} [Decidable p] {e : ε} {x : Except ε α} {a : α} :
    (if p then (throw e) >>= fun _ : PUnit => x else x) = .ok a ↔ ¬ p ∧ x = .ok a := by
  by_cases hp : p
  · rw [if_pos hp]
    constructor
    · intro h
      cases h
    · rintro ⟨h, -⟩
      exact absurd hp h
  · rw [if_neg hp]
    exact ⟨fun h => ⟨hp, h⟩, fun h => h.2⟩

theorem except_ite_ok {p : Prop} [Decidable p] {e : ε} {x : Except ε α} {a : α} :
    (if p then .error e else x) = .ok a ↔ ¬ p ∧ x = .ok a := by
  by_cases hp : p
  · simp [hp]
  · simp [hp]

end SpendScript

/-
  Two computations side by side. `Follows R exact x y` says that from states related by `R` the
  computation `y` does what `x` does: it succeeds where `x` does, with the same answer and related
  states after it. If `exact` holds, errors are carried over as well. The rules below take a
  computation apart along its structure.
-/

namespace SpendScript

variable {ε σ τ α β : Type} {R : σ → τ → Prop} {exact : Prop}

/-- The second result is what the first one is, with related states. -/
def Matches (R : σ → τ → Prop) (exact : Prop) (r : EStateM.Result ε σ α)
    (r' : EStateM.Result ε τ α) : Prop :=
  match r with
  | .ok a s => ∃ t, r' = .ok a t ∧ R s t
  | .error e s => exact → ∃ t, r' = .error e t ∧ R s t

/-- From related states, `y` does what `x` does. -/
def Follows (R : σ → τ → Prop) (exact : Prop) (x : EStateM ε σ α) (y : EStateM ε τ α) : Prop :=
  ∀ s t, R s t → Matches R exact (x s) (y t)

theorem Matches.ok {s : σ} {t : τ} (a : α) (hr : R s t) :
    Matches (ε := ε) R exact (.ok a s) (.ok a t) := ⟨t, rfl, hr⟩

theorem Matches.error {s : σ} {t : τ} (e : ε) (hr : R s t) :
    Matches (α := α) R exact (.error e s) (.error e t) := fun _ => ⟨t, rfl, hr⟩

theorem Matches.ite {p : Prop} [Decidable p] {r q : EStateM.Result ε σ α}
    {r' q' : EStateM.Result ε τ α} (h : p → Matches R exact r r')
    (h' : ¬ p → Matches R exact q q') :
    Matches R exact (if p then r else q) (if p then r' else q') := by
  by_cases hp : p
  · rw [if_pos hp, if_pos hp]
    exact h hp
  · rw [if_neg hp, if_neg hp]
    exact h' hp

theorem Follows.ok {x : EStateM ε σ α} {y : EStateM ε τ α} (h : Follows R exact x y) {s s' : σ}
    {t : τ} {a : α} (hr : R s t) (hx : x s = .ok a s') : ∃ t', y t = .ok a t' ∧ R s' t' := by
  have hs := h s t hr
  rw [hx] at hs
  exact hs

theorem Follows.error {x : EStateM ε σ α} {y : EStateM ε τ α} (h : Follows R exact x y)
    (he : exact) {s s' : σ} {t : τ} {e : ε} (hr : R s t) (hx : x s = .error e s') :
    ∃ t', y t = .error e t' ∧ R s' t' := by
  have hs := h s t hr
  rw [hx] at hs
  exact hs he

theorem follows_pure (a : α) :
    Follows R exact (pure a : EStateM ε σ α) (pure a) := fun _ _ hr => .ok a hr

theorem follows_throw (e : ε) :
    Follows R exact (throw e : EStateM ε σ α) (throw e) := fun _ _ hr => .error e hr

/-- A computation that fails is followed by any other where errors are not carried over. -/
theorem follows_of_throw (hx : ¬ exact) (e : ε) (y : EStateM ε τ α) :
    Follows R exact (throw e) y := fun _ _ _ he => absurd he hx

theorem Follows.bind {x : EStateM ε σ α} {y : EStateM ε τ α} {f : α → EStateM ε σ β}
    {g : α → EStateM ε τ β} (h : Follows R exact x y) (hf : ∀ a, Follows R exact (f a) (g a)) :
    Follows R exact (x >>= f) (y >>= g) := by
  intro s t hr
  simp only [Bind.bind, EStateM.bind]
  cases hx : x s with
  | ok a s' =>
    obtain ⟨t', hy, hr'⟩ := h.ok hr hx
    rw [hy]
    exact hf a s' t' hr'
  | error e s' =>
    intro he
    obtain ⟨t', hy, hr'⟩ := h.error he hr hx
    rw [hy]
    exact ⟨t', rfl, hr'⟩

theorem follows_ite {p : Prop} [Decidable p] {x x' : EStateM ε σ α} {y y' : EStateM ε τ α}
    (h : p → Follows R exact x y) (h' : ¬ p → Follows R exact x' y') :
    Follows R exact (if p then x else x') (if p then y else y') := by
  by_cases hp : p
  · rw [if_pos hp, if_pos hp]
    exact h hp
  · rw [if_neg hp, if_neg hp]
    exact h' hp

/-- A change that both states undergo. -/
theorem follows_modify {f : σ → σ} {g : τ → τ} (h : ∀ s t, R s t → R (f s) (g t)) :
    Follows R exact (modify f : EStateM ε σ Unit) (modify g) :=
  fun s t hr => .ok () (h s t hr)

theorem follows_ofExcept {ι : Type} {r r' : Except ι α} (wrap : ι → ε)
    (h : ∀ a, r = .ok a → r' = .ok a) (he : exact → r' = r) :
    Follows R exact (MonadExcept.ofExcept (r.mapError wrap) : EStateM ε σ α)
      (MonadExcept.ofExcept (r'.mapError wrap)) := by
  cases hr : r with
  | ok a =>
    rw [h a hr]
    exact follows_pure a
  | error e =>
    intro s t hs hx
    rw [he hx, hr]
    exact ⟨t, rfl, hs⟩

end SpendScript

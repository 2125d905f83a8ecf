/-
  What a machine has asked its checker. When the questions are kept, the latest first, a record says
  that all since some time are as they should be. Only a further question about a signature can break
  it (`frame_records`).
-/
import SpendScript.Proofs.Machine.Frame

namespace SpendScript

variable {σ : Type} {c : Checker σ} {ctx : Context (σ × List Query)} {before : List Query}
  {Q : SignatureQuery → Prop} {m : Machine (σ × List Query)}

/-- Since `before`, signatures have been asked about only as `Q` says. -/
def Records (before : List Query) (Q : SignatureQuery → Prop) (m : Machine (σ × List Query)) : Prop :=
  ∃ asked, m.checker.2 = asked ++ before ∧ ∀ q, .signature q ∈ asked → Q q

theorem records_start (Q : SignatureQuery → Prop) (m : Machine (σ × List Query)) :
    Records m.checker.2 Q m :=
  ⟨[], rfl, fun _ hq => absurd hq List.not_mem_nil⟩

theorem Records.imp (h : Records before Q m) {Q' : SignatureQuery → Prop} (hQ : ∀ q, Q q → Q' q) :
    Records before Q' m := by
  obtain ⟨asked, hasked, hall⟩ := h
  exact ⟨asked, hasked, fun q hq => hQ q (hall q hq)⟩

theorem Records.cons (h : Records before Q m) (query : Query) (hq : ∀ q, query = .signature q → Q q)
    {s : σ × List Query} (hs : s.2 = query :: m.checker.2) :
    Records before Q { m with checker := s } := by
  obtain ⟨asked, hasked, hall⟩ := h
  refine ⟨query :: asked, ?_, fun q hmem => ?_⟩
  · rw [List.cons_append, ← hasked]
    exact hs
  · rcases List.mem_cons.1 hmem with heq | hmem
    · exact hq q heq.symm
    · exact hall q hmem

/-- Nothing but a question about a signature matters to the record. -/
theorem frame_records (hc : ctx.checker = c.recording) :
    Frame ctx (fun _ => False) (Records before Q) where
  stack _ _ h := h
  alt _ _ h := h
  opCount _ _ h := h
  signature _ _ hcode _ := hcode.elim
  lockTime m n h := h.cons (.lockTime n) (fun _ heq => (nomatch heq)) (by rw [hc]; rfl)
  sequence m n h := h.cons (.sequence n) (fun _ heq => (nomatch heq)) (by rw [hc]; rfl)

end SpendScript

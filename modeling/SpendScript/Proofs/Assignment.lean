/-
  Assignments in order. The elements of one list are given partners from another, further and
  further along in it (`List.SublistForall₂`). A first partner that fits may always be taken, which
  is why a greedy search misses nothing.
-/
import Mathlib.Data.List.Forall2
import Mathlib.Data.List.NodupEquivFin

namespace SpendScript

variable {α β : Type} {R : α → β → Prop} {x : α} {xs : List α} {y : β} {ys : List β}

theorem length_le_of_sublistForall₂ (h : List.SublistForall₂ R xs ys) : xs.length ≤ ys.length := by
  obtain ⟨zs, hxs, hzs⟩ := List.sublistForall₂_iff.1 h
  rw [hxs.length_eq]
  exact hzs.length_le

/-- A pair that fits may be taken: without it there is an assignment of what is left. -/
theorem sublistForall₂_cons_of_fits (hxy : R x y) :
    List.SublistForall₂ R (x :: xs) (y :: ys) ↔ List.SublistForall₂ R xs ys := by
  constructor
  · intro h
    obtain ⟨zs, hxs, hzs⟩ := List.sublistForall₂_iff.1 h
    obtain ⟨z, zs, -, htail, rfl⟩ := List.forall₂_cons_left_iff.1 hxs
    exact List.sublistForall₂_iff.2 ⟨zs, htail, hzs.tail⟩
  · exact List.SublistForall₂.cons hxy

/-- A pair that does not fit leaves the later partners. -/
theorem sublistForall₂_cons_of_misfit (hxy : ¬ R x y) :
    List.SublistForall₂ R (x :: xs) (y :: ys) ↔ List.SublistForall₂ R (x :: xs) ys := by
  constructor
  · intro h
    rcases h with - | ⟨hfits, -⟩ | h
    · exact absurd hfits hxy
    · exact h
  · exact List.SublistForall₂.cons_right

/-- The order of both lists can be turned around. -/
theorem sublistForall₂_reverse :
    List.SublistForall₂ R xs.reverse ys.reverse ↔ List.SublistForall₂ R xs ys := by
  rw [List.sublistForall₂_iff, List.sublistForall₂_iff]
  constructor
  · rintro ⟨zs, hxs, hzs⟩
    refine ⟨zs.reverse, ?_, ?_⟩
    · rw [← List.forall₂_reverse_iff, List.reverse_reverse]
      exact hxs
    · rw [← List.reverse_sublist, List.reverse_reverse]
      exact hzs
  · rintro ⟨zs, hxs, hzs⟩
    exact ⟨zs.reverse, List.forall₂_reverse_iff.2 hxs, List.reverse_sublist.2 hzs⟩

/-- An assignment in order is a choice of ever later positions. -/
theorem sublistForall₂_iff_positions :
    List.SublistForall₂ R xs ys ↔
      ∃ position : Fin xs.length → Fin ys.length, StrictMono position ∧
        ∀ i, R (xs.get i) (ys.get (position i)) := by
  rw [List.sublistForall₂_iff]
  constructor
  · rintro ⟨zs, hxs, hzs⟩
    obtain ⟨hlen, hget⟩ := List.forall₂_iff_get.1 hxs
    obtain ⟨f, hf⟩ := List.sublist_iff_exists_fin_orderEmbedding_get_eq.1 hzs
    refine ⟨fun i => f (Fin.cast hlen i), ?_, ?_⟩
    · intro i j hij
      exact f.lt_iff_lt.2 hij
    · intro i
      rw [← hf]
      exact hget i i.isLt (hlen ▸ i.isLt)
  · rintro ⟨position, hmono, hR⟩
    have hlen : (List.ofFn fun i => ys.get (position i)).length = xs.length := List.length_ofFn
    refine ⟨List.ofFn fun i => ys.get (position i), ?_, ?_⟩
    · refine List.forall₂_iff_get.2 ⟨hlen.symm, fun i h₁ h₂ => ?_⟩
      rw [List.get_ofFn]
      exact hR ⟨i, h₁⟩
    · refine List.sublist_iff_exists_fin_orderEmbedding_get_eq.2
        ⟨OrderEmbedding.ofStrictMono (fun i => position (Fin.cast hlen i)) ?_, ?_⟩
      · intro i j hij
        exact hmono hij
      · intro i
        rw [List.get_ofFn]
        rfl

end SpendScript

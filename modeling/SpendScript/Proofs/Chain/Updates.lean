/-
  Changes of a store, decided by its hashes alone. A store asks its map of blocks for the block and its
  map of heights for the parent. In a consistent store both know just the hashes of the chain, so these
  say whether a block is taken and for which reason it is not (`refusal?_eq_some_iff`). A refused change
  leaves the store as it was (`updates_exact`). The height of a new block is the number of those below
  it as long as that number is a word.
-/
import SpendScript.Proofs.Chain.History

namespace SpendScript

namespace ChainStore

/-- A block can come next: it is new, and it is the first one or has the tip as its parent. -/
structure Fits (hashes : Array BlockHash) (b : Block) : Prop where
  fresh : b.hash ∉ hashes
  tip : hashes = #[] ∨ hashes.back? = some b.parent

/-- Why a block can not come next. A stored block is refused as such, whatever its parent is. -/
inductive Refuses (hashes : Array BlockHash) (b : Block) : ChainError → Prop
  | duplicate (hstored : b.hash ∈ hashes) : Refuses hashes b (.duplicate b.hash)
  | notOnTip {tip : BlockHash} (hfresh : b.hash ∉ hashes) (htip : hashes.back? = some tip)
      (hother : tip ≠ b.parent) (hparent : b.parent ∈ hashes) :
      Refuses hashes b (.notOnTip b.parent tip)
  | orphan (hfresh : b.hash ∉ hashes) (hsome : hashes ≠ #[]) (hparent : b.parent ∉ hashes) :
      Refuses hashes b (.orphan b.hash b.parent)

variable {s : ChainStore} {b : Block}

namespace Consistent

theorem contains_iff (h : Consistent s) (hash : BlockHash) :
    s.contains hash = true ↔ hash ∈ s.hashes :=
  Std.ExtHashMap.contains_iff_mem.trans (h.mem_blocks hash)

theorem heights_contains_iff (h : Consistent s) (hash : BlockHash) :
    s.heights.contains hash = true ↔ hash ∈ s.hashes :=
  Std.ExtHashMap.contains_iff_mem.trans (h.mem_heights hash)

/-- In a consistent store the hashes decide on a block. -/
theorem refusal?_eq (h : Consistent s) (b : Block) :
    s.refusal? b =
      if b.hash ∈ s.hashes then some (.duplicate b.hash)
      else s.hashes.back?.bind fun tip =>
        if tip = b.parent then none
        else if b.parent ∈ s.hashes then some (.notOnTip b.parent tip)
        else some (.orphan b.hash b.parent) := by
  unfold refusal? tip?
  simp only [h.contains_iff, h.heights_contains_iff]
  cases s.hashes.back? <;> rfl

theorem refusal?_eq_none_iff (h : Consistent s) : s.refusal? b = none ↔ Fits s.hashes b := by
  rw [h.refusal?_eq]
  by_cases hstored : b.hash ∈ s.hashes
  · rw [if_pos hstored]
    exact iff_of_false (fun hnone => nomatch hnone) fun hfits => hfits.fresh hstored
  · rw [if_neg hstored]
    rcases htip : s.hashes.back? with _ | tip
    · exact iff_of_true rfl ⟨hstored, Or.inl (Array.back?_eq_none_iff.1 htip)⟩
    · rw [Option.bind_some]
      by_cases hparent : tip = b.parent
      · rw [if_pos hparent]
        exact iff_of_true rfl ⟨hstored, Or.inr (hparent ▸ htip)⟩
      · rw [if_neg hparent]
        refine iff_of_false (fun hnone => ?_) fun hfits => ?_
        · split at hnone <;> cases hnone
        · rcases hfits.tip with hempty | hback
          · rw [hempty] at htip
            cases htip
          · exact hparent (Option.some.inj (htip.symm.trans hback))

theorem refusal?_eq_some_iff (h : Consistent s) {e : ChainError} :
    s.refusal? b = some e ↔ Refuses s.hashes b e := by
  rw [h.refusal?_eq]
  constructor
  · intro hrefusal
    by_cases hstored : b.hash ∈ s.hashes
    · rw [if_pos hstored] at hrefusal
      cases hrefusal
      exact .duplicate hstored
    · rw [if_neg hstored] at hrefusal
      obtain ⟨tip, htip, hrefusal⟩ := Option.bind_eq_some_iff.1 hrefusal
      by_cases hparent : tip = b.parent
      · rw [if_pos hparent] at hrefusal
        cases hrefusal
      · rw [if_neg hparent] at hrefusal
        by_cases hknown : b.parent ∈ s.hashes
        · rw [if_pos hknown] at hrefusal
          cases hrefusal
          exact .notOnTip hstored htip hparent hknown
        · rw [if_neg hknown] at hrefusal
          cases hrefusal
          refine .orphan hstored (fun hempty => ?_) hknown
          rw [hempty] at htip
          cases htip
  · intro hrefuses
    cases hrefuses with
    | duplicate hstored => exact if_pos hstored
    | notOnTip hfresh htip hother hparent =>
      rw [if_neg hfresh, htip, Option.bind_some, if_neg hother, if_pos hparent]
    | orphan hfresh hsome hparent =>
      rcases htip : s.hashes.back? with _ | tip
      · exact absurd (Array.back?_eq_none_iff.1 htip) hsome
      · have hother : tip ≠ b.parent := fun heq =>
          hparent (heq ▸ Array.mem_of_back? htip)
        rw [if_neg hfresh, Option.bind_some, if_neg hother, if_neg hparent]

theorem insert_ok_iff (h : Consistent s) {n : UInt32} {s' : ChainStore} :
    insert b s = .ok n s' ↔
      Fits s.hashes b ∧ n = UInt32.ofNat s.hashes.size ∧ s'.blocks = s.blocks.insert b.hash b ∧
        s'.heights = s.heights.insert b.hash n ∧ s'.hashes = s.hashes.push b.hash := by
  unfold insert
  rw [← h.refusal?_eq_none_iff, ← nextHeight_eq]
  rcases s.refusal? b with _ | e
  · constructor
    · intro hok
      cases hok
      exact ⟨rfl, rfl, rfl, rfl, rfl⟩
    · rintro ⟨-, rfl, hblocks, hheights, hhashes⟩
      obtain ⟨blocks, heights, hashes⟩ := s'
      cases hblocks
      cases hheights
      cases hhashes
      rfl
  · exact iff_of_false (fun hok => nomatch hok) fun hfits => nomatch hfits.1

theorem insert_error_iff (h : Consistent s) {e : ChainError} {s' : ChainStore} :
    insert b s = .error e s' ↔ Refuses s.hashes b e ∧ s' = s := by
  unfold insert
  rw [← h.refusal?_eq_some_iff]
  rcases s.refusal? b with _ | e'
  · exact iff_of_false (fun herror => nomatch herror) fun hrefuses => nomatch hrefuses.1
  · constructor
    · intro herror
      cases herror
      exact ⟨rfl, rfl⟩
    · rintro ⟨heq, rfl⟩
      cases heq
      rfl

theorem dropAfter_error_iff (h : Consistent s) {hash : BlockHash} {e : ChainError}
    {s' : ChainStore} :
    dropAfter hash s = .error e s' ↔ hash ∉ s.hashes ∧ e = .unknownHash hash ∧ s' = s := by
  have hstored : hash ∈ s.hashes ↔ s.heights[hash]?.isSome = true := by
    rw [← h.mem_heights, Std.ExtHashMap.mem_iff_isSome_getElem?]
  unfold dropAfter ChainStore.height
  rw [hstored]
  rcases s.heights[hash]? with _ | n
  · constructor
    · intro herror
      cases herror
      exact ⟨Bool.false_ne_true, rfl, rfl⟩
    · rintro ⟨-, rfl, rfl⟩
      rfl
  · exact iff_of_false (fun herror => nomatch herror) fun hmissing => hmissing.1 rfl

end Consistent

/-- A number below the bound is that of one word. -/
theorem eq_ofNat_iff {n : UInt32} {k : Nat} (h : k < UInt32.size) :
    n = UInt32.ofNat k ↔ n.toNat = k := by
  rw [← UInt32.toNat_inj, UInt32.toNat_ofNat_of_lt' h]

/-- **Changes are exact.** Whatever calls a store has answered: as long as it holds fewer than 2 ^ 32
    blocks, it takes a block just when the block is new and the first one or on the tip. The height is
    the number of blocks before it, and the block is all that is added. Any other block is refused for
    the first reason there is: it is stored, its parent is stored but not the tip, its parent is not
    stored. Blocks are dropped behind any stored block, and refused behind others. Whatever is refused
    leaves the store as it was. -/
theorem updates_exact (calls : List Call) :
    ((afterCalls calls).hashes.size < UInt32.size → ∀ b n s',
      insert b (afterCalls calls) = .ok n s' ↔
      Fits (afterCalls calls).hashes b ∧ n.toNat = (afterCalls calls).hashes.size ∧
        s'.blocks = (afterCalls calls).blocks.insert b.hash b ∧
        s'.heights = (afterCalls calls).heights.insert b.hash n ∧
        s'.hashes = (afterCalls calls).hashes.push b.hash) ∧
    (∀ b e s', insert b (afterCalls calls) = .error e s' ↔
      Refuses (afterCalls calls).hashes b e ∧ s' = afterCalls calls) ∧
    ∀ h e s', dropAfter h (afterCalls calls) = .error e s' ↔
      h ∉ (afterCalls calls).hashes ∧ e = .unknownHash h ∧ s' = afterCalls calls := by
  have hs := consistent_afterCalls calls
  refine ⟨fun hsize b n s' => ?_, fun _ _ _ => hs.insert_error_iff,
    fun _ _ _ => hs.dropAfter_error_iff⟩
  rw [hs.insert_ok_iff, eq_ofNat_iff hsize]

/-- On the store of one block, another one on top of it gets height 1, and the same one again is
    refused. -/
theorem updates_exact_second :
    (∃ n s', insert second (afterCalls [.insert lowest]) = .ok n s' ∧ n.toNat = 1) ∧
      insert lowest (afterCalls [.insert lowest]) =
        .error (.duplicate lowest.hash) (afterCalls [.insert lowest]) := by
  have hlowest : Linked [lowest] := linked_pair.take 1
  have hhashes : (afterCalls [.insert lowest]).hashes = #[lowest.hash] := by
    rw [afterCalls, (runAll_empty _).2, List.foldl_cons, List.foldl_nil, Call.next, List.nil_append,
      if_pos hlowest]
    rfl
  have hfresh : second.hash ∉ #[lowest.hash] := by
    have hpair : Linked ([lowest] ++ [second]) := linked_pair
    simpa using (linked_concat.1 hpair).2.1
  obtain ⟨htaken, hrefused, -⟩ := updates_exact [.insert lowest]
  rw [hhashes] at htaken hrefused
  have hfits : Fits #[lowest.hash] second := ⟨hfresh, Or.inr rfl⟩
  refine ⟨⟨1, ⟨_, _, _⟩, (htaken (by decide) _ _ _).2 ⟨hfits, rfl, rfl, rfl, rfl⟩, rfl⟩, ?_⟩
  exact (hrefused lowest _ _).2 ⟨.duplicate (by simp), rfl⟩

end ChainStore

end SpendScript

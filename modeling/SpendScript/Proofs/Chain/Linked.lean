/-
  Stores filled from a list of blocks. Blocks are linked when each one names the one below it as its
  parent and no two have the same hash. `ChainStore.ofBlocks` puts the blocks of a list on top of one
  another, and whatever can be read off that store is read off the list. As long as the blocks are
  linked, a block is taken just when they stay so (`insert_ofBlocks`), and dropping blocks gives the
  store of the list that is left, with no trace of the others (`truncate_ofBlocks`). The height of a
  block is its place in the list, as a word (`heights_ofBlocks`).
-/
import Mathlib.Data.List.Chain
import SpendScript.Chain.Store

namespace SpendScript

/-- No two blocks have the same hash, and each names the one below it as its parent. -/
structure Linked (bs : List Block) : Prop where
  nodup : (bs.map Block.hash).Nodup
  parents : bs.IsChain fun below b => b.parent = below.hash

instance (bs : List Block) : Decidable (Linked bs) :=
  decidable_of_iff ((bs.map Block.hash).Nodup ∧ bs.IsChain fun below b => b.parent = below.hash)
    ⟨fun h => ⟨h.1, h.2⟩, fun h => ⟨h.nodup, h.parents⟩⟩

theorem linked_nil : Linked [] := ⟨List.nodup_nil, .nil⟩

/-- One more block on top needs a hash of its own and the parent that is there. -/
theorem linked_concat {bs : List Block} {b : Block} :
    Linked (bs ++ [b]) ↔
      Linked bs ∧ b.hash ∉ bs.map Block.hash ∧ ∀ last ∈ bs.getLast?, b.parent = last.hash := by
  have hnodup : ((bs ++ [b]).map Block.hash).Nodup ↔
      (bs.map Block.hash).Nodup ∧ b.hash ∉ bs.map Block.hash := by
    rw [List.map_append, List.nodup_append]
    simp only [List.map_cons, List.map_nil, List.nodup_cons, List.not_mem_nil, not_false_eq_true,
      List.nodup_nil, and_self, List.mem_singleton, forall_eq, true_and]
    exact and_congr_right' ⟨fun h hb => h _ hb rfl, fun h a ha heq => h (heq ▸ ha)⟩
  have hparents : (bs ++ [b]).IsChain (fun below b => b.parent = below.hash) ↔
      bs.IsChain (fun below b => b.parent = below.hash) ∧
        ∀ last ∈ bs.getLast?, b.parent = last.hash := by
    rw [List.isChain_append]
    simp only [List.isChain_singleton, List.head?_cons, Option.mem_some_iff, forall_eq', true_and]
  constructor
  · rintro ⟨hn, hp⟩
    exact ⟨⟨(hnodup.1 hn).1, (hparents.1 hp).1⟩, (hnodup.1 hn).2, (hparents.1 hp).2⟩
  · rintro ⟨⟨hn, hp⟩, hb, hlast⟩
    exact ⟨hnodup.2 ⟨hn, hb⟩, hparents.2 ⟨hp, hlast⟩⟩

theorem Linked.take {bs : List Block} (h : Linked bs) (n : Nat) : Linked (bs.take n) := by
  refine ⟨?_, h.parents.take n⟩
  rw [List.map_take]
  exact h.nodup.sublist (List.take_sublist n _)

namespace ChainStore

/-! ## Dropping blocks -/

theorem getElem?_foldl_erase {β : Type} (dropped : List BlockHash)
    (m : Std.ExtHashMap BlockHash β) (h : BlockHash) :
    (dropped.foldl (fun m h => m.erase h) m)[h]? = if h ∈ dropped then none else m[h]? := by
  induction dropped generalizing m with
  | nil => rfl
  | cons d dropped ih =>
    rw [List.foldl_cons, ih, Std.ExtHashMap.getElem?_erase]
    by_cases hd : d = h
    · simp [hd]
    · simp [hd, Ne.symm hd]

/-- Erasing keys, the last of which has just been inserted. -/
theorem foldl_erase_insert {β : Type} {m : Std.ExtHashMap BlockHash β} {h : BlockHash} (v : β)
    (hm : m[h]? = none) (dropped : List BlockHash) :
    (dropped ++ [h]).foldl (fun m h => m.erase h) (m.insert h v) =
      dropped.foldl (fun m h => m.erase h) m := by
  refine Std.ExtHashMap.ext_getElem? fun k => ?_
  rw [getElem?_foldl_erase, getElem?_foldl_erase, Std.ExtHashMap.getElem?_insert]
  by_cases hk : h = k
  · rw [← hk, hm]
    simp
  · simp [hk, Ne.symm hk]

/-- When all blocks stay, nothing changes. -/
theorem truncate_size (s : ChainStore) : s.truncate s.hashes.size = s := by
  unfold truncate
  rw [Array.extract_size, Array.extract_eq_empty_of_le (Nat.min_le_right _ _)]
  rfl

/-- A new block leaves no trace when it is dropped again. -/
theorem truncate_append {s : ChainStore} {b : Block} {count : Nat} (hcount : count ≤ s.hashes.size)
    (hblocks : s.blocks[b.hash]? = none) (hheights : s.heights[b.hash]? = none) :
    (s.append b).truncate count = s.truncate count := by
  have hdropped : ((s.hashes.push b.hash).extract count (s.hashes.push b.hash).size).toList =
      (s.hashes.extract count s.hashes.size).toList ++ [b.hash] := by
    rw [Array.size_push, Array.extract_push, if_neg (Nat.not_succ_le_self _), if_pos hcount,
      Array.toList_push]
  have hkept : (s.hashes.push b.hash).extract 0 count = s.hashes.extract 0 count := by
    rw [Array.extract_push, if_pos hcount]
  unfold truncate append
  simp only [hdropped, hkept, foldl_erase_insert _ hblocks, foldl_erase_insert _ hheights]

/-! ## The store of a list of blocks -/

/-- Counting up from the tip gives the number of blocks, as a word. -/
theorem nextHeight_eq (s : ChainStore) : s.nextHeight = UInt32.ofNat s.hashes.size := by
  unfold nextHeight tip?
  rcases hback : s.hashes.back? with _ | last
  · rw [Array.back?_eq_none_iff.1 hback]
    rfl
  · have hpos : 0 < s.hashes.size := Array.size_pos_of_mem (Array.mem_of_back? hback)
    obtain ⟨n, hn⟩ := Nat.exists_eq_add_of_lt hpos
    rw [Nat.zero_add] at hn
    rw [hn]
    exact (UInt32.ofNat_add n 1).symm

/-- The store of these blocks, the lowest one first. -/
def ofBlocks (bs : List Block) : ChainStore := bs.foldl append empty

variable {bs : List Block}

theorem ofBlocks_concat (b : Block) : ofBlocks (bs ++ [b]) = (ofBlocks bs).append b :=
  List.foldl_concat append empty b bs

theorem hashes_ofBlocks (bs : List Block) : (ofBlocks bs).hashes.toList = bs.map Block.hash := by
  induction bs using List.reverseRecOn with
  | nil => rfl
  | append_singleton bs b ih =>
    rw [ofBlocks_concat, List.map_append, ← ih]
    exact Array.toList_push

theorem size_ofBlocks (bs : List Block) : (ofBlocks bs).hashes.size = bs.length := by
  rw [← Array.length_toList, hashes_ofBlocks, List.length_map]

theorem getElem?_hashes_ofBlocks (bs : List Block) (i : Nat) :
    (ofBlocks bs).hashes[i]? = bs[i]?.map Block.hash := by
  rw [← Array.getElem?_toList, hashes_ofBlocks, List.getElem?_map]

theorem tip?_ofBlocks (bs : List Block) :
    (ofBlocks bs).tip? = bs.getLast?.map fun b => ⟨UInt32.ofNat (bs.length - 1), b.hash⟩ := by
  unfold tip?
  rw [← Array.getLast?_toList, hashes_ofBlocks, size_ofBlocks, List.getLast?_map, Option.map_map]
  rfl

/-- A block is found under its own hash, and there is no other. -/
theorem blocks_ofBlocks (hn : (bs.map Block.hash).Nodup) {h : BlockHash} {b : Block} :
    (ofBlocks bs).blocks[h]? = some b ↔ b ∈ bs ∧ b.hash = h := by
  induction bs using List.reverseRecOn with
  | nil => simp [ofBlocks, empty]
  | append_singleton bs c ih =>
    rw [List.map_append, List.nodup_append] at hn
    obtain ⟨hn, -, hfresh⟩ := hn
    have hget : (ofBlocks (bs ++ [c])).blocks[h]? =
        if c.hash = h then some c else (ofBlocks bs).blocks[h]? := by
      rw [ofBlocks_concat]
      refine Std.ExtHashMap.getElem?_insert.trans ?_
      simp only [beq_iff_eq]
    rw [hget, List.mem_append, List.mem_singleton]
    by_cases hc : c.hash = h
    · rw [if_pos hc]
      constructor
      · intro heq
        obtain rfl := Option.some.inj heq
        exact ⟨Or.inr rfl, hc⟩
      · rintro ⟨hb | rfl, heq⟩
        · refine absurd (heq.trans hc.symm) ?_
          exact hfresh _ (List.mem_map_of_mem hb) _ (List.mem_singleton.2 rfl)
        · rfl
    · rw [if_neg hc, ih hn]
      constructor
      · rintro ⟨hb, heq⟩
        exact ⟨Or.inl hb, heq⟩
      · rintro ⟨hb | rfl, heq⟩
        · exact ⟨hb, heq⟩
        · exact absurd heq hc

theorem getElem?_concat_eq_some {α : Type} {xs : List α} {x y : α} {n : Nat} :
    (xs ++ [x])[n]? = some y ↔ xs[n]? = some y ∨ n = xs.length ∧ x = y := by
  rcases Nat.lt_trichotomy n xs.length with hlt | rfl | hgt
  · rw [List.getElem?_append_left hlt]
    constructor
    · exact Or.inl
    · rintro (h | ⟨rfl, -⟩)
      · exact h
      · exact absurd hlt (Nat.lt_irrefl _)
  · simp
  · have hlong : (xs ++ [x]).length ≤ n := by
      rw [List.length_append]
      exact hgt
    rw [List.getElem?_eq_none hlong, List.getElem?_eq_none (Nat.le_of_lt hgt)]
    constructor
    · intro h
      cases h
    · rintro (h | ⟨rfl, -⟩)
      · cases h
      · exact absurd hgt (Nat.lt_irrefl _)

/-- The height of a hash is its place among the hashes, as a word. -/
theorem heights_ofBlocks (hn : (bs.map Block.hash).Nodup) {h : BlockHash} {n : UInt32} :
    (ofBlocks bs).heights[h]? = some n ↔
      ∃ i, (bs.map Block.hash)[i]? = some h ∧ UInt32.ofNat i = n := by
  induction bs using List.reverseRecOn with
  | nil => simp [ofBlocks, empty]
  | append_singleton bs c ih =>
    rw [List.map_append, List.nodup_append] at hn
    obtain ⟨hn, -, hfresh⟩ := hn
    have hget : (ofBlocks (bs ++ [c])).heights[h]? =
        if c.hash = h then some (UInt32.ofNat (bs.map Block.hash).length)
        else (ofBlocks bs).heights[h]? := by
      rw [ofBlocks_concat, List.length_map, ← size_ofBlocks bs, ← nextHeight_eq]
      refine Std.ExtHashMap.getElem?_insert.trans ?_
      simp only [beq_iff_eq]
    rw [hget, List.map_append, List.map_cons, List.map_nil]
    simp only [getElem?_concat_eq_some]
    by_cases hc : c.hash = h
    · rw [if_pos hc]
      constructor
      · intro heq
        exact ⟨_, Or.inr ⟨rfl, hc⟩, Option.some.inj heq⟩
      · rintro ⟨i, hold | ⟨rfl, -⟩, rfl⟩
        · refine absurd hc.symm ?_
          exact hfresh _ (List.mem_of_getElem? hold) _ (List.mem_singleton.2 rfl)
        · rfl
    · rw [if_neg hc, ih hn]
      refine exists_congr fun i => and_congr_left fun _ => ?_
      exact ⟨Or.inl, fun hor => hor.resolve_right fun hlast => hc hlast.2⟩

theorem contains_ofBlocks (hn : (bs.map Block.hash).Nodup) {h : BlockHash} :
    (ofBlocks bs).contains h = true ↔ h ∈ bs.map Block.hash := by
  unfold contains
  rw [Std.ExtHashMap.contains_eq_isSome_getElem?, Option.isSome_iff_exists, List.mem_map]
  exact exists_congr fun b => blocks_ofBlocks hn

/-! ## Changes of the store of linked blocks -/

/-- A block is refused just when it would not be linked to the others. -/
theorem refusal?_ofBlocks (hl : Linked bs) (b : Block) :
    (ofBlocks bs).refusal? b = none ↔ Linked (bs ++ [b]) := by
  rw [linked_concat]
  unfold refusal?
  rw [tip?_ofBlocks]
  by_cases hdup : b.hash ∈ bs.map Block.hash
  · rw [if_pos ((contains_ofBlocks hl.nodup).2 hdup)]
    exact ⟨fun h => (nomatch h), fun h => absurd hdup h.2.1⟩
  · rw [if_neg fun hc => hdup ((contains_ofBlocks hl.nodup).1 hc)]
    rcases bs.getLast? with _ | last
    · exact ⟨fun _ => ⟨hl, hdup, fun _ hlast => (nomatch hlast)⟩, fun _ => rfl⟩
    · dsimp only [Option.map_some]
      by_cases hparent : last.hash = b.parent
      · rw [if_pos hparent]
        refine ⟨fun _ => ⟨hl, hdup, fun _ hlast => ?_⟩, fun _ => rfl⟩
        rw [← Option.some.inj hlast, hparent]
      · rw [if_neg hparent]
        constructor
        · intro h
          split at h <;> cases h
        · rintro ⟨-, -, hlast⟩
          exact absurd (hlast last rfl).symm hparent

/-- A block that stays linked is put on top, and any other is refused without a change. -/
theorem insert_ofBlocks (hl : Linked bs) (b : Block) :
    (Linked (bs ++ [b]) ∧
        insert b (ofBlocks bs) = .ok (UInt32.ofNat bs.length) (ofBlocks (bs ++ [b]))) ∨
      ∃ e, ¬ Linked (bs ++ [b]) ∧ insert b (ofBlocks bs) = .error e (ofBlocks bs) := by
  have hlinked := refusal?_ofBlocks hl b
  unfold insert
  rcases hr : (ofBlocks bs).refusal? b with _ | e
  · refine Or.inl ⟨hlinked.1 hr, ?_⟩
    rw [nextHeight_eq, size_ofBlocks, ofBlocks_concat]
  · refine Or.inr ⟨e, fun h => ?_, rfl⟩
    rw [hlinked.2 h] at hr
    cases hr

/-- Dropping all but the lowest blocks gives the store that holds only these. -/
theorem truncate_ofBlocks (hn : (bs.map Block.hash).Nodup) {count : Nat} (hc : count ≤ bs.length) :
    (ofBlocks bs).truncate count = ofBlocks (bs.take count) := by
  induction bs using List.reverseRecOn with
  | nil =>
    obtain rfl := Nat.le_zero.1 hc
    exact truncate_size _
  | append_singleton bs b ih =>
    by_cases hle : count ≤ bs.length
    · rw [List.map_append, List.nodup_append] at hn
      obtain ⟨hn, -, hfresh⟩ := hn
      have hb : b.hash ∉ bs.map Block.hash := fun hmem =>
        hfresh _ hmem _ (List.mem_singleton.2 rfl) rfl
      have hblocks : (ofBlocks bs).blocks[b.hash]? = none := by
        refine Option.eq_none_iff_forall_ne_some.2 fun c hget => hb ?_
        obtain ⟨hmem, heq⟩ := (blocks_ofBlocks hn).1 hget
        exact heq ▸ List.mem_map_of_mem hmem
      have hheights : (ofBlocks bs).heights[b.hash]? = none := by
        refine Option.eq_none_iff_forall_ne_some.2 fun n hget => hb ?_
        obtain ⟨i, hi, -⟩ := (heights_ofBlocks hn).1 hget
        exact List.mem_of_getElem? hi
      rw [ofBlocks_concat, truncate_append (by rwa [size_ofBlocks]) hblocks hheights, ih hn hle,
        List.take_append_of_le_length hle]
    · have hall : count = (bs ++ [b]).length := by
        rw [List.length_append] at hc ⊢
        simp only [List.length_singleton] at hc ⊢
        omega
      rw [hall, ← size_ofBlocks, truncate_size, size_ofBlocks, List.take_length]

/-- The blocks up to a stored one are kept, and nothing is dropped behind a hash that is not
    stored. -/
theorem dropAfter_ofBlocks (hn : (bs.map Block.hash).Nodup) (h : BlockHash) :
    (∃ k, (bs.map Block.hash)[k]? = some h ∧
        dropAfter h (ofBlocks bs) =
          .ok () (ofBlocks (bs.take ((UInt32.ofNat k).toNat + 1)))) ∨
      h ∉ bs.map Block.hash ∧ dropAfter h (ofBlocks bs) = .error (.unknownHash h) (ofBlocks bs) := by
  unfold dropAfter height
  rcases hget : (ofBlocks bs).heights[h]? with _ | n
  · refine Or.inr ⟨fun hmem => ?_, rfl⟩
    obtain ⟨k, hk⟩ := List.mem_iff_getElem?.1 hmem
    rw [(heights_ofBlocks hn).2 ⟨k, hk, rfl⟩] at hget
    cases hget
  · obtain ⟨k, hk, rfl⟩ := (heights_ofBlocks hn).1 hget
    refine Or.inl ⟨k, hk, ?_⟩
    have hlt : k < bs.length := by
      rw [← List.length_map (f := Block.hash)]
      exact (List.getElem?_eq_some_iff.1 hk).1
    have hkept : (UInt32.ofNat k).toNat ≤ k := by
      rw [UInt32.toNat_ofNat']
      exact Nat.mod_le k _
    dsimp only
    rw [truncate_ofBlocks hn (by omega)]

end ChainStore

end SpendScript

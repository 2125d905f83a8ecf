/-
  What a store is after any history of calls. A store refines the list of its blocks: every call,
  whether it succeeds or not, does to the store what `Call.next` does to the list, which stays linked
  (`Call.run_ofBlocks`). So whatever has happened before, the store is consistent
  (`consistent_runAll`), and nothing is left in it of blocks that have been dropped: it is the store
  that its own blocks give from scratch (`rebuilt_runAll`). Heights are words, so they are the places of
  the blocks in chains of up to 2 ^ 32 blocks (`Numbered`); the rest holds for longer ones as well.
-/
import SpendScript.Proofs.Chain.Linked

namespace SpendScript

namespace ChainStore

/-! ## Calls -/

/-- A call to a store. The first two can change it. -/
inductive Call where
  | insert (b : Block)
  | dropAfter (hash : BlockHash)
  | block (hash : BlockHash)
  | height (hash : BlockHash)
  | hashAt (height : UInt32)
  | range (start stop : UInt32)
  | contains (hash : BlockHash)
  | tip
  | size
  | isEmpty

/-- What a store answers. -/
inductive Answer where
  | refused (e : ChainError)
  | done
  | height (n : UInt32)
  | number (n : Nat)
  | block (b : Block)
  | hash (hash : BlockHash)
  | hashes (hashes : List BlockHash)
  | truth (b : Bool)
  | tip (tip : Option IndexedBlock)

/-- The answer of a lookup that can be refused. -/
def Answer.ofExcept {α : Type} (answer : α → Answer) : Except ChainError α → Answer
  | .ok a => answer a
  | .error e => .refused e

/-- The answer of a change that can be refused, and the store it leaves. -/
def Answer.ofResult {α : Type} (answer : α → Answer) :
    EStateM.Result ChainError ChainStore α → Answer × ChainStore
  | .ok a s => (answer a, s)
  | .error e s => (.refused e, s)

/-- The answer of a call, and the store it leaves. -/
def Call.run (s : ChainStore) : Call → Answer × ChainStore
  | .insert b => Answer.ofResult .height (ChainStore.insert b s)
  | .dropAfter h => Answer.ofResult (fun _ => .done) (ChainStore.dropAfter h s)
  | .block h => (.ofExcept .block (s.block h), s)
  | .height h => (.ofExcept .height (s.height h), s)
  | .hashAt n => (.ofExcept .hash (s.hashAt n), s)
  | .range start stop => (.hashes (s.range start stop), s)
  | .contains h => (.truth (s.contains h), s)
  | .tip => (.tip s.tip?, s)
  | .size => (.number (ChainStore.size s), s)
  | .isEmpty => (.truth s.isEmpty, s)

/-- The answers of calls one after the other, and the store they leave. -/
def runAll : List Call → ChainStore → List Answer × ChainStore
  | [], s => ([], s)
  | call :: calls, s =>
    let (answer, s) := call.run s
    let (answers, s) := runAll calls s
    (answer :: answers, s)

/-- The store after calls to an empty one. -/
def afterCalls (calls : List Call) : ChainStore := (runAll calls empty).2

/-! ## The list behind a store -/

/-- What a call makes of the blocks of a store. The height of a block decides on what is dropped. -/
def Call.next (bs : List Block) : Call → List Block
  | .insert b => if Linked (bs ++ [b]) then bs ++ [b] else bs
  | .dropAfter hash =>
    if hash ∈ bs.map Block.hash then
      bs.take ((UInt32.ofNat ((bs.map Block.hash).idxOf hash)).toNat + 1)
    else bs
  | .block _ | .height _ | .hashAt _ | .range _ _ | .contains _ | .tip | .size | .isEmpty => bs

variable {bs : List Block}

theorem Call.linked_next (hl : Linked bs) (call : Call) : Linked (call.next bs) := by
  cases call with
  | insert b =>
    dsimp only [next]
    split
    · assumption
    · exact hl
  | dropAfter hash =>
    dsimp only [next]
    split
    · exact hl.take _
    · exact hl
  | _ => exact hl

/-- The lowest block stays, once there is one. -/
theorem Call.head?_next {b : Block} (hb : bs.head? = some b) (call : Call) :
    (call.next bs).head? = some b := by
  obtain ⟨rest, rfl⟩ := List.head?_eq_some_iff.1 hb
  cases call with
  | insert c =>
    dsimp only [next]
    split <;> rfl
  | dropAfter hash =>
    dsimp only [next]
    split <;> rfl
  | _ => rfl

/-- **One call** does to the store what it does to the list of its blocks. -/
theorem Call.run_ofBlocks (hl : Linked bs) (call : Call) :
    (call.run (ofBlocks bs)).2 = ofBlocks (call.next bs) := by
  cases call with
  | insert b =>
    dsimp only [run, next]
    rcases insert_ofBlocks hl b with ⟨hlinked, hrun⟩ | ⟨e, hlinked, hrun⟩
    · rw [hrun, if_pos hlinked]
      rfl
    · rw [hrun, if_neg hlinked]
      rfl
  | dropAfter hash =>
    dsimp only [run, next]
    rcases dropAfter_ofBlocks hl.nodup hash with ⟨k, hk, hrun⟩ | ⟨habsent, hrun⟩
    · obtain ⟨hlt, hget⟩ := List.getElem?_eq_some_iff.1 hk
      have hindex : (bs.map Block.hash).idxOf hash = k := by
        rw [← hget, hl.nodup.idxOf_getElem]
      rw [hrun, if_pos (List.mem_of_getElem? hk), hindex]
      rfl
    · rw [hrun, if_neg habsent]
      rfl
  | _ => rfl

/-- **All calls** together do to the store what they do to the list of its blocks. -/
theorem runAll_ofBlocks (hl : Linked bs) (calls : List Call) :
    Linked (calls.foldl Call.next bs) ∧
      (runAll calls (ofBlocks bs)).2 = ofBlocks (calls.foldl Call.next bs) := by
  induction calls generalizing bs with
  | nil => exact ⟨hl, rfl⟩
  | cons call calls ih =>
    obtain ⟨hlinked, hrun⟩ := ih (call.linked_next hl)
    refine ⟨hlinked, ?_⟩
    rw [List.foldl_cons, ← hrun, ← call.run_ofBlocks hl]
    rfl

theorem runAll_empty (calls : List Call) :
    Linked (calls.foldl Call.next []) ∧
      (runAll calls empty).2 = ofBlocks (calls.foldl Call.next []) :=
  runAll_ofBlocks linked_nil calls

theorem head?_foldl_next {b : Block} (hb : bs.head? = some b) (calls : List Call) :
    (calls.foldl Call.next bs).head? = some b := by
  induction calls generalizing bs with
  | nil => exact hb
  | cons call calls ih => exact ih (call.head?_next hb)

/-! ## Consistency -/

/-- The three parts of a store say the same, and its blocks form a chain. The height of a hash is its
    place, as a word. -/
structure Consistent (s : ChainStore) : Prop where
  nodup : s.hashes.toList.Nodup
  mem_blocks : ∀ h : BlockHash, h ∈ s.blocks ↔ h ∈ s.hashes
  mem_heights : ∀ h : BlockHash, h ∈ s.heights ↔ h ∈ s.hashes
  height : ∀ (i : Nat) (h : BlockHash),
    s.hashes[i]? = some h → s.heights[h]? = some (UInt32.ofNat i)
  hash : ∀ (h : BlockHash) (b : Block), s.blocks[h]? = some b → b.hash = h
  /-- Every block but the lowest one is stored and names the one below it. -/
  parent : ∀ (i : Nat) (below h : BlockHash), s.hashes[i]? = some below →
    s.hashes[i + 1]? = some h → ∃ b : Block, s.blocks[h]? = some b ∧ b.parent = below
  no_tip : s.tip? = none ↔ s.hashes = #[]

/-- The heights of a store are the places of its hashes, and the tip is the last of them. -/
structure Numbered (s : ChainStore) : Prop where
  height : ∀ (i : Nat) (h : BlockHash),
    s.hashes[i]? = some h → ∃ n, s.heights[h]? = some n ∧ n.toNat = i
  tip : ∀ t : IndexedBlock, s.tip? = some t ↔
    s.hashes.size = t.height.toNat + 1 ∧ s.hashes[t.height.toNat]? = some t.hash

theorem consistent_ofBlocks (hl : Linked bs) : Consistent (ofBlocks bs) where
  nodup := by
    rw [hashes_ofBlocks]
    exact hl.nodup
  mem_blocks h := by
    rw [← Std.ExtHashMap.contains_iff_mem, ← Array.mem_toList_iff, hashes_ofBlocks]
    exact contains_ofBlocks hl.nodup
  mem_heights h := by
    rw [Std.ExtHashMap.mem_iff_isSome_getElem?, Option.isSome_iff_exists, ← Array.mem_toList_iff,
      hashes_ofBlocks, List.mem_iff_getElem?]
    constructor
    · rintro ⟨n, hn⟩
      obtain ⟨i, hi, -⟩ := (heights_ofBlocks hl.nodup).1 hn
      exact ⟨i, hi⟩
    · rintro ⟨i, hi⟩
      exact ⟨_, (heights_ofBlocks hl.nodup).2 ⟨i, hi, rfl⟩⟩
  height i h hi := by
    rw [getElem?_hashes_ofBlocks, ← List.getElem?_map] at hi
    exact (heights_ofBlocks hl.nodup).2 ⟨i, hi, rfl⟩
  hash h b hb := ((blocks_ofBlocks hl.nodup).1 hb).2
  parent i below h hi hnext := by
    rw [getElem?_hashes_ofBlocks, Option.map_eq_some_iff] at hi hnext
    obtain ⟨a, ha, rfl⟩ := hi
    obtain ⟨b, hb, rfl⟩ := hnext
    refine ⟨b, (blocks_ofBlocks hl.nodup).2 ⟨List.mem_of_getElem? hb, rfl⟩, ?_⟩
    obtain ⟨hlt, rfl⟩ := List.getElem?_eq_some_iff.1 hb
    obtain ⟨-, rfl⟩ := List.getElem?_eq_some_iff.1 ha
    exact hl.parents.getElem i hlt
  no_tip := by
    rw [tip?_ofBlocks, Option.map_eq_none_iff, List.getLast?_eq_none_iff, ← Array.toList_eq_nil_iff,
      hashes_ofBlocks, List.map_eq_nil_iff]

/-- Up to 2 ^ 32 blocks all places are words. -/
theorem numbered_ofBlocks (hl : Linked bs) (hsize : (ofBlocks bs).hashes.size ≤ UInt32.size) :
    Numbered (ofBlocks bs) where
  height i h hi := by
    refine ⟨_, (consistent_ofBlocks hl).height i h hi, UInt32.toNat_ofNat_of_lt' ?_⟩
    exact Nat.lt_of_lt_of_le (Array.getElem?_eq_some_iff.1 hi).1 hsize
  tip t := by
    rw [size_ofBlocks] at hsize
    rw [tip?_ofBlocks, size_ofBlocks, getElem?_hashes_ofBlocks, List.getLast?_eq_getElem?]
    simp only [Option.map_eq_some_iff]
    constructor
    · rintro ⟨b, hb, rfl⟩
      have hlt := (List.getElem?_eq_some_iff.1 hb).1
      have hheight := UInt32.toNat_ofNat_of_lt' (Nat.lt_of_lt_of_le hlt hsize)
      dsimp only
      rw [hheight]
      exact ⟨by omega, b, hb, rfl⟩
    · rintro ⟨hlength, b, hb, heq⟩
      have hheight : bs.length - 1 = t.height.toNat := by omega
      refine ⟨b, hheight ▸ hb, ?_⟩
      rw [hheight, heq, UInt32.ofNat_toNat]

theorem consistent_afterCalls (calls : List Call) : Consistent (afterCalls calls) := by
  obtain ⟨hl, hrun⟩ := runAll_empty calls
  unfold afterCalls
  rw [hrun]
  exact consistent_ofBlocks hl

/-- **A store is always consistent.** Whatever calls an empty store has answered, successfully or not,
    its parts agree and its blocks form a chain. Up to 2 ^ 32 blocks the heights are their places. The
    hash of the lowest block stays the same, whatever calls come later. -/
theorem consistent_runAll (calls : List Call) :
    Consistent (runAll calls empty).2 ∧
      ((runAll calls empty).2.hashes.size ≤ UInt32.size → Numbered (runAll calls empty).2) ∧
      ∀ h, (runAll calls empty).2.hashes[0]? = some h →
        ∀ more, (runAll more (runAll calls empty).2).2.hashes[0]? = some h := by
  obtain ⟨hl, hrun⟩ := runAll_empty calls
  rw [hrun]
  refine ⟨consistent_ofBlocks hl, numbered_ofBlocks hl, fun h hh more => ?_⟩
  obtain ⟨-, hmore⟩ := runAll_ofBlocks hl more
  rw [hmore]
  rw [getElem?_hashes_ofBlocks, ← List.head?_eq_getElem?, Option.map_eq_some_iff] at hh ⊢
  obtain ⟨b, hb, rfl⟩ := hh
  exact ⟨b, head?_foldl_next hb more, rfl⟩

/-- A block without transactions. -/
def bare (parent : BlockHash) (nonce : UInt32) : Block :=
  ⟨⟨1, parent, List.replicate 32 0, 1700000000, 0x207fffff, nonce⟩, []⟩

/-- A block, and another one on top of it. -/
def lowest : Block := bare ⟨List.replicate 32 0⟩ 0

def second : Block := bare lowest.hash 1

theorem linked_pair : Linked [lowest, second] where
  nodup := by decide +kernel
  parents := List.isChain_pair.2 rfl

/-- The second block is refused as long as it is there, and taken again once it has been dropped. -/
def repeated : List Call :=
  [.insert lowest, .insert second, .insert second, .dropAfter lowest.hash, .insert second]

theorem next_repeated : repeated.foldl Call.next [] = [lowest, second] := by
  have hlowest : Linked [lowest] := linked_pair.take 1
  have htwice : ¬ Linked [lowest, second, second] := fun h => by
    simpa using (List.nodup_cons.1 h.nodup).2
  simp [repeated, Call.next, hlowest, linked_pair, htwice]

theorem consistent_runAll_repeated :
    (runAll repeated empty).2.hashes.toList = [lowest.hash, second.hash] ∧
      Consistent (runAll repeated empty).2 ∧
      (∃ n, (runAll repeated empty).2.heights[second.hash]? = some n ∧ n.toNat = 1) ∧
      (runAll [.dropAfter lowest.hash, .insert (bare lowest.hash 2)]
        (runAll repeated empty).2).2.hashes[0]? = some lowest.hash := by
  have hhashes : (runAll repeated empty).2.hashes.toList = [lowest.hash, second.hash] := by
    rw [(runAll_empty repeated).2, next_repeated, hashes_ofBlocks]
    rfl
  have hsize : (runAll repeated empty).2.hashes.size ≤ UInt32.size := by
    rw [← Array.length_toList, hhashes]
    decide
  obtain ⟨hconsistent, hnumbered, hlowest⟩ := consistent_runAll repeated
  refine ⟨hhashes, hconsistent, (hnumbered hsize).height 1 second.hash ?_, hlowest lowest.hash ?_ _⟩
  · rw [← Array.getElem?_toList, hhashes]
    rfl
  · rw [← Array.getElem?_toList, hhashes]
    rfl

/-! ## Stores from scratch -/

/-- Puts blocks on top of one another, as long as none is refused. -/
def insertAll : List Block → ChainM Unit
  | [] => pure ()
  | b :: bs => do
    let _ ← insert b
    insertAll bs

/-- The blocks of a store, the lowest one first. -/
def chain (s : ChainStore) : List Block := s.hashes.toList.filterMap fun h => (s.block h).toOption

theorem chain_ofBlocks (hn : (bs.map Block.hash).Nodup) : (ofBlocks bs).chain = bs := by
  have hfound : ∀ b ∈ bs, ((ofBlocks bs).block b.hash).toOption = some b := fun b hb => by
    unfold block
    rw [(blocks_ofBlocks hn).2 ⟨hb, rfl⟩]
    rfl
  unfold chain
  rw [hashes_ofBlocks, List.filterMap_map]
  exact (List.filterMap_congr hfound).trans List.filterMap_some

/-- Blocks are taken one after the other just when they are linked. -/
theorem insertAll_ofBlocks (hl : Linked bs) {cs : List Block} {s : ChainStore} :
    insertAll cs (ofBlocks bs) = .ok () s ↔ Linked (bs ++ cs) ∧ s = ofBlocks (bs ++ cs) := by
  induction cs generalizing bs with
  | nil =>
    rw [List.append_nil]
    constructor
    · intro h
      cases h
      exact ⟨hl, rfl⟩
    · rintro ⟨-, rfl⟩
      rfl
  | cons b cs ih =>
    rw [insertAll]
    change EStateM.bind _ _ _ = _ ↔ _
    unfold EStateM.bind
    rcases insert_ofBlocks hl b with ⟨hlinked, hrun⟩ | ⟨e, hlinked, hrun⟩
    · rw [hrun]
      dsimp only
      rw [ih hlinked, List.append_assoc, List.singleton_append]
    · rw [hrun]
      refine iff_of_false (fun h => nomatch h) fun h => hlinked ?_
      have htake := h.1.take (bs.length + 1)
      rwa [List.take_append, List.take_of_length_le (Nat.le_succ _), Nat.add_sub_cancel_left] at htake

/-- Dropping the blocks above one of the blocks, whose place is a word. -/
theorem dropAfter_of_getElem? (hn : (bs.map Block.hash).Nodup) {k : Nat} {b : Block}
    (hk : k < UInt32.size) (hb : bs[k]? = some b) :
    dropAfter b.hash (ofBlocks bs) = .ok () (ofBlocks (bs.take (k + 1))) := by
  have hhash : (bs.map Block.hash)[k]? = some b.hash := by
    rw [List.getElem?_map, hb]
    rfl
  rcases dropAfter_ofBlocks hn b.hash with ⟨n, hplace, hrun⟩ | ⟨habsent, -⟩
  · have hlt := (List.getElem?_eq_some_iff.1 hplace).1
    obtain rfl : n = k := (List.getElem?_inj hlt hn).1 (hplace.trans hhash.symm)
    rw [UInt32.toNat_ofNat_of_lt' hk] at hrun
    exact hrun
  · exact absurd (List.mem_of_getElem? hhash) habsent

/-- **Dropped blocks leave no trace.** When the blocks above one of the first 2 ^ 32 are dropped, the
    store is the one of the blocks that stay, put in from scratch, and it answers all calls the same way.
    Any store, however it has come about, is the one of its own blocks put in from scratch. -/
theorem rebuilt_runAll :
    (∀ (bs : List Block) (s : ChainStore), insertAll bs empty = .ok () s →
      ∀ (k : Nat) (b : Block), k < UInt32.size → bs[k]? = some b →
        ∃ dropped rebuilt, dropAfter b.hash s = .ok () dropped ∧
          insertAll (bs.take (k + 1)) empty = .ok () rebuilt ∧
          dropped.blocks = rebuilt.blocks ∧ dropped.heights = rebuilt.heights ∧
          dropped.hashes = rebuilt.hashes ∧
          ∀ calls, (runAll calls dropped).1 = (runAll calls rebuilt).1) ∧
      ∀ calls, insertAll (runAll calls empty).2.chain empty = .ok () (runAll calls empty).2 ∧
        (runAll calls empty).2.chain.map Block.hash = (runAll calls empty).2.hashes.toList := by
  refine ⟨fun bs s hs k b hk hb => ?_, fun calls => ?_⟩
  · obtain ⟨hl, rfl⟩ := (insertAll_ofBlocks linked_nil).1 hs
    rw [List.nil_append] at hl ⊢
    exact ⟨_, _, dropAfter_of_getElem? hl.nodup hk hb,
      (insertAll_ofBlocks linked_nil).2 ⟨hl.take _, rfl⟩, rfl, rfl, rfl, fun _ => rfl⟩
  · obtain ⟨hl, hrun⟩ := runAll_empty calls
    rw [hrun, chain_ofBlocks hl.nodup, hashes_ofBlocks]
    exact ⟨(insertAll_ofBlocks linked_nil).2 ⟨hl, rfl⟩, rfl⟩

theorem rebuilt_runAll_pair :
    ∃ s dropped rebuilt, insertAll [lowest, second] empty = .ok () s ∧
      dropAfter lowest.hash s = .ok () dropped ∧ insertAll [lowest] empty = .ok () rebuilt ∧
      dropped.blocks = rebuilt.blocks ∧ dropped.heights = rebuilt.heights ∧
      dropped.hashes = rebuilt.hashes ∧
      insertAll (runAll repeated empty).2.chain empty = .ok () (runAll repeated empty).2 := by
  have hinsert : insertAll [lowest, second] empty = .ok () _ :=
    (insertAll_ofBlocks linked_nil).2 ⟨linked_pair, rfl⟩
  obtain ⟨hdrop, hscratch⟩ := rebuilt_runAll
  obtain ⟨dropped, rebuilt, hdropped, hrebuilt, hblocks, hheights, hhashes, -⟩ :=
    hdrop _ _ hinsert 0 lowest (by decide) rfl
  exact ⟨_, dropped, rebuilt, hinsert, hdropped, hrebuilt, hblocks, hheights, hhashes,
    (hscratch repeated).1⟩

end ChainStore

end SpendScript

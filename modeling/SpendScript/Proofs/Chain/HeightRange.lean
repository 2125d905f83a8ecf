/-
  Ranges of heights. A range is cut out of the hashes at once. Both heights are moved into the chain
  before that, and then always are in order and in range (`range?_eq`). What is cut out is what single
  lookups find from the first height on, up to the last one or to a height without a block
  (`hashesFrom_eq`); the heights of these hashes count up from the first one (`range_lookups`). Counting
  stays below the last height, so no word overflows.
-/
import SpendScript.Proofs.Chain.History

namespace SpendScript

namespace ChainStore

/-- A height below another one has a successor. -/
theorem toNat_succ_of_lt {height stop : UInt32} (h : height < stop) :
    (height + 1).toNat = height.toNat + 1 := by
  have hlt := UInt32.lt_iff_toNat_lt.1 h
  have hstop := stop.toNat_lt
  rw [UInt32.toNat_add, UInt32.toNat_one, Nat.mod_eq_of_lt (by omega)]

/-- The hashes that are found one at a time, from one height up to, but without, another, and only as
    long as there is one. -/
def hashesFrom (s : ChainStore) (height stop : UInt32) : List BlockHash :=
  if height < stop then
    match s.hashAt height with
    | .ok hash => hash :: s.hashesFrom (height + 1) stop
    | .error _ => []
  else []
termination_by stop.toNat - height.toNat
decreasing_by
  have hlt : height < stop := ‹height < stop›
  rw [toNat_succ_of_lt hlt]
  exact Nat.sub_succ_lt_self _ _ (UInt32.lt_iff_toNat_lt.1 hlt)

variable {s : ChainStore}

/-! ## The slice -/

theorem clamp?_of_le {low high : Nat} (h : low ≤ high) (n : Nat) :
    clamp? low high n = some (max low (min n high)) := if_pos h

theorem slice?_of_le {α : Type} {xs : Array α} {first last : Nat} (hfirst : first ≤ last)
    (hlast : last ≤ xs.size) :
    slice? xs first last = some ((xs.toList.drop first).take (last - first)) := by
  unfold slice?
  rw [if_pos ⟨hfirst, hlast⟩, Array.toList_extract, List.extract_eq_take_drop]

/-- Moving both ends into a list does not change what is between them. -/
theorem take_drop_clamped {α : Type} (xs : List α) (start stop : Nat) :
    (xs.drop (min start xs.length)).take
        (max (min start xs.length) (min stop xs.length) - min start xs.length) =
      (xs.drop start).take (stop - start) := by
  by_cases hstart : start ≤ xs.length
  · rw [Nat.min_eq_left hstart]
    by_cases hstop : stop ≤ xs.length
    · rw [Nat.min_eq_left hstop]
      congr 1
      omega
    · have hall : (xs.drop start).length ≤ stop - start := by
        rw [List.length_drop]
        omega
      have hclamped : max start (min stop xs.length) - start = (xs.drop start).length := by
        rw [List.length_drop]
        omega
      rw [List.take_of_length_le hall, hclamped, List.take_length]
  · have hover : xs.length ≤ start := by omega
    rw [Nat.min_eq_right hover, List.drop_length, List.drop_of_length_le hover, List.take_nil,
      List.take_nil]

/-- **The slice** is always in range. -/
theorem range?_eq (s : ChainStore) (start stop : UInt32) :
    s.range? start stop =
      some ((s.hashes.toList.drop start.toNat).take (stop.toNat - start.toNat)) := by
  have hstart : min start.toNat s.hashes.size ≤ s.hashes.size := Nat.min_le_right _ _
  have hlast : max (min start.toNat s.hashes.size) (min stop.toNat s.hashes.size) ≤
      s.hashes.size :=
    Nat.max_le.2 ⟨hstart, Nat.min_le_right _ _⟩
  have hclamped := take_drop_clamped s.hashes.toList start.toNat stop.toNat
  rw [Array.length_toList] at hclamped
  unfold range?
  dsimp only
  rw [clamp?_of_le hstart]
  change slice? _ _ _ = _
  rw [slice?_of_le (Nat.le_max_left _ _) hlast, hclamped]

theorem range_eq (s : ChainStore) (start stop : UInt32) :
    s.range start stop =
      (s.hashes.toList.drop start.toNat).take (stop.toNat - start.toNat) := by
  unfold range
  rw [range?_eq]
  rfl

/-! ## Single lookups -/

theorem hashAt_ok_iff {height : UInt32} {hash : BlockHash} :
    s.hashAt height = .ok hash ↔ s.hashes.toList[height.toNat]? = some hash := by
  unfold hashAt
  rw [Array.getElem?_toList]
  rcases s.hashes[height.toNat]? with _ | found
  · exact iff_of_false (fun h => nomatch h) fun h => nomatch h
  · rw [Except.ok.injEq, Option.some.injEq]

theorem length_le_of_hashAt_error {height : UInt32} {e : ChainError}
    (h : s.hashAt height = .error e) : s.hashes.toList.length ≤ height.toNat := by
  rw [← List.getElem?_eq_none_iff, Option.eq_none_iff_forall_ne_some]
  intro hash hfound
  rw [hashAt_ok_iff.2 hfound] at h
  cases h

/-- The hashes found one at a time are those of the slice. -/
theorem hashesFrom_eq (s : ChainStore) (height stop : UInt32) :
    s.hashesFrom height stop =
      (s.hashes.toList.drop height.toNat).take (stop.toNat - height.toNat) := by
  fun_induction hashesFrom s height stop with
  | case1 height hlt hash hfound ih =>
    obtain ⟨hbound, hget⟩ := List.getElem?_eq_some_iff.1 (hashAt_ok_iff.1 hfound)
    have hcount : stop.toNat - height.toNat = stop.toNat - (height.toNat + 1) + 1 := by
      have hstop := UInt32.lt_iff_toNat_lt.1 hlt
      omega
    rw [ih, toNat_succ_of_lt hlt, List.drop_eq_getElem_cons hbound, hget, hcount,
      List.take_succ_cons]
  | case2 height hlt e hmissing =>
    rw [List.drop_of_length_le (length_le_of_hashAt_error hmissing), List.take_nil]
  | case3 height hge =>
    rw [Nat.sub_eq_zero_of_le (UInt32.le_iff_toNat_le.1 (UInt32.not_lt.1 hge)), List.take_zero]

/-- In a consistent store the heights of hashes found one at a time count up. -/
theorem Consistent.heights_hashesFrom (h : Consistent s) (height stop : UInt32) :
    (s.hashesFrom height stop).map (fun hash => (s.height hash).map UInt32.toNat) =
      (List.range' height.toNat (s.hashesFrom height stop).length).map .ok := by
  fun_induction hashesFrom s height stop with
  | case1 height hlt hash hfound ih =>
    have hheight : s.height hash = .ok height := by
      have hget := hashAt_ok_iff.1 hfound
      rw [Array.getElem?_toList] at hget
      unfold ChainStore.height
      rw [h.height height.toNat hash hget, UInt32.ofNat_toNat]
    rw [toNat_succ_of_lt hlt] at ih
    rw [List.map_cons, List.length_cons, List.range'_succ, List.map_cons, hheight, ih]
    rfl
  | case2 => rfl
  | case3 => rfl

/-- **Ranges and single lookups.** Whatever calls a store has answered, and whatever the two heights are:
    the slice that is cut out for a range is in range, and the range holds the hashes that lookups find
    one at a time, as long as there is a block. Looking up their heights counts up from the first one. -/
theorem range_lookups (calls : List Call) (start stop : UInt32) :
    (afterCalls calls).range? start stop = some ((afterCalls calls).range start stop) ∧
      (afterCalls calls).range start stop = (afterCalls calls).hashesFrom start stop ∧
      ((afterCalls calls).range start stop).map
          (fun hash => ((afterCalls calls).height hash).map UInt32.toNat) =
        (List.range' start.toNat ((afterCalls calls).range start stop).length).map .ok := by
  have hlookups : (afterCalls calls).range start stop = (afterCalls calls).hashesFrom start stop := by
    rw [range_eq, hashesFrom_eq]
  have hs := consistent_afterCalls calls
  refine ⟨?_, hlookups, ?_⟩
  · rw [range_eq, range?_eq]
  · rw [hlookups]
    exact hs.heights_hashesFrom start stop

end ChainStore

end SpendScript

/-
  Stack operations as equations between blocks of items. The operations that move or copy whole blocks
  of `n` items, and those that reach for one item below the top, are told by what they make of a stack
  listed from the bottom up (`StackM.moves_blocks`). Where both kinds do the same they are one action,
  errors included. Each of them fails just on the stacks that are too shallow for it, or on a negative
  index, and leaves them as they are (`Needs`, `NeedsAt`). Where a count or an index has no room in a
  word there is no such failure: the call with the largest index is broken off (`nip_lastIndex`).
-/
import SpendScript.Stack

namespace SpendScript

/-- The stack of some items, from the bottom to the top. -/
def Stack.ofItems (items : List Bytes) : Stack := items.reverse

@[simp] theorem Stack.ofItems_append (xs ys : List Bytes) :
    Stack.ofItems (xs ++ ys) = ys.reverse ++ Stack.ofItems xs := List.reverse_append

namespace StackM

variable {α : Type} {n : Nat} {k : UInt64} {i : Int64} {s : Stack} {a b c ys : List Bytes} {x : Bytes}

/-! ## Failures -/

/-- The action fails just where there are fewer than `n` items, and leaves them. -/
def Needs (n : Nat) (f : StackM α) : Prop :=
  ∀ s e s', f s = .error e s' ↔ (s.length < n ∧ e = .tooShallow n s.length) ∧ s' = s

/-- The action fails just where the index is negative or there is no item so far below the top, and
    leaves the items. -/
def NeedsAt (i : Int64) (f : StackM α) : Prop :=
  ∀ s e s', f s = .error e s' ↔
    ((i < 0 ∧ e = .negativeIndex i.toInt) ∨
      (0 ≤ i ∧ s.length ≤ i.toInt.toNat ∧ e = .tooShallow (i.toInt.toNat + 1) s.length)) ∧ s' = s

/-- An action that goes through just where there are enough items. -/
theorem needs_of_cases {f : StackM α}
    (herror : ∀ s, s.length < n → f s = .error (.tooShallow n s.length) s)
    (hok : ∀ s, n ≤ s.length → ∃ r s', f s = .ok r s') : Needs n f := by
  intro s e s'
  rcases Nat.lt_or_ge s.length n with hn | hn
  · rw [herror s hn, EStateM.Result.error.injEq]
    constructor
    · rintro ⟨rfl, rfl⟩
      exact ⟨⟨hn, rfl⟩, rfl⟩
    · rintro ⟨⟨-, rfl⟩, rfl⟩
      exact ⟨rfl, rfl⟩
  · obtain ⟨r, t, hr⟩ := hok s hn
    rw [hr]
    constructor
    · intro h
      cases h
    · rintro ⟨⟨hlt, -⟩, -⟩
      omega

/-- An action at an index that goes on with the place it stands for. -/
theorem needsAt_of_needs {f : StackM α} {g : UInt64 → StackM α}
    (hnegative : i < 0 → ∀ s, f s = .error (.negativeIndex i.toInt) s)
    (hplace : 0 ≤ i → f = g i.toUInt64)
    (hg : 0 ≤ i → Needs (i.toInt.toNat + 1) (g i.toUInt64)) : NeedsAt i f := by
  intro s e s'
  by_cases hi : i < 0
  · have hneg : ¬ 0 ≤ i := Int64.not_le.2 hi
    rw [hnegative hi s, EStateM.Result.error.injEq]
    constructor
    · rintro ⟨rfl, rfl⟩
      exact ⟨Or.inl ⟨hi, rfl⟩, rfl⟩
    · rintro ⟨⟨-, rfl⟩ | ⟨hle, -⟩, rfl⟩
      · exact ⟨rfl, rfl⟩
      · exact absurd hle hneg
  · have hnonneg : 0 ≤ i := Int64.not_lt.1 hi
    rw [hplace hnonneg, hg hnonneg s e s', Nat.lt_succ_iff]
    constructor
    · rintro ⟨⟨hn, he⟩, hs⟩
      exact ⟨Or.inr ⟨hnonneg, hn, he⟩, hs⟩
    · rintro ⟨⟨hlt, -⟩ | ⟨-, hn, he⟩, hs⟩
      · exact absurd hlt hi
      · exact ⟨⟨hn, he⟩, hs⟩

/-! ## Rearrangements -/

theorem rearrange_of_le {f : Stack → Stack} (h : n ≤ s.length) :
    rearrange n f s = .ok () (f s) := by
  have hrequire : require n s = .ok () s := if_neg (Nat.not_lt_of_le h)
  simp only [rearrange, bind, EStateM.bind, hrequire]
  rfl

theorem rearrange_of_lt {f : Stack → Stack} (h : s.length < n) :
    rearrange n f s = .error (.tooShallow n s.length) s := by
  have hrequire : require n s = .error (.tooShallow n s.length) s := if_pos h
  simp only [rearrange, bind, EStateM.bind, hrequire]

theorem needs_rearrange (n : Nat) (f : Stack → Stack) : Needs n (rearrange n f) :=
  needs_of_cases (fun _ h => rearrange_of_lt h) fun s h => ⟨(), f s, rearrange_of_le h⟩

theorem drop_append (ha : a.length = n) : drop n (a ++ s) = .ok () s := by
  refine (rearrange_of_le (by rw [List.length_append]; omega)).trans ?_
  rw [List.drop_left' ha]

theorem dup_append (ha : a.length = n) : dup n (a ++ s) = .ok () (a ++ (a ++ s)) := by
  refine (rearrange_of_le (by rw [List.length_append]; omega)).trans ?_
  rw [List.take_left' ha]

section Blocks

variable (ha : a.length = n) (hb : b.length = n)

include ha hb

/-- What lies below the two topmost blocks. -/
theorem drop_two (s : Stack) : (b ++ (a ++ s)).drop (2 * n) = s := by
  rw [← List.append_assoc, List.drop_left' (by rw [List.length_append]; omega)]

theorem copyOver_append :
    copyOver n (b ++ (a ++ s)) = .ok () (a ++ (b ++ (a ++ s))) := by
  refine (rearrange_of_le (by simp only [List.length_append]; omega)).trans ?_
  rw [List.drop_left' hb, List.take_left' ha]

theorem swap_append : swap n (b ++ (a ++ s)) = .ok () (a ++ (b ++ s)) := by
  refine (rearrange_of_le (by simp only [List.length_append]; omega)).trans ?_
  rw [List.drop_left' hb, List.take_left' ha, List.take_left' hb, drop_two ha hb]

theorem rot_append (hc : c.length = n) :
    rot n (c ++ (b ++ (a ++ s))) = .ok () (a ++ (c ++ (b ++ s))) := by
  have htwo : (c ++ (b ++ (a ++ s))).take (2 * n) = c ++ b := by
    rw [← List.append_assoc, List.take_left' (by rw [List.length_append]; omega)]
  have hthree : (c ++ (b ++ (a ++ s))).drop (3 * n) = s := by
    rw [show 3 * n = n + 2 * n by omega, ← List.drop_drop, List.drop_left' hc, drop_two ha hb]
  refine (rearrange_of_le (by simp only [List.length_append]; omega)).trans ?_
  rw [drop_two hb hc, List.take_left' ha, htwo, hthree, List.append_assoc]

end Blocks

/-! ## Indices -/

/-- An index with a successor. -/
theorem succ_ne_zero (h : k.toNat + 1 < UInt64.size) : k + 1 ≠ 0 := by
  intro hzero
  have hsucc : (k + 1).toNat = k.toNat + 1 := by
    rw [UInt64.toNat_add, UInt64.toNat_one, Nat.mod_eq_of_lt h]
  rw [hzero] at hsucc
  exact Nat.succ_ne_zero _ hsucc.symm

theorem toNat_toUInt64 (h : 0 ≤ i) : i.toUInt64.toNat = i.toInt.toNat :=
  Int64.toNat_toUInt64_of_le h

/-- A signed index always has a successor. -/
theorem toNat_toUInt64_succ_lt (h : 0 ≤ i) : i.toUInt64.toNat + 1 < UInt64.size := by
  have hlt := i.toNatClampNeg_lt
  have hsize : UInt64.size = 18446744073709551616 := rfl
  rw [Int64.toNat_toUInt64_of_le h]
  omega

theorem index_of_nonneg (h : 0 ≤ i) : index i = pure i.toUInt64 :=
  funext fun _ => if_neg (Int64.not_lt.2 h)

theorem index_of_neg (h : i < 0) (s : Stack) : index i s = .error (.negativeIndex i.toInt) s :=
  if_pos h

/-! ## Single items -/

theorem item_of_succ (hk : k.toNat + 1 < UInt64.size) (s : Stack) :
    item k s =
      match s[k.toNat]? with
      | some x => .ok x s
      | none => .error (.tooShallow (k.toNat + 1) s.length) s :=
  if_neg (succ_ne_zero hk)

/-- What comes after reading an item does not fail. -/
theorem needs_item_bind {f : Bytes → StackM α} (hk : k.toNat + 1 < UInt64.size)
    (hf : ∀ x s, ∃ r s', f x s = .ok r s') : Needs (k.toNat + 1) (item k >>= f) := by
  refine needs_of_cases (fun s h => ?_) fun s h => ?_
  · have hitem : item k s = .error (.tooShallow (k.toNat + 1) s.length) s := by
      rw [item_of_succ hk, List.getElem?_eq_none (Nat.le_of_lt_succ h)]
    simp only [bind, EStateM.bind, hitem]
  · have hitem : item k s = .ok s[k.toNat] s := by
      rw [item_of_succ hk, List.getElem?_eq_getElem h]
    simp only [bind, EStateM.bind, hitem]
    exact hf _ s

theorem needs_nip (hk : k.toNat + 1 < UInt64.size) : Needs (k.toNat + 1) (nip k) :=
  needs_item_bind hk fun x s => ⟨x, s.eraseIdx k.toNat, rfl⟩

theorem pick_of_nonneg (h : 0 ≤ i) : pick i = item i.toUInt64 >>= push := by
  rw [pick, index_of_nonneg h, pure_bind]

theorem roll_of_nonneg (h : 0 ≤ i) : roll i = nip i.toUInt64 >>= push := by
  rw [roll, index_of_nonneg h, pure_bind]

theorem needsAt_pick (i : Int64) : NeedsAt i (pick i) := by
  refine needsAt_of_needs (g := fun k => item k >>= push) (fun hi s => ?_) pick_of_nonneg fun hi => ?_
  · simp only [pick, bind, EStateM.bind, index_of_neg hi]
  · rw [← toNat_toUInt64 hi]
    exact needs_item_bind (toNat_toUInt64_succ_lt hi) fun x s => ⟨(), x :: s, rfl⟩

theorem needsAt_roll (i : Int64) : NeedsAt i (roll i) := by
  refine needsAt_of_needs (g := fun k => nip k >>= push) (fun hi s => ?_) roll_of_nonneg fun hi => ?_
  · simp only [roll, bind, EStateM.bind, index_of_neg hi]
  · rw [← toNat_toUInt64 hi, nip, bind_assoc]
    exact needs_item_bind (toNat_toUInt64_succ_lt hi) fun x s => ⟨(), x :: s.eraseIdx _, rfl⟩

theorem item_append (hk : k.toNat + 1 < UInt64.size) (hy : ys.length = k.toNat) :
    item k (ys ++ x :: s) = .ok x (ys ++ x :: s) := by
  rw [item_of_succ hk, ← hy, List.getElem?_append_right (Nat.le_refl _), Nat.sub_self]
  rfl

theorem nip_append (hk : k.toNat + 1 < UInt64.size) (hy : ys.length = k.toNat) :
    nip k (ys ++ x :: s) = .ok x (ys ++ s) := by
  have herase : (ys ++ x :: s).eraseIdx k.toNat = ys ++ s := by
    rw [← hy, List.eraseIdx_append_of_length_le (Nat.le_refl _), Nat.sub_self]
    rfl
  simp only [nip, bind, EStateM.bind, item_append hk hy]
  change EStateM.Result.ok x ((ys ++ x :: s).eraseIdx k.toNat) = _
  rw [herase]

section Signed

variable (hy : (ys.length : Int) = i.toInt)

include hy

theorem nonneg_of_length : 0 ≤ i := by
  rw [Int64.le_iff_toInt_le, ← hy]
  exact Int.natCast_nonneg _

theorem length_eq_toNat : ys.length = i.toUInt64.toNat := by
  rw [toNat_toUInt64 (nonneg_of_length hy), ← hy, Int.toNat_natCast]

theorem pick_append : pick i (ys ++ x :: s) = .ok () (x :: (ys ++ x :: s)) := by
  have hi := nonneg_of_length hy
  rw [pick_of_nonneg hi]
  simp only [bind, EStateM.bind, item_append (toNat_toUInt64_succ_lt hi) (length_eq_toNat hy)]
  rfl

theorem roll_append : roll i (ys ++ x :: s) = .ok () (x :: (ys ++ s)) := by
  have hi := nonneg_of_length hy
  rw [roll_of_nonneg hi]
  simp only [bind, EStateM.bind, nip_append (toNat_toUInt64_succ_lt hi) (length_eq_toNat hy)]
  rfl

end Signed

/-! ## Equal actions -/

theorem rot_one : rot 1 = roll 2 := by
  funext s
  rcases s with _ | ⟨c, _ | ⟨b, _ | ⟨a, s⟩⟩⟩ <;> rfl

theorem swap_one : swap 1 = roll 1 := by
  funext s
  rcases s with _ | ⟨b, _ | ⟨a, s⟩⟩ <;> rfl

theorem copyOver_one : copyOver 1 = pick 1 := by
  funext s
  rcases s with _ | ⟨b, _ | ⟨a, s⟩⟩ <;> rfl

theorem dup_one : dup 1 = pick 0 := by
  funext s
  rcases s with _ | ⟨a, s⟩ <;> rfl

theorem tuck_eq : tuck = (do swap 1; copyOver 1) := by
  funext s
  rcases s with _ | ⟨b, _ | ⟨a, s⟩⟩ <;> rfl

/-! ## All of them -/

open Stack (ofItems)

/-- **Stack operations move blocks.** Listed from the bottom up, a stack that ends in blocks of `n`
    items has the topmost block removed or copied, the second one copied to the top, the third one moved
    there, or the two topmost ones exchanged. An item with `k` others above it is removed, copied or moved
    to the top, and the top item is copied below the second one. On single items both kinds of operation
    are the same actions. Each fails just where the stack is too shallow for it, or the index negative,
    and then leaves the stack as it was; the numbers it compares with the depth of the stack have to be
    words for that. -/
theorem moves_blocks :
    (∀ (n : Nat) (xs a b c : List Bytes), a.length = n → b.length = n → c.length = n →
      drop n (ofItems (xs ++ a)) = .ok () (ofItems xs) ∧
      dup n (ofItems (xs ++ a)) = .ok () (ofItems (xs ++ a ++ a)) ∧
      copyOver n (ofItems (xs ++ a ++ b)) = .ok () (ofItems (xs ++ a ++ b ++ a)) ∧
      rot n (ofItems (xs ++ a ++ b ++ c)) = .ok () (ofItems (xs ++ b ++ c ++ a)) ∧
      swap n (ofItems (xs ++ a ++ b)) = .ok () (ofItems (xs ++ b ++ a))) ∧
    (∀ (k : UInt64) (xs ys : List Bytes) (x : Bytes), k.toNat + 1 < UInt64.size →
      ys.length = k.toNat →
      nip k (ofItems (xs ++ [x] ++ ys)) = .ok x (ofItems (xs ++ ys))) ∧
    (∀ (i : Int64) (xs ys : List Bytes) (x : Bytes), (ys.length : Int) = i.toInt →
      pick i (ofItems (xs ++ [x] ++ ys)) = .ok () (ofItems (xs ++ [x] ++ ys ++ [x])) ∧
      roll i (ofItems (xs ++ [x] ++ ys)) = .ok () (ofItems (xs ++ ys ++ [x]))) ∧
    (∀ (xs : List Bytes) (x y : Bytes),
      tuck (ofItems (xs ++ [x, y])) = .ok () (ofItems (xs ++ [y, x, y]))) ∧
    (rot 1 = roll 2 ∧ swap 1 = roll 1 ∧ copyOver 1 = pick 1 ∧ dup 1 = pick 0 ∧
      tuck = (do swap 1; copyOver 1)) ∧
    (∀ n, Needs n (drop n) ∧ Needs n (dup n)) ∧
    (∀ n, 2 * n < UInt64.size → Needs (2 * n) (copyOver n) ∧ Needs (2 * n) (swap n)) ∧
    (∀ n, 3 * n < UInt64.size → Needs (3 * n) (rot n)) ∧
    (∀ k : UInt64, k.toNat + 1 < UInt64.size → Needs (k.toNat + 1) (nip k)) ∧
    (∀ i, NeedsAt i (pick i) ∧ NeedsAt i (roll i)) ∧ Needs 2 tuck := by
  refine ⟨fun n xs a b c ha hb hc => ?_, fun k xs ys x hk hy => ?_, fun i xs ys x hy => ?_,
    fun xs x y => ?_, ?_, fun n => ⟨needs_rearrange n _, needs_rearrange n _⟩,
    fun n _ => ⟨needs_rearrange (2 * n) _, needs_rearrange (2 * n) _⟩,
    fun n _ => needs_rearrange (3 * n) _, fun k => needs_nip,
    fun i => ⟨needsAt_pick i, needsAt_roll i⟩, needs_rearrange 2 _⟩
  · rw [← List.length_reverse] at ha hb hc
    simp only [Stack.ofItems_append]
    exact ⟨drop_append ha, dup_append ha, copyOver_append ha hb, rot_append ha hb hc,
      swap_append ha hb⟩
  · rw [← List.length_reverse] at hy
    simp only [Stack.ofItems_append, List.reverse_singleton, List.singleton_append]
    exact nip_append hk hy
  · rw [← List.length_reverse] at hy
    simp only [Stack.ofItems_append, List.reverse_singleton, List.singleton_append]
    exact ⟨pick_append hy, roll_append hy⟩
  · simp only [Stack.ofItems_append]
    rfl
  · exact ⟨rot_one, swap_one, copyOver_one, dup_one, tuck_eq⟩

/-- Six items as three blocks of two, and as one item with three others above it. -/
theorem moves_blocks_sixItems :
    rot 2 (ofItems [[1], [2], [3], [4], [5], [6]]) =
      .ok () (ofItems [[3], [4], [5], [6], [1], [2]]) ∧
    nip 3 (ofItems [[1], [2], [3], [4], [5], [6]]) =
      .ok [3] (ofItems [[1], [2], [4], [5], [6]]) ∧
    roll 3 (ofItems [[1], [2], [3], [4], [5], [6]]) =
      .ok () (ofItems [[1], [2], [4], [5], [6], [3]]) ∧
    (∃ s', rot 3 (ofItems [[1], [2], [3], [4], [5], [6]]) = .error (.tooShallow 9 6) s' ∧
      s' = ofItems [[1], [2], [3], [4], [5], [6]]) ∧
    ∃ s', nip 18446744073709551614 (ofItems [[1], [2], [3], [4], [5], [6]]) =
      .error (.tooShallow 18446744073709551615 6) s' ∧
      s' = ofItems [[1], [2], [3], [4], [5], [6]] := by
  obtain ⟨hblocks, hnip, hsigned, -, -, -, -, hshallow, hshallowNip, -⟩ := moves_blocks
  obtain ⟨-, -, -, hrot, -⟩ := hblocks 2 [] [[1], [2]] [[3], [4]] [[5], [6]] rfl rfl rfl
  obtain ⟨-, hroll⟩ := hsigned 3 [[1], [2]] [[4], [5], [6]] [3] rfl
  refine ⟨hrot, hnip 3 [[1], [2]] [[4], [5], [6]] [3] (by decide) rfl, hroll, ?_, ?_⟩
  · exact ⟨_, (hshallow 3 (by decide) _ _ _).2 ⟨⟨by decide, rfl⟩, rfl⟩, rfl⟩
  · exact ⟨_, (hshallowNip 18446744073709551614 (by decide) _ _ _).2 ⟨⟨by decide, rfl⟩, rfl⟩, rfl⟩

/-- With the largest index no item can be found, but the call is not refused for that: the items down to
    the index are more than a word can count, and the call is broken off. -/
theorem nip_lastIndex :
    ([] : Stack).length < (18446744073709551615 : UInt64).toNat + 1 ∧
      nip 18446744073709551615 [] = .error .indexOverflow [] ∧
      ¬ Needs ((18446744073709551615 : UInt64).toNat + 1) (nip 18446744073709551615) := by
  have hnip : nip 18446744073709551615 [] = .error .indexOverflow [] := rfl
  refine ⟨by decide, hnip, fun hneeds => ?_⟩
  cases ((hneeds [] _ _).1 hnip).1.2

end StackM

end SpendScript

/-
  Stack operations work on the top of the stack. What an operation does without failing, it does
  in the same way when there are further items below (`Lifts`); a number that is read with the
  shortest form required is also read without that requirement.
-/
import SpendScript.Stack

namespace SpendScript

namespace StackM

variable {α β : Type}

/-- What `f` does without failing, `g` does with further items below. -/
def Lifts (f g : StackM α) : Prop :=
  ∀ s a s' below, f s = .ok a s' → g (s ++ below) = .ok a (s' ++ below)

theorem Lifts.pure (a : α) : Lifts (pure a) (pure a) := by
  intro s b s' below h
  cases h
  rfl

theorem Lifts.bind {f g : StackM α} {k l : α → StackM β} (h : Lifts f g)
    (hk : ∀ a, Lifts (k a) (l a)) : Lifts (f >>= k) (g >>= l) := by
  intro s b s' below hb
  simp only [Bind.bind, EStateM.bind] at hb ⊢
  cases hf : f s with
  | error e t => rw [hf] at hb; cases hb
  | ok a t =>
    rw [hf] at hb
    rw [h s a t below hf]
    exact hk a t b s' below hb

theorem Lifts.push (item : Bytes) : Lifts (push item) (push item) := by
  intro s a s' below h
  cases h
  rfl

theorem Lifts.pop : Lifts pop pop := by
  intro s a s' below h
  cases s with
  | nil => cases h
  | cons item s => cases h; rfl

theorem Lifts.require (n : Nat) : Lifts (require n) (require n) := by
  intro s a s' below h
  unfold StackM.require at h ⊢
  split at h
  · cases h
  · next hn =>
    cases h
    have hn' : ¬ (s ++ below).length < n := by
      rw [List.length_append]
      omega
    rw [if_neg hn']

/-- A rearrangement of the top `n` items. -/
theorem Lifts.rearrange (n : Nat) (f : Stack → Stack)
    (hf : ∀ s below, n ≤ s.length → f (s ++ below) = f s ++ below) :
    Lifts (rearrange n f) (rearrange n f) := by
  intro s a s' below h
  by_cases hn : s.length < n
  · simp [StackM.rearrange, StackM.require, Bind.bind, EStateM.bind, hn] at h
  · have hn' : ¬ (s ++ below).length < n := by
      rw [List.length_append]
      omega
    simp only [StackM.rearrange, StackM.require, Bind.bind, EStateM.bind, if_neg hn] at h
    simp only [StackM.rearrange, StackM.require, Bind.bind, EStateM.bind, if_neg hn']
    cases h
    change EStateM.Result.ok () (f (s ++ below)) = .ok () (f s ++ below)
    rw [hf s below (Nat.le_of_not_lt hn)]

theorem Lifts.drop (n : Nat) : Lifts (drop n) (drop n) :=
  Lifts.rearrange n _ fun _ _ h => List.drop_append_of_le_length h

theorem Lifts.dup (n : Nat) : Lifts (dup n) (dup n) :=
  Lifts.rearrange n _ fun s below h => by
    rw [List.take_append_of_le_length h, List.append_assoc]

theorem Lifts.copyOver (n : Nat) : Lifts (copyOver n) (copyOver n) :=
  Lifts.rearrange (2 * n) _ fun s below h => by
    have hd : n ≤ (s.drop n).length := by
      rw [List.length_drop]
      omega
    rw [List.drop_append_of_le_length (by omega), List.take_append_of_le_length hd,
      List.append_assoc]

theorem Lifts.rot (n : Nat) : Lifts (rot n) (rot n) :=
  Lifts.rearrange (3 * n) _ fun s below h => by
    have hd : n ≤ (s.drop (2 * n)).length := by
      rw [List.length_drop]
      omega
    rw [List.drop_append_of_le_length (by omega), List.take_append_of_le_length hd,
      List.take_append_of_le_length (by omega), List.drop_append_of_le_length h,
      List.append_assoc, List.append_assoc]

theorem Lifts.swap (n : Nat) : Lifts (swap n) (swap n) :=
  Lifts.rearrange (2 * n) _ fun s below h => by
    have hd : n ≤ (s.drop n).length := by
      rw [List.length_drop]
      omega
    rw [List.drop_append_of_le_length (by omega), List.take_append_of_le_length hd,
      List.take_append_of_le_length (by omega), List.drop_append_of_le_length h,
      List.append_assoc, List.append_assoc]

theorem Lifts.tuck : Lifts tuck tuck :=
  Lifts.rearrange 2 _ fun s below h => by
    rw [List.take_append_of_le_length h, List.take_append_of_le_length (by omega),
      List.drop_append_of_le_length h, List.append_assoc, List.append_assoc]

theorem Lifts.item (i : UInt64) : Lifts (item i) (item i) := by
  intro s x s' below h
  obtain ⟨hi, hx, rfl⟩ := item_ok.1 h
  have hlt : i.toNat < s'.length := (List.getElem?_eq_some_iff.1 hx).1
  exact item_ok.2 ⟨hi, (List.getElem?_append_left hlt).trans hx, rfl⟩

theorem Lifts.peek (i : UInt64) : Lifts (peek i) (peek i) := by
  intro s a s' below h
  cases s with
  | nil => cases h
  | cons x s => exact Lifts.item i (x :: s) a s' below h

theorem Lifts.index (i : Int64) : Lifts (index i) (index i) := by
  intro s a s' below h
  unfold StackM.index at h ⊢
  split at h
  · cases h
  · next hi =>
    cases h
    rw [if_neg hi]

theorem Lifts.nip (i : UInt64) : Lifts (nip i) (nip i) := by
  intro s a s' below h
  simp only [StackM.nip, Bind.bind, EStateM.bind] at h ⊢
  cases hx : StackM.item i s with
  | error e t => rw [hx] at h; cases h
  | ok x t =>
    rw [hx] at h
    rw [Lifts.item i s x t below hx]
    obtain ⟨-, hs, rfl⟩ := item_ok.1 hx
    cases h
    have hi : i.toNat < t.length := (List.getElem?_eq_some_iff.1 hs).1
    change EStateM.Result.ok a ((t ++ below).eraseIdx i.toNat) =
      .ok a (t.eraseIdx i.toNat ++ below)
    rw [List.eraseIdx_append_of_lt_length hi]

theorem Lifts.pick (i : Int64) : Lifts (pick i) (pick i) :=
  (Lifts.index i).bind fun n => (Lifts.item n).bind fun x => Lifts.push x

theorem Lifts.roll (i : Int64) : Lifts (roll i) (roll i) :=
  (Lifts.index i).bind fun n => (Lifts.nip n).bind fun x => Lifts.push x

theorem Lifts.popTruth : Lifts popTruth popTruth :=
  Lifts.pop.bind fun item => Lifts.pure (truth item)

theorem Lifts.peekTruth : Lifts peekTruth peekTruth :=
  (Lifts.peek 0).bind fun x => Lifts.pure (truth x)

/-! ## Numbers -/

/-- Less is asked of a number when it need not have its shortest form. -/
theorem decode_of_minimal {bs : Bytes} {minimal minimal' : Bool} {max : Nat} {n : Int}
    (hm : minimal' = true → minimal = true) (h : Number.decode bs minimal max = .ok n) :
    Number.decode bs minimal' max = .ok n := by
  unfold Number.decode at h ⊢
  split at h
  · cases h
  · next hl =>
    rw [if_neg hl]
    split at h
    · cases h
    · next hb =>
      have hb' : ¬ (minimal' && !Number.isMinimal bs) = true := by
        intro hc
        rw [Bool.and_eq_true] at hc
        exact hb (by rw [hm hc.1, hc.2]; rfl)
      rw [if_neg hb', h]

theorem Lifts.readNumber {minimal minimal' : Bool} (hm : minimal' = true → minimal = true)
    (max : Nat) (item : Bytes) :
    Lifts (readNumber minimal max item) (readNumber minimal' max item) := by
  intro s a s' below h
  unfold StackM.readNumber at h ⊢
  cases hd : Number.decode item minimal max with
  | error e => rw [hd] at h; cases h
  | ok n =>
    rw [hd] at h
    cases h
    rw [decode_of_minimal hm hd]

theorem Lifts.popNumber {minimal minimal' : Bool} (hm : minimal' = true → minimal = true) :
    Lifts (popNumber minimal) (popNumber minimal') :=
  Lifts.pop.bind fun item => Lifts.readNumber hm _ item

theorem Lifts.peekNumber {minimal minimal' : Bool} (hm : minimal' = true → minimal = true)
    (max : Nat) : Lifts (peekNumber minimal max) (peekNumber minimal' max) :=
  (Lifts.peek 0).bind fun x => Lifts.readNumber hm max x

/-- Reading the number on top takes nothing off. -/
theorem peekNumber_ok {minimal : Bool} {max : Nat} {s s' : Stack} {n : Int}
    (h : peekNumber minimal max s = .ok n s') :
    s' = s ∧ ∃ x rest, s = x :: rest ∧ Number.decode x minimal max = .ok n := by
  cases s with
  | nil => cases h
  | cons x rest =>
    change StackM.readNumber minimal max x (x :: rest) = .ok n s' at h
    unfold StackM.readNumber at h
    cases hd : Number.decode x minimal max with
    | error e => rw [hd] at h; cases h
    | ok k =>
      rw [hd] at h
      cases h
      exact ⟨rfl, x, rest, rfl, hd⟩

end StackM

end SpendScript

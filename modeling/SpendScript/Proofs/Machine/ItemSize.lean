/-
  How long the items on the stacks get. Only a push of data is checked against the bound on elements
  (`Instruction.checkLimits`). All other instructions keep the bound by what they put there: items that
  were on a stack before (`StackM.bounded_of_subset`), numbers of at most nine bytes, digests and truth
  values. So every instruction keeps it, whether it succeeds or fails (`Instruction.bounded_step`), and
  what digests and signature checks work on is within it (`Operation.WorksOn`).
-/
import SpendScript.Proofs.Machine.Arithmetic
import SpendScript.Proofs.Machine.MultiSig
import SpendScript.Proofs.Machine.StackSize
import SpendScript.Proofs.Opcode

namespace SpendScript

variable {σ α : Type} {ctx : Context σ} {offset : Nat} {i : Instruction} {m : Machine σ}

/-- No item is longer than an element may be. -/
def Stack.Bounded (s : Stack) : Prop := ∀ x ∈ s, x.length ≤ Limit.elementSize

/-- The items of both stacks are within the bound. -/
structure Machine.Bounded (m : Machine σ) : Prop where
  stack : m.stack.Bounded
  alt : m.alt.Bounded

/-! ## What is put on a stack -/

/-- The numbers of a signed 64-bit word have a magnitude of at most 2⁶³. -/
def Number.FitsWord (n : Int) : Prop := n.natAbs ≤ 9223372036854775808

theorem Number.fitsWord_of_le {n : Int} {k : Nat} (h : n.natAbs ≤ k)
    (hk : k ≤ 9223372036854775808) : FitsWord n := Nat.le_trans h hk

theorem Number.fitsWord_wrap (n : Int) : FitsWord (wrap n) := by
  have hlow := Int.le_bmod (x := n) (m := 18446744073709551616) (by decide)
  have hhigh := Int.bmod_lt (x := n) (m := 18446744073709551616) (by decide)
  unfold FitsWord wrap
  omega

/-- Such a number takes at most nine bytes. -/
theorem Number.length_encode_le_of_fitsWord {n : Int} (h : FitsWord n) : (encode n).length ≤ 9 :=
  length_encode_le_of_natAbs (Nat.lt_of_le_of_lt h (by decide))

theorem length_ofTruth_le (b : Bool) : (ofTruth b).length ≤ Limit.elementSize := by
  cases b <;> decide

theorem HashOp.length_apply_le (f : HashOp) (x : Bytes) :
    (f.apply x).length ≤ Limit.elementSize := by
  cases f <;> simp [HashOp.apply, Limit.elementSize]

/-- The magnitude of the number that an operation pushes. -/
def Operation.pushedMagnitude : Operation → Nat
  | pushNum n => n.natAbs
  | _ => 0

/-- The numbers that opcodes push are small. -/
theorem Opcode.natAbs_of_pushNum {op : Opcode} {n : Int} (h : op.operation = .pushNum n) :
    n.natAbs ≤ 16 := by
  have hall := forall_of_table (p := fun op => Nat.ble op.operation.pushedMagnitude 16)
    (by decide +kernel) op
  rw [h] at hall
  exact Nat.le_of_ble_eq_true hall

/-! ## Stacks -/

namespace StackM

/-- What leaves only items that it has found keeps the bound. -/
theorem bounded_of_subset {f : StackM α} (h : ∀ s, stateOf (f s) ⊆ s) :
    Preserves Stack.Bounded f := fun s hs x hx => hs x (h s hx)

theorem bounded_of_eq {f : StackM α} (h : ∀ s, stateOf (f s) = s) : Preserves Stack.Bounded f :=
  bounded_of_subset fun s => by rw [h s]; exact List.Subset.refl s

theorem bounded_push {x : Bytes} (hx : x.length ≤ Limit.elementSize) :
    Preserves Stack.Bounded (push x) := fun _ hs => List.forall_mem_cons.2 ⟨hx, hs⟩

theorem bounded_pushNumber {n : Int} (h : Number.FitsWord n) :
    Preserves Stack.Bounded (pushNumber n) :=
  bounded_push (Nat.le_trans (Number.length_encode_le_of_fitsWord h) (by decide))

theorem bounded_pushLength (n : Nat) : Preserves Stack.Bounded (pushLength n) :=
  bounded_pushNumber (Number.fitsWord_wrap n)

theorem bounded_pushTruth (b : Bool) : Preserves Stack.Bounded (pushTruth b) :=
  bounded_push (length_ofTruth_le b)

theorem bounded_pop : Preserves Stack.Bounded pop := by
  refine bounded_of_subset fun s => ?_
  cases s with
  | nil => exact List.Subset.refl []
  | cons x s => exact List.subset_cons_self x s

theorem bounded_readNumber (minimal : Bool) (max : Nat) (x : Bytes) :
    Preserves Stack.Bounded (readNumber minimal max x) :=
  bounded_of_eq (stateOf_readNumber minimal max x)

theorem bounded_popTruth : Preserves Stack.Bounded popTruth :=
  bounded_pop.bind fun _ => preserves_pure _

theorem bounded_popNumber (minimal : Bool) : Preserves Stack.Bounded (popNumber minimal) :=
  bounded_pop.bind fun x => bounded_readNumber minimal _ x

theorem bounded_item (k : UInt64) : Preserves Stack.Bounded (item k) := bounded_of_eq (stateOf_item k)

theorem bounded_peek (k : UInt64) : Preserves Stack.Bounded (peek k) := bounded_of_eq (stateOf_peek k)

theorem bounded_peekTruth : Preserves Stack.Bounded peekTruth :=
  (bounded_peek 0).bind fun _ => preserves_pure _

theorem bounded_peekNumber (minimal : Bool) (max : Nat) :
    Preserves Stack.Bounded (peekNumber minimal max) :=
  (bounded_peek 0).bind fun x => bounded_readNumber minimal max x

/-- Items are moved and copied, and nothing else. -/
theorem bounded_rearrange {n : Nat} {f : Stack → Stack} (hf : ∀ s, f s ⊆ s) :
    Preserves Stack.Bounded (rearrange n f) := by
  refine bounded_of_subset fun s => ?_
  rcases stateOf_rearrange n f s with hs | ⟨-, hs⟩
  · rw [hs]
    exact List.Subset.refl s
  · rw [hs]
    exact hf s

theorem bounded_drop (n : Nat) : Preserves Stack.Bounded (drop n) :=
  bounded_rearrange fun s => List.drop_subset n s

theorem bounded_dup (n : Nat) : Preserves Stack.Bounded (dup n) :=
  bounded_rearrange fun s => List.append_subset.2 ⟨List.take_subset n s, List.Subset.refl s⟩

/-- A block of items from anywhere on the stack. -/
theorem take_drop_subset (k n : Nat) (s : Stack) : (s.drop k).take n ⊆ s :=
  List.Subset.trans (List.take_subset n _) (List.drop_subset k s)

theorem bounded_copyOver (n : Nat) : Preserves Stack.Bounded (copyOver n) :=
  bounded_rearrange fun s => List.append_subset.2 ⟨take_drop_subset n n s, List.Subset.refl s⟩

theorem bounded_rot (n : Nat) : Preserves Stack.Bounded (rot n) :=
  bounded_rearrange fun s => List.append_subset.2 ⟨take_drop_subset (2 * n) n s,
    List.append_subset.2 ⟨List.take_subset (2 * n) s, List.drop_subset (3 * n) s⟩⟩

theorem bounded_swap (n : Nat) : Preserves Stack.Bounded (swap n) :=
  bounded_rearrange fun s => List.append_subset.2 ⟨take_drop_subset n n s,
    List.append_subset.2 ⟨List.take_subset n s, List.drop_subset (2 * n) s⟩⟩

theorem bounded_tuck : Preserves Stack.Bounded tuck :=
  bounded_rearrange fun s => List.append_subset.2 ⟨List.take_subset 2 s,
    List.append_subset.2 ⟨List.take_subset 1 s, List.drop_subset 2 s⟩⟩

theorem mem_of_item {k : UInt64} {x : Bytes} {s s' : Stack} (h : item k s = .ok x s') : x ∈ s :=
  List.mem_of_getElem? (item_ok.1 h).2.1

theorem mem_of_nip {k : UInt64} {x : Bytes} {s s' : Stack} (h : nip k s = .ok x s') : x ∈ s := by
  obtain ⟨y, s₁, hitem, hrest⟩ := bind_ok.1 h
  obtain ⟨-, s₂, -, hy⟩ := bind_ok.1 hrest
  cases hy
  exact mem_of_item hitem

theorem bounded_nip (k : UInt64) : Preserves Stack.Bounded (nip k) := by
  have herase : Preserves Stack.Bounded (modify fun s => s.eraseIdx k.toNat : StackM Unit) :=
    bounded_of_subset fun _ _ hx => List.mem_of_mem_eraseIdx hx
  exact (bounded_item k).bind fun x => herase.bind fun _ => preserves_pure x

theorem bounded_index (n : Int64) : Preserves Stack.Bounded (index n) :=
  bounded_of_eq (stateOf_index n)

theorem bounded_pick (n : Int64) : Preserves Stack.Bounded (pick n) :=
  (bounded_index n).bind fun k =>
    (bounded_item k).bind_of (fun _ _ _ hs hx => hs _ (mem_of_item hx)) fun _ => bounded_push

theorem bounded_roll (n : Int64) : Preserves Stack.Bounded (roll n) :=
  (bounded_index n).bind fun k =>
    (bounded_nip k).bind_of (fun _ _ _ hs hx => hs _ (mem_of_nip hx)) fun _ => bounded_push

end StackM

/-! ## The parts of a machine -/

namespace MachineM

theorem bounded_onStack {f : StackM α} (h : Preserves Stack.Bounded f) :
    Preserves Machine.Bounded (onStack f : MachineM σ α) := by
  intro m hm
  rw [stateOf_onStack]
  exact ⟨h m.stack hm.stack, hm.alt⟩

theorem bounded_onAlt {f : StackM α} (h : Preserves Stack.Bounded f) :
    Preserves Machine.Bounded (onAlt f : MachineM σ α) := by
  intro m hm
  rw [stateOf_onAlt]
  exact ⟨hm.stack, h m.alt hm.alt⟩

/-- What is taken off a stack is within the bound as well. -/
theorem bounded_pop_bind {f : Bytes → MachineM σ α}
    (hf : ∀ x, x.length ≤ Limit.elementSize → Preserves Machine.Bounded (f x)) :
    Preserves Machine.Bounded (onStack StackM.pop >>= f) := by
  refine (bounded_onStack StackM.bounded_pop).bind_of (fun m x m' hm hx => ?_) hf
  obtain ⟨s, hs, -⟩ := onStack_pop_ok.1 hx
  exact hm.stack x (hs ▸ List.mem_cons_self)

theorem bounded_popAlt_bind {f : Bytes → MachineM σ α}
    (hf : ∀ x, x.length ≤ Limit.elementSize → Preserves Machine.Bounded (f x)) :
    Preserves Machine.Bounded (onAlt StackM.pop >>= f) := by
  refine (bounded_onAlt StackM.bounded_pop).bind_of (fun m x m' hm hx => ?_) hf
  obtain ⟨s, hs, -⟩ := exists_of_onAlt_ok hx
  exact hm.alt x (StackM.pop_ok.1 hs ▸ List.mem_cons_self)

/-- A number that has been taken off the stack fits an operand. -/
theorem bounded_popNumber_bind {minimal : Bool} {f : Int → MachineM σ α}
    (hf : ∀ n, Number.FitsOperand n → Preserves Machine.Bounded (f n)) :
    Preserves Machine.Bounded (onStack (StackM.popNumber minimal) >>= f) := by
  refine (bounded_onStack (StackM.bounded_popNumber minimal)).bind_of (fun m n m' _ hn => ?_) hf
  obtain ⟨s, hs, -⟩ := onStack_ok.1 hn
  exact StackM.fitsOperand_of_popNumber hs

/-- What changes neither stack keeps the bound. -/
theorem bounded_of_stacks {x : MachineM σ α} (hstack : ∀ m, (stateOf (x m)).stack = m.stack)
    (halt : ∀ m, (stateOf (x m)).alt = m.alt) : Preserves Machine.Bounded x :=
  fun m hm => ⟨by rw [hstack m]; exact hm.stack, by rw [halt m]; exact hm.alt⟩

theorem bounded_countOperations (n : Nat) :
    Preserves Machine.Bounded (countOperations n : MachineM σ Unit) :=
  bounded_of_stacks (fun m => by rw [stateOf_countOperations]) fun m => by
    rw [stateOf_countOperations]

theorem bounded_askSignature (c : Checker σ) (q : SignatureQuery) :
    Preserves Machine.Bounded (askSignature c q) :=
  bounded_of_stacks (fun m => by rw [stateOf_askSignature]) fun m => by rw [stateOf_askSignature]

end MachineM

open MachineM StackM

/-! ## Instructions -/

/-- Signature checks draw items within the bound. -/
theorem draws_bounded (ctx : Context σ) :
    Draws ctx (fun _ => True) (fun x => x.length ≤ Limit.elementSize) Machine.Bounded where
  pop := bounded_onStack bounded_pop
  number minimal := bounded_onStack (bounded_popNumber minimal)
  count := bounded_countOperations
  item _ hm := hm.stack
  code _ _ := trivial
  pair _ _ _ := preserves_checkPair (fun q _ => bounded_askSignature ctx.checker q) _ _

theorem bounded_deliver (op : Opcode) (verify b : Bool) :
    Preserves Machine.Bounded (deliver op verify b : MachineM σ Unit) :=
  preserves_deliver (fun b => bounded_onStack (bounded_pushTruth b)) op verify b

theorem bounded_popPair_bind {minimal : Bool} {f : Int × Int → MachineM σ α}
    (hf : ∀ a b, Number.FitsOperand a → Number.FitsOperand b → Preserves Machine.Bounded (f (a, b))) :
    Preserves Machine.Bounded (popPair minimal >>= f) := by
  unfold popPair
  simp only [bind_assoc, pure_bind]
  exact bounded_popNumber_bind fun b hb => bounded_popNumber_bind fun a ha => hf a b ha hb

/-- The result of an operation is pushed if it is small enough for 64 bits. -/
theorem bounded_result {r : Except Number.Error Int} {n : Int} (hr : r = .ok n)
    (hn : Number.FitsWord n) :
    Preserves Machine.Bounded (ofNumber r >>= fun n => onStack (pushNumber n) : MachineM σ Unit) := by
  rw [hr]
  exact bounded_onStack (bounded_pushNumber hn)

namespace Instruction

/-- What an instruction performs keeps the bound, as long as the data that it pushes is within it. -/
theorem bounded_perform
    (hdata : i.operation = .pushBytes → i.data.length ≤ Limit.elementSize) :
    Preserves Machine.Bounded (i.perform ctx offset) := by
  unfold perform
  dsimp only
  cases hop : i.operation with
  | pushBytes => exact bounded_onStack (bounded_push (hdata hop))
  | pushNum n =>
    have hn : n.natAbs ≤ 16 := Opcode.natAbs_of_pushNum hop
    exact bounded_onStack (bounded_pushNumber (Number.fitsWord_of_le hn (by decide)))
  | nop => exact preserves_pure ()
  | openIf negated =>
    exact preserves_openBranch (bounded_onStack bounded_popTruth)
      (fun _ _ hm => ⟨hm.stack, hm.alt⟩) negated
  | elseBranch | endIf => exact preserves_changeBranch (fun _ _ hm => ⟨hm.stack, hm.alt⟩) _ _
  | verify => exact (bounded_onStack bounded_popTruth).bind fun b => preserves_require _ b
  | toAltStack => exact bounded_pop_bind fun x hx => bounded_onAlt (bounded_push hx)
  | fromAltStack => exact bounded_popAlt_bind fun x hx => bounded_onStack (bounded_push hx)
  | drop n => exact bounded_onStack (bounded_drop n)
  | dup n => exact bounded_onStack (bounded_dup n)
  | copyOver n => exact bounded_onStack (bounded_copyOver n)
  | rot n => exact bounded_onStack (bounded_rot n)
  | swap n => exact bounded_onStack (bounded_swap n)
  | ifDup =>
    exact (bounded_onStack bounded_peekTruth).bind fun _ =>
      preserves_ite (bounded_onStack (bounded_dup 1)) (preserves_pure ())
  | depth => exact fun m => bounded_onStack (bounded_pushLength m.stack.length) m
  | nip => exact (bounded_onStack (bounded_nip 1)).bind fun _ => preserves_pure ()
  | pick =>
    exact (bounded_onStack (bounded_popNumber _)).bind fun n => bounded_onStack (bounded_pick _)
  | roll =>
    exact (bounded_onStack (bounded_popNumber _)).bind fun n => bounded_onStack (bounded_roll _)
  | tuck => exact bounded_onStack bounded_tuck
  | size =>
    exact (bounded_onStack (bounded_peek 0)).bind fun x =>
      bounded_onStack (bounded_pushLength x.length)
  | equal =>
    exact bounded_pop_bind fun _ _ => bounded_pop_bind fun _ _ =>
      bounded_onStack (bounded_pushTruth _)
  | equalVerify =>
    exact bounded_pop_bind fun _ _ => bounded_pop_bind fun _ _ => preserves_require _ _
  | unary f =>
    refine bounded_popNumber_bind fun a ha => ?_
    obtain ⟨happly, hsmall⟩ := f.apply_of_fitsOperand ha
    exact bounded_result happly (Number.fitsWord_of_le hsmall (by decide))
  | binary f =>
    refine bounded_popPair_bind fun a b ha hb => ?_
    obtain ⟨happly, hsmall⟩ := f.apply_of_fitsOperand ha hb
    exact bounded_result happly (Number.fitsWord_of_le hsmall (by decide))
  | numEqualVerify => exact bounded_popPair_bind fun _ _ _ _ => preserves_require _ _
  | within =>
    exact bounded_popPair_bind fun _ _ _ _ => bounded_popNumber_bind fun _ _ =>
      bounded_onStack (bounded_pushTruth _)
  | hash f => exact bounded_pop_bind fun x _ => bounded_onStack (bounded_push (f.length_apply_le x))
  | codeSeparator => exact bounded_of_stacks (fun _ => rfl) fun _ => rfl
  | checkSig verify => exact (draws_bounded ctx).checkSingle.bind fun b => bounded_deliver _ verify b
  | checkMultiSig verify =>
    exact (draws_bounded ctx).checkMultiple.bind fun b => bounded_deliver _ verify b
  | checkLockTimeVerify =>
    exact preserves_checkLockTimeVerify (bounded_onStack (bounded_peekNumber _ _))
      (fun _ => bounded_of_stacks (fun _ => rfl) fun _ => rfl) _
  | checkSequenceVerify =>
    exact preserves_checkSequenceVerify (bounded_onStack (bounded_peekNumber _ _))
      (fun _ => bounded_of_stacks (fun _ => rfl) fun _ => rfl) _
  | upgradableNop => exact preserves_upgradableNop _
  | returnEarly | disabled | alwaysIllegal | reserved | invalid => exact preserves_throw _

/-- The limits let data through only within the bound. -/
theorem length_data_of_within (h : i.Within m) (hop : i.operation = .pushBytes) :
    i.data.length ≤ Limit.elementSize := by
  have hoperation : i.opcode.operation.isPush = true := by
    rw [show i.opcode.operation = .pushBytes from hop]
    rfl
  exact (within_of_isPush (Opcode.isPush_of_operation hoperation)).1 h

theorem bounded_execute : Preserves Machine.Bounded (i.execute ctx offset) := by
  have hlimits : Preserves Machine.Bounded (i.checkLimits : MachineM σ Unit) := by
    refine bounded_of_stacks (fun m => ?_) fun m => ?_
    · obtain ⟨k, hk⟩ := i.stateOf_checkLimits m
      rw [hk]
    · obtain ⟨k, hk⟩ := i.stateOf_checkLimits m
      rw [hk]
  have hminimal : Preserves Machine.Bounded (i.checkMinimal ctx) :=
    fun m hm => by rwa [stateOf_checkMinimal]
  have hexecuting : Preserves Machine.Bounded (executing : MachineM σ Bool) := fun _ hm => hm
  unfold execute
  refine preserves_guard (preserves_guard ?_)
  refine hlimits.bind_of
    (R := fun _ => i.operation = .pushBytes → i.data.length ≤ Limit.elementSize)
    (fun m _ _ _ h => length_data_of_within (checkLimits_ok.1 h).1) fun _ hdata => ?_
  refine hexecuting.bind fun _ => preserves_ite ?_ ?_
  · exact hminimal.bind fun _ => bounded_perform hdata
  · exact preserves_ite (bounded_perform hdata) (preserves_pure ())

/-- **Every instruction keeps the bound on items**, whether it succeeds or fails. -/
theorem bounded_step : Preserves Machine.Bounded (i.step ctx offset) :=
  bounded_execute.bind fun _ m hm => by rwa [stateOf_checkDepth]

end Instruction

/-! ## What digests and signature checks work on -/

/-- The items that a digest or a signature check is made of, as the instruction takes them off the stack:
    the item of a digest, the key and the signature of a single check, the keys and the signatures of a
    multiple check. -/
inductive Operation.WorksOn (ctx : Context σ) (m : Machine σ) : Operation → Bytes → Prop
  | digest {f : HashOp} {x : Bytes} {m₁ : Machine σ} (hx : onStack pop m = .ok x m₁) :
      WorksOn ctx m (.hash f) x
  | key {verify : Bool} {key : Bytes} {m₁ : Machine σ} (hkey : onStack pop m = .ok key m₁) :
      WorksOn ctx m (.checkSig verify) key
  | signature {verify : Bool} {key item : Bytes} {m₁ m₂ : Machine σ}
      (hkey : onStack pop m = .ok key m₁) (hitem : onStack pop m₁ = .ok item m₂) :
      WorksOn ctx m (.checkSig verify) item
  | keys {verify : Bool} {n : Nat} {keys : List Bytes} {key : Bytes} {m₁ m₂ : Machine σ}
      (hn : popKeyCount ctx m = .ok n m₁) (hkeys : popItems n m₁ = .ok keys m₂)
      (hkey : key ∈ keys) : WorksOn ctx m (.checkMultiSig verify) key
  | signatures {verify : Bool} {n k : Nat} {keys items : List Bytes} {item : Bytes}
      {m₁ m₂ m₃ m₄ : Machine σ} (hn : popKeyCount ctx m = .ok n m₁)
      (hkeys : popItems n m₁ = .ok keys m₂) (hk : popSignatureCount ctx n m₂ = .ok k m₃)
      (hitems : popItems k m₃ = .ok items m₄) (hitem : item ∈ items) :
      WorksOn ctx m (.checkMultiSig verify) item

/-- All of them are items of the stack. -/
theorem Operation.WorksOn.mem_stack {op : Operation} {x : Bytes} (h : op.WorksOn ctx m x) :
    x ∈ m.stack := by
  cases h with
  | digest hx | key hx =>
    obtain ⟨s, hs, -⟩ := onStack_pop_ok.1 hx
    rw [hs]
    exact List.mem_cons_self
  | signature hkey hitem =>
    obtain ⟨s, hs, rfl⟩ := onStack_pop_ok.1 hkey
    obtain ⟨s', hs', -⟩ := onStack_pop_ok.1 hitem
    rw [hs]
    exact List.mem_cons_of_mem _ (by rw [show s = _ from hs']; exact List.mem_cons_self)
  | keys hn hkeys hkey =>
    obtain ⟨count, s, hs, -, -, -, rfl⟩ := popKeyCount_ok.1 hn
    obtain ⟨-, s', hs', -⟩ := popItems_ok.1 hkeys
    rw [hs]
    refine List.mem_cons_of_mem _ ?_
    rw [show s = _ from hs']
    exact List.mem_append_left _ hkey
  | signatures hn hkeys hk hitems hitem =>
    obtain ⟨count, s, hs, -, -, -, rfl⟩ := popKeyCount_ok.1 hn
    obtain ⟨-, s', hs', rfl⟩ := popItems_ok.1 hkeys
    obtain ⟨count', s'', hs'', -, -, rfl⟩ := popSignatureCount_ok.1 hk
    obtain ⟨-, s₄, hs₄, -⟩ := popItems_ok.1 hitems
    rw [hs]
    refine List.mem_cons_of_mem _ ?_
    rw [show s = _ from hs', show s' = _ from hs'', show s'' = _ from hs₄]
    exact List.mem_append_right _ (List.mem_cons_of_mem _ (List.mem_append_left _ hitem))

end SpendScript

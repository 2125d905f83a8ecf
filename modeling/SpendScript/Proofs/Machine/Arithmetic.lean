/-
  Operations on numbers. Each takes some numbers off the stack (`Operation.arity?`) and leaves what an
  integer function makes of them (`Operation.compute`). An operand has at most four bytes, so it is far
  from the ends of 64 bits and no result leaves them (`UnaryOp.apply_of_fitsOperand`,
  `BinaryOp.apply_of_fitsOperand`). An operation on numbers is therefore reading its operands and
  delivering what it computes (`Instruction.perform_of_arity`). The stack decides how far the reading
  comes: there are enough operands on top, or there is a first item from the top that is none, or none
  at all (`operands_cases`).
-/
import SpendScript.Proofs.Machine.Success
import SpendScript.Proofs.Number.Codec

namespace SpendScript

variable {σ : Type} {ctx : Context σ} {offset : Nat} {i : Instruction} {m : Machine σ}

/-! ## The integer functions -/

/-- The integer function of an operation on one number. -/
def UnaryOp.result (op : UnaryOp) (a : Int) : Int :=
  match op with
  | .add1 => a + 1
  | .sub1 => a - 1
  | .negate => -a
  | .abs => if a < 0 then -a else a
  | .not => if a = 0 then 1 else 0
  | .notEqual0 => if a = 0 then 0 else 1

/-- The integer function of an operation on two numbers, the deeper one first. -/
def BinaryOp.result (op : BinaryOp) (a b : Int) : Int :=
  match op with
  | .add => a + b
  | .sub => a - b
  | .boolAnd => if a = 0 ∨ b = 0 then 0 else 1
  | .boolOr => if a = 0 ∧ b = 0 then 0 else 1
  | .numEqual => if a = b then 1 else 0
  | .numNotEqual => if a = b then 0 else 1
  | .lessThan => if a < b then 1 else 0
  | .greaterThan => if a > b then 1 else 0
  | .lessThanOrEqual => if a ≤ b then 1 else 0
  | .greaterThanOrEqual => if a ≥ b then 1 else 0
  | .min => Min.min a b
  | .max => Max.max a b

namespace Operation

/-- How many numbers an operation on numbers takes. -/
def arity? : Operation → Option Nat
  | unary _ => some 1
  | binary _ | numEqualVerify => some 2
  | within => some 3
  | _ => none

/-- What an operation on numbers makes of its operands, the deepest one first: the numbers it leaves,
    or an error. -/
def compute (op : Opcode) : Operation → List Int → Except ScriptError (List Int)
  | unary f, [a] => .ok [f.result a]
  | binary f, [a, b] => .ok [f.result a b]
  | numEqualVerify, [a, b] => if a = b then .ok [] else .error (.verify op)
  | within, [a, low, high] => .ok [if low ≤ a ∧ a < high then 1 else 0]
  | _, _ => .ok []

end Operation

namespace Number

/-- The numbers of at most four bytes: their magnitude is below 2³¹. -/
def FitsOperand (n : Int) : Prop := n.natAbs < 2147483648

theorem checked_of_natAbs_lt {n : Int} (h : n.natAbs < 9223372036854775808) : checked n = .ok n :=
  if_pos ⟨by omega, by omega⟩

end Number

theorem truthNumber_decide (p : Prop) [Decidable p] :
    truthNumber (decide p) = if p then 1 else 0 := by
  by_cases h : p <;> simp [h, truthNumber]

theorem UnaryOp.apply_of_fitsOperand (f : UnaryOp) {a : Int} (ha : Number.FitsOperand a) :
    f.apply a = .ok (f.result a) ∧ (f.result a).natAbs ≤ 2147483648 := by
  unfold Number.FitsOperand at ha
  cases f with
  | add1 | sub1 | negate =>
    unfold apply result
    dsimp only
    exact ⟨Number.checked_of_natAbs_lt (by omega), by omega⟩
  | abs =>
    have habs : (if a < 0 then -a else a) = (a.natAbs : Int) := by split <;> omega
    unfold apply result
    dsimp only
    rw [habs]
    exact ⟨rfl, by omega⟩
  | not | notEqual0 =>
    unfold apply result
    by_cases h : a = 0 <;> simp [h, truthNumber]

theorem BinaryOp.apply_of_fitsOperand (f : BinaryOp) {a b : Int} (ha : Number.FitsOperand a)
    (hb : Number.FitsOperand b) :
    f.apply a b = .ok (f.result a b) ∧ (f.result a b).natAbs ≤ 4294967296 := by
  unfold Number.FitsOperand at ha hb
  unfold apply result
  cases f with
  | add | sub =>
    dsimp only
    exact ⟨Number.checked_of_natAbs_lt (by omega), by omega⟩
  | min | max =>
    dsimp only
    exact ⟨rfl, by omega⟩
  | boolAnd | boolOr =>
    by_cases h : a = 0 <;> by_cases h' : b = 0 <;> simp [h, h', truthNumber]
  | numEqual | numNotEqual =>
    by_cases h : a = b <;> simp [h, truthNumber]
  | lessThan | greaterThan | lessThanOrEqual | greaterThanOrEqual =>
    dsimp only
    refine ⟨congrArg Except.ok (truthNumber_decide _), ?_⟩
    split <;> simp

/-! ## Operands -/

namespace Number

/-- The item can be an operand: it has at most four bytes, and no shorter ones would do if that is
    asked for. -/
def IsOperand (minimal : Bool) (item : Bytes) : Prop :=
  item.length ≤ 4 ∧ (minimal = true → isMinimal item = true)

instance (minimal : Bool) (item : Bytes) : Decidable (IsOperand minimal item) :=
  inferInstanceAs (Decidable (_ ∧ _))

/-- Why an item is no operand. -/
def refusal (item : Bytes) : Error :=
  if 4 < item.length then .tooLong item.length 4 else .notMinimal

theorem IsOperand.fitsOperand {minimal : Bool} {item : Bytes} (h : IsOperand minimal item) :
    FitsOperand (signMagnitude item) := natAbs_signMagnitude_lt (by decide) h.1

theorem decode_of_isOperand {minimal : Bool} {item : Bytes} (h : IsOperand minimal item) :
    decode item minimal operandSize = .ok (signMagnitude item) :=
  (decode_ok_iff_spells (by decide)).2 ⟨h.1, h.2, rfl⟩

theorem decode_of_not_isOperand {minimal : Bool} {item : Bytes} (h : ¬ IsOperand minimal item) :
    decode item minimal operandSize = .error (refusal item) := by
  unfold decode refusal
  by_cases hlength : 4 < item.length
  · rw [if_pos hlength]
    exact if_pos hlength
  · have hbad : (minimal && !isMinimal item) = true := by
      unfold IsOperand at h
      rw [not_and, Classical.not_imp] at h
      obtain ⟨hminimal, hlong⟩ := h (Nat.not_lt.1 hlength)
      simp [hminimal, hlong]
    rw [if_neg hlength, if_pos hbad]
    exact if_neg hlength

end Number

open Number MachineM StackM

namespace StackM

/-- Takes `n` numbers off the stack, and gives the deepest one first. -/
def popNumbers (minimal : Bool) : Nat → StackM (List Int)
  | 0 => pure []
  | n + 1 => do
    let b ← popNumber minimal
    let below ← popNumbers minimal n
    return below ++ [b]

variable {minimal : Bool} {n : Nat}

theorem popNumber_of_isOperand {item : Bytes} (h : IsOperand minimal item) (rest : Stack) :
    popNumber minimal (item :: rest) = .ok (signMagnitude item) rest := by
  change readNumber minimal operandSize item rest = _
  unfold readNumber
  rw [decode_of_isOperand h]

theorem popNumber_of_not_isOperand {item : Bytes} (h : ¬ IsOperand minimal item) (rest : Stack) :
    popNumber minimal (item :: rest) = .error (.number (refusal item)) rest := by
  change readNumber minimal operandSize item rest = _
  unfold readNumber
  rw [decode_of_not_isOperand h]

/-- Whatever number comes off the stack fits an operand. -/
theorem fitsOperand_of_popNumber {s s' : Stack} {k : Int} (h : popNumber minimal s = .ok k s') :
    FitsOperand k := by
  rcases s with _ | ⟨item, s⟩
  · cases h
  · by_cases hitem : IsOperand minimal item
    · rw [popNumber_of_isOperand hitem] at h
      cases h
      exact hitem.fitsOperand
    · rw [popNumber_of_not_isOperand hitem] at h
      cases h

theorem popNumbers_of_operands {xs : List Bytes} (h : ∀ x ∈ xs, IsOperand minimal x)
    (rest : Stack) :
    popNumbers minimal xs.length (xs ++ rest) = .ok (xs.reverse.map signMagnitude) rest := by
  induction xs with
  | nil => rfl
  | cons top xs ih =>
    obtain ⟨htop, hxs⟩ := List.forall_mem_cons.1 h
    rw [List.length_cons, popNumbers, List.cons_append,
      bind_eq_of_ok (popNumber_of_isOperand htop _), bind_eq_of_ok (ih hxs), List.reverse_cons,
      List.map_append]
    rfl

/-- Operands on top do not change how the reading of more numbers fails. -/
theorem popNumbers_error_append {good : List Bytes} {s s' : Stack} {e : StackError}
    (h : ∀ x ∈ good, IsOperand minimal x) (hs : popNumbers minimal n s = .error e s') :
    popNumbers minimal (good.length + n) (good ++ s) = .error e s' := by
  induction good with
  | nil =>
    rw [List.length_nil, Nat.zero_add]
    exact hs
  | cons top good ih =>
    obtain ⟨htop, hgood⟩ := List.forall_mem_cons.1 h
    rw [List.length_cons, Nat.succ_add, popNumbers, List.cons_append,
      bind_eq_of_ok (popNumber_of_isOperand htop _)]
    exact bind_eq_of_error (ih hgood)

theorem popNumbers_of_missing {good : List Bytes} (h : ∀ x ∈ good, IsOperand minimal x)
    (hn : good.length < n) : popNumbers minimal n good = .error .empty [] := by
  obtain ⟨k, rfl⟩ : ∃ k, n = good.length + (k + 1) := ⟨n - good.length - 1, by omega⟩
  have hempty : popNumbers minimal (k + 1) [] = .error .empty [] := rfl
  have happend := popNumbers_error_append h hempty
  rwa [List.append_nil] at happend

theorem popNumbers_of_bad {good : List Bytes} {bad : Bytes} (h : ∀ x ∈ good, IsOperand minimal x)
    (hbad : ¬ IsOperand minimal bad) (hn : good.length < n) (rest : Stack) :
    popNumbers minimal n (good ++ bad :: rest) = .error (.number (refusal bad)) rest := by
  obtain ⟨k, rfl⟩ : ∃ k, n = good.length + (k + 1) := ⟨n - good.length - 1, by omega⟩
  exact popNumbers_error_append h (bind_eq_of_error (popNumber_of_not_isOperand hbad rest))

end StackM

/-- The top of the stack holds that many operands, the deepest one first. -/
structure Operands (minimal : Bool) (n : Nat) (s : Stack) (operands : List Bytes) (rest : Stack) :
    Prop where
  stack : s = operands.reverse ++ rest
  length : operands.length = n
  all : ∀ x ∈ operands, IsOperand minimal x

/-- A stack that does not hold enough operands has a first item that is none, or ends before. -/
theorem operands_cases (minimal : Bool) (n : Nat) (s : Stack) :
    (∃ operands rest, Operands minimal n s operands rest) ∨
      ∃ good, good.length < n ∧ (∀ x ∈ good, IsOperand minimal x) ∧
        (s = good ∨ ∃ bad rest, s = good ++ bad :: rest ∧ ¬ IsOperand minimal bad) := by
  induction n generalizing s with
  | zero => exact Or.inl ⟨[], s, rfl, rfl, fun x hx => absurd hx List.not_mem_nil⟩
  | succ n ih =>
    rcases s with _ | ⟨top, s⟩
    · exact Or.inr ⟨[], Nat.succ_pos n, (fun x hx => absurd hx List.not_mem_nil), Or.inl rfl⟩
    · by_cases htop : IsOperand minimal top
      · rcases ih s with ⟨operands, rest, rfl, hlength, hall⟩ | ⟨good, hlength, hall, hrest⟩
        · refine Or.inl ⟨operands ++ [top], rest, ?_, ?_, ?_⟩
          · rw [List.reverse_append]
            rfl
          · rw [List.length_append, hlength]
            rfl
          · intro x hx
            rcases List.mem_append.1 hx with hx | hx
            · exact hall x hx
            · rw [List.mem_singleton.1 hx]
              exact htop
        · refine Or.inr ⟨top :: good, Nat.succ_lt_succ hlength, List.forall_mem_cons.2 ⟨htop, hall⟩, ?_⟩
          rcases hrest with rfl | ⟨bad, rest, rfl, hbad⟩
          · exact Or.inl rfl
          · exact Or.inr ⟨bad, rest, rfl, hbad⟩
      · exact Or.inr ⟨[], Nat.succ_pos n, (fun x hx => absurd hx List.not_mem_nil),
          Or.inr ⟨top, s, rfl, htop⟩⟩

/-! ## The operations -/

/-- Leaves numbers on the stack, or fails. -/
def delivered (r : Except ScriptError (List Int)) : MachineM σ Unit := fun m =>
  match r with
  | .ok results => .ok () { m with stack := results.map encode ++ m.stack }
  | .error err => .error err m

theorem ofTruth_eq_encode (p : Prop) [Decidable p] :
    ofTruth (decide p) = encode (if p then 1 else 0) := by
  have htrue : encode 1 = [1] := by decide +kernel
  by_cases h : p
  · rw [if_pos h, htrue, decide_eq_true h]
    rfl
  · rw [if_neg h, encode_zero, decide_eq_false h]
    rfl

theorem onStack_bind {α β : Type} (f : StackM α) (g : α → StackM β) :
    (onStack (f >>= g) : MachineM σ β) = onStack f >>= fun a => onStack (g a) := by
  funext m
  simp only [Bind.bind, EStateM.bind, onStack]
  cases f m.stack <;> rfl

theorem onStack_pure {α : Type} (a : α) : (onStack (pure a) : MachineM σ α) = pure a := rfl

/-- After a number has come off the stack, only those that fit an operand matter. -/
theorem popNumber_bind_congr {minimal : Bool} {α : Type} {f g : Int → MachineM σ α}
    (h : ∀ a, FitsOperand a → f a = g a) :
    onStack (popNumber minimal) >>= f = onStack (popNumber minimal) >>= g := by
  funext m
  rcases hpop : (onStack (popNumber minimal) : MachineM σ Int) m with ⟨a, m'⟩ | ⟨err, m'⟩
  · obtain ⟨s, hs, -⟩ := onStack_ok.1 hpop
    rw [bind_eq_of_ok hpop, bind_eq_of_ok hpop, h a (fitsOperand_of_popNumber hs)]
  · rw [bind_eq_of_error hpop, bind_eq_of_error hpop]

namespace Instruction

/-- An operation on numbers reads its operands and delivers what it computes. -/
theorem perform_of_arity {n : Nat} (h : i.operation.arity? = some n) :
    i.perform ctx offset = onStack (popNumbers ctx.flags.minimalData n) >>= fun ks =>
      delivered (i.operation.compute i.opcode ks) := by
  unfold perform
  dsimp only
  generalize ctx.flags.minimalData = minimal
  cases hop : i.operation with
  | unary f =>
    rw [hop] at h
    cases h
    simp only [popNumbers, onStack_bind, onStack_pure, bind_assoc, pure_bind]
    refine popNumber_bind_congr fun a ha => ?_
    rw [(f.apply_of_fitsOperand ha).1]
    rfl
  | binary f =>
    rw [hop] at h
    cases h
    simp only [popPair, popNumbers, onStack_bind, onStack_pure, bind_assoc, pure_bind]
    refine popNumber_bind_congr fun b hb => popNumber_bind_congr fun a ha => ?_
    rw [(f.apply_of_fitsOperand ha hb).1]
    rfl
  | numEqualVerify =>
    rw [hop] at h
    cases h
    simp only [popPair, popNumbers, onStack_bind, onStack_pure, bind_assoc, pure_bind]
    refine bind_congr fun b => bind_congr fun a => ?_
    change SpendScript.require i.opcode (decide (a = b)) =
      delivered (if a = b then .ok [] else .error (.verify i.opcode))
    by_cases heq : a = b
    · rw [if_pos heq, decide_eq_true heq]
      rfl
    · rw [if_neg heq, decide_eq_false heq]
      rfl
  | within =>
    rw [hop] at h
    cases h
    simp only [popPair, popNumbers, onStack_bind, onStack_pure, bind_assoc, pure_bind]
    refine bind_congr fun high => bind_congr fun low => bind_congr fun a => ?_
    unfold pushTruth
    rw [ofTruth_eq_encode]
    rfl
  | _ =>
    rw [hop] at h
    cases h

end Instruction

/-- The results of operands are small enough for five bytes. -/
theorem Operation.natAbs_of_compute {op : Operation} {opcode : Opcode} {ks results : List Int}
    (hks : ∀ k ∈ ks, FitsOperand k) (h : op.compute opcode ks = .ok results) :
    ∀ r ∈ results, r.natAbs < 549755813888 := by
  intro r hr
  unfold compute at h
  split at h
  · next f a =>
    cases h
    have hle := (f.apply_of_fitsOperand (hks a (by simp))).2
    rw [List.mem_singleton.1 hr]
    omega
  · next f a b =>
    cases h
    have hle := (f.apply_of_fitsOperand (hks a (by simp)) (hks b (by simp))).2
    rw [List.mem_singleton.1 hr]
    omega
  · split at h <;> cases h
    exact absurd hr List.not_mem_nil
  · cases h
    rw [List.mem_singleton.1 hr]
    split <;> decide
  · cases h
    exact absurd hr List.not_mem_nil

end SpendScript

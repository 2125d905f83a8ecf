/-
  Absolute locks. An opcode that compares one succeeds just when the number on top of the stack is no
  later than the lock time of the transaction and of the same kind, and the input takes part in locking;
  it then leaves the machine as it is (`Instruction.perform_checkLockTimeVerify_ok`). No step of an
  accepted run fails (`Engine.exists_of_run_ok`), so a verified input has met every lock that its scripts
  compare (`Engine.verify_lockTimes`).
-/
import SpendScript.Proofs.Engine.Calls
import SpendScript.Proofs.Number.Codec
import SpendScript.Proofs.RelativeLock
import SpendScript.Verify

namespace SpendScript

/-! ## The opcode -/

/-- An absolute lock has passed: it is no later than the lock time of the transaction, both are heights
    or both are points in time, and the input takes part in locking. -/
structure Spending.Passes (s : Spending) (v : Int) : Prop where
  nonneg : 0 ≤ v
  value : v ≤ s.tx.lockTime.toNat
  kind : v < 500000000 ↔ s.tx.lockTime.toNat < 500000000
  sequence : ∃ input, s.tx.inputs[s.index]? = some input ∧ input.sequence ≠ 0xffffffff

/-- The number `v` is on top of the stack, in five bytes at most and in its shortest form where the
    flags ask for that. -/
def LockOnTop (F : Flags) (stack : Stack) (v : Int) : Prop :=
  ∃ item below, stack = item :: below ∧ item.length ≤ 5 ∧
    Number.decode item F.minimalData Number.lockTimeSize = .ok v

theorem Spending.reached_timeThreshold_iff (actual : Nat) (v : Int) :
    reached timeThreshold actual v = true ↔
      v ≤ actual ∧ (v < 500000000 ↔ actual < 500000000) := by
  unfold reached timeThreshold
  rw [Bool.and_eq_true, decide_eq_true_iff, decide_eq_true_iff]
  omega

theorem Spending.lockTimeReached_iff (s : Spending) (v : Int) :
    s.lockTimeReached v = true ↔
      v ≤ s.tx.lockTime.toNat ∧ (v < 500000000 ↔ s.tx.lockTime.toNat < 500000000) ∧
        ∃ input, s.tx.inputs[s.index]? = some input ∧ input.sequence ≠ 0xffffffff := by
  unfold lockTimeReached sequence?
  rw [Bool.and_eq_true, reached_timeThreshold_iff, and_assoc]
  refine and_congr_right' (and_congr_right' ?_)
  rcases s.tx.inputs[s.index]? with _ | input
  · exact iff_of_false Bool.false_ne_true fun ⟨_, hnone, _⟩ => Option.some_ne_none _ hnone.symm
  · refine Iff.trans decide_eq_true_iff ⟨fun hsequence => ⟨input, rfl, hsequence⟩, ?_⟩
    rintro ⟨_, heq, hsequence⟩
    obtain rfl := Option.some.inj heq
    exact hsequence

variable {σ : Type} {ctx : Context σ} {m m' : Machine σ} {v : Int}

/-- Reading a lock succeeds where there is one that is not negative, and leaves it there. -/
theorem peekLock_ok :
    peekLock ctx m = .ok v m' ↔ m' = m ∧ 0 ≤ v ∧ LockOnTop ctx.flags m.stack v := by
  constructor
  · intro h
    obtain ⟨n, m₁, hpeek, hrest⟩ := bind_ok.1 h
    obtain ⟨stack, hread, rfl⟩ := MachineM.onStack_ok.1 hpeek
    obtain ⟨rfl, item, below, hstack, hdecode⟩ := StackM.peekNumber_ok hread
    obtain ⟨hneg, hpure⟩ := guard_ok.1 hrest
    obtain ⟨rfl, rfl⟩ := pure_ok.1 hpure
    exact ⟨rfl, Int.not_lt.1 hneg, item, below, hstack, (Number.decode_ok.1 hdecode).1, hdecode⟩
  · rintro ⟨rfl, hneg, item, below, hstack, -, hdecode⟩
    rw [peekLock_of_decode hstack hdecode, if_neg (Int.not_lt.2 hneg)]

namespace Instruction

variable {s : Spending} {i : Instruction} {offset : Nat} {ctx : Context (Option SignatureCache)}
  {m m' : Machine (Option SignatureCache)}

/-- **Absolute locks.** The opcode succeeds just when there is a lock that has passed, and then leaves
    the machine as it is. -/
theorem perform_checkLockTimeVerify_ok (hchecker : ctx.checker = s.checker)
    (hflag : ctx.flags.checkLockTime = true) (hop : i.operation = .checkLockTimeVerify) :
    i.perform ctx offset m = .ok () m' ↔
      m' = m ∧ ∃ v, LockOnTop ctx.flags m.stack v ∧ s.Passes v := by
  have hperform : i.perform ctx offset = checkLockTimeVerify ctx i.opcode := by
    unfold perform
    rw [hop]
  have hask (n : Int) (m : Machine (Option SignatureCache)) :
      MachineM.askLockTime ctx.checker n m = .ok (s.lockTimeReached n) m := by
    have hanswer : s.checker.checkLockTime n m.checker = (s.lockTimeReached n, m.checker) := rfl
    unfold MachineM.askLockTime
    rw [hchecker, hanswer]
  have hrest (n : Int) : (do
      if !(← MachineM.askLockTime ctx.checker n) then throw .unsatisfiedLockTime :
        MachineM (Option SignatureCache) Unit) m = .ok () m' ↔
      m' = m ∧ s.lockTimeReached n = true := by
    rw [bind_eq_of_ok (hask n m)]
    cases s.lockTimeReached n with
    | true =>
      refine Iff.trans pure_ok ?_
      exact ⟨fun h => ⟨h.2, rfl⟩, fun h => ⟨rfl, h.1⟩⟩
    | false => exact iff_of_false (fun h => nomatch h) fun h => nomatch h.2
  rw [hperform]
  unfold checkLockTimeVerify
  rw [hflag]
  change (peekLock ctx >>= _) m = _ ↔ _
  rw [bind_ok]
  constructor
  · rintro ⟨v, m₁, hpeek, h⟩
    obtain ⟨rfl, hneg, htop⟩ := peekLock_ok.1 hpeek
    obtain ⟨rfl, hreached⟩ := (hrest v).1 h
    obtain ⟨hvalue, hkind, hsequence⟩ := (s.lockTimeReached_iff v).1 hreached
    exact ⟨rfl, v, htop, hneg, hvalue, hkind, hsequence⟩
  · rintro ⟨rfl, v, htop, hneg, hvalue, hkind, hsequence⟩
    exact ⟨v, m', peekLock_ok.2 ⟨rfl, hneg, htop⟩, (hrest v).2 ⟨rfl,
      (s.lockTimeReached_iff v).2 ⟨hvalue, hkind, hsequence⟩⟩⟩

end Instruction

/-! ## Runs -/

namespace Engine

section Run

variable {c : Checker σ} {F : Flags} {spend : Spend} {e e' f g : Engine σ} {i : Instruction}

theorem Settled.after (h : e.Settled c F spend) {k : Nat} (hk : after k e = some f) :
    f.Settled c F spend := by
  induction k generalizing e with
  | zero =>
    obtain rfl : e = f := Option.some.inj hk
    exact h
  | succ k ih =>
    have hstep := h.step
    rcases hs : Engine.step e with ⟨done, e₁⟩ | ⟨err, e₁⟩ <;> rw [Engine.after, hs] at hk
    · rw [hs] at hstep
      exact ih hstep hk
    · cases hk

/-- A step succeeds only if its instruction does. -/
theorem exists_of_step_ok {done : Bool} (hs : step f = .ok done g) (hnext : f.next? = some i) :
    ∃ m, i.step f.context f.offset f.machine = .ok () m := by
  obtain ⟨ho, rfl⟩ := List.getElem?_eq_some_iff.1 hnext
  rcases hi : (f.script[f.offset]).step f.context f.offset f.machine with ⟨_, m⟩ | ⟨err, m⟩
  · exact ⟨m, rfl⟩
  · rw [step_of_advance_error (advance_of_step_error ho hi)] at hs
    cases hs

/-- No instruction that a run comes to fails, if the run does not. -/
theorem exists_of_run_ok (hrun : run e = .ok () e') {k : Nat} (hk : after k e = some f)
    (hnext : f.next? = some i) : ∃ m, i.step f.context f.offset f.machine = .ok () m := by
  induction k generalizing e with
  | zero =>
    obtain rfl : e = f := Option.some.inj hk
    rcases run_ok.1 hrun with hs | ⟨e₁, hs, -⟩
    · exact exists_of_step_ok hs hnext
    · exact exists_of_step_ok hs hnext
  | succ k ih =>
    rcases run_ok.1 hrun with hs | ⟨e₁, hs, hrest⟩ <;> rw [after, hs] at hk
    · -- The run is over, so no instruction is next.
      have hover := next?_of_done hs
      cases k with
      | zero =>
        obtain rfl : e' = f := Option.some.inj hk
        cases hover.symm.trans hnext
      | succ k => cases (after_succ_of_next?_none hover k).symm.trans hk
    · exact ih hrest hk

end Run

/-- A run of `e` comes to `f` without a failure, and `i`, which compares an absolute lock, is executed
    next. -/
structure ComparesLock (e f : Engine σ) (i : Instruction) : Prop where
  comes : ∃ k, after k e = some f
  next : f.next? = some i
  operation : i.operation = .checkLockTimeVerify
  executing : f.machine.branches.executing = true

/-- The stack before the absolute lock that is compared after `k` steps, if there is one. -/
def comparedStack? (k : Nat) (e : Engine σ) : Option Stack :=
  match after k e with
  | none => none
  | some f =>
    match f.next? with
    | none => none
    | some i =>
      if i.operation = .checkLockTimeVerify ∧ f.machine.branches.executing = true then
        some f.machine.stack
      else none

theorem exists_comparesLock {k : Nat} {e : Engine σ} {stack : Stack}
    (h : comparedStack? k e = some stack) :
    ∃ f i, ComparesLock e f i ∧ f.machine.stack = stack := by
  unfold comparedStack? at h
  rcases hk : after k e with _ | f <;> rw [hk] at h
  · cases h
  · dsimp only at h
    rcases hnext : f.next? with _ | i <;> rw [hnext] at h
    · cases h
    · dsimp only at h
      split at h
      · next hlock => exact ⟨f, i, ⟨⟨k, hk⟩, hnext, hlock.1, hlock.2⟩, Option.some.inj h⟩
      · cases h

end Engine

/-! ## Verified inputs -/

theorem LockOnTop.unique {F : Flags} {stack : Stack} {v w : Int} (hv : LockOnTop F stack v)
    (hw : LockOnTop F stack w) : v = w := by
  obtain ⟨item, below, hstack, -, hdecode⟩ := hv
  obtain ⟨_, _, hstack', -, hdecode'⟩ := hw
  obtain ⟨rfl, -⟩ := List.cons_eq_cons.1 (hstack.symm.trans hstack')
  exact Except.ok.inj (hdecode.symm.trans hdecode')

/-- A spend is verified when its engine can be made and accepts. -/
theorem Spending.verify_ok {s : Spending} {locking : Bytes} {F : Flags}
    {cache : Option SignatureCache} :
    (s.verify locking F cache).1 = .ok () ↔
      ∃ e e', Engine.ofSpending s locking F cache = .ok e ∧ e.execute = .ok () e' := by
  unfold verify
  rcases he : Engine.ofSpending s locking F cache with err | e
  · exact iff_of_false (fun h => nomatch h) fun ⟨_, _, h, _⟩ => nomatch h
  · rcases hx : e.execute with ⟨_, e'⟩ | ⟨err, e'⟩ <;> dsimp only <;> rw [hx]
    · exact iff_of_true rfl ⟨e, e', rfl, hx⟩
    · refine iff_of_false (fun h => nomatch h) ?_
      rintro ⟨_, _, h, hok⟩
      cases h
      cases hx.symm.trans hok

namespace Engine

variable {s : Spending} {locking : Bytes} {F : Flags} {cache : Option SignatureCache}
  {e e' f : Engine (Option SignatureCache)} {i : Instruction}

theorem settled_of_ofSpending (he : ofSpending s locking F cache = .ok e) :
    e.Settled s.checker F e.spend := by
  unfold ofSpending at he
  rcases hinput : s.tx.inputs[s.index]? with _ | input <;> rw [hinput] at he
  · cases he
  · obtain ⟨-, -, -, hflags, hchecker, -⟩ := settings_of_ofWitness he
    exact ⟨hchecker, hflags, rfl⟩

/-- Where a run compares a lock, the opcode answers for the spend the engine was made for. -/
theorem ComparesLock.perform_ok (hlock : ComparesLock e f i)
    (he : ofSpending s locking F cache = .ok e) (hflag : F.checkLockTime = true)
    {m m' : Machine (Option SignatureCache)} :
    i.perform f.context f.offset m = .ok () m' ↔
      m' = m ∧ ∃ v, LockOnTop F m.stack v ∧ s.Passes v := by
  obtain ⟨k, hk⟩ := hlock.comes
  obtain ⟨hchecker, hflags, -⟩ := (settled_of_ofSpending he).after hk
  have hcontext : f.context.flags = F := hflags
  rw [Instruction.perform_checkLockTimeVerify_ok (s := s) hchecker (hcontext ▸ hflag)
    hlock.operation, hcontext]

/-- A run that does not fail has met the locks that it compares. -/
theorem ComparesLock.passes (hlock : ComparesLock e f i) (hrun : run e = .ok () e')
    (he : ofSpending s locking F cache = .ok e) (hflag : F.checkLockTime = true) :
    ∃ v, LockOnTop F f.machine.stack v ∧ s.Passes v := by
  obtain ⟨k, hk⟩ := hlock.comes
  obtain ⟨m, hstep⟩ := exists_of_run_ok hrun hk hlock.next
  obtain ⟨⟨-, -, -, hperform⟩, -⟩ := (Instruction.step_ok_of_executing hlock.executing).1 hstep
  obtain ⟨-, v, htop, hpasses⟩ := (hlock.perform_ok he hflag).1 hperform
  rw [Instruction.counted_stack] at htop
  exact ⟨v, htop, hpasses⟩

/-- A lock that has passed is compared without an error, as long as an operation may be counted. -/
theorem ComparesLock.execute_ok (hlock : ComparesLock e f i)
    (he : ofSpending s locking F cache = .ok e) (hflag : F.checkLockTime = true) {v : Int}
    (htop : LockOnTop F f.machine.stack v) (hpasses : s.Passes v)
    (hcount : f.machine.opCount < Limit.operations) :
    i.execute f.context f.offset f.machine =
      .ok () { f.machine with opCount := f.machine.opCount + 1 } := by
  have hpush : ¬ i.isPush = true :=
    Opcode.not_isPush_of_operation hlock.operation rfl (fun h => nomatch h)
  have hallowed : i.Allowed := by
    refine Instruction.allowed_of_operation ?_ ?_ <;> rw [hlock.operation] <;>
      exact fun h => nomatch h
  rw [Instruction.execute_of_counted _ hallowed hpush hlock.executing hcount]
  exact (hlock.perform_ok he hflag).2 ⟨rfl, v, htop, hpasses⟩

/-- **Absolute locks of verified inputs.** Where the flags ask for them, each one that the run of a
    verified input compares is on top of the stack and has passed. So an input whose run compares a
    height and a point in time is not verified. An absolute lock that has passed is compared without an
    error, and both stacks stay as they are. -/
theorem verify_lockTimes (s : Spending) (locking : Bytes) (F : Flags)
    (cache : Option SignatureCache) (hflag : F.checkLockTime = true) :
    ((s.verify locking F cache).1 = .ok () →
      ∃ e, ofSpending s locking F cache = .ok e ∧
        ∀ f i, ComparesLock e f i → ∃ v, LockOnTop F f.machine.stack v ∧ s.Passes v) ∧
    ∀ e, ofSpending s locking F cache = .ok e →
      (∀ f i v f' i' v', ComparesLock e f i → LockOnTop F f.machine.stack v →
        ComparesLock e f' i' → LockOnTop F f'.machine.stack v' → v < 500000000 → 500000000 ≤ v' →
          (s.verify locking F cache).1 ≠ .ok ()) ∧
      ∀ f i v, ComparesLock e f i → LockOnTop F f.machine.stack v → s.Passes v →
        i.perform f.context f.offset f.machine = .ok () f.machine ∧
        (f.machine.opCount < Limit.operations → i.execute f.context f.offset f.machine =
          .ok () { f.machine with opCount := f.machine.opCount + 1 }) := by
  have hverified (h : (s.verify locking F cache).1 = .ok ()) :
      ∃ e, ofSpending s locking F cache = .ok e ∧
        ∀ f i, ComparesLock e f i → ∃ v, LockOnTop F f.machine.stack v ∧ s.Passes v := by
    obtain ⟨e, e', he, hexecute⟩ := Spending.verify_ok.1 h
    obtain ⟨e₁, -, hrun, -⟩ := Engine.execute_ok.1 hexecute
    exact ⟨e, he, fun f i hlock => hlock.passes hrun he hflag⟩
  refine ⟨hverified, fun e he => ⟨?_, ?_⟩⟩
  · intro f i v f' i' v' hlock htop hlock' htop' hheight htime h
    obtain ⟨e₁, he₁, hpass⟩ := hverified h
    obtain rfl : e = e₁ := Except.ok.inj (he.symm.trans he₁)
    obtain ⟨w, hw, hpasses⟩ := hpass f i hlock
    obtain ⟨w', hw', hpasses'⟩ := hpass f' i' hlock'
    obtain rfl := htop.unique hw
    obtain rfl := htop'.unique hw'
    -- The lock time is a height because of the one lock, and a point in time because of the other.
    exact absurd (hpasses'.kind.2 (hpasses.kind.1 hheight)) (Int.not_lt.2 htime)
  · intro f i v hlock htop hpasses
    exact ⟨(hlock.perform_ok he hflag).2 ⟨rfl, v, htop, hpasses⟩,
      hlock.execute_ok he hflag htop hpasses⟩

/-- A spend of an output locked by a height. Its second script compares two more heights, 1000 and 500,
    and drops them again. -/
def twoHeights : Spending where
  tx :=
    { version := 1
      inputs := [⟨⟨List.replicate 32 0, 0⟩, [], 0xfffffffe,
        [[0x51], [0x02, 0xe8, 0x03, 0xb1, 0x75, 0x02, 0xf4, 0x01, 0xb1, 0x75]]⟩]
      outputs := []
      lockTime := 1500 }
  index := 0
  amount := 1000

/-- The spend is verified, so both heights have passed. -/
theorem verify_lockTimes_twoHeights :
    ∃ e, ofSpending twoHeights [0x08, 0xd0, 0x07, 0, 0, 0, 0, 0, 0] { checkLockTime := true } none =
        .ok e ∧
      ∃ f i f' i', ComparesLock e f i ∧ f.machine.stack = [[0xe8, 0x03], [1]] ∧
        ComparesLock e f' i' ∧ f'.machine.stack = [[0xf4, 0x01], [1]] ∧
        twoHeights.Passes 1000 ∧ twoHeights.Passes 500 ∧
        i.perform f.context f.offset f.machine = .ok () f.machine := by
  have hverified : (twoHeights.verify [0x08, 0xd0, 0x07, 0, 0, 0, 0, 0, 0]
      { checkLockTime := true } none).1 = .ok () := by
    decide +kernel
  have hcompared : (do
      let e ← ofSpending twoHeights [0x08, 0xd0, 0x07, 0, 0, 0, 0, 0, 0]
        { checkLockTime := true } none
      return (comparedStack? 2 e, comparedStack? 5 e)) =
        .ok (some [[0xe8, 0x03], [1]], some [[0xf4, 0x01], [1]]) := by
    decide +kernel
  obtain ⟨e, he, hstacks⟩ := except_bind_ok.1 hcompared
  obtain ⟨h₂, h₅⟩ := Prod.mk.inj (Except.ok.inj hstacks)
  obtain ⟨f, i, hlock, hstack⟩ := exists_comparesLock h₂
  obtain ⟨f', i', hlock', hstack'⟩ := exists_comparesLock h₅
  have htop : LockOnTop { checkLockTime := true } f.machine.stack 1000 :=
    ⟨_, _, hstack, by decide, by decide⟩
  have htop' : LockOnTop { checkLockTime := true } f'.machine.stack 500 :=
    ⟨_, _, hstack', by decide, by decide⟩
  obtain ⟨haccepted, hmade⟩ := verify_lockTimes twoHeights [0x08, 0xd0, 0x07, 0, 0, 0, 0, 0, 0]
    { checkLockTime := true } none rfl
  obtain ⟨e₁, he₁, hpass⟩ := haccepted hverified
  obtain rfl : e = e₁ := Except.ok.inj (he.symm.trans he₁)
  obtain ⟨v, hv, hpasses⟩ := hpass f i hlock
  obtain ⟨v', hv', hpasses'⟩ := hpass f' i' hlock'
  obtain rfl := htop.unique hv
  obtain rfl := htop'.unique hv'
  exact ⟨e, he, f, i, f', i', hlock, hstack, hlock', hstack', hpasses, hpasses',
    ((hmade e he).2 f i 1000 hlock htop hpasses).1⟩

end Engine

end SpendScript

/-
  The run of an input on a log. What an input asks of the cache depends on the answers it has had.
  With a log of these answers in place of the cache (`Replay`) it comes to the first call that they
  do not answer, or to its verdict.

  A log of true answers makes an honest cache, so the verdict is the one without a cache
  (`Job.Answers.resume`). The answer to the call that is asked for takes the input further
  (`Job.Answers.append`), and it asks no more often than it would ask a cache that knows
  nothing (`Job.Answers.length_le`).
-/
import SpendScript.Proofs.CacheTransparency

namespace SpendScript

/-- A call of a cache, and the answer it has had. -/
abbrev Answered := SignatureCache.Call × Bool

/-- A cache that gives the answers of a log. -/
inductive Replay where
  /-- The log has answered all calls so far. -/
  | reading (rest : List Answered)
  /-- This is the first call that the log does not answer. -/
  | asking (call : SignatureCache.Call) (rest : List Answered)

namespace Replay

/-- What has not been read of the log. -/
def rest : Replay → List Answered
  | reading rest => rest
  | asking _ rest => rest

/-- The answer to a call. From the first call that is not answered on, all answers are no. -/
def answer (call : SignatureCache.Call) : Replay → Bool × Replay
  | reading [] => (false, asking call [])
  | reading (entry :: rest) =>
    if entry.1 = call then (entry.2, reading rest) else (false, asking call (entry :: rest))
  | asking first rest => (false, asking first rest)

/-- The log as a cache. -/
def service : CacheService Replay where
  lookup e := answer (.lookup e)
  add e r := (r.answer (.add e)).2

variable {r r' : Replay} {call : SignatureCache.Call} {e : CachedSignature} {entry : Answered}
  {log : List Answered}

theorem answer_cons_self : (reading (entry :: log)).answer entry.1 = (entry.2, reading log) :=
  if_pos rfl

theorem answer_cons_of_ne (h : entry.1 ≠ call) :
    (reading (entry :: log)).answer call = (false, asking call (entry :: log)) := if_neg h

theorem answer_asking (first call : SignatureCache.Call) :
    ((asking first log).answer call).2 = asking first log := rfl

/-- What checking a signature makes of the log. -/
theorem check_snd (e : CachedSignature) (r : Replay) :
    (service.check e r).2 =
      if (r.answer (.lookup e)).1 = false ∧ e.valid = true then
        ((r.answer (.lookup e)).2.answer (.add e)).2
      else (r.answer (.lookup e)).2 := service.check_snd e r

/-! ## Logs that tell the truth -/

/-- The signatures that a log knows are valid. -/
def Sound (log : List Answered) : Prop := ∀ e, (.lookup e, true) ∈ log → e.valid = true

/-- What is still to be read is sound, and what is to be added is valid. -/
structure Truthful (r : Replay) : Prop where
  sound : Sound r.rest
  added : ∀ e rest, r = asking (.add e) rest → e.valid = true

theorem truthful_reading (h : Sound log) : (reading log).Truthful :=
  ⟨h, fun _ _ heq => Replay.noConfusion heq⟩

theorem Truthful.answer (h : r.Truthful) (hcall : ∀ e, call = .add e → e.valid = true) :
    (r.answer call).2.Truthful := by
  match r with
  | reading [] => exact ⟨h.sound, fun e _ heq => hcall e (Replay.asking.inj heq).1⟩
  | reading (entry :: log) =>
    by_cases heq : entry.1 = call
    · rw [← heq, answer_cons_self]
      exact truthful_reading fun e he => h.sound e (List.mem_cons_of_mem _ he)
    · rw [answer_cons_of_ne heq]
      exact ⟨h.sound, fun e _ heq => hcall e (Replay.asking.inj heq).1⟩
  | asking _ _ => exact h

theorem Truthful.of_answer (h : r.Truthful) (hanswer : (r.answer (.lookup e)).1 = true) :
    e.valid = true := by
  match r with
  | reading [] => exact absurd hanswer Bool.false_ne_true
  | reading (entry :: log) =>
    by_cases heq : entry.1 = .lookup e
    · rw [← heq, answer_cons_self] at hanswer
      refine h.sound e (List.mem_cons.2 (Or.inl ?_))
      exact Prod.ext heq.symm hanswer.symm
    · rw [answer_cons_of_ne heq] at hanswer
      exact absurd hanswer Bool.false_ne_true
  | asking _ _ => exact absurd hanswer Bool.false_ne_true

theorem honest_service : service.Honest Truthful where
  known := Truthful.of_answer
  lookup h _ := h.answer fun _ heq => SignatureCache.Call.noConfusion heq
  add h he := h.answer fun _ heq => (SignatureCache.Call.add.inj heq) ▸ he

/-! ## A log with one more answer -/

/-- Once all of the log is read, there is nothing more to read. -/
theorem rest_answer_nil (h : r.rest = []) : (r.answer call).2.rest = [] := by
  match r with
  | reading [] => rfl
  | reading (_ :: _) => exact absurd h (List.cons_ne_nil _ _)
  | asking _ _ => exact h

theorem rest_check_nil (h : r.rest = []) (e : CachedSignature) :
    (service.check e r).2.rest = [] := by
  rw [check_snd]
  split
  · exact rest_answer_nil (rest_answer_nil h)
  · exact rest_answer_nil h

/-- A run on a log, and one on the log with one more answer. When the first one asks the call of that
    answer at the end of its log, the second one has read all of its own. -/
def Longer (entry : Answered) : Replay → Replay → Prop
  | reading log, r' => r' = reading (log ++ [entry])
  | asking first log, r' => log = [] → first = entry.1 → r'.rest = []

theorem Longer.answer (h : Longer entry r r') (call : SignatureCache.Call) :
    Longer entry (r.answer call).2 (r'.answer call).2 ∧
      ((∃ log, (r.answer call).2 = reading log) → (r'.answer call).1 = (r.answer call).1) := by
  match r with
  | reading [] =>
    obtain rfl : r' = reading [entry] := h
    refine ⟨fun _ heq => ?_, fun ⟨_, hread⟩ => Replay.noConfusion hread⟩
    rw [heq, answer_cons_self]
    rfl
  | reading (logged :: log) =>
    obtain rfl : r' = reading (logged :: (log ++ [entry])) := h
    by_cases heq : logged.1 = call
    · rw [← heq, answer_cons_self, answer_cons_self]
      exact ⟨rfl, fun _ => rfl⟩
    · rw [answer_cons_of_ne heq, answer_cons_of_ne heq]
      exact ⟨fun hnil => absurd hnil (List.cons_ne_nil _ _), fun _ => rfl⟩
  | asking first log =>
    exact ⟨fun hnil heq => rest_answer_nil (h hnil heq),
      fun ⟨_, hread⟩ => Replay.noConfusion hread⟩

/-- When the first run does not read any more, the second one may go on alone. -/
theorem Longer.alone {first : SignatureCache.Call} (h : Longer entry (asking first log) r')
    (call : SignatureCache.Call) : Longer entry (asking first log) (r'.answer call).2 :=
  fun hnil heq => rest_answer_nil (h hnil heq)

theorem Longer.check (h : Longer entry r r') (e : CachedSignature) :
    Longer entry (service.check e r).2 (service.check e r').2 := by
  obtain ⟨hlook, hsame⟩ := h.answer (.lookup e)
  rw [check_snd, check_snd]
  rcases hr : (r.answer (.lookup e)).2 with log | ⟨first, log⟩
  · -- Both have read the same answer, so either both add the signature or none does.
    rw [hsame ⟨log, hr⟩, ← hr]
    split
    · exact (hlook.answer (.add e)).1
    · exact hlook
  · rw [hr] at hlook
    rw [answer_asking, ite_self]
    split
    · exact hlook.alone (.add e)
    · exact hlook

/-! ## A log that a cache has written -/

variable {γ : Type} {A : CacheService γ} {c c' : γ}

variable (A) in
/-- The answers of a log are those of the cache from its first state to its last one. -/
def Written : γ → List Answered → γ → Prop
  | c, [], c' => c = c'
  | c, entry :: log, c' =>
    (A.serve entry.1 c).1 = entry.2 ∧ Written (A.serve entry.1 c).2 log c'

/-- As long as the log is read, the cache in this state would write what is left of it. -/
def Ahead (A : CacheService γ) (c' : γ) (c : γ) (r : Replay) : Prop :=
  ∀ log, r = reading log → Written A c log c'

theorem ahead_asking (A : CacheService γ) (call : SignatureCache.Call) :
    Ahead A c' c (asking call log) := fun _ hread => Replay.noConfusion hread

theorem Ahead.serve (h : Ahead A c' c r) (call : SignatureCache.Call) :
    Ahead A c' (A.serve call c).2 (r.answer call).2 ∧
      ((∃ log, (r.answer call).2 = reading log) → (r.answer call).1 = (A.serve call c).1) := by
  match r with
  | reading [] => exact ⟨ahead_asking A _, fun ⟨_, hread⟩ => Replay.noConfusion hread⟩
  | reading (entry :: log) =>
    obtain ⟨hanswer, hlater⟩ := h _ rfl
    by_cases heq : entry.1 = call
    · rw [← heq, answer_cons_self]
      refine ⟨fun log' hread => ?_, fun _ => hanswer.symm⟩
      obtain rfl := Replay.reading.inj hread
      exact hlater
    · rw [answer_cons_of_ne heq]
      exact ⟨ahead_asking A _, fun ⟨_, hread⟩ => Replay.noConfusion hread⟩
  | asking _ _ => exact ⟨ahead_asking A _, fun ⟨_, hread⟩ => Replay.noConfusion hread⟩

theorem Ahead.check (h : Ahead A c' c r) (e : CachedSignature) :
    Ahead A c' (A.check e c).2 (service.check e r).2 := by
  obtain ⟨hlook, hsame⟩ := h.serve (.lookup e)
  rw [check_snd, A.check_snd]
  rcases hr : (r.answer (.lookup e)).2 with log | ⟨first, log⟩
  · have hknown : (r.answer (.lookup e)).1 = (A.lookup e c).1 := hsame ⟨log, hr⟩
    rw [hknown, ← hr]
    split
    · exact (hlook.serve (.add e)).1
    · exact hlook
  · rw [answer_asking, ite_self]
    exact ahead_asking A first

/-! ## How much is read -/

theorem length_rest_le (r : Replay) (call : SignatureCache.Call) :
    r.rest.length ≤ (r.answer call).2.rest.length + 1 := by
  match r with
  | reading [] => exact Nat.zero_le _
  | reading (entry :: log) =>
    by_cases heq : entry.1 = call
    · rw [← heq, answer_cons_self]
      exact Nat.le_refl _
    · rw [answer_cons_of_ne heq]
      exact Nat.le_succ _
  | asking _ _ => exact Nat.le_succ _

end Replay

namespace CacheService

/-- A cache that knows nothing, and counts its calls. -/
def counting : CacheService Nat where
  lookup _ n := (false, n + 1)
  add _ n := n + 1

theorem honest_counting : counting.Honest fun _ => True where
  known _ hknown := absurd hknown Bool.false_ne_true
  lookup _ _ := trivial
  add _ _ := trivial

theorem check_counting (e : CachedSignature) (n : Nat) :
    (counting.check e n).2 = if e.valid = true then n + 2 else n + 1 := by
  unfold check counting
  cases e.valid <;> rfl

end CacheService

open CacheService (counting)

/-- To check a signature, a log is read no further than the cache that knows nothing is called. -/
theorem Replay.length_rest_check_le {k n : Nat} {r : Replay} (e : CachedSignature)
    (h : k ≤ n + r.rest.length) :
    k ≤ (counting.check e n).2 + (service.check e r).2.rest.length := by
  have hlook := r.length_rest_le (.lookup e)
  have hadd := (r.answer (.lookup e)).2.length_rest_le (.add e)
  rw [CacheService.check_counting, check_snd]
  by_cases hvalid : e.valid = true
  · rw [if_pos hvalid]
    split <;> omega
  · rw [if_neg hvalid, if_neg fun h => hvalid h.2]
    omega

/-! ## Inputs and their calls -/

/-- An input of a transaction, the outputs that the transaction spends, and the rules. -/
structure Job where
  tx : Transaction
  spent : List TxOutput
  flags : Flags
  index : Nat

/-- The inputs of a transaction. -/
def Transaction.jobs (tx : Transaction) (spent : List TxOutput) (flags : Flags) (i : Nat) : Job :=
  ⟨tx, spent, flags, i⟩

namespace Job

variable {γ δ : Type} {j : Job} {log : List Answered}

/-- The verdict on the input, found without a cache. -/
def verdict (j : Job) : Verdict := j.tx.verdict j.spent j.flags j.index

/-- Verifies the input with a cache of any kind. -/
def verifyBy (j : Job) (A : CacheService γ) (c : γ) : Verdict × γ :=
  match j.spent[j.index]? with
  | none => (.error (.witness (.inputIndex j.index j.spent.length)), c)
  | some output => Spending.verifyBy ⟨j.tx, j.index, output.amount⟩ A output.script j.flags c

theorem verifyBy_honest {A : CacheService γ} {I : γ → Prop} {c : γ} (j : Job) (hA : A.Honest I)
    (h : I c) : (j.verifyBy A c).1 = j.verdict ∧ I (j.verifyBy A c).2 := by
  unfold verifyBy verdict Transaction.verdict
  rcases j.spent[j.index]? with _ | output
  · exact ⟨rfl, h⟩
  · exact Spending.verifyBy_honest _ _ _ hA h

theorem verifyBy_alike {A : CacheService γ} {B : CacheService δ} {R : γ → δ → Prop} {c : γ} {d : δ}
    (j : Job) (hAB : CacheService.Alike A B R) (h : R c d) :
    R (j.verifyBy A c).2 (j.verifyBy B d).2 := by
  unfold verifyBy
  rcases j.spent[j.index]? with _ | output
  · exact h
  · exact (Spending.verifyBy_alike _ _ _ hAB h).2

/-- The cache of signatures is one kind of cache. -/
theorem verifyAt_eq (tx : Transaction) (spent : List TxOutput) (flags : Flags) (i : Nat)
    (cache : Option SignatureCache) :
    tx.verifyAt spent flags i cache =
      (tx.jobs spent flags i).verifyBy SignatureCache.service cache := by
  unfold Transaction.verifyAt Transaction.jobs verifyBy
  dsimp only
  rcases spent[i]? with _ | output
  · rfl
  · exact Spending.verify_eq _ _ _ _

/-- How often an input calls a cache that knows nothing. -/
def calls (j : Job) : Nat := (j.verifyBy counting 0).2

/-- Runs an input on the answers it has had. -/
def resume (j : Job) (log : List Answered) : Verdict × Replay :=
  j.verifyBy Replay.service (.reading log)

/-- True answers, all of them to calls that the input makes. -/
structure Answers (j : Job) (log : List Answered) : Prop where
  sound : Replay.Sound log
  read : (j.resume log).2.rest = []

namespace Answers

/-- With true answers an input comes to its own verdict, and asks for true additions. -/
theorem resume (h : j.Answers log) :
    (j.resume log).1 = j.verdict ∧ (j.resume log).2.Truthful :=
  j.verifyBy_honest Replay.honest_service (Replay.truthful_reading h.sound)

theorem nil : j.Answers [] where
  sound _ he := absurd he List.not_mem_nil
  read := by
    have halike := Replay.honest_service.alike Replay.honest_service
      (R := fun _ r => r.rest = []) fun e _ _ _ _ hr => Replay.rest_check_nil hr e
    have hstart : (Replay.reading []).Truthful :=
      Replay.truthful_reading fun _ he => absurd he List.not_mem_nil
    exact (j.verifyBy_alike halike ⟨hstart, hstart, rfl⟩).2.2

/-- The answer to the call that the input asks next is one more. -/
theorem append {call : SignatureCache.Call} {rest : List Answered} {known : Bool}
    (h : j.Answers log) (hask : (j.resume log).2 = .asking call rest)
    (hknown : ∀ e, call = .lookup e → known = true → e.valid = true) :
    j.Answers (log ++ [(call, known)]) := by
  have hlonger : Replay.Sound (log ++ [(call, known)]) := by
    intro e he
    rcases List.mem_append.1 he with hold | hnew
    · exact h.sound e hold
    · obtain ⟨hcall, hanswer⟩ := Prod.mk.inj (List.mem_singleton.1 hnew)
      exact hknown e hcall.symm hanswer.symm
  obtain rfl : rest = [] := by
    have hread := h.read
    rw [hask] at hread
    exact hread
  have halike := Replay.honest_service.alike Replay.honest_service
    (R := Replay.Longer (call, known)) fun e _ _ _ _ hr => hr.check e
  have hstart : Replay.Longer (call, known) (.reading log) (.reading (log ++ [(call, known)])) :=
    rfl
  obtain ⟨-, -, hend⟩ := j.verifyBy_alike halike
    ⟨Replay.truthful_reading h.sound, Replay.truthful_reading hlonger, hstart⟩
  change Replay.Longer _ (j.resume log).2 _ at hend
  rw [hask] at hend
  exact ⟨hlonger, hend rfl rfl⟩

/-- There are no more answers than the input has calls to make. -/
theorem length_le (h : j.Answers log) : log.length ≤ j.calls := by
  have halike := CacheService.honest_counting.alike Replay.honest_service
    (R := fun n r => log.length ≤ n + r.rest.length)
    fun e _ _ _ _ hr => Replay.length_rest_check_le e hr
  obtain ⟨-, -, hend⟩ := j.verifyBy_alike halike (c := 0) (d := .reading log)
    ⟨trivial, Replay.truthful_reading h.sound, Nat.le_add_left _ _⟩
  change log.length ≤ j.calls + (j.resume log).2.rest.length at hend
  rw [h.read] at hend
  exact hend

/-- An input that is done with the answers of a cache leaves the cache as its run with it does. -/
theorem cache_eq {A : CacheService γ} {I : γ → Prop} {c c' : γ} {rest : List Answered}
    (h : j.Answers log) (hA : A.Honest I) (hc : I c) (hlog : Replay.Written A c log c')
    (hdone : (j.resume log).2 = .reading rest) : (j.verifyBy A c).2 = c' := by
  have hread := h.read
  have halike := hA.alike Replay.honest_service (R := Replay.Ahead A c')
    fun e _ _ _ _ hr => hr.check e
  have hstart : Replay.Ahead A c' c (.reading log) := by
    intro log' hread
    obtain rfl := Replay.reading.inj hread
    exact hlog
  obtain ⟨-, -, hend⟩ := j.verifyBy_alike halike
    ⟨hc, Replay.truthful_reading h.sound, hstart⟩
  rw [hdone] at hread
  obtain rfl : rest = [] := hread
  exact hend [] hdone

end Answers

end Job

end SpendScript

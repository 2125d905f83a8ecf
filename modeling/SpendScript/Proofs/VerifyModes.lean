/-
  Verifying all inputs of a transaction and verifying one of them agree. The inputs of one run share
  a cache and a single input starts with a fresh one, but the cache never changes a verdict
  (`verdicts_all`, `verdicts_one`); and each output that is given to the run on all inputs is the one
  that the input's own run is given (`mapM_readHex`, `spreadAmounts_only`). What a run prints decides
  how it ends: no failure is worded like a success (`verdictLine_eq_okLine`), so the lines can be
  counted in place of the verdicts (`report_tells`).
-/
import SpendScript.Command.Run
import SpendScript.Proofs.CacheTransparency

namespace SpendScript

/-! ## The wording of failures -/

section

variable {n : Nat} {s t : String}

theorem lt_size_of_left (h : n < s.utf8ByteSize) : n < (s ++ t).utf8ByteSize := by
  rw [String.utf8ByteSize_append]
  exact Nat.lt_add_right _ h

theorem lt_size_of_right (h : n < t.utf8ByteSize) : n < (s ++ t).utf8ByteSize := by
  rw [String.utf8ByteSize_append]
  exact Nat.lt_add_left _ h

end

theorem Number.Error.lt_size_message (e : Number.Error) :
    "ok".utf8ByteSize < e.message.utf8ByteSize := by
  cases e with
  | notMinimal | outOfRange => decide
  | tooLong =>
    unfold message
    repeat with_reducible apply lt_size_of_left
    decide

theorem StackError.lt_size_message (e : StackError) :
    "ok".utf8ByteSize < e.message.utf8ByteSize := by
  cases e with
  | number e => exact e.lt_size_message
  | empty | indexOverflow => decide
  | tooShallow | negativeIndex =>
    unfold message
    repeat with_reducible apply lt_size_of_left
    decide

theorem ParseError.lt_size_message (e : ParseError) :
    "ok".utf8ByteSize < e.message.utf8ByteSize := by
  cases e with
  | scriptTooLarge | malformedPush =>
    unfold message
    repeat with_reducible apply lt_size_of_left
    decide

theorem SignatureError.lt_size_message (e : SignatureError) :
    "ok".utf8ByteSize < e.message.utf8ByteSize := by
  cases e with
  | sigHash => exact lt_size_of_left (by decide)

theorem EncodingError.lt_size_message (e : EncodingError) :
    "ok".utf8ByteSize < e.message.utf8ByteSize := by
  cases e with
  | highS | uncompressedKey => decide
  | der | hashType | publicKey =>
    unfold message
    repeat with_reducible apply lt_size_of_left
    decide

theorem WitnessError.lt_size_message (e : WitnessError) :
    "ok".utf8ByteSize < e.message.utf8ByteSize := by
  cases e with
  | notPushOnly | nonStandard => decide
  | inputIndex | missingElement | programMismatch | unsupportedLockHeight =>
    unfold message
    repeat with_reducible apply lt_size_of_left
    decide

/-- Every failure is worded at more length than a success. -/
theorem ScriptError.lt_size_message (e : ScriptError) :
    "ok".utf8ByteSize < e.message.utf8ByteSize := by
  cases e with
  | parse e => exact e.lt_size_message
  | witness e => exact e.lt_size_message
  | stack e => exact e.lt_size_message
  | number e => exact e.lt_size_message
  | encoding e => exact e.lt_size_message
  | signature e => exact e.lt_size_message
  | missingEndIf | earlyReturn | unfinished | emptyStack | scriptFailed | unsatisfiedLockTime =>
    decide
  -- these two open with the name of an opcode
  | verify | discouragedNop => exact lt_size_of_right (by decide)
  | pastEnd | disabledOpcode | reservedOpcode | invalidOpcode | tooManyOperations | elementTooBig
  | stackOverflow | unbalancedConditional | notMinimalPush | cleanStack | publicKeyCount
  | signatureCount | dummyNotEmpty | negativeLockTime =>
    unfold message
    repeat with_reducible apply lt_size_of_left
    decide

theorem ScriptError.message_ne_ok (e : ScriptError) : e.message ≠ "ok" := by
  intro h
  have hlt := e.lt_size_message
  rw [h] at hlt
  exact Nat.lt_irrefl _ hlt

namespace Command

/-! ## What the lines say of the end of a run -/

/-- The line of an input that is verified. -/
def okLine (index : Nat) : String := s!"input {index}: ok"

theorem okLine_eq (index : Nat) : okLine index = s!"input {index}: " ++ "ok" := by
  have hsplit : ": ok" = ": " ++ "ok" := by decide
  unfold okLine
  rw [hsplit]
  exact (String.append_assoc).symm

theorem verdictLine_eq_okLine (index : Nat) (verdict : Verdict) :
    verdictLine index verdict = okLine index ↔ isFailure verdict = false := by
  rw [okLine_eq]
  cases verdict with
  | ok => exact ⟨fun _ => rfl, fun _ => rfl⟩
  | error e =>
    refine ⟨fun h => ?_, fun h => absurd h Bool.noConfusion⟩
    exact absurd ((String.append_right_inj _).1 h) e.message_ne_ok

/-- How many lines, given for these inputs, say something else than ok. -/
def notOk (indices : List Nat) (lines : List String) : Nat :=
  (indices.zip lines).countP fun p => p.2 ≠ okLine p.1

/-- A report on these inputs: it has a line for each, and they tell how the program ends. It
    succeeds if all of them say ok, otherwise it fails with the number of those that do not. -/
structure Report.Tells (r : Report) (indices : List Nat) : Prop where
  length_eq : r.lines.length = indices.length
  succeeds : r.outcome.status = 0 ↔ ∀ p ∈ indices.zip r.lines, p.2 = okLine p.1
  fails : r.outcome.status ≠ 0 →
    r.failure = some (.verificationFailed (notOk indices r.lines) r.lines.length)

theorem Report.status_eq_zero (r : Report) : r.outcome.status = 0 ↔ r.failure = none := by
  unfold outcome
  cases r.failure with
  | none => exact ⟨fun _ => rfl, fun _ => rfl⟩
  | some e => exact ⟨fun h => absurd h Nat.one_ne_zero, fun h => absurd h (Option.some_ne_none e)⟩

theorem notOk_verdictLine (verdicts : List (Nat × Verdict)) :
    notOk (verdicts.map (·.1)) (verdicts.map fun v => verdictLine v.1 v.2) =
      (verdicts.filter fun v => isFailure v.2).length := by
  unfold notOk
  rw [List.zip_map', List.countP_map, ← List.countP_eq_length_filter]
  refine List.countP_congr fun v _ => ?_
  simp [verdictLine_eq_okLine]

theorem notOk_eq_zero {indices : List Nat} {lines : List String} :
    notOk indices lines = 0 ↔ ∀ p ∈ indices.zip lines, p.2 = okLine p.1 := by
  unfold notOk
  rw [List.countP_eq_zero]
  simp only [decide_eq_true_eq, Decidable.not_not]

theorem VerifyTask.failure_report (t : VerifyTask) :
    t.report.failure =
      if notOk (t.verdicts.map (·.1)) t.report.lines = 0 then none
      else some (.verificationFailed (notOk (t.verdicts.map (·.1)) t.report.lines)
        t.report.lines.length) := by
  unfold report
  dsimp only
  rw [notOk_verdictLine, List.length_map]

/-- Whatever the task is, its report tells how it ends. -/
theorem VerifyTask.report_tells (t : VerifyTask) : t.report.Tells (t.verdicts.map (·.1)) := by
  have hfailure := t.failure_report
  refine ⟨?_, ?_, fun h => ?_⟩
  · rw [List.length_map]
    exact List.length_map _
  · rw [t.report.status_eq_zero, hfailure, ← notOk_eq_zero]
    by_cases hzero : notOk (t.verdicts.map (·.1)) t.report.lines = 0
    · rw [if_pos hzero]
      exact ⟨fun _ => hzero, fun _ => rfl⟩
    · rw [if_neg hzero]
      exact ⟨fun h => absurd h (Option.some_ne_none _), fun h => absurd h hzero⟩
  · rw [Ne, t.report.status_eq_zero, hfailure] at h
    rw [hfailure]
    exact if_neg fun hzero => h (if_pos hzero)

/-! ## Verdicts on all inputs and on one -/

namespace VerifyTask

variable {t : VerifyTask}

/-- Of all inputs, each gets the verdict it gets without a cache. -/
theorem verdicts_all (h : t.inputIndex = none) :
    t.verdicts =
      (List.range t.tx.inputs.length).map fun i => (i, t.tx.verdict t.spent t.flags i) := by
  have hverdicts := (Transaction.verifyEach_trusted t.tx t.spent t.flags
    (List.range t.tx.inputs.length) (trusted_empty t.cacheCapacity)).1
  unfold verdicts
  rw [h]
  dsimp only
  unfold Transaction.verifyInputs
  rw [hverdicts]
  refine List.ext_getElem (by simp) fun i hi _ => ?_
  simp

/-- So does an input on its own. -/
theorem verdicts_one {index : Nat} {output : TxOutput} (h : t.inputIndex = some index)
    (hspent : t.spent = [output]) :
    t.verdicts =
      [(index, (Spending.verify ⟨t.tx, index, output.amount⟩ output.script t.flags none).1)] := by
  unfold verdicts
  rw [h, hspent]
  dsimp only
  rw [(Spending.verify_trusted _ _ _ (trusted_empty t.cacheCapacity)).1]

/-- The line of an input in a run on all of them is what a run on this input prints. -/
theorem lines_all_eq_one {i : Nat} {output : TxOutput} (hall : t.inputIndex = none)
    (hi : i < t.tx.inputs.length) (hspent : t.spent[i]? = some output) :
    ∃ line, t.report.lines[i]? = some line ∧
      ({ t with spent := [output], inputIndex := some i } : VerifyTask).report.lines = [line] := by
  have hverdict : t.tx.verdict t.spent t.flags i =
      (Spending.verify ⟨t.tx, i, output.amount⟩ output.script t.flags none).1 := by
    unfold Transaction.verdict
    rw [hspent]
  refine ⟨verdictLine i (t.tx.verdict t.spent t.flags i), ?_, ?_⟩
  · unfold report
    rw [verdicts_all hall]
    simp [hi]
  · unfold report
    rw [verdicts_one rfl rfl, hverdict]
    rfl

end VerifyTask

/-! ## The request for one input -/

/-- What a request reads, once all parts of it can be read and their numbers fit. -/
theorem VerifyRequest.task_ok {r : VerifyRequest} {tx : Transaction} {count : Nat}
    {amounts : List Nat} {scripts : List Bytes} (htx : readTransaction r.tx = .ok tx)
    (hexpected : expectedOutputs tx r.inputIndex = .ok count)
    (hcount : r.lockingScripts.length = count)
    (hamounts : spreadAmounts r.amounts count = .ok amounts)
    (hscripts : r.lockingScripts.mapM readHex = .ok scripts) :
    r.task = .ok {
      tx := tx
      spent := List.zipWith (fun amount script => ⟨UInt64.ofNat amount, script⟩) amounts scripts
      inputIndex := r.inputIndex
      flags := r.flags
      cacheCapacity := r.cacheCapacity } := by
  unfold task
  rw [htx, hscripts]
  dsimp only [bind, Except.bind]
  rw [hexpected]
  dsimp only
  rw [hamounts, if_neg (not_not_intro hcount)]
  rfl

/-- The request to verify only the input at a place. It gives the script at that place and the
    amount at that place, or the only one. -/
def VerifyRequest.only (r : VerifyRequest) (index : Nat) : VerifyRequest :=
  { r with
    inputIndex := some index
    lockingScripts := r.lockingScripts[index]?.toList
    amounts := if r.amounts.length = 1 then r.amounts else r.amounts[index]?.toList }

theorem exists_of_isOk {ε α : Type} {x : Except ε α} (h : x.isOk) : ∃ a, x = .ok a := by
  cases x with
  | ok a => exact ⟨a, rfl⟩
  | error e => exact absurd h Bool.false_ne_true

theorem mapM_readHex {texts : List String} (h : ∀ text ∈ texts, (readHex text).isOk) :
    ∃ scripts, texts.mapM readHex = .ok scripts ∧
      ∀ i < texts.length, ∃ script, scripts[i]? = some script ∧
        (texts[i]?.toList).mapM readHex = .ok [script] := by
  induction texts with
  | nil => exact ⟨[], rfl, fun i hi => absurd hi (Nat.not_lt_zero i)⟩
  | cons text texts ih =>
    obtain ⟨script, hscript⟩ := exists_of_isOk (h text List.mem_cons_self)
    obtain ⟨scripts, hscripts, hat⟩ := ih fun text' hmem => h text' (List.mem_cons_of_mem _ hmem)
    have hone : [text].mapM readHex = .ok [script] := by
      rw [List.mapM_cons, hscript]
      rfl
    refine ⟨script :: scripts, ?_, fun i hi => ?_⟩
    · rw [List.mapM_cons, hscript, hscripts]
      rfl
    · cases i with
      | zero => exact ⟨script, rfl, hone⟩
      | succ i => exact hat i (Nat.lt_of_succ_lt_succ hi)

theorem spreadAmounts_of_length {amounts : List Nat} {count : Nat} (hmany : amounts.length ≠ 1)
    (h : amounts.length = count) : spreadAmounts amounts count = .ok amounts := by
  unfold spreadAmounts
  split
  · exact absurd rfl hmany
  · exact if_pos h

theorem spreadAmounts_only {r : VerifyRequest} {count : Nat}
    (h : r.amounts.length = 1 ∨ r.amounts.length = count) :
    ∃ amounts, spreadAmounts r.amounts count = .ok amounts ∧
      ∀ i < count, ∃ amount, amounts[i]? = some amount ∧
        spreadAmounts (r.only i).amounts 1 = .ok [amount] := by
  unfold VerifyRequest.only
  dsimp only
  by_cases hsingle : r.amounts.length = 1
  · obtain ⟨amount, hamount⟩ := List.length_eq_one_iff.1 hsingle
    rw [hamount]
    refine ⟨List.replicate count amount, rfl, fun i hi => ?_⟩
    exact ⟨amount, List.getElem?_replicate_of_lt hi, rfl⟩
  · have hlength : r.amounts.length = count := h.resolve_left hsingle
    refine ⟨r.amounts, spreadAmounts_of_length hsingle hlength, fun i hi => ?_⟩
    have hat := List.getElem?_eq_getElem (hlength ▸ hi)
    refine ⟨_, hat, ?_⟩
    rw [if_neg hsingle, hat]
    rfl

/-- The task of the request for one input is that of the request for all with only the output that
    this input spends. -/
theorem VerifyRequest.task_only {r : VerifyRequest} {tx : Transaction}
    (htx : readTransaction r.tx = .ok tx) (hall : r.inputIndex = none)
    (hcount : r.lockingScripts.length = tx.inputs.length)
    (hscripts : ∀ text ∈ r.lockingScripts, (readHex text).isOk)
    (hamounts : r.amounts.length = 1 ∨ r.amounts.length = tx.inputs.length) :
    ∃ t, r.task = .ok t ∧ t.tx = tx ∧ t.inputIndex = none ∧
      ∀ i < tx.inputs.length, ∃ output, t.spent[i]? = some output ∧
        (r.only i).task = .ok { t with spent := [output], inputIndex := some i } := by
  obtain ⟨scripts, hread, hscriptAt⟩ := mapM_readHex hscripts
  obtain ⟨amounts, hspread, hamountAt⟩ := spreadAmounts_only hamounts
  have hexpected : expectedOutputs tx r.inputIndex = .ok tx.inputs.length := by
    rw [hall]
    rfl
  refine ⟨_, task_ok htx hexpected hcount hspread hread, rfl, hall, fun i hi => ?_⟩
  obtain ⟨script, hscript, hreadOne⟩ := hscriptAt i (hcount ▸ hi)
  obtain ⟨amount, hamount, hspreadOne⟩ := hamountAt i hi
  have hcountOne : (r.only i).lockingScripts.length = 1 := by
    unfold only
    rw [List.getElem?_eq_getElem (hcount ▸ hi)]
    rfl
  refine ⟨⟨UInt64.ofNat amount, script⟩, ?_, ?_⟩
  · rw [List.getElem?_zipWith, hamount, hscript]
  · exact task_ok (r := r.only i) htx (if_pos hi) hcountOne hspreadOne hreadOne

theorem Request.report_verify {r : VerifyRequest} {t : VerifyTask} (h : r.task = .ok t) :
    (Request.verify r).report = t.report := by
  unfold report
  dsimp only
  rw [h]

/-! ## Main result -/

/-- **The two ways to verify agree.** A request to verify all inputs, whose transaction and scripts
    can be read, with a script for each input and either one amount or one for each, prints a line
    for each input in order. The line of an input is all that the request for this input prints.
    Either request succeeds exactly if all it prints says ok, and otherwise fails with the number of
    lines that do not, out of all. -/
theorem VerifyRequest.report_all_eq_only {r : VerifyRequest} {tx : Transaction}
    (htx : readTransaction r.tx = .ok tx) (hall : r.inputIndex = none)
    (hcount : r.lockingScripts.length = tx.inputs.length)
    (hscripts : ∀ text ∈ r.lockingScripts, (readHex text).isOk)
    (hamounts : r.amounts.length = 1 ∨ r.amounts.length = tx.inputs.length) :
    (Request.verify r).report.Tells (List.range tx.inputs.length) ∧
      ∀ i < tx.inputs.length,
        (Request.verify (r.only i)).report.Tells [i] ∧
          ∃ line, (Request.verify r).report.lines[i]? = some line ∧
            (Request.verify (r.only i)).report.lines = [line] := by
  obtain ⟨t, htask, rfl, hindex, honly⟩ := task_only htx hall hcount hscripts hamounts
  rw [Request.report_verify htask]
  refine ⟨?_, fun i hi => ?_⟩
  · have htells := t.report_tells
    rw [VerifyTask.verdicts_all hindex, List.map_map] at htells
    simpa [Function.comp_def] using htells
  · obtain ⟨output, hspent, hone⟩ := honly i hi
    rw [Request.report_verify hone]
    refine ⟨?_, VerifyTask.lines_all_eq_one hindex hi hspent⟩
    have htells := VerifyTask.report_tells { t with spent := [output], inputIndex := some i }
    rw [VerifyTask.verdicts_one rfl rfl] at htells
    exact htells

/-- A request about two inputs that show the item one. The first spends an output that names the
    hash of its redeem script, which drops the item and leaves one. The output that the second spends
    is locked by a height, and its redeem script leaves an empty item. -/
def twoInputs : VerifyRequest where
  tx :=
    "01000000" ++ "000102" ++
    "0000000000000000000000000000000000000000000000000000000000000000ffffffff00ffffffff" ++
    "0000000000000000000000000000000000000000000000000000000000000000ffffffff00ffffffff" ++
    "00" ++ "020151027551" ++ "020151027500" ++ "00000000"
  lockingScripts :=
    ["0x002033198a9bfef674ebddb9ffaa52928017b8472791e54c609cb95f278ac6b1e349",
      "08d007000000000000"]
  amounts := [1000]
  inputIndex := none
  cacheCapacity := 10
  flags := {}

/-- The transaction of that request. -/
def twoInputsTx : Transaction where
  version := 1
  inputs := [[[0x51], [0x75, 0x51]], [[0x51], [0x75, 0x00]]].map fun witness =>
    { outPoint := ⟨List.replicate 32 0, 0xffffffff⟩, script := [], sequence := 0xffffffff,
      witness := witness }
  outputs := []
  lockTime := 0

/-- One input is verified and the other is not, in one run as in two. -/
theorem report_twoInputs :
    readTransaction twoInputs.tx = .ok twoInputsTx ∧
      (∀ text ∈ twoInputs.lockingScripts, (readHex text).isOk) ∧
      (Request.verify twoInputs).report.Tells [0, 1] ∧
      (Request.verify (twoInputs.only 0)).report.lines = ["input 0: ok"] ∧
      (Request.verify (twoInputs.only 1)).report.lines =
        ["input 1: script terminated with a false stack element"] := by
  -- one evaluation, so that the long text is decoded only once
  have hreads : (readTransaction twoInputs.tx = .ok twoInputsTx ∧
      ∀ text ∈ twoInputs.lockingScripts, (readHex text).isOk) ∧
      (Request.verify twoInputs).report.lines =
        ["input 0: ok", "input 1: script terminated with a false stack element"] := by
    decide +kernel
  obtain ⟨⟨htx, hscripts⟩, hlines⟩ := hreads
  obtain ⟨htells, hone⟩ := VerifyRequest.report_all_eq_only htx rfl rfl hscripts (.inl rfl)
  rw [hlines] at hone
  refine ⟨htx, hscripts, htells, ?_, ?_⟩
  · obtain ⟨-, _, hline, h⟩ := hone 0 (by decide)
    cases hline
    exact h
  · obtain ⟨-, _, hline, h⟩ := hone 1 (by decide)
    cases hline
    exact h

end Command

end SpendScript

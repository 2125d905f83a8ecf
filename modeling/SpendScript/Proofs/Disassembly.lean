/-
  What a disassembly shows. Nothing is lost in it: the lines of a script tell its bytes
  (`Script.eq_of_texts`), since a line begins with the name of an opcode, the name tells whether an
  operand follows, and the operand is written out. And it is the same wherever it is written: the line
  of the next instruction is a line of the script's text (`Engine.nextText_eq_line`), and the listing
  of a witness is made of the texts of its two scripts (`Engine.run_disassemble`).
-/
import Mathlib.Data.List.TakeWhile
import SpendScript.Command.Run
import SpendScript.Proofs.Engine.Calls
import SpendScript.Proofs.Opcode.Name

namespace SpendScript

/-! ## Digits -/

namespace Hex

theorem plain_digit : ∀ n < 16, Plain (digit n) := by decide

theorem plain_digitChar : ∀ n < 16, Plain (Nat.digitChar n) := by decide

theorem eq_of_digit : ∀ m < 16, ∀ n < 16, digit m = digit n → m = n := by decide

theorem eq_of_byteDigits {b b' : UInt8} (h : byteDigits b = byteDigits b') : b = b' := by
  obtain ⟨hhigh, hrest⟩ := List.cons_eq_cons.1 h
  obtain ⟨hlow, -⟩ := List.cons_eq_cons.1 hrest
  have hb := b.toNat_lt
  have hb' := b'.toNat_lt
  have hdiv := eq_of_digit _ (by omega) _ (by omega) hhigh
  have hmod := eq_of_digit _ (by omega) _ (by omega) hlow
  exact UInt8.toNat_inj.1 (by omega)

/-- **Different bytes have different digits.** -/
theorem encode_inj {bs bs' : Bytes} (h : encode bs = encode bs') : bs = bs' := by
  replace h : bs.flatMap byteDigits = bs'.flatMap byteDigits := String.ofList_inj.1 h
  induction bs generalizing bs' with
  | nil =>
    cases bs' with
    | nil => rfl
    | cons => cases h
  | cons b bs ih =>
    cases bs' with
    | nil => cases h
    | cons b' bs' =>
      rw [List.flatMap_cons, List.flatMap_cons] at h
      obtain ⟨hb, hbs⟩ := List.append_inj h rfl
      rw [eq_of_byteDigits hb, ih hbs]

theorem plain_of_mem_encode {bs : Bytes} {c : Char} (h : c ∈ (encode bs).toList) : Plain c := by
  unfold encode at h
  rw [String.toList_ofList] at h
  obtain ⟨b, -, hb⟩ := List.mem_flatMap.1 h
  have hlt := b.toNat_lt
  rcases List.mem_pair.1 hb with rfl | rfl
  · exact plain_digit _ (by omega)
  · exact plain_digit _ (by omega)

theorem plain_of_mem_toDigits {n : Nat} {c : Char} (h : c ∈ Nat.toDigits 16 n) : Plain c := by
  induction n using Nat.strongRecOn with
  | ind n ih =>
    rw [Nat.toDigits_eq_if (by decide)] at h
    split at h
    · next hn =>
      rw [List.mem_singleton.1 h]
      exact plain_digitChar n hn
    · next hn =>
      rcases List.mem_append.1 h with h | h
      · exact ih (n / 16) (by omega) h
      · rw [List.mem_singleton.1 h]
        exact plain_digitChar _ (Nat.mod_lt n (by decide))

theorem plain_of_mem_ofNatPadded {width n : Nat} {c : Char}
    (h : c ∈ (ofNatPadded width n).toList) : Plain c := by
  unfold ofNatPadded at h
  rw [String.toList_ofList] at h
  rcases List.mem_append.1 h with h | h
  · rw [List.eq_of_mem_replicate h]
    decide
  · exact plain_of_mem_toDigits h

end Hex

/-! ## One instruction -/

namespace Instruction

/-- The opcode has no operand to show. -/
def Bare (i : Instruction) : Prop := i.opcode.operandForm = .none ∨ i.opcode.operandForm = .fixed 0

theorem text_of_bare {i : Instruction} (h : i.Bare) : i.text = i.opcode.name := by
  unfold text
  rcases h with h | h
  · rw [h]
  · rw [h]
    rfl

theorem text_of_not_bare {i : Instruction} (h : ¬ i.Bare) :
    i.text = i.opcode.name ++ " 0x" ++ Hex.encode i.data := by
  unfold Bare at h
  unfold text
  split
  · next hform => exact absurd (.inl hform) h
  · next hform => exact absurd (.inr hform) h
  · rfl

theorem data_of_bare {i : Instruction} (h : i.Bare) (hi : i.WellFormed) : i.data = [] := by
  unfold WellFormed at hi
  rcases h with h | h
  · rwa [h] at hi
  · rw [h] at hi
    exact List.length_eq_zero_iff.1 hi

/-- The text begins with the name of the opcode, up to the first blank if there is one. -/
theorem takeWhile_text (i : Instruction) :
    i.text.toList.takeWhile (fun c => c ≠ ' ') = i.opcode.name.toList := by
  have hname : ∀ c ∈ i.opcode.name.toList, decide (c ≠ ' ') = true := fun c hc =>
    decide_eq_true (Opcode.plain_of_mem_name hc).1
  by_cases h : i.Bare
  · rw [text_of_bare h, List.takeWhile_eq_self_iff.2 hname]
  · rw [text_of_not_bare h, String.append_assoc, String.toList_append,
      List.takeWhile_append_of_pos hname, String.toList_append]
    exact List.append_nil _

/-- **The text of an instruction tells the instruction.** -/
theorem eq_of_text {i j : Instruction} (hi : i.WellFormed) (hj : j.WellFormed)
    (h : i.text = j.text) : i = j := by
  have hopcode : i.opcode = j.opcode := by
    have htake := takeWhile_text i
    rw [h, takeWhile_text j] at htake
    exact Opcode.eq_of_name (String.toList_inj.1 htake.symm)
  have hiff : i.Bare ↔ j.Bare := by rw [Bare, Bare, hopcode]
  have hdata : i.data = j.data := by
    by_cases hbare : i.Bare
    · rw [data_of_bare hbare hi, data_of_bare (hiff.1 hbare) hj]
    · rw [text_of_not_bare hbare, text_of_not_bare (mt hiff.2 hbare), hopcode] at h
      exact Hex.encode_inj ((String.append_right_inj _).1 h)
  cases i
  cases j
  dsimp only at hopcode hdata
  rw [hopcode, hdata]

theorem ne_newline_of_mem_text {i : Instruction} {c : Char} (h : c ∈ i.text.toList) :
    c ≠ '\n' := by
  by_cases hbare : i.Bare
  · rw [text_of_bare hbare] at h
    exact (Opcode.plain_of_mem_name h).2
  · rw [text_of_not_bare hbare, String.toList_append, String.toList_append] at h
    rcases List.mem_append.1 h with h | h
    · rcases List.mem_append.1 h with h | h
      · exact (Opcode.plain_of_mem_name h).2
      · have hmark : (" 0x".toList.all fun c => c != '\n') = true := rfl
        exact bne_iff_ne.1 (List.all_eq_true.1 hmark c h)
    · exact (Hex.plain_of_mem_encode h).2

end Instruction

/-! ## The lines of a script -/

/-- The lines of a text, each without the end of the line. Behind the last end of a line stands an
    empty one. -/
def textLines (text : String) : List String := (text.toList.splitOn '\n').map String.ofList

/-- Lines that are printed one after the other are the lines of the text. -/
theorem textLines_join {lines : List String} (h : ∀ line ∈ lines, '\n' ∉ line.toList) :
    textLines (String.join (lines.map (· ++ "\n"))) = lines ++ [""] := by
  unfold textLines
  induction lines with
  | nil => rfl
  | cons line lines ih =>
    have hline : '\n' ∉ line.toList := h line List.mem_cons_self
    have hlines := ih fun l hl => h l (List.mem_cons_of_mem line hl)
    have hchars : (String.join ((line :: lines).map (· ++ "\n"))).toList =
        line.toList ++ '\n' :: (String.join (lines.map (· ++ "\n"))).toList := by
      rw [List.map_cons, String.join_cons, String.toList_append, String.toList_append,
        List.append_assoc]
      rfl
    rw [hchars, List.splitOn_append_cons_self_of_not_mem hline, List.map_cons, hlines,
      String.ofList_toList]
    rfl

namespace Script

/-- Two scripts with the same lines are the same. -/
theorem eq_of_texts {s t : Script} (hs : ∀ i ∈ s, i.WellFormed) (ht : ∀ i ∈ t, i.WellFormed)
    (h : s.map Instruction.text = t.map Instruction.text) : s = t := by
  induction s generalizing t with
  | nil => exact (List.map_eq_nil_iff.1 h.symm).symm
  | cons i s ih =>
    cases t with
    | nil => cases h
    | cons j t =>
      obtain ⟨htext, htexts⟩ := List.cons_eq_cons.1 h
      have hi := Instruction.eq_of_text (hs i List.mem_cons_self) (ht j List.mem_cons_self) htext
      have hrest := ih (fun k hk => hs k (List.mem_cons_of_mem i hk))
        (fun k hk => ht k (List.mem_cons_of_mem j hk)) htexts
      rw [hi, hrest]

/-- **Nothing is lost in a disassembly.** -/
theorem eq_of_parsed_texts {a b : Bytes} {s t : Script} (ha : parse a = .ok s)
    (hb : parse b = .ok t) (h : s.map Instruction.text = t.map Instruction.text) : a = b := by
  have hscript := eq_of_texts (wellFormed_of_parse ha) (wellFormed_of_parse hb) h
  rw [← toBytes_of_parse ha, ← toBytes_of_parse hb, hscript]

theorem newline_not_mem_lineText (index offset : Nat) (i : Instruction) :
    '\n' ∉ (lineText index offset i).toList := by
  intro h
  unfold lineText positionText at h
  simp only [String.toList_append, List.mem_append] at h
  rcases h with (((h | h) | h) | h) | h
  · exact (Hex.plain_of_mem_ofNatPadded h).2 rfl
  · exact absurd h (by decide)
  · exact (Hex.plain_of_mem_ofNatPadded h).2 rfl
  · exact absurd h (by decide)
  · exact Instruction.ne_newline_of_mem_text h rfl

theorem getElem?_lines (index : Nat) (s : Script) (offset : Nat) :
    (lines index s)[offset]? = s[offset]?.map (lineText index offset) := by
  unfold lines
  rw [List.getElem?_map, List.getElem?_zipIdx, Option.map_map]
  simp only [Function.comp_def, Nat.zero_add]

/-- The lines of a script's text are those of its instructions. -/
theorem textLines_lines (index : Nat) (s : Script) :
    textLines (String.join ((lines index s).map (· ++ "\n"))) = lines index s ++ [""] := by
  refine textLines_join fun line hline => ?_
  obtain ⟨⟨i, offset⟩, -, rfl⟩ := List.mem_map.1 hline
  exact newline_not_mem_lineText index offset i

end Script

/-! ## Listings -/

namespace Engine

variable {σ : Type} {c : Checker σ} {F : Flags} {start : σ} {locking w₀ w₁ : Bytes}
  {rest : List Bytes} {e f : Engine σ}

theorem scriptText_of_getElem? {index : Nat} {script : Script}
    (h : f.scripts[index]? = some script) :
    f.scriptText index = .ok (String.join ((Script.lines index script).map (· ++ "\n"))) := by
  unfold scriptText
  rw [h]

theorem nextText_of_getElem? {script : Script} {i : Instruction}
    (hscript : f.scripts[f.scriptIndex]? = some script) (hi : script[f.offset]? = some i) :
    f.nextText = .ok (Script.lineText f.scriptIndex f.offset i) := by
  unfold nextText next? Engine.script
  rw [List.getD_eq_getElem?_getD, hscript, Option.getD_some, hi]

/-- **The line of the next instruction stands at its place in the text of the running script.** -/
theorem nextText_eq_line {script : Script} (hscript : f.scripts[f.scriptIndex]? = some script)
    (hoffset : f.offset < script.length) :
    ∃ line text, f.nextText = .ok line ∧ f.scriptText f.scriptIndex = .ok text ∧
      (textLines text)[f.offset]? = some line := by
  have hi : script[f.offset]? = some script[f.offset] := List.getElem?_eq_getElem hoffset
  refine ⟨_, _, nextText_of_getElem? hscript hi, scriptText_of_getElem? hscript, ?_⟩
  have hline := Script.getElem?_lines f.scriptIndex script f.offset
  rw [hi, Option.map_some] at hline
  have hlt := (List.getElem?_eq_some_iff.1 hline).1
  rw [Script.textLines_lines, List.getElem?_append_left hlt, hline]

/-- The first two scripts are those of the witness, whatever the engine does. -/
theorem scripts_of_calls (he : ofWitness locking (w₀ :: w₁ :: rest) F c start = .ok e)
    (hf : Calls e f) :
    ∃ s₀ s₁, Script.parse w₀ = .ok s₀ ∧ Script.parse w₁ = .ok s₁ ∧
      f.scripts[0]? = some s₀ ∧ f.scripts[1]? = some s₁ := by
  obtain ⟨_, s₀, s₁, -, h₀, h₁, rfl⟩ := ofWitness_ok.1 he
  have hscripts := (hf.kept (kept_of_ofWitness he)).scripts
  refine ⟨s₀, s₁, h₀, h₁, ?_⟩
  split at hscripts <;> rw [hscripts] <;> exact ⟨rfl, rfl⟩

end Engine

namespace Command

theorem scriptLines_pair {w₀ w₁ : Bytes} {s₀ s₁ : Script} (h₀ : Script.parse w₀ = .ok s₀)
    (h₁ : Script.parse w₁ = .ok s₁) :
    scriptLines [w₀, w₁] = .ok (Script.lines 0 s₀ ++ Script.lines 1 s₁) := by
  unfold scriptLines
  rw [List.mapM_cons, List.mapM_cons, List.mapM_nil, h₀, h₁]
  change Except.ok (Script.lines 0 s₀ ++ (Script.lines 1 s₁ ++ [])) = _
  rw [List.append_nil]

/-- The listing of a witness of two elements is made of the lines of its scripts. -/
theorem render_witness {r : DisassembleRequest} {index : Nat} {tx : Transaction} {i : TxInput}
    {w₀ w₁ : Bytes} {s₀ s₁ : Script} (hlines : r.lines = true) (hwitness : r.witness = some index)
    (htx : readTransaction r.input = .ok tx) (hi : tx.inputs[index]? = some i)
    (hpair : i.witness = [w₀, w₁]) (h₀ : Script.parse w₀ = .ok s₀)
    (h₁ : Script.parse w₁ = .ok s₁) :
    r.render = .ok (Script.lines 0 s₀ ++ Script.lines 1 s₁) := by
  have hscripts : r.scripts = .ok [w₀, w₁] := by
    unfold DisassembleRequest.scripts
    rw [hwitness]
    refine except_bind_ok.2 ⟨tx, htx, ?_⟩
    rw [hi]
    exact congrArg Except.ok hpair
  unfold DisassembleRequest.render
  rw [hscripts]
  change (if r.lines then _ else _) = _
  rw [if_pos hlines, scriptLines_pair h₀ h₁]

/-- A listing is printed and the program ends well. -/
theorem run_of_render {args : List String} {r : DisassembleRequest} {lines : List String}
    (hargs : Request.ofArguments? args = some (.disassemble r)) (h : r.render = .ok lines) :
    run args = ⟨0, String.join (lines.map (· ++ "\n")), some ""⟩ := by
  unfold run Request.report
  rw [hargs]
  dsimp only
  rw [h]
  rfl

end Command

open Command (DisassembleRequest Request Outcome readTransaction)

/-- **Disassembly is faithful.** Scripts with the same lines are the same bytes. The line of the next
    instruction is a line of the text of its script. And when an engine can be made from a witness of
    two elements, the listing of the witness is the text of the engine's first script and then that of
    its second, however far the engine has come. -/
theorem disassembly_faithful {σ : Type} :
    (∀ {a b : Bytes} {s t : Script}, Script.parse a = .ok s → Script.parse b = .ok t →
      s.map Instruction.text = t.map Instruction.text → a = b) ∧
    (∀ {f : Engine σ} {script : Script}, f.scripts[f.scriptIndex]? = some script →
      f.offset < script.length →
      ∃ line text, f.nextText = .ok line ∧ f.scriptText f.scriptIndex = .ok text ∧
        (textLines text)[f.offset]? = some line) ∧
    (∀ {args : List String} {r : DisassembleRequest} {index : Nat} {tx : Transaction} {i : TxInput}
      {locking : Bytes} {flags : Flags} {c : Checker σ} {start : σ} {e f : Engine σ},
      Request.ofArguments? args = some (.disassemble r) → r.lines = true →
      r.witness = some index → readTransaction r.input = .ok tx → tx.inputs[index]? = some i →
      i.witness.length = 2 → Engine.ofWitness locking i.witness flags c start = .ok e →
      Engine.Calls e f →
      ∃ t₀ t₁, f.scriptText 0 = .ok t₀ ∧ f.scriptText 1 = .ok t₁ ∧
        Command.run args = ⟨0, t₀ ++ t₁, some ""⟩) := by
  refine ⟨Script.eq_of_parsed_texts, Engine.nextText_eq_line, ?_⟩
  intro args r index tx i locking flags c start e f hargs hlines hwitness htx hi hlength he hf
  obtain ⟨w₀, w₁, hpair⟩ := List.length_eq_two.1 hlength
  rw [hpair] at he
  obtain ⟨s₀, s₁, h₀, h₁, hs₀, hs₁⟩ := Engine.scripts_of_calls he hf
  refine ⟨_, _, Engine.scriptText_of_getElem? hs₀, Engine.scriptText_of_getElem? hs₁, ?_⟩
  have hrender := Command.render_witness hlines hwitness htx hi hpair h₀ h₁
  rw [Command.run_of_render hargs hrender, List.map_append, String.join_append]

/-- A transaction of one input, whose witness is `1` and then `drop 1`. -/
def listedTransaction : String :=
  "01000000" ++ "000101" ++
  "0000000000000000000000000000000000000000000000000000000000000000ffffffff00ffffffff" ++
  "00" ++ "020151027551" ++ "00000000"

/-- The witness is listed while its second script is at its last instruction. Two pushes of nothing
    are told apart. -/
theorem disassembly_faithful_twoScripts :
    ([⟨⟨0x4c⟩, []⟩] : Script).map Instruction.text ≠ ([⟨⟨0x00⟩, []⟩] : Script).map Instruction.text ∧
    ∃ e f : Engine Unit,
      Engine.ofWitness [0x08, 0xd0, 0x07, 0, 0, 0, 0, 0, 0] [[0x51], [0x75, 0x51]] {} .accepting () =
        .ok e ∧
      Engine.Calls e f ∧ f.scriptIndex = 1 ∧ f.offset = 1 ∧
      (∃ text, f.scriptText 1 = .ok text ∧
        (textLines text)[1]? = some "01:0001: OP_PUSHNUM_1") ∧
      ∃ t₀ t₁, f.scriptText 0 = .ok t₀ ∧ f.scriptText 1 = .ok t₁ ∧
        Command.run ["disasm", "--witness", "0", "--lines", listedTransaction] =
          ⟨0, t₀ ++ t₁, some ""⟩ := by
  have hcounted : Script.parse [0x4c, 0x00] = .ok [⟨⟨0x4c⟩, []⟩] := by decide +kernel
  have hdirect : Script.parse [0x00] = .ok [⟨⟨0x00⟩, []⟩] := by decide +kernel
  have hargs : Request.ofArguments? ["disasm", "--witness", "0", "--lines", listedTransaction] =
      some (.disassemble ⟨listedTransaction, some 0, true⟩) := by
    decide +kernel
  have htx : (do
      let tx ← readTransaction listedTransaction
      return (Transaction.inputs tx)[0]?.map TxInput.witness) = .ok (some [[0x51], [0x75, 0x51]]) := by
    decide +kernel
  have hrun : (do
      let e ← Engine.ofWitness [0x08, 0xd0, 0x07, 0, 0, 0, 0, 0, 0] [[0x51], [0x75, 0x51]] {}
        .accepting ()
      let f := Engine.reached 2 e
      return ((f.scriptIndex, f.offset), f.scripts, f.nextText)) =
      .ok ((1, 1), [[⟨⟨0x51⟩, []⟩], [⟨⟨0x75⟩, []⟩, ⟨⟨0x51⟩, []⟩]], .ok "01:0001: OP_PUSHNUM_1") := by
    decide +kernel
  obtain ⟨tx, hread, hinput⟩ := except_bind_ok.1 htx
  obtain ⟨i, hi, hwitness⟩ := Option.map_eq_some_iff.1 (Except.ok.inj hinput)
  obtain ⟨e, he, hreached⟩ := except_bind_ok.1 hrun
  obtain ⟨hplace, hlisted⟩ := Prod.mk.inj (Except.ok.inj hreached)
  obtain ⟨hindex, hoffset⟩ := Prod.mk.inj hplace
  obtain ⟨hscripts, hnext⟩ := Prod.mk.inj hlisted
  have hsecond : (Engine.reached 2 e).scripts[1]? = some [⟨⟨0x75⟩, []⟩, ⟨⟨0x51⟩, []⟩] := by
    rw [hscripts]
    rfl
  have hcalls : Engine.Calls e (Engine.reached 2 e) := Engine.Calls.start.reached 2
  obtain ⟨lossless, consistent, listed⟩ := disassembly_faithful (σ := Unit)
  refine ⟨fun h => absurd (lossless hcounted hdirect h) (by decide), e, _, he, hcalls, hindex,
    hoffset, ?_, ?_⟩
  · rw [← hindex] at hsecond
    obtain ⟨line, text, hline, htext, hat⟩ := consistent hsecond (by rw [hoffset]; decide)
    rw [hnext] at hline
    rw [hindex] at htext
    rw [hoffset] at hat
    cases hline
    exact ⟨text, htext, hat⟩
  · exact listed hargs rfl rfl hread hi (by rw [hwitness]; rfl) (by rwa [hwitness]) hcalls

end SpendScript

/-
  Signature scripts under the rule on minimal data. An item then has one push only, `shortestPush`
  (`Instruction.eq_shortestPush`). The items that a script of pushes leaves so determine the script,
  and its bytes, which writing gives back (`Script.exists_items_of_run_pushes`). Hence no signature
  script can be exchanged for another one that leaves the same stack
  (`Engine.signatureScript_unique`).
-/
import Mathlib.Data.List.Basic
import SpendScript.Proofs.Engine.Phases
import SpendScript.Proofs.ShortestPush

namespace SpendScript

variable {σ τ : Type}

namespace Instruction

variable {F : Flags} {i : Instruction} {item : Bytes}

/-- **One push for every item.** Under the rule on minimal data a push that may be executed is the
    shortest push of the item it leaves. -/
theorem eq_shortestPush (hF : F.minimalData = true) (hw : i.WellFormed) (hp : i.Pushable F)
    (hi : i.pushed? = some item) : i = shortestPush item := by
  rcases (pushes_iff.2 ⟨hw, hi⟩).cases with ⟨rfl, hvalue⟩ | ⟨hshortest, -⟩
  · have hsize : i.data.length ≤ 0xffff := Nat.le_trans hp.size (by decide)
    exact (isMinimalPush_iff hvalue hsize).1 (hp.minimal hF hvalue)
  · exact hshortest

end Instruction

namespace Script

variable {c : Context σ} {m m' : Machine σ} {s : Script}

/-- The items that pushes leave determine the pushes. -/
theorem eq_map_shortestPush {F : Flags} {items : List Bytes} (hF : F.minimalData = true)
    (hw : ∀ i ∈ s, i.WellFormed) (hp : ∀ i ∈ s, i.Pushable F)
    (hs : s.map Instruction.pushed? = items.map some) : s = items.map shortestPush := by
  induction s generalizing items with
  | nil =>
    rw [List.map_eq_nil_iff.1 hs.symm]
    rfl
  | cons i s ih =>
    match items with
    | [] => cases hs
    | item :: items =>
      rw [List.map_cons, List.map_cons, List.cons.injEq] at hs
      have hi : i = shortestPush item :=
        Instruction.eq_shortestPush hF (hw i List.mem_cons_self) (hp i List.mem_cons_self) hs.1
      have hrest : s = items.map shortestPush :=
        ih (fun j hj => hw j (List.mem_cons_of_mem i hj))
          (fun j hj => hp j (List.mem_cons_of_mem i hj)) hs.2
      rw [List.map_cons, ← hi, ← hrest]

/-- A script of pushes is the shortest pushes of the items it adds to the stack. -/
theorem exists_items_of_run_pushes (hF : c.flags.minimalData = true) {u : Bytes}
    (hu : parse u = .ok s) (hs : ∀ i ∈ s, i.isPush = true) (hx : m.branches.executing = true)
    (hroom : m.stack.length + m.alt.length ≤ Limit.stackItems) {offset : Nat}
    (h : run c offset s m = .ok () m') :
    ∃ items : List Bytes, u = toBytes (items.map shortestPush) ∧
      m'.stack = items.reverse ++ m.stack := by
  obtain ⟨hpushable, items, hitems, rfl, -⟩ := (run_pushes_ok hs hx hroom).1 h
  refine ⟨items, ?_, rfl⟩
  rw [← eq_map_shortestPush hF (wellFormed_of_parse hu) hpushable hitems, toBytes_of_parse hu]

end Script

namespace Engine

variable {F G : Flags} {u v l l' : Bytes} {us vs : List Bytes} {c : Checker σ} {d : Checker τ}
  {s t : Script} {x : σ} {y : τ} {e e' : Engine σ} {f f' : Engine τ}

/-- An engine that gets through the signature script under the rule on minimal data has taken the
    shortest pushes of the items it then has. -/
theorem signatureScript_eq_of_after (hF : F.minimalData = true)
    (he : ofWitness l (u :: us) F c x = .ok e) (hu : Script.parse u = .ok s)
    (h : after s.length e = some e') :
    u = Script.toBytes (e'.machine.stack.reverse.map shortestPush) := by
  obtain ⟨-, -, -, hflags, -, hmachine⟩ := settings_of_ofWitness he
  obtain ⟨s₁, hfresh, hpush⟩ := fresh_of_ofWitness he hu
  obtain ⟨m, hrun, -, rfl⟩ := hfresh.after_first h
  have hminimal : (e.contextOf s).flags.minimalData = true := by
    change e.flags.minimalData = true
    rw [hflags, hF]
  rw [hmachine] at hrun
  obtain ⟨items, hbytes, hstack⟩ := Script.exists_items_of_run_pushes hminimal hu hpush rfl
    (Nat.zero_le _) hrun
  have hitems : m.stack.reverse = items := by
    rw [hstack]
    simp [Machine.start]
  change u = Script.toBytes (m.stack.reverse.map shortestPush)
  rw [hitems, hbytes]

/-- **Signature scripts are not malleable.** Two engines under the rule on minimal data that have
    gone through their signature scripts and have the same data stack have gone through the same
    bytes, whatever they spend. -/
theorem signatureScript_unique (hF : F.minimalData = true) (hG : G.minimalData = true)
    (he : ofWitness l (u :: us) F c x = .ok e) (hf : ofWitness l' (v :: vs) G d y = .ok f)
    (hu : Script.parse u = .ok s) (hv : Script.parse v = .ok t)
    (he' : after s.length e = some e') (hf' : after t.length f = some f')
    (hstack : e'.machine.stack = f'.machine.stack) : u = v := by
  have hleft := signatureScript_eq_of_after hF he hu he'
  have hright := signatureScript_eq_of_after hG hf hv hf'
  rw [hleft, hright, hstack]

/-- One signature script before two redeem scripts, under two sets of rules. It pushes the number
    one, the byte 0x20 and nothing. -/
theorem signatureScript_unique_threePushes :
    ∃ e e' f f' : Engine Unit,
      ofWitness [0x08, 0xd0, 0x07, 0, 0, 0, 0, 0, 0] [[0x51, 0x01, 0x20, 0x00], [0x51]]
        { minimalData := true } .accepting () = .ok e ∧
      ofWitness [0x08, 0xe8, 0x03, 0, 0, 0, 0, 0, 0] [[0x51, 0x01, 0x20, 0x00], [0x75], []]
        { minimalData := true, nullDummy := true } .accepting () = .ok f ∧
      after 3 e = some e' ∧ after 3 f = some f' ∧ e'.machine.stack = f'.machine.stack ∧
      ([0x51, 0x01, 0x20, 0x00] : Bytes) = [0x51, 0x01, 0x20, 0x00] := by
  have hparse : Script.parse [0x51, 0x01, 0x20, 0x00] =
      .ok [⟨⟨0x51⟩, []⟩, ⟨⟨0x01⟩, [0x20]⟩, ⟨⟨0x00⟩, []⟩] := by
    decide +kernel
  have hfirst : (do
      let e ← ofWitness [0x08, 0xd0, 0x07, 0, 0, 0, 0, 0, 0] [[0x51, 0x01, 0x20, 0x00], [0x51]]
        { minimalData := true } .accepting ()
      return (after 3 e).map fun e : Engine Unit => e.machine.stack) = .ok (some [[], [0x20], [1]]) := by
    decide +kernel
  have hsecond : (do
      let f ← ofWitness [0x08, 0xe8, 0x03, 0, 0, 0, 0, 0, 0] [[0x51, 0x01, 0x20, 0x00], [0x75], []]
        { minimalData := true, nullDummy := true } .accepting ()
      return (after 3 f).map fun f : Engine Unit => f.machine.stack) = .ok (some [[], [0x20], [1]]) := by
    decide +kernel
  obtain ⟨e, he, hafter⟩ := except_bind_ok.1 hfirst
  obtain ⟨e', he', hstack⟩ := Option.map_eq_some_iff.1 (Except.ok.inj hafter)
  obtain ⟨f, hf, hafter⟩ := except_bind_ok.1 hsecond
  obtain ⟨f', hf', hstack'⟩ := Option.map_eq_some_iff.1 (Except.ok.inj hafter)
  have hsame : e'.machine.stack = f'.machine.stack := hstack.trans hstack'.symm
  exact ⟨e, e', f, f', he, hf, he', hf', hsame,
    signatureScript_unique rfl rfl he hf hparse hparse he' hf' hsame⟩

end Engine

end SpendScript

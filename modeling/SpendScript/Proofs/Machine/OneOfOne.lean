/-
  One signature for one key. A check of several signatures that is given one of each comes to what a
  single check of the two comes to: the same answer or the same error, and the same questions on the
  way (`checkMultiple_oneOfOne`). The machines that the two checks leave differ in one counted
  operation, the one for the key.
-/
import SpendScript.Proofs.Machine.MultiSig

namespace SpendScript

variable {σ ε ρ α : Type}

/-- The same result, with a change to the state that comes with it. -/
def mapState (f : ρ → ρ) : EStateM.Result ε ρ α → EStateM.Result ε ρ α
  | .ok a s => .ok a (f s)
  | .error e s => .error e (f s)

/-- The machine with further operations counted. -/
def Machine.counting (n : Nat) (m : Machine σ) : Machine σ := { m with opCount := m.opCount + n }

open MachineM StackM

variable {ctx : Context σ} {n : Nat}

/-! ## Operations that are counted do not matter -/

theorem askSignature_counting (c : Checker σ) (q : SignatureQuery) (m : Machine σ) :
    askSignature c q (m.counting n) = mapState (.counting n) (askSignature c q m) := by
  have hchecker : (m.counting n).checker = m.checker := rfl
  unfold askSignature
  rw [hchecker]
  rcases c.checkSignature q m.checker with ⟨_ | valid, s⟩ <;> rfl

theorem ofEncoding_bind_counting {r : Except EncodingError Unit} {f : Unit → MachineM σ α}
    {m : Machine σ} (hf : f () (m.counting n) = mapState (.counting n) (f () m)) :
    (ofEncoding r >>= f) (m.counting n) = mapState (.counting n) ((ofEncoding r >>= f) m) := by
  rcases r with e | _
  · rfl
  · exact hf

/-- A pair is checked alike whatever has been counted. -/
theorem checkPair_counting (code item key : Bytes) (m : Machine σ) :
    checkPair ctx code item key (m.counting n) =
      mapState (.counting n) (checkPair ctx code item key m) := by
  unfold checkPair
  cases item.getLast? with
  | none => rfl
  | some hashType =>
    refine ofEncoding_bind_counting (ofEncoding_bind_counting (ofEncoding_bind_counting ?_))
    cases Signature.ofDer? item.dropLast with
    | none => rfl
    | some signature =>
      cases PublicKey.ofBytes? key with
      | none => rfl
      | some publicKey => exact askSignature_counting ctx.checker _ m

/-! ## One of each -/

/-- A search with one signature and one key is the check of this pair. -/
theorem matchKeys_pair (code item key : Bytes) :
    matchKeys ctx code [item] [key] = checkPair ctx code item key := by
  funext m
  change (checkPair ctx code item key >>= fun fits =>
    if fits then matchKeys ctx code [] [] else matchKeys ctx code [item] []) m = _
  rcases h : checkPair ctx code item key m with ⟨b, m'⟩ | ⟨e, m'⟩
  · rw [bind_eq_of_ok h]
    cases b <;> rfl
  · rw [bind_eq_of_error h]

theorem checkSingle_of_stack {m : Machine σ} {item key : Bytes} {rest : Stack}
    (hstack : m.stack = key :: item :: rest) :
    checkSingle ctx m =
      checkPair ctx (Script.toBytes (ctx.script.drop m.codeStart)) item key
        { m with stack := rest } := by
  rw [checkSingle_eq, bind_eq_of_ok (onStack_pop_ok.2 ⟨_, hstack, rfl⟩),
    bind_eq_of_ok (onStack_pop_ok.2 ⟨_, rfl, rfl⟩)]
  rfl

/-- **1 of 1 is a single check.** On an item without use, a signature, 1, a key and 1 the check of
    several signatures gives the answer or the error that the single check gives on the signature and
    the key, at the same place of the same script. It leaves the same machine but for the operation
    that the key counts. The state of the checker is the same, so a checker that keeps its questions
    has been asked the same ones. -/
theorem checkMultiple_oneOfOne (ctx : Context σ) {m : Machine σ} {unused sig x key y : Bytes}
    {rest : Stack} (hstack : m.stack = [unused, sig, x, key, y].reverse ++ rest)
    (hx : Number.decode x ctx.flags.minimalData Number.operandSize = .ok 1)
    (hy : Number.decode y ctx.flags.minimalData Number.operandSize = .ok 1)
    (hunused : ctx.flags.nullDummy = true → unused = [])
    (hroom : m.opCount + 1 ≤ Limit.operations) :
    checkMultiple ctx m =
      mapState (.counting 1) (checkSingle ctx { m with stack := key :: sig :: rest }) := by
  have hone : [key].length ≤ Limit.keys := by
    show 1 ≤ 20
    decide
  have hsearch : checkMultiple ctx m =
      matchKeys ctx (Script.toBytes (ctx.script.drop m.codeStart)) [sig] [key]
        { m with stack := rest, opCount := m.opCount + 1 } :=
    checkMultiple_of_stack hstack hy hone hroom hx (Nat.le_refl 1) hunused
  have hsingle : checkSingle ctx { m with stack := key :: sig :: rest } =
      checkPair ctx (Script.toBytes (ctx.script.drop m.codeStart)) sig key
        { m with stack := rest } := checkSingle_of_stack rfl
  rw [hsearch, matchKeys_pair, hsingle, ← checkPair_counting]
  rfl

/-- A script that has signatures checked under strict encoding and keeps the questions. -/
def strictContext : Context (Unit × List Query) where
  checker := Checker.accepting.recording
  flags := { strictEncoding := true, minimalData := true, nullDummy := true }
  versionZero := true
  script := [⟨⟨0xae⟩, []⟩]

/-- The last operation that there is room for: both checks refuse hash type 5, and ask nothing. -/
theorem checkMultiple_oneOfOne_refused :
    checkMultiple strictContext
        { Machine.start ((), []) with
          stack := [[], [5], [1], [0x02], [1]].reverse ++ [[7]]
          opCount := 200 } =
      .error (.encoding (.hashType 5))
        { Machine.start ((), []) with stack := [[7]], opCount := 201 } := by
  rw [checkMultiple_oneOfOne strictContext rfl (by decide) (by decide) (fun _ => rfl) (by decide)]
  rfl

end SpendScript

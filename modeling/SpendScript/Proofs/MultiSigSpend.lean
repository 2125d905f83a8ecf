/-
  Spends of m-of-n outputs. The redeem script names m, the keys and their number and checks the
  signatures against them. Such a spend is accepted just when its signature script pushes one item
  and then m signatures that belong to some of the keys, in the order of the keys
  (`MultiSig.spend`).
-/
import SpendScript.Proofs.Engine.Construction
import SpendScript.Proofs.Engine.Phases
import SpendScript.Proofs.Machine.MultiSig
import SpendScript.Proofs.Machine.Pushes

namespace SpendScript

variable {σ : Type}

namespace MultiSig

/-! ## The redeem script -/

/-- The instruction that pushes a number from 1 to 16. -/
def small (n : Nat) : Instruction := ⟨⟨UInt8.ofNat (0x50 + n)⟩, []⟩

/-- The instruction that pushes 33 bytes. -/
def pushKey (key : Bytes) : Instruction := ⟨⟨0x21⟩, key⟩

/-- The number of signatures, the keys and the number of keys. -/
def pushes (m : Nat) (keys : List Bytes) : Script :=
  small m :: (keys.map pushKey ++ [small keys.length])

/-- CHECKMULTISIG. -/
def checking : Instruction := ⟨⟨0xae⟩, []⟩

/-- The instructions of the redeem script. -/
def script (m : Nat) (keys : List Bytes) : Script := pushes m keys ++ [checking]

/-- The bytes of the redeem script. -/
def redeem (m : Nat) (keys : List Bytes) : Bytes :=
  UInt8.ofNat (0x50 + m) ::
    (keys.flatMap (fun key => 0x21 :: key) ++ [UInt8.ofNat (0x50 + keys.length), 0xae])

theorem operandForm_small {n : Nat} (h₁ : 1 ≤ n) (h₁₆ : n ≤ 16) :
    (small n).opcode.operandForm = .none := by
  have hall : ∀ n < 17, 1 ≤ n → (small n).opcode.operandForm = .none := by decide
  exact hall n (by omega) h₁

theorem toBytes_small {n : Nat} (h₁ : 1 ≤ n) (h₁₆ : n ≤ 16) :
    (small n).toBytes = [UInt8.ofNat (0x50 + n)] := by
  unfold Instruction.toBytes
  rw [operandForm_small h₁ h₁₆]
  rfl

theorem pushed?_small {n : Nat} (h₁ : 1 ≤ n) (h₁₆ : n ≤ 16) :
    (small n).pushed? = some (Number.encode n) := by
  have hall : ∀ n < 17, 1 ≤ n → (small n).pushed? = some (Number.encode n) := by decide +kernel
  exact hall n (by omega) h₁

theorem minimalFor_small {n : Nat} (h₁ : 1 ≤ n) (h₁₆ : n ≤ 16) (F : Flags) :
    (small n).MinimalFor F := by
  have hall : ∀ n < 17, 1 ≤ n → ¬ (small n).opcode.value ≤ Opcode.lastDataPush := by decide
  exact fun _ hle => absurd hle (hall n (by omega) h₁)

theorem minimalFor_pushKey {key : Bytes} (hkey : key.length = 33) (F : Flags) :
    (pushKey key).MinimalFor F := by
  intro _ _
  rcases key with _ | ⟨a, _ | ⟨b, key⟩⟩
  · cases hkey
  · cases hkey
  · unfold Instruction.isMinimalPush pushKey
    dsimp only
    rw [if_pos (by rw [hkey]; decide), hkey]
    decide

/-- A small number is read back as itself. -/
theorem decode_small {n : Nat} (h₁ : 1 ≤ n) (h₁₆ : n ≤ 16) (minimal : Bool) :
    Number.decode (Number.encode n) minimal Number.operandSize = .ok (n : Int) := by
  have hall : ∀ k : Nat, k < 17 → 1 ≤ k → (Number.encode k).length ≤ Number.operandSize ∧
      Number.isMinimal (Number.encode k) = true ∧ Number.value (Number.encode k) = k := by
    decide +kernel
  obtain ⟨hlen, hmin, hvalue⟩ := hall n (by omega) h₁
  unfold Number.decode
  rw [if_neg (Nat.not_lt_of_le hlen), hmin, hvalue, Bool.not_true, Bool.and_false]
  rfl

/-- The machine with the numbers and the keys of the redeem script on its stack. -/
def loaded (m : Nat) (keys : List Bytes) (st : Machine σ) : Machine σ :=
  { st with stack := Number.encode keys.length :: (keys.reverse ++ Number.encode m :: st.stack) }

/-- What the instructions of the redeem script read. -/
def redeemContext (c : Checker σ) (flags : Flags) (m : Nat) (keys : List Bytes) : Context σ :=
  ⟨c, flags, true, script m keys⟩

/-- The check takes m signatures and one further item from the stack, finds keys for the signatures
    or not, and leaves the answer. -/
def Checks (ctx : Context σ) (m : Nat) (keys : List Bytes) (st st' : Machine σ) : Prop :=
  ∃ b st₁, (∃ items dummy rest, st.stack = items ++ dummy :: rest ∧ items.length = m ∧
      (ctx.flags.nullDummy = true → dummy = []) ∧
      matchKeys ctx (redeem m keys) items keys.reverse
        { st with stack := rest, opCount := 1 + keys.length } = .ok b st₁) ∧
    st' = { st₁ with stack := ofTruth b :: st₁.stack } ∧
    st'.stack.length + st'.alt.length ≤ Limit.stackItems

section Script

variable {m : Nat} {keys : List Bytes} (hm : 1 ≤ m) (hmn : m ≤ keys.length) (hn : keys.length ≤ 16)
  (hkeys : ∀ key ∈ keys, key.length = 33)

include hm hmn hn

theorem toBytes_script : Script.toBytes (script m keys) = redeem m keys := by
  have hpush (ks : List Bytes) :
      Script.toBytes (ks.map pushKey) = ks.flatMap (fun key => 0x21 :: key) := by
    induction ks with
    | nil => rfl
    | cons k ks ih =>
      rw [List.map_cons, Script.toBytes_cons, ih]
      rfl
  unfold script pushes redeem
  rw [Script.toBytes_append, Script.toBytes_cons, Script.toBytes_append, hpush,
    toBytes_small hm (Nat.le_trans hmn hn), Script.toBytes_cons,
    toBytes_small (Nat.le_trans hm hmn) hn, List.append_assoc, List.append_assoc]
  rfl

/-- What every instruction of the redeem script but the last one is. -/
theorem mem_pushes {i : Instruction} (hi : i ∈ pushes m keys) :
    (∃ n, 1 ≤ n ∧ n ≤ 16 ∧ i = small n) ∨ ∃ key ∈ keys, i = pushKey key := by
  unfold pushes at hi
  simp only [List.mem_cons, List.mem_append, List.mem_map, List.not_mem_nil, or_false] at hi
  rcases hi with rfl | ⟨key, hkey, rfl⟩ | rfl
  · exact Or.inl ⟨m, hm, Nat.le_trans hmn hn, rfl⟩
  · exact Or.inr ⟨key, hkey, rfl⟩
  · exact Or.inl ⟨keys.length, Nat.le_trans hm hmn, hn, rfl⟩

theorem pushed?_pushes :
    (pushes m keys).map Instruction.pushed? =
      (Number.encode m :: (keys ++ [Number.encode keys.length])).map some := by
  have hpush (ks : List Bytes) : (ks.map pushKey).map Instruction.pushed? = ks.map some := by
    rw [List.map_map]
    rfl
  unfold pushes
  simp only [List.map_cons, List.map_append, List.map_nil, hpush,
    pushed?_small hm (Nat.le_trans hmn hn), pushed?_small (Nat.le_trans hm hmn) hn]

/-- What the check finds on the stack: it takes the signatures and one further item from below the
    numbers and keys that the redeem script has pushed. -/
theorem checkMultiple_redeem_ok {ctx : Context σ} {st st' : Machine σ} {s : Stack} {b : Bool}
    (hctx : ctx.script = script m keys) (hstart : st.codeStart = 0)
    (hcount : st.opCount + keys.length ≤ Limit.operations)
    (hs : st.stack = Number.encode keys.length :: (keys.reverse ++ Number.encode m :: s)) :
    checkMultiple ctx st = .ok b st' ↔
      ∃ items dummy rest, s = items ++ dummy :: rest ∧ items.length = m ∧
        (ctx.flags.nullDummy = true → dummy = []) ∧
        matchKeys ctx (redeem m keys) items keys.reverse
          { st with stack := rest, opCount := st.opCount + keys.length } = .ok b st' := by
  have hm₁₆ : m ≤ 16 := Nat.le_trans hmn hn
  have hn₁ : 1 ≤ keys.length := Nat.le_trans hm hmn
  have hcode : Script.toBytes (ctx.script.drop st.codeStart) = redeem m keys := by
    rw [hctx, hstart, List.drop_zero, toBytes_script hm hmn hn]
  rw [checkMultiple_ok, hcode, hs]
  constructor
  · rintro ⟨x, keys', y, items, dummy, rest, hstack, hx, -, -, hy, -, hd, hmatch⟩
    obtain ⟨rfl, hbelow⟩ := List.cons_eq_cons.1 hstack
    have hlen : keys'.length = keys.length := by
      rw [decode_small hn₁ hn] at hx
      exact (Int.ofNat.inj (Except.ok.inj hx)).symm
    obtain ⟨rfl, hrest⟩ := List.append_inj hbelow (by rw [List.length_reverse, hlen])
    obtain ⟨rfl, hs⟩ := List.cons_eq_cons.1 hrest
    have hitems : items.length = m := by
      rw [decode_small hm hm₁₆] at hy
      exact (Int.ofNat.inj (Except.ok.inj hy)).symm
    rw [List.length_reverse] at hmatch
    exact ⟨items, dummy, rest, hs, hitems, hd, hmatch⟩
  · rintro ⟨items, dummy, rest, rfl, hitems, hd, hmatch⟩
    refine ⟨_, keys.reverse, _, items, dummy, rest, rfl, ?_, ?_, ?_, ?_, ?_, hd, ?_⟩
    · rw [List.length_reverse]
      exact decode_small hn₁ hn _
    · rw [List.length_reverse]
      exact Nat.le_trans hn (by decide)
    · rw [List.length_reverse]
      exact hcount
    · rw [hitems]
      exact decode_small hm hm₁₆ _
    · rw [hitems, List.length_reverse]
      exact hmn
    · rw [List.length_reverse]
      exact hmatch

/-- The check at the end of the redeem script, from the machine before the script on. -/
theorem step_checking_ok {ctx : Context σ} {offset : Nat} {st st' : Machine σ}
    (hctx : ctx.script = script m keys) (hx : st.branches = []) (hcount : st.opCount = 0)
    (hstart : st.codeStart = 0) :
    checking.step ctx offset (loaded m keys st) = .ok () st' ↔ Checks ctx m keys st st' := by
  have hexec : st.branches.executing = true := by
    rw [hx]
    rfl
  have hcounts : st.opCount + 1 + keys.length ≤ Limit.operations := by
    unfold Limit.operations
    omega
  have hfirst : st.opCount + 1 ≤ Limit.operations := by omega
  unfold loaded
  refine (step_checkMultiSig_ok (i := checking) rfl ?_).trans ((and_iff_right ?_).trans ?_)
  · exact hexec
  · exact hfirst
  refine exists_congr fun b => exists_congr fun st₁ => and_congr_left' ?_
  refine (checkMultiple_redeem_ok (s := st.stack) hm hmn hn hctx ?_ ?_ ?_).trans ?_
  · exact hstart
  · exact hcounts
  · rfl
  · rw [hcount]

include hkeys

theorem parse_redeem : Script.parse (redeem m keys) = .ok (script m keys) := by
  have hwf : ∀ i ∈ script m keys, i.WellFormed := by
    intro i hi
    rcases List.mem_append.1 hi with hi | hi
    · rcases mem_pushes hm hmn hn hi with ⟨n, h₁, h₁₆, rfl⟩ | ⟨key, hkey, rfl⟩
      · unfold Instruction.WellFormed
        rw [operandForm_small h₁ h₁₆]
        rfl
      · exact hkeys key hkey
    · obtain rfl := List.mem_singleton.1 hi
      rfl
  have hflat (ks : List Bytes) (hks : ∀ key ∈ ks, key.length = 33) :
      (ks.flatMap fun key => 0x21 :: key).length = 34 * ks.length := by
    induction ks with
    | nil => rfl
    | cons k ks ih =>
      have hk := hks k List.mem_cons_self
      have hrest := ih fun key hkey => hks key (List.mem_cons_of_mem k hkey)
      rw [List.flatMap_cons, List.length_append, hrest, List.length_cons, List.length_cons, hk]
      omega
  rw [← toBytes_script hm hmn hn]
  refine Script.parse_toBytes hwf ?_
  rw [toBytes_script hm hmn hn]
  unfold redeem
  rw [List.length_cons, List.length_append, hflat keys hkeys]
  simp only [List.length_cons, List.length_nil]
  unfold Limit.scriptSize
  omega

theorem pushable_pushes (F : Flags) : ∀ i ∈ pushes m keys, i.Pushable F := by
  intro i hi
  rcases mem_pushes hm hmn hn hi with ⟨n, h₁, h₁₆, rfl⟩ | ⟨key, hkey, rfl⟩
  · exact ⟨Nat.zero_le _, minimalFor_small h₁ h₁₆ F⟩
  · refine ⟨?_, minimalFor_pushKey (hkeys key hkey) F⟩
    change key.length ≤ 520
    rw [hkeys key hkey]
    decide

/-- The pushes of the redeem script, run on the stack that the signature script has left. -/
theorem run_pushes_redeem_ok {ctx : Context σ} {st st' : Machine σ} (hx : st.branches = [])
    (halt : st.alt = []) (hroom : st.stack.length ≤ Limit.stackItems) :
    Script.run ctx 0 (pushes m keys) st = .ok () st' ↔
      keys.length + 2 + st.stack.length ≤ Limit.stackItems ∧
        st' = loaded m keys st := by
  have hexec : st.branches.executing = true := by
    rw [hx]
    rfl
  have hpush : ∀ i ∈ pushes m keys, i.isPush = true := by
    intro i hi
    rcases mem_pushes hm hmn hn hi with ⟨n, h₁, h₁₆, rfl⟩ | ⟨key, -, rfl⟩
    · exact Opcode.isPush_of_operation (Instruction.isPush_of_pushed? (pushed?_small h₁ h₁₆))
    · rfl
  have hdepth : st.stack.length + st.alt.length ≤ Limit.stackItems := by
    rw [halt]
    exact hroom
  have hreverse : (Number.encode m :: (keys ++ [Number.encode keys.length])).reverse ++ st.stack =
      Number.encode keys.length :: (keys.reverse ++ Number.encode m :: st.stack) := by
    simp
  have hlength : (Number.encode m :: (keys ++ [Number.encode keys.length])).length =
      keys.length + 2 := by
    simp
  rw [Script.run_pushes_ok hpush hexec hdepth, halt, List.length_nil, Nat.add_zero,
    pushed?_pushes hm hmn hn]
  constructor
  · rintro ⟨-, items, hitems, rfl, hlen⟩
    obtain rfl := List.map_injective_iff.2 (Option.some_injective _) hitems
    rw [hlength] at hlen
    refine ⟨hlen, ?_⟩
    unfold loaded
    rw [hreverse, halt]
  · rintro ⟨hlen, rfl⟩
    refine ⟨pushable_pushes hm hmn hn hkeys ctx.flags, _, rfl, ?_, ?_⟩
    · unfold loaded
      rw [hreverse, halt]
    · rw [hlength]
      exact hlen

/-- The redeem script as a whole. -/
theorem run_redeem_ok {ctx : Context σ} {st st' : Machine σ} (hctx : ctx.script = script m keys)
    (hx : st.branches = []) (halt : st.alt = []) (hcount : st.opCount = 0)
    (hstart : st.codeStart = 0) (hroom : st.stack.length ≤ Limit.stackItems) :
    Script.run ctx 0 (script m keys) st = .ok () st' ↔
      keys.length + 2 + st.stack.length ≤ Limit.stackItems ∧ Checks ctx m keys st st' := by
  have hlast (offset : Nat) : Script.run ctx offset [checking] (loaded m keys st) = .ok () st' ↔
      Checks ctx m keys st st' := by
    rw [Script.run_cons_ok]
    simp only [Script.run_nil, EStateM.Result.ok.injEq, true_and, exists_eq_right]
    exact step_checking_ok hm hmn hn hctx hx hcount hstart
  unfold script
  rw [Script.run_append_ok]
  constructor
  · rintro ⟨st₁, hpushes, hcheck⟩
    obtain ⟨hlen, rfl⟩ := (run_pushes_redeem_ok hm hmn hn hkeys hx halt hroom).1 hpushes
    exact ⟨hlen, (hlast _).1 hcheck⟩
  · rintro ⟨hlen, hcheck⟩
    refine ⟨_, (run_pushes_redeem_ok hm hmn hn hkeys hx halt hroom).2 ⟨hlen, rfl⟩, ?_⟩
    exact (hlast _).2 hcheck

end Script

/-! ## What the check decides -/

/-- The signatures belong to keys at ever later positions. -/
def Assigned (V : SignatureQuery → Bool) (code : Bytes) (items keys : List Bytes) : Prop :=
  ∃ position : Fin items.length → Fin keys.length, StrictMono position ∧
    ∀ i, Signs V code (items.get i) (keys.get (position i))

/-- The item has the form that the flags ask of a signature, unless it is empty. -/
def SignatureEncoded (flags : Flags) (item : Bytes) : Prop :=
  ∀ body hashType, item = body ++ [hashType] →
    StrictEncoding.checkHashType hashType flags = .ok () ∧
    StrictEncoding.checkSignature body = .ok ()

/-- On the stack the last signature comes first, and so do the keys in the search. -/
theorem sublistForall₂_reverse_iff_assigned {V : SignatureQuery → Bool} {code : Bytes}
    {items keys : List Bytes} :
    List.SublistForall₂ (Signs V code) items.reverse keys.reverse ↔ Assigned V code items keys := by
  rw [sublistForall₂_reverse, sublistForall₂_iff_positions]
  rfl

section Decision

variable {ctx : Context σ} {V : SignatureQuery → Bool} (hc : ctx.checker.Answers V) {m : Nat}
  {keys : List Bytes} {st st' : Machine σ}

include hc

/-- A check that leaves nothing but a true item has used up the stack and has found keys for all the
    signatures. -/
theorem assigned_of_checks (h : Checks ctx m keys st st') {item : Bytes}
    (hitem : st'.stack = [item]) (htrue : truth item = true) :
    ∃ dummy items, st.stack = (dummy :: items).reverse ∧ items.length = m ∧
      Assigned V (redeem m keys) items keys := by
  obtain ⟨b, st₁, ⟨items, dummy, rest, hstack, hlen, -, hmatch⟩, rfl, -⟩ := h
  obtain ⟨hb, s, rfl⟩ := matchKeys_ok hc hmatch
  obtain ⟨rfl, rfl⟩ := List.cons_eq_cons.1 hitem
  obtain rfl : b = true := by
    rcases b with _ | _
    · exact absurd htrue Bool.false_ne_true
    · rfl
  refine ⟨dummy, items.reverse, ?_, ?_, ?_⟩
  · rw [hstack, List.reverse_cons, List.reverse_reverse]
  · rw [List.length_reverse, hlen]
  · rw [← sublistForall₂_reverse_iff_assigned, List.reverse_reverse]
    exact hb.1 rfl

/-- Signatures in order that are encoded as asked pass the check. -/
theorem checks_of_assigned (halt : st.alt = []) {dummy : Bytes} {items : List Bytes}
    (hstack : st.stack = (dummy :: items).reverse) (hlen : items.length = m)
    (hassigned : Assigned V (redeem m keys) items keys)
    (hdummy : ctx.flags.nullDummy = true → dummy = [])
    (hencoded : ∀ item ∈ items, ∀ key ∈ keys, PairEncoded ctx item key) :
    ∃ st', Checks ctx m keys st st' ∧ st'.branches = st.branches ∧
      ∃ item, st'.stack = [item] ∧ truth item = true := by
  have hreversed : ∀ item ∈ items.reverse, ∀ key ∈ keys.reverse, PairEncoded ctx item key := by
    intro item hitem key hkey
    exact hencoded item (List.mem_reverse.1 hitem) key (List.mem_reverse.1 hkey)
  obtain ⟨b, st₁, hmatch⟩ := matchKeys_of_encoded
    (m := { st with stack := [], opCount := 1 + keys.length }) hc (redeem m keys) hreversed
  obtain ⟨hb, s, rfl⟩ := matchKeys_ok hc hmatch
  obtain rfl : b = true := hb.2 (sublistForall₂_reverse_iff_assigned.2 hassigned)
  refine ⟨_, ⟨true, _, ⟨items.reverse, dummy, [], ?_, ?_, hdummy, hmatch⟩, rfl, ?_⟩, rfl, ?_⟩
  · rw [hstack, List.reverse_cons]
  · rw [List.length_reverse, hlen]
  · change 1 + st.alt.length ≤ 1000
    rw [halt]
    decide
  · exact ⟨ofTruth true, rfl, rfl⟩

end Decision

/-! ## The spend -/

section Spend

variable {c : Checker σ} {m : Nat} {keys : List Bytes} (hm : 1 ≤ m) (hmn : m ≤ keys.length)
  (hn : keys.length ≤ 16) (hkeys : ∀ key ∈ keys, key.length = 33) {locking program w₀ : Bytes}
  (hlock : Spend.CommitsTo locking program (redeem m keys)) {rest : List Bytes} {flags : Flags}
  {start : σ} {e : Engine σ}
  (he : Engine.ofWitness locking (w₀ :: redeem m keys :: rest) flags c start = .ok e)

include hm hmn hn hkeys hlock he

/-- The spend as a run of its two scripts: the signature script leaves items, and the redeem script
    checks them. -/
theorem accepts_iff_checks :
    (∃ e', e.execute = .ok () e') ↔
      ∃ (s₀ : Script) (items : List Bytes) (st : Machine σ), Script.parse w₀ = .ok s₀ ∧
        (∀ i ∈ s₀, i.Pushable flags) ∧ s₀.map Instruction.pushed? = items.map some ∧
        keys.length + 2 + items.length ≤ Limit.stackItems ∧
        Checks (redeemContext c flags m keys) m keys
          { Machine.start start with stack := items.reverse } st ∧ st.branches = [] ∧
        ∃ item, st.stack = [item] ∧ truth item = true := by
  obtain ⟨spend, s₀, s₁, hclass, hw₀, hw₁, rfl⟩ := Engine.ofWitness_ok.1 he
  obtain rfl := Spend.classify_of_commitsTo hlock hclass
  obtain ⟨hne, -, hpush, -⟩ := Spend.classify_ok.1 hclass
  have hs₁ : s₁ = script m keys := by
    rw [parse_redeem hm hmn hn hkeys] at hw₁
    exact (Except.ok.inj hw₁).symm
  have hs₀ : s₀ ≠ [] := by
    rintro rfl
    exact hne (Script.eq_nil_of_parse hw₀)
  have hall : ∀ i ∈ s₀, i.isPush = true := by
    unfold Script.isPushOnly at hpush
    rw [hw₀] at hpush
    exact List.all_eq_true.1 hpush
  subst hs₁
  rw [Engine.accepts_hashLocked rfl rfl hs₀ (List.cons_ne_nil _ _) rfl rfl rfl]
  have hfirst (st : Machine σ) : Script.run ⟨c, flags, true, s₀⟩ 0 s₀ (Machine.start start) =
      .ok () st ↔ (∀ i ∈ s₀, i.Pushable flags) ∧ ∃ items : List Bytes,
        s₀.map Instruction.pushed? = items.map some ∧
        st = { Machine.start start with stack := items.reverse } ∧
        items.length ≤ Limit.stackItems := by
    rw [Script.run_pushes_ok hall rfl (Nat.zero_le _)]
    simp only [Machine.start, List.append_nil, List.length_nil, Nat.add_zero]
  have hsecond (items : List Bytes) (hlen : items.length ≤ Limit.stackItems) (st : Machine σ) :
      Script.run (redeemContext c flags m keys) 0 (script m keys)
        { Machine.start start with stack := items.reverse } = .ok () st ↔
      keys.length + 2 + items.length ≤ Limit.stackItems ∧
        Checks (redeemContext c flags m keys) m keys
          { Machine.start start with stack := items.reverse } st := by
    have hroom : items.reverse.length ≤ Limit.stackItems := by rwa [List.length_reverse]
    refine (run_redeem_ok hm hmn hn hkeys rfl rfl rfl rfl rfl hroom).trans ?_
    rw [List.length_reverse]
  constructor
  · rintro ⟨m₀, m₁, item, hrun₀, -, hrun₁, hb₁, hitem⟩
    obtain ⟨hpushable, items, hitems, rfl, hlen⟩ := (hfirst m₀).1 hrun₀
    obtain ⟨hroom, hchecks⟩ := (hsecond items hlen m₁).1 hrun₁
    exact ⟨s₀, items, m₁, hw₀, hpushable, hitems, hroom, hchecks, hb₁, item, hitem⟩
  · rintro ⟨s, items, m₁, hs, hpushable, hitems, hroom, hchecks, hb₁, item, hitem⟩
    obtain rfl : s₀ = s := Except.ok.inj (hw₀.symm.trans hs)
    have hlen : items.length ≤ Limit.stackItems := by omega
    have hrun₀ := (hfirst _).2 ⟨hpushable, items, hitems, rfl, hlen⟩
    have hrun₁ := (hsecond items hlen m₁).2 ⟨hroom, hchecks⟩
    exact ⟨_, m₁, item, hrun₀, rfl, hrun₁, hb₁, hitem⟩

/-- **Fund safety of m-of-n spends.** A spend that is accepted has a signature script of `m + 1`
    pushes: one item and then `m` signatures that belong, in order, to some of the keys. Conversely
    such a signature script is accepted if all encodings are as the flags ask, the further item is
    empty where that is asked for, and the pushes may be executed. -/
theorem spend {V : SignatureQuery → Bool} (hc : c.Answers V) :
    ((∃ e', e.execute = .ok () e') →
      ∃ (s₀ : Script) (dummy : Bytes) (items : List Bytes), Script.parse w₀ = .ok s₀ ∧
        s₀.map Instruction.pushed? = (dummy :: items).map some ∧ items.length = m ∧
        Assigned V (redeem m keys) items keys) ∧
    ∀ (s₀ : Script) (dummy : Bytes) (items : List Bytes), Script.parse w₀ = .ok s₀ →
      s₀.map Instruction.pushed? = (dummy :: items).map some → items.length = m →
      Assigned V (redeem m keys) items keys →
      (∀ key ∈ keys, StrictEncoding.checkPublicKey key true flags = .ok ()) →
      (∀ item ∈ items, SignatureEncoded flags item) →
      (flags.nullDummy = true → dummy = []) → (∀ i ∈ s₀, i.Pushable flags) →
      ∃ e', e.execute = .ok () e' := by
  rw [accepts_iff_checks hm hmn hn hkeys hlock he]
  have hanswers : (redeemContext c flags m keys).checker.Answers V := hc
  constructor
  · rintro ⟨s₀, pushed, st, hw₀, -, hpushed, -, hchecks, -, item, hitem, htrue⟩
    obtain ⟨dummy, items, hstack, hlen, hassigned⟩ :=
      assigned_of_checks hanswers hchecks hitem htrue
    obtain rfl : pushed = dummy :: items := List.reverse_injective hstack
    exact ⟨s₀, dummy, items, hw₀, hpushed, hlen, hassigned⟩
  · intro s₀ dummy items hw₀ hpushed hlen hassigned hkeyforms hforms hdummy hpushable
    have hencoded : ∀ item ∈ items, ∀ key ∈ keys,
        PairEncoded (redeemContext c flags m keys) item key := by
      intro item hitem key hkey body hashType hbody
      obtain ⟨hhash, hsig⟩ := hforms item hitem body hashType hbody
      exact ⟨hhash, hsig, hkeyforms key hkey⟩
    have hroom : keys.length + 2 + (dummy :: items).length ≤ Limit.stackItems := by
      rw [List.length_cons, hlen]
      unfold Limit.stackItems
      omega
    have hpassed : ∃ st, Checks (redeemContext c flags m keys) m keys
        { Machine.start start with stack := (dummy :: items).reverse } st ∧ st.branches = [] ∧
        ∃ item, st.stack = [item] ∧ truth item = true :=
      checks_of_assigned hanswers rfl rfl hlen hassigned hdummy hencoded
    obtain ⟨st, hchecks, hbranches, hitem⟩ := hpassed
    exact ⟨s₀, dummy :: items, st, hw₀, hpushable, hpushed, hroom, hchecks, hbranches, hitem⟩

end Spend

/-- The two keys whose point has x = 1. -/
def keysAtOne : List Bytes :=
  [0x02 :: (List.replicate 31 0 ++ [1]), 0x03 :: (List.replicate 31 0 ++ [1])]

/-- A signature whose two numbers are 1. -/
def signatureOfOnes : Bytes := [0x30, 0x06, 0x02, 0x01, 0x01, 0x02, 0x01, 0x01]

/-- The signature script that pushes nothing and then this signature with hash type 1. -/
def spendOfOnes : Script := [⟨⟨0x00⟩, []⟩, ⟨⟨0x09⟩, signatureOfOnes ++ [0x01]⟩]

/-- The rules on encodings, on pushes and on the further item, all in force. -/
def strictRules : Flags := { strictEncoding := true, minimalData := true, nullDummy := true }

/-- A 1-of-2 spend under strict rules that a checker which accepts everything lets pass. -/
theorem spend_oneOfTwo :
    ∃ e : Engine Unit,
      Engine.ofWitness (0x00 :: 0x20 :: Digest.sha256 (redeem 1 keysAtOne))
        [spendOfOnes.toBytes, redeem 1 keysAtOne] strictRules .accepting () = .ok e ∧
      (∃ e', e.execute = .ok () e') ∧
      ∃ (dummy : Bytes) (items : List Bytes),
        spendOfOnes.map Instruction.pushed? = (dummy :: items).map some ∧ items.length = 1 ∧
        Assigned (fun _ => true) (redeem 1 keysAtOne) items keysAtOne := by
  have haccepts : Engine.accepts
      (Engine.ofWitness (0x00 :: 0x20 :: Digest.sha256 (redeem 1 keysAtOne))
        [spendOfOnes.toBytes, redeem 1 keysAtOne] strictRules .accepting ()) = true := by
    decide +kernel
  have hlock := Spend.commitsTo_sha256 (redeem 1 keysAtOne)
  have hanswers : Checker.accepting.Answers fun _ => true := fun _ _ => rfl
  have hparse : Script.parse spendOfOnes.toBytes = .ok spendOfOnes := by
    decide +kernel
  obtain ⟨e, e', he, hx⟩ := Engine.accepts_iff.1 haccepts
  obtain ⟨hsound, hcomplete⟩ :=
    spend (by decide) (by decide) (by decide) (by decide) hlock he hanswers
  -- The signature script is as the first half says, and then meets what the second half asks for.
  obtain ⟨s₀, dummy, items, hs₀, hpushed, hlen, hassigned⟩ := hsound ⟨e', hx⟩
  obtain rfl : spendOfOnes = s₀ := Except.ok.inj (hparse.symm.trans hs₀)
  have hpushes : spendOfOnes.map Instruction.pushed? =
      ([] :: [signatureOfOnes ++ [0x01]]).map some := by
    decide
  have hinjective := List.map_injective_iff.2 (Option.some_injective Bytes)
  obtain ⟨rfl, rfl⟩ := List.cons_eq_cons.1 (hinjective (hpushes.symm.trans hpushed))
  have hkeys : ∀ key ∈ keysAtOne,
      StrictEncoding.checkPublicKey key true strictRules = .ok () := by
    decide
  have hencoded : ∀ item ∈ [signatureOfOnes ++ [0x01]], SignatureEncoded strictRules item := by
    intro item hitem body hashType hbody
    rw [List.mem_singleton.1 hitem] at hbody
    obtain ⟨rfl, rfl⟩ := List.append_singleton_inj.1 hbody
    exact ⟨by decide, by decide⟩
  have hpushable : ∀ i ∈ spendOfOnes, i.Pushable strictRules := by
    intro i hi
    obtain rfl | rfl := List.mem_pair.1 hi
    · exact ⟨by decide, fun _ _ => by decide⟩
    · exact ⟨by decide, fun _ _ => by decide⟩
  have haccepted : ∃ e', e.execute = .ok () e' :=
    hcomplete spendOfOnes [] [signatureOfOnes ++ [0x01]] hs₀ hpushed hlen hassigned hkeys hencoded
      (fun _ => rfl) hpushable
  exact ⟨e, he, haccepted, [], _, hpushed, hlen, hassigned⟩

end MultiSig

end SpendScript

/-
  Byte strings and the numbers they spell. A byte string is a list, first byte first. A number is
  written little-endian (lowest byte first) or big-endian, at a fixed width or in as few bytes as
  its value needs. Each writer is undone by its reader (`natLE_ofNatLE`, `natLE_shortestLE`), and the
  reader by the writer where the bytes have the writer's form (`ofNatLE_natLE`, `shortestLE_natLE`).
-/

namespace SpendScript

/-- A byte string, first byte first. -/
abbrev Bytes := List UInt8

namespace Bytes

/-- The number a little-endian byte string spells. -/
def natLE : Bytes → Nat
  | [] => 0
  | b :: bs => b.toNat + 256 * natLE bs

/-- How many numbers fit into `width` bytes. -/
def capacity : Nat → Nat
  | 0 => 1
  | width + 1 => 256 * capacity width

/-- The low `width` bytes of a number, lowest first. -/
def ofNatLE : Nat → Nat → Bytes
  | 0, _ => []
  | width + 1, n => UInt8.ofNat n :: ofNatLE width (n / 256)

/-- The number a big-endian byte string spells. -/
def natBE (bs : Bytes) : Nat := natLE bs.reverse

/-- The low `width` bytes of a number, highest first. -/
def ofNatBE (width n : Nat) : Bytes := (ofNatLE width n).reverse

/-- A number in as few bytes as it needs, lowest first; zero is the empty string. -/
def shortestLE (n : Nat) : Bytes :=
  if n = 0 then [] else UInt8.ofNat n :: shortestLE (n / 256)
termination_by n

@[simp] theorem length_ofNatLE (width n : Nat) : (ofNatLE width n).length = width := by
  induction width generalizing n with
  | zero => rfl
  | succ width ih => simp [ofNatLE, ih]

@[simp] theorem length_ofNatBE (width n : Nat) : (ofNatBE width n).length = width := by
  simp [ofNatBE]

/-- Writing at a width keeps the number modulo what the width can hold. -/
theorem natLE_ofNatLE (width n : Nat) : natLE (ofNatLE width n) = n % capacity width := by
  induction width generalizing n with
  | zero => rw [capacity, Nat.mod_one]; rfl
  | succ width ih =>
    have low : (UInt8.ofNat n).toNat = n % 256 := UInt8.toNat_ofNat'
    rw [ofNatLE, natLE, ih, low, capacity, Nat.mod_mul]

theorem natLE_shortestLE (n : Nat) : natLE (shortestLE n) = n := by
  fun_induction shortestLE n with
  | case1 => rfl
  | case2 n h ih =>
    have low : (UInt8.ofNat n).toNat = n % 256 := UInt8.toNat_ofNat'
    rw [natLE, ih, low]
    omega

/-- The lowest byte of a number that is put together from bytes. -/
theorem ofNat_lowest (b : UInt8) (n : Nat) : UInt8.ofNat (b.toNat + 256 * n) = b := by
  have hb : b.toNat < 256 := b.toNat_lt
  apply UInt8.toNat_inj.1
  rw [UInt8.toNat_ofNat']
  omega

/-- A byte string is what its number is written as at the same width. -/
theorem ofNatLE_natLE (bs : Bytes) : ofNatLE bs.length (natLE bs) = bs := by
  induction bs with
  | nil => rfl
  | cons b bs ih =>
    have hb : b.toNat < 256 := b.toNat_lt
    have hhigh : (b.toNat + 256 * natLE bs) / 256 = natLE bs := by omega
    rw [List.length_cons, natLE, ofNatLE, ofNat_lowest, hhigh, ih]

theorem shortestLE_zero : shortestLE 0 = [] := by
  rw [shortestLE, if_pos rfl]

/-- A byte string with no needless zero at its end is the shortest one for its number. -/
theorem shortestLE_natLE {bs : Bytes} (h : bs.getLast? ≠ some 0) : shortestLE (natLE bs) = bs := by
  induction bs with
  | nil => exact shortestLE_zero
  | cons b bs ih =>
    have hb : b.toNat < 256 := b.toNat_lt
    have hrest : shortestLE (natLE bs) = bs := by
      cases bs with
      | nil => exact shortestLE_zero
      | cons c cs => exact ih (by rwa [List.getLast?_cons_cons] at h)
    have hne : b.toNat + 256 * natLE bs ≠ 0 := by
      intro hzero
      have hlow : b = 0 := UInt8.toNat_inj.1 (Nat.eq_zero_of_add_eq_zero_right hzero)
      have hhigh : natLE bs = 0 := by omega
      rw [hhigh, shortestLE_zero] at hrest
      rw [hlow, ← hrest] at h
      exact h rfl
    have hhigh : (b.toNat + 256 * natLE bs) / 256 = natLE bs := by omega
    rw [natLE, shortestLE, if_neg hne, ofNat_lowest, hhigh, hrest]

/-- The shortest form has no needless zero at its end. -/
theorem getLast?_shortestLE (n : Nat) : (shortestLE n).getLast? ≠ some 0 := by
  fun_induction shortestLE n with
  | case1 => simp
  | case2 n h ih =>
    rcases hrest : shortestLE (n / 256) with _ | ⟨c, cs⟩
    · -- Only the lowest byte is left, and it is not zero since the number is not.
      have hzero : n / 256 = 0 := by
        rw [← natLE_shortestLE (n / 256), hrest]
        rfl
      intro hlast
      have hbyte : UInt8.ofNat n = 0 := by simpa using hlast
      have hlow := congrArg UInt8.toNat hbyte
      rw [UInt8.toNat_ofNat'] at hlow
      have : n % 256 = 0 := hlow
      omega
    · rw [hrest] at ih
      rw [List.getLast?_cons_cons]
      exact ih

theorem natLE_concat (bs : Bytes) (b : UInt8) :
    natLE (bs ++ [b]) = natLE bs + capacity bs.length * b.toNat := by
  induction bs with
  | nil => simp [natLE, capacity]
  | cons a bs ih =>
    have hassoc : capacity (bs.length + 1) * b.toNat = 256 * (capacity bs.length * b.toNat) := by
      rw [capacity, Nat.mul_assoc]
    rw [List.cons_append, natLE, natLE, ih, List.length_cons, hassoc]
    omega

theorem natLE_eq_zero {bs : Bytes} (h : ∀ b ∈ bs, b = 0) : natLE bs = 0 := by
  induction bs with
  | nil => rfl
  | cons b bs ih =>
    have hb : b = 0 := h b List.mem_cons_self
    have hrest : natLE bs = 0 := ih fun a ha => h a (List.mem_cons_of_mem b ha)
    rw [natLE, hb, hrest]
    rfl

theorem natLE_lt (bs : Bytes) : natLE bs < capacity bs.length := by
  induction bs with
  | nil => decide
  | cons b bs ih =>
    have hb : b.toNat < 256 := b.toNat_lt
    rw [natLE, List.length_cons, capacity]
    omega

end Bytes

end SpendScript

import Mathlib

namespace ByteWord

-- A byte string read as a little-endian number, as a load of a machine word
-- from memory does on a little-endian host.
def val : List UInt8 → Nat
  | [] => 0
  | b :: bs => b.toNat + 256 * val bs

@[simp] theorem val_nil : val [] = 0 := rfl

@[simp] theorem val_cons (b : UInt8) (bs : List UInt8) :
    val (b :: bs) = b.toNat + 256 * val bs := rfl

theorem val_lt (bs : List UInt8) : val bs < 256 ^ bs.length := by
  induction bs with
  | nil => simp
  | cons b bs ih =>
      have hb := b.toNat_lt
      simp only [val_cons, List.length_cons, Nat.pow_succ]
      omega

theorem val_inj {bs cs : List UInt8} (hlen : bs.length = cs.length) :
    val bs = val cs ↔ bs = cs := by
  induction bs generalizing cs with
  | nil =>
      cases cs with
      | nil => simp
      | cons c cs => simp at hlen
  | cons b bs ih =>
      cases cs with
      | nil => simp at hlen
      | cons c cs =>
          simp only [List.length_cons, Nat.add_right_cancel_iff] at hlen
          have hb := b.toNat_lt
          have hc := c.toNat_lt
          constructor
          · intro h
            simp only [val_cons] at h
            have hlow : b.toNat = c.toNat := by omega
            have hhigh : val bs = val cs := by omega
            rw [UInt8.toNat_inj.mp hlow, (ih hlen).mp hhigh]
          · intro h
            rw [h]

/-! ### Bitwise operations digit by digit -/

-- A bitwise operation on two numbers acts on their low bytes and on the rest apart.
theorem bitwise_digit {f : Bool → Bool → Bool} (hf : f false false = false)
    {a c : Nat} (x y : Nat) (ha : a < 2 ^ 8) (hc : c < 2 ^ 8) :
    Nat.bitwise f (a + 256 * x) (c + 256 * y) =
      Nat.bitwise f a c + 256 * Nat.bitwise f x y := by
  have hlt : Nat.bitwise f a c < 2 ^ 8 := Nat.bitwise_lt_two_pow ha hc
  apply Nat.eq_of_testBit_eq
  intro i
  rw [Nat.add_comm a, Nat.add_comm c, Nat.add_comm (Nat.bitwise f a c),
    show (256 : Nat) = 2 ^ 8 from rfl, Nat.testBit_bitwise hf,
    Nat.testBit_two_pow_mul_add _ ha, Nat.testBit_two_pow_mul_add _ hc,
    Nat.testBit_two_pow_mul_add _ hlt]
  split <;> simp [Nat.testBit_bitwise hf]

theorem land_digit {a c : Nat} (x y : Nat) (ha : a < 2 ^ 8) (hc : c < 2 ^ 8) :
    (a + 256 * x) &&& (c + 256 * y) = (a &&& c) + 256 * (x &&& y) :=
  bitwise_digit rfl x y ha hc

theorem xor_digit {a c : Nat} (x y : Nat) (ha : a < 2 ^ 8) (hc : c < 2 ^ 8) :
    (a + 256 * x) ^^^ (c + 256 * y) = (a ^^^ c) + 256 * (x ^^^ y) :=
  bitwise_digit rfl x y ha hc

theorem val_xor {bs cs : List UInt8} (hlen : bs.length = cs.length) :
    val bs ^^^ val cs = val (List.zipWith (· ^^^ ·) bs cs) := by
  induction bs generalizing cs with
  | nil =>
      cases cs with
      | nil => rfl
      | cons c cs => simp at hlen
  | cons b bs ih =>
      cases cs with
      | nil => simp at hlen
      | cons c cs =>
          simp only [List.length_cons, Nat.add_right_cancel_iff] at hlen
          simp only [val_cons, List.zipWith_cons_cons, UInt8.toNat_xor]
          rw [xor_digit _ _ b.toNat_lt c.toNat_lt, ih hlen]

-- Bytes of a bytewise xor are zero exactly where the two strings agree.
theorem zero_mem_zipWith_xor {bs cs : List UInt8} (hlen : bs.length = cs.length) :
    0 ∈ List.zipWith (· ^^^ ·) bs cs ↔ ∃ k < bs.length, bs[k]! = cs[k]! := by
  induction bs generalizing cs with
  | nil => simp
  | cons b bs ih =>
      cases cs with
      | nil => simp at hlen
      | cons c cs =>
          simp only [List.length_cons, Nat.add_right_cancel_iff] at hlen
          simp only [List.zipWith_cons_cons, List.mem_cons, ih hlen, List.length_cons,
            eq_comm (a := (0 : UInt8)), UInt8.xor_eq_zero_iff]
          constructor
          · rintro (h | ⟨k, hk, he⟩)
            · exact ⟨0, by omega, by simpa using h⟩
            · exact ⟨k + 1, by omega, by simpa using he⟩
          · rintro ⟨k, hk, he⟩
            cases k with
            | zero => exact Or.inl (by simpa using he)
            | succ k => exact Or.inr ⟨k, by omega, by simpa using he⟩

/-! ### Finding a zero byte in a word

The test `(x - 0x0101..01) & ~x & 0x8080..80` is non-zero exactly when some byte
of the word `x` is zero: below the lowest zero byte every byte is at least one,
so the subtraction borrows nothing there, and at that byte it wraps to `0xff`. -/

-- `0x0101..01` with `n` bytes.
def ones : Nat → Nat
  | 0 => 0
  | n + 1 => 1 + 256 * ones n

@[simp] theorem ones_zero : ones 0 = 0 := rfl

@[simp] theorem ones_succ (n : Nat) : ones (n + 1) = 1 + 256 * ones n := rfl

theorem ones_lt (n : Nat) : ones n < 256 ^ n := by
  induction n with
  | zero => simp
  | succ n ih =>
      simp only [ones_succ, Nat.pow_succ]
      omega

-- The zero-byte test on an `n`-byte word, subtraction and complement taken
-- modulo `2^(8n)`.
def hasZeroByte (n x : Nat) : Nat :=
  ((x + 256 ^ n - ones n) % 256 ^ n) &&& (256 ^ n - 1 - x) &&& (128 * ones n)

private theorem mod_digit (a y n : Nat) (ha : a < 256) :
    (a + 256 * y) % 256 ^ (n + 1) = a + 256 * (y % 256 ^ n) := by
  rw [Nat.pow_succ, Nat.mul_comm _ 256, Nat.mod_mul, Nat.add_mul_mod_self_left,
    Nat.mod_eq_of_lt ha, Nat.add_mul_div_left _ _ (by omega), Nat.div_eq_of_lt ha, Nat.zero_add]

private theorem low_byte_no_borrow (b : Nat) (h1 : 1 ≤ b) (h2 : b < 256) :
    (b - 1) &&& (255 - b) &&& 128 = 0 := by
  have key : ∀ b : Fin 256, 1 ≤ b.val → ((b.val - 1) &&& (255 - b.val) &&& 128) = 0 := by
    decide +kernel
  exact key ⟨b, h2⟩ h1

private theorem hasZeroByte_split (b : UInt8) (bs : List UInt8) :
    256 ^ (bs.length + 1) - 1 - val (b :: bs) =
        (255 - b.toNat) + 256 * (256 ^ bs.length - 1 - val bs) ∧
      128 * ones (bs.length + 1) = 128 + 256 * (128 * ones bs.length) := by
  have hx := val_lt bs
  have hb := b.toNat_lt
  simp only [val_cons, ones_succ, Nat.pow_succ]
  omega

-- A zero low byte borrows: it wraps to `0xff`, whose top bit survives the masks.
theorem hasZeroByte_cons_zero (bs : List UInt8) :
    hasZeroByte (bs.length + 1) (val (0 :: bs)) ≠ 0 := by
  have hx := val_lt bs
  have hm := ones_lt bs.length
  obtain ⟨hnot, hmask⟩ := hasZeroByte_split 0 bs
  have hsub : val (0 :: bs) + 256 ^ (bs.length + 1) - ones (bs.length + 1) =
      255 + 256 * (val bs + 256 ^ bs.length - 1 - ones bs.length) := by
    simp only [val_cons, ones_succ, Nat.pow_succ, UInt8.toNat_zero]
    omega
  unfold hasZeroByte
  rw [hnot, hmask, hsub, mod_digit _ _ _ (by omega),
    land_digit _ _ (by omega) (by simp), land_digit _ _ (Nat.and_lt_two_pow _ (by simp)) (by omega)]
  simp

-- A non-zero low byte borrows nothing, and the test is decided by the higher bytes.
theorem hasZeroByte_cons_of_ne {b : UInt8} (hb0 : b ≠ 0) (bs : List UInt8) :
    hasZeroByte (bs.length + 1) (val (b :: bs)) = 256 * hasZeroByte bs.length (val bs) := by
  have hx := val_lt bs
  have hm := ones_lt bs.length
  have hb := b.toNat_lt
  obtain ⟨hnot, hmask⟩ := hasZeroByte_split b bs
  have h1 : 1 ≤ b.toNat := by
    rcases Nat.eq_zero_or_pos b.toNat with h | h
    · exact absurd (UInt8.toNat_inj.mp (by simpa using h)) hb0
    · exact h
  have h255 : 255 - b.toNat < 2 ^ 8 := by omega
  have hsub : val (b :: bs) + 256 ^ (bs.length + 1) - ones (bs.length + 1) =
      (b.toNat - 1) + 256 * (val bs + 256 ^ bs.length - ones bs.length) := by
    simp only [val_cons, ones_succ, Nat.pow_succ]
    omega
  unfold hasZeroByte
  rw [hnot, hmask, hsub, mod_digit _ _ _ (by omega),
    land_digit _ _ (by omega) h255, land_digit _ _ (Nat.and_lt_two_pow _ h255) (by omega),
    low_byte_no_borrow _ h1 hb, Nat.zero_add]

theorem hasZeroByte_ne_zero_iff (bs : List UInt8) :
    hasZeroByte bs.length (val bs) ≠ 0 ↔ 0 ∈ bs := by
  induction bs with
  | nil => simp [hasZeroByte]
  | cons b bs ih =>
      rw [List.length_cons, List.mem_cons]
      by_cases hb : b = 0
      · subst hb
        simpa using hasZeroByte_cons_zero bs
      · rw [hasZeroByte_cons_of_ne hb, Nat.mul_ne_zero_iff, ih]
        simp [Ne.symm hb]

end ByteWord

import Mathlib.Data.BitVec

/-!
Prefix masks of a `w`-bit word: the ones from bit `k` up, `allOnes w <<< k`. The masks of
naturally aligned regions of size `2^k` are of this form; they are ordered by `k`, a coarser
one is a sub-mask of a finer one, and shifting one left by a bit makes it one bit coarser.
-/

namespace PrefixMask

variable {w : Nat}

-- `allOnes w <<< k`: the bits from `k` up.
def pmask (w k : Nat) : BitVec w := BitVec.allOnes w <<< k

@[simp] theorem getLsbD_pmask (k i : Nat) :
    (pmask w k).getLsbD i = (decide (i < w) && decide (k ≤ i)) := by
  simp only [pmask, BitVec.getLsbD_shiftLeft, BitVec.getLsbD_allOnes]
  by_cases hi : i < w <;> by_cases hk : k ≤ i <;> simp [hi, hk]
  omega

-- The mask of the region of size `2^k` around an address: `~(size - 1)`.
theorem not_twoPow_sub_one {k : Nat} (hk : k < w) : ~~~(BitVec.twoPow w k - 1) = pmask w k := by
  apply BitVec.eq_of_getLsbD_eq
  intro i hi
  have htp : (BitVec.twoPow w k).toNat = 2 ^ k := by
    rw [BitVec.toNat_twoPow, Nat.mod_eq_of_lt (Nat.pow_lt_pow_right (by decide) hk)]
  have hsub : BitVec.twoPow w k - 1 = BitVec.ofNat w (2 ^ k - 1) := by
    apply BitVec.eq_of_toNat_eq
    have h1 : (1 : BitVec w).toNat = 1 := by
      show (BitVec.ofNat w 1).toNat = 1
      rw [BitVec.toNat_ofNat]
      exact Nat.mod_eq_of_lt (Nat.one_lt_two_pow (by omega))
    have h2 : 2 ^ k < 2 ^ w := Nat.pow_lt_pow_right (by decide) hk
    have h3 : 1 ≤ 2 ^ k := Nat.one_le_two_pow
    rw [BitVec.toNat_sub, htp, BitVec.toNat_ofNat, h1,
      show 2 ^ w - 1 + 2 ^ k = 2 ^ w + (2 ^ k - 1) by omega, Nat.add_mod_left]
  rw [hsub, BitVec.getLsbD_not, BitVec.getLsbD_ofNat, Nat.testBit_two_pow_sub_one, getLsbD_pmask]
  by_cases hki : k ≤ i <;> simp [hi, hki]
  omega

-- Two prefix masks meet in the coarser one.
theorem pmask_and_pmask (a b : Nat) : pmask w a &&& pmask w b = pmask w (max a b) := by
  apply BitVec.eq_of_getLsbD_eq
  intro i hi
  simp only [BitVec.getLsbD_and, getLsbD_pmask]
  by_cases ha : a ≤ i <;> by_cases hb : b ≤ i <;> simp [hi, ha, hb]

theorem pmask_shiftLeft (k n : Nat) : pmask w k <<< n = pmask w (k + n) := by
  rw [pmask, pmask, BitVec.shiftLeft_add]

theorem pmask_of_le {k : Nat} (hk : w ≤ k) : pmask w k = 0 := by
  apply BitVec.eq_of_getLsbD_eq
  intro i hi
  simp only [getLsbD_pmask]
  simp [hi]
  omega

-- Masking by a finer mask first changes nothing under a coarser one.
theorem and_pmask_and_pmask (x : BitVec w) {a b : Nat} (hab : a ≤ b) :
    x &&& pmask w a &&& pmask w b = x &&& pmask w b := by
  rw [BitVec.and_assoc, pmask_and_pmask, Nat.max_eq_right hab]

-- Two words whose difference vanishes under a mask agree under it.
theorem and_eq_of_xor_and_eq_zero {a b m : BitVec w} (h : (a ^^^ b) &&& m = 0) :
    a &&& m = b &&& m := by
  apply BitVec.eq_of_getLsbD_eq
  intro i hi
  have hb := congrArg (·.getLsbD i) h
  simp only [BitVec.getLsbD_and, BitVec.getLsbD_xor] at hb ⊢
  revert hb
  cases a.getLsbD i <;> cases b.getLsbD i <;> cases m.getLsbD i <;> simp

-- A word masked below bit `k > 0` has bit 0 clear, so it is not all ones.
theorem and_pmask_ne_allOnes (x : BitVec w) {k : Nat} (hk : 0 < k) (hw : 0 < w) :
    x &&& pmask w k ≠ BitVec.allOnes w := by
  intro h
  have hb := congrArg (·.getLsbD 0) h
  simp only [BitVec.getLsbD_and, getLsbD_pmask, BitVec.getLsbD_allOnes] at hb
  simp [hw] at hb
  omega

-- Two words agree from bit `k` up exactly when they lie in one aligned block of size `2^k`.
theorem and_pmask_eq_iff (a b : BitVec w) (k : Nat) :
    a &&& pmask w k = b &&& pmask w k ↔ a.toNat / 2 ^ k = b.toNat / 2 ^ k := by
  constructor
  · intro h
    apply Nat.eq_of_testBit_eq
    intro i
    have hb := congrArg (·.getLsbD (i + k)) h
    simp only [BitVec.getLsbD_and, getLsbD_pmask] at hb
    rw [Nat.testBit_div_two_pow, Nat.testBit_div_two_pow, ← BitVec.getLsbD, ← BitVec.getLsbD]
    by_cases hi : i + k < w
    · simpa [hi] using hb
    · rw [BitVec.getLsbD_of_ge a _ (by omega), BitVec.getLsbD_of_ge b _ (by omega)]
  · intro h
    apply BitVec.eq_of_getLsbD_eq
    intro i hi
    simp only [BitVec.getLsbD_and, getLsbD_pmask, hi, decide_true, Bool.true_and]
    by_cases hk : k ≤ i
    · have hb := congrArg (·.testBit (i - k)) h
      simp only [Nat.testBit_div_two_pow, Nat.sub_add_cancel hk] at hb
      simpa [hk, BitVec.getLsbD] using hb
    · simp [hk]

-- Bits from `k` up survive a mask that keeps them.
theorem and_pmask_or_shiftRight (x y : BitVec w) (k : Nat) :
    (x &&& (pmask w k ||| y)) >>> k = x >>> k := by
  apply BitVec.eq_of_getLsbD_eq
  intro i hi
  simp only [BitVec.getLsbD_ushiftRight, BitVec.getLsbD_and, BitVec.getLsbD_or, getLsbD_pmask]
  by_cases h : k + i < w
  · simp [h]
  · simp [BitVec.getLsbD_of_ge x (k + i) (by omega)]

end PrefixMask

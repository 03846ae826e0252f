import Mathlib

/-!
Bits of machine words read as natural numbers: two's complement, the bit a sum leaves at a
position, the carry and the signed overflow of an addition or a subtraction as the sign
bits show them, and how the low `N` bits of a `BitVec` follow its operations.
-/

namespace BitArith

-- The signed value of an `N`-bit word in two's complement.
def signed (N x : Nat) : Int := if x < 2 ^ (N - 1) then x else x - 2 ^ N

theorem ite_one_zero_eq_toNat (p : Prop) [Decidable p] :
    (if p then 1 else 0 : Nat) = (decide p).toNat := by
  by_cases h : p <;> simp [h]

theorem two_pow_eq_two_mul {N : Nat} (hN : 0 < N) : 2 ^ N = 2 * 2 ^ (N - 1) := by
  rw [← Nat.pow_succ']
  congr 1
  omega

-- Below `2 * M`, reducing modulo `M` subtracts `M` at most once.
theorem mod_eq_or_of_lt_two_mul {x M : Nat} (h : x < 2 * M) : x % M = x ∨ x % M + M = x := by
  by_cases hx : x < M
  · exact .inl (Nat.mod_eq_of_lt hx)
  · right
    rw [Nat.mod_eq_sub_mod (by omega), Nat.mod_eq_of_lt (by omega)]
    omega

-- The top bit of an `N`-bit word is its sign.
theorem testBit_pred_eq {N x : Nat} (hN : 0 < N) (hx : x < 2 ^ N) :
    x.testBit (N - 1) = decide (2 ^ (N - 1) ≤ x) := by
  have hP := two_pow_eq_two_mul hN
  have hpos : 0 < 2 ^ (N - 1) := Nat.two_pow_pos _
  have hq : x / 2 ^ (N - 1) < 2 := (Nat.div_lt_iff_lt_mul hpos).mpr (by omega)
  have h1 : 1 ≤ x / 2 ^ (N - 1) ↔ 2 ^ (N - 1) ≤ x := by
    rw [Nat.le_div_iff_mul_le hpos, one_mul]
  rw [Nat.testBit_eq_decide_div_mod_eq, Nat.mod_eq_of_lt hq]
  simp only [decide_eq_decide]
  omega

/-! ### Carries -/

-- The low parts of `x` and `y` and the carry-in decide the carry into position `i`.
theorem add_add_div (x y c i : Nat) (hc : c ≤ 1) :
    (x + y + c) / 2 ^ i =
      x / 2 ^ i + y / 2 ^ i + (if 2 ^ i ≤ x % 2 ^ i + y % 2 ^ i + c then 1 else 0) := by
  have hpos : 0 < 2 ^ i := Nat.two_pow_pos i
  have hx := Nat.mod_lt x hpos
  have hy := Nat.mod_lt y hpos
  have hsplit : x + y + c = (x % 2 ^ i + y % 2 ^ i + c) + 2 ^ i * (x / 2 ^ i + y / 2 ^ i) := by
    have := Nat.mod_add_div x (2 ^ i)
    have := Nat.mod_add_div y (2 ^ i)
    rw [Nat.mul_add]
    omega
  rw [hsplit, Nat.add_mul_div_left _ _ hpos]
  split_ifs with h
  · rw [Nat.div_eq_of_lt_le (show 1 * 2 ^ i ≤ _ by omega) (by omega)]
    omega
  · rw [Nat.div_eq_of_lt (by omega)]
    omega

-- Bit `i` of a sum: the bits of the summands and the carry into position `i`.
theorem testBit_add_add (x y c i : Nat) (hc : c ≤ 1) :
    (x + y + c).testBit i =
      (x.testBit i ^^ y.testBit i ^^ decide (2 ^ i ≤ x % 2 ^ i + y % 2 ^ i + c)) := by
  simp only [Nat.testBit_eq_decide_div_mod_eq, add_add_div x y c i hc]
  rcases Nat.mod_two_eq_zero_or_one (x / 2 ^ i) with hx | hx <;>
    rcases Nat.mod_two_eq_zero_or_one (y / 2 ^ i) with hy | hy <;>
    by_cases h : 2 ^ i ≤ x % 2 ^ i + y % 2 ^ i + c <;>
    simp [h, hx, hy, Nat.add_mod]

-- The carry out of `a + b + c` shows in the truncated sum: it is below `b + c`.
theorem add_mod_lt_iff {a b c P : Nat} (ha : a < P) (hb : b < P) (hc : c ≤ 1) :
    (a + b + c) % P < b + c ↔ P ≤ a + b + c := by
  have hlt := Nat.mod_lt (a + b + c) (show 0 < P by omega)
  rcases mod_eq_or_of_lt_two_mul (show a + b + c < 2 * P by omega) with h | h <;> omega

-- A difference `d` recovered from `d + b + c = a` modulo `P`.
theorem eq_sub_mod_of_add_mod {a b c d P : Nat} (hb : b < P) (hc : c ≤ 1)
    (hd : d < P) (h : (d + b + c) % P = a) : d = (P + a - (b + c)) % P := by
  have hlt := Nat.mod_lt (P + a - (b + c)) (show 0 < P by omega)
  rcases mod_eq_or_of_lt_two_mul (show d + b + c < 2 * P by omega) with h1 | h1 <;>
    rcases mod_eq_or_of_lt_two_mul (show P + a - (b + c) < 2 * P by omega) with h2 | h2 <;>
    omega

/-! ### Signed overflow -/

section Overflow

variable {N a b c : Nat}

-- `a + b + c` overflows when both operands have one sign and the sum has the other.
theorem signed_add_ne_iff (hN : 0 < N) (ha : a < 2 ^ N) (hb : b < 2 ^ N) (hc : c ≤ 1) :
    signed N a + signed N b + c ≠ signed N ((a + b + c) % 2 ^ N) ↔
      ((2 ^ (N - 1) ≤ a ↔ 2 ^ (N - 1) ≤ b) ∧
        ¬(2 ^ (N - 1) ≤ a ↔ 2 ^ (N - 1) ≤ (a + b + c) % 2 ^ N)) := by
  have hP := two_pow_eq_two_mul hN
  have hr := mod_eq_or_of_lt_two_mul (show a + b + c < 2 * 2 ^ N by omega)
  have hlt := Nat.mod_lt (a + b + c) (Nat.two_pow_pos N)
  generalize (a + b + c) % 2 ^ N = r at hr hlt ⊢
  have hPi : (2 : Int) ^ N = 2 * ((2 ^ (N - 1) : Nat) : Int) := by exact_mod_cast hP
  unfold signed
  rw [hPi]
  rw [hP] at ha hb hr hlt
  -- with `P = 2 ^ (N - 1)` named, each case of the three signs is linear
  generalize 2 ^ (N - 1) = P at *
  split_ifs <;> omega

-- `a - b - c` overflows when the operands differ in sign and the result differs from `a`.
theorem signed_sub_ne_iff (hN : 0 < N) (ha : a < 2 ^ N) (hb : b < 2 ^ N) (hc : c ≤ 1) :
    signed N a - signed N b - c ≠ signed N ((2 ^ N + a - (b + c)) % 2 ^ N) ↔
      (¬(2 ^ (N - 1) ≤ a ↔ 2 ^ (N - 1) ≤ b) ∧
        ¬(2 ^ (N - 1) ≤ a ↔ 2 ^ (N - 1) ≤ (2 ^ N + a - (b + c)) % 2 ^ N)) := by
  have hP := two_pow_eq_two_mul hN
  have hr := mod_eq_or_of_lt_two_mul (show 2 ^ N + a - (b + c) < 2 * 2 ^ N by omega)
  have hlt := Nat.mod_lt (2 ^ N + a - (b + c)) (Nat.two_pow_pos N)
  generalize (2 ^ N + a - (b + c)) % 2 ^ N = r at hr hlt ⊢
  have hPi : (2 : Int) ^ N = 2 * ((2 ^ (N - 1) : Nat) : Int) := by exact_mod_cast hP
  unfold signed
  rw [hPi]
  rw [hP] at ha hb hr hlt
  generalize 2 ^ (N - 1) = P at *
  split_ifs <;> omega

-- The same conditions as the xor of the sign bits that a flags computation reads.
theorem signed_add_overflow (hN : 0 < N) (ha : a < 2 ^ N) (hb : b < 2 ^ N) (hc : c ≤ 1) :
    decide (signed N a + signed N b + c ≠ signed N ((a + b + c) % 2 ^ N)) =
      (!(decide (2 ^ (N - 1) ≤ b) ^^ decide (2 ^ (N - 1) ≤ a)) &&
        (decide (2 ^ (N - 1) ≤ b) ^^ decide (2 ^ (N - 1) ≤ (a + b + c) % 2 ^ N))) := by
  have h := signed_add_ne_iff hN ha hb hc
  by_cases h1 : 2 ^ (N - 1) ≤ a <;> by_cases h2 : 2 ^ (N - 1) ≤ b <;>
    by_cases h3 : 2 ^ (N - 1) ≤ (a + b + c) % 2 ^ N <;> simp [h1, h2, h3] at h ⊢ <;> exact h

theorem signed_sub_overflow (hN : 0 < N) (ha : a < 2 ^ N) (hb : b < 2 ^ N) (hc : c ≤ 1) :
    decide (signed N a - signed N b - c ≠ signed N ((2 ^ N + a - (b + c)) % 2 ^ N)) =
      ((decide (2 ^ (N - 1) ≤ a) ^^ decide (2 ^ (N - 1) ≤ b)) &&
        (decide (2 ^ (N - 1) ≤ a) ^^ decide (2 ^ (N - 1) ≤ (2 ^ N + a - (b + c)) % 2 ^ N))) := by
  have h := signed_sub_ne_iff hN ha hb hc
  by_cases h1 : 2 ^ (N - 1) ≤ a <;> by_cases h2 : 2 ^ (N - 1) ≤ b <;>
    by_cases h3 : 2 ^ (N - 1) ≤ (2 ^ N + a - (b + c)) % 2 ^ N <;> simp [h1, h2, h3] at h ⊢ <;> exact h

end Overflow

-- A word is negative in two's complement exactly when its top bit is set.
theorem signed_neg_iff {N x : Nat} (hx : x < 2 ^ N) :
    signed N x < 0 ↔ 2 ^ (N - 1) ≤ x := by
  have hcast : ((2 ^ N : Nat) : Int) = 2 ^ N := by push_cast; rfl
  unfold signed
  split_ifs with h <;> omega

theorem natAbs_signed {N x : Nat} (hx : x < 2 ^ N) :
    (signed N x).natAbs = if x < 2 ^ (N - 1) then x else 2 ^ N - x := by
  have hcast : ((2 ^ N : Nat) : Int) = 2 ^ N := by push_cast; rfl
  unfold signed
  split_ifs <;> omega

-- A signed value in range, reduced to `N` bits: a negative one is reduced by adding `2 ^ N`
-- once.
theorem emod_two_pow_eq_ite {N : Nat} {v : Int} (hN : 0 < N) (hlo : -2 ^ (N - 1) ≤ v)
    (hhi : v < 2 ^ (N - 1)) : v % 2 ^ N = if 0 ≤ v then v else v + 2 ^ N := by
  have hPi : (2 : Int) ^ N = 2 * 2 ^ (N - 1) := by
    rw [← pow_succ']
    congr 1
    omega
  split_ifs with h
  · exact Int.emod_eq_of_lt h (by omega)
  · rw [← Int.add_emod_right, Int.emod_eq_of_lt (by omega) (by omega)]

-- The sign bit of a signed value in range, reduced to `N` bits.
theorem testBit_emod_pred {N : Nat} {v : Int} (hN : 0 < N) (hlo : -2 ^ (N - 1) ≤ v)
    (hhi : v < 2 ^ (N - 1)) : (v % 2 ^ N).toNat.testBit (N - 1) = decide (v < 0) := by
  have hPi : (2 : Int) ^ N = 2 * 2 ^ (N - 1) := by
    rw [← pow_succ']
    congr 1
    omega
  have hcast : ((2 ^ N : Nat) : Int) = 2 ^ N ∧ ((2 ^ (N - 1) : Nat) : Int) = 2 ^ (N - 1) := by
    push_cast
    exact ⟨rfl, rfl⟩
  have hmod := emod_two_pow_eq_ite hN hlo hhi
  have hlt : (v % 2 ^ N).toNat < 2 ^ N := by
    rw [hmod]
    split_ifs <;> omega
  rw [testBit_pred_eq hN hlt, hmod]
  apply decide_eq_decide.mpr
  split_ifs <;> omega

/-! ### The low `N` bits of a `BitVec` -/

section LowBits

variable {w N : Nat}

theorem toNat_and_ofNat_two_pow {p : Nat} (x : BitVec w) (hp : p < w) :
    (x &&& BitVec.ofNat w (2 ^ p)).toNat = (x.getLsbD p).toNat * 2 ^ p := by
  rw [BitVec.toNat_and, BitVec.toNat_ofNat, Nat.mod_eq_of_lt (Nat.pow_lt_pow_right (by omega) hp),
    Nat.and_two_pow, BitVec.testBit_toNat]

theorem getLsbD_eq_testBit_mod {i : Nat} (x : BitVec w) (hi : i < N) :
    x.getLsbD i = (x.toNat % 2 ^ N).testBit i := by
  rw [Nat.testBit_mod_two_pow, BitVec.testBit_toNat]
  simp [hi]

theorem toNat_add_mod (x y : BitVec w) (hN : N ≤ w) :
    (x + y).toNat % 2 ^ N = (x.toNat % 2 ^ N + y.toNat % 2 ^ N) % 2 ^ N := by
  rw [BitVec.toNat_add, Nat.mod_mod_of_dvd _ (Nat.pow_dvd_pow 2 hN), Nat.add_mod]

theorem toNat_add_add_mod (x y : BitVec w) (c : Nat) (hN : N ≤ w) :
    (x + y + BitVec.ofNat w c).toNat % 2 ^ N = (x.toNat % 2 ^ N + y.toNat % 2 ^ N + c) % 2 ^ N := by
  rw [toNat_add_mod _ _ hN, toNat_add_mod _ _ hN, BitVec.toNat_ofNat,
    Nat.mod_mod_of_dvd _ (Nat.pow_dvd_pow 2 hN), Nat.add_mod_mod, Nat.mod_add_mod]

-- The bit that an addition leaves at `i`, with the bits of both summands taken out, is
-- the carry into `i`.
theorem getLsbD_add_add_xor (x y : BitVec w) {c i : Nat} (hc : c ≤ 1) (hi : i < w) :
    ((x + y + BitVec.ofNat w c).getLsbD i ^^ y.getLsbD i ^^ x.getLsbD i) =
      decide (2 ^ i ≤ x.toNat % 2 ^ i + y.toNat % 2 ^ i + c) := by
  have hsum : (x + y + BitVec.ofNat w c).toNat = (x.toNat + y.toNat + c) % 2 ^ w := by
    rw [BitVec.toNat_add, BitVec.toNat_add, BitVec.toNat_ofNat, Nat.add_mod_mod, Nat.mod_add_mod]
  rw [← BitVec.testBit_toNat, ← BitVec.testBit_toNat, ← BitVec.testBit_toNat, hsum,
    Nat.testBit_mod_two_pow, testBit_add_add _ _ _ _ hc]
  cases x.toNat.testBit i <;> cases y.toNat.testBit i <;> simp [hi]

theorem toNat_shiftLeft_mod (x : BitVec w) (n : Nat) (hN : N ≤ w) :
    (x <<< n).toNat % 2 ^ N = (x.toNat % 2 ^ N) <<< n % 2 ^ N := by
  rw [BitVec.toNat_shiftLeft, Nat.mod_mod_of_dvd _ (Nat.pow_dvd_pow 2 hN), Nat.shiftLeft_eq,
    Nat.shiftLeft_eq, Nat.mod_mul_mod]

-- The low bits of a word are those of its signed value.
theorem toInt_emod_two_pow (x : BitVec w) (hN : N ≤ w) :
    x.toInt % 2 ^ N = ((x.toNat % 2 ^ N : Nat) : Int) := by
  rw [BitVec.toInt_eq_toNat_cond]
  have hdvd : (2 : Int) ^ N ∣ 2 ^ w := pow_dvd_pow 2 hN
  split_ifs
  · push_cast
    rfl
  · push_cast
    rw [Int.sub_emod, Int.emod_eq_zero_of_dvd hdvd, sub_zero, Int.emod_emod]

-- A word whose signed value is non-negative has it as its unsigned value.
theorem toInt_eq_toNat_of_nonneg {x : BitVec w} (h : 0 ≤ x.toInt) : x.toInt = x.toNat :=
  BitVec.toInt_eq_toNat_of_msb (BitVec.msb_eq_false_iff_two_mul_lt.mpr (BitVec.toInt_pos_iff.mp h))

theorem getLsbD_sshiftRight_of_lt {k i : Nat} (x : BitVec w) (h : k + i < w) :
    (x.sshiftRight k).getLsbD i = x.getLsbD (k + i) := by
  simp [BitVec.getLsbD_sshiftRight, h]
  omega

-- Sign-extending the low `N` bits gives their signed value.
theorem toInt_signExtend_setWidth (x : BitVec w) (hN : 0 < N) (hNw : N ≤ w) :
    ((x.setWidth N).signExtend w).toInt = signed N (x.toNat % 2 ^ N) := by
  rw [BitVec.toInt_signExtend_of_le hNw, BitVec.toInt_eq_toNat_cond, BitVec.toNat_setWidth]
  have h2 := two_pow_eq_two_mul hN
  unfold signed
  split_ifs <;> push_cast <;> omega

theorem toNat_and_mask (x : BitVec w) {k : Nat} (hk : k ≤ w) :
    (x &&& BitVec.ofNat w (2 ^ k - 1)).toNat = x.toNat % 2 ^ k := by
  rw [BitVec.toNat_and, BitVec.toNat_ofNat, Nat.mod_eq_of_lt, Nat.and_two_pow_sub_one_eq_mod]
  have := Nat.pow_le_pow_right (show 0 < 2 by norm_num) hk
  have := Nat.two_pow_pos k
  omega

-- The word `x` with its low `k` bits replaced by `v`.
def setLow (x : BitVec w) (k v : Nat) : BitVec w := BitVec.ofNat w (x.toNat / 2 ^ k * 2 ^ k + v)

theorem toNat_clear_or (x : BitVec w) {k v : Nat} (hk : k ≤ w) (hv : v < 2 ^ k) :
    ((x &&& ~~~BitVec.ofNat w (2 ^ k - 1)) ||| BitVec.ofNat w v).toNat =
      x.toNat / 2 ^ k * 2 ^ k + v := by
  -- clearing the low `k` bits is shifting them out and back
  have hclear : x &&& ~~~BitVec.ofNat w (2 ^ k - 1) = (x >>> k) <<< k := by
    apply BitVec.eq_of_getLsbD_eq
    intro i hi
    rw [BitVec.getLsbD_and, BitVec.getLsbD_not, BitVec.getLsbD_ofNat,
      Nat.testBit_two_pow_sub_one, BitVec.getLsbD_shiftLeft, BitVec.getLsbD_ushiftRight]
    by_cases hik : i < k
    · simp [hik]
    · simp [hik, hi, show k + (i - k) = i by omega]
  have hvw : v < 2 ^ w := lt_of_lt_of_le hv (Nat.pow_le_pow_right (by norm_num) hk)
  have hhigh : (x.toNat >>> k) <<< k % 2 ^ w = (x.toNat >>> k) <<< k := by
    apply Nat.mod_eq_of_lt
    rw [Nat.shiftLeft_eq, Nat.shiftRight_eq_div_pow]
    exact lt_of_le_of_lt (Nat.div_mul_le_self _ _) x.isLt
  rw [hclear, BitVec.toNat_or, BitVec.toNat_shiftLeft, BitVec.toNat_ushiftRight, hhigh,
    BitVec.toNat_ofNat, Nat.mod_eq_of_lt hvw, ← Nat.shiftLeft_add_eq_or_of_lt hv,
    Nat.shiftLeft_eq, Nat.shiftRight_eq_div_pow]

-- C's read-modify-write of the low bits of a register, `(x & ~mask) | v`.
theorem clear_or_eq_setLow (x : BitVec w) {k v : Nat} (hk : k ≤ w) (hv : v < 2 ^ k) :
    (x &&& ~~~BitVec.ofNat w (2 ^ k - 1)) ||| BitVec.ofNat w v = setLow x k v := by
  apply BitVec.eq_of_toNat_eq
  rw [toNat_clear_or x hk hv, setLow, BitVec.toNat_ofNat, Nat.mod_eq_of_lt]
  rw [← toNat_clear_or x hk hv]
  exact BitVec.isLt _

end LowBits

section Fields

variable {w : Nat}

-- The bits `[a, a + n)` of a word, kept in place by a mask.
theorem toNat_and_field (x : BitVec w) {a n : Nat} (h : a + n ≤ w) :
    (x &&& BitVec.ofNat w ((2 ^ n - 1) * 2 ^ a)).toNat = x.toNat / 2 ^ a % 2 ^ n * 2 ^ a := by
  have hlt : (2 ^ n - 1) * 2 ^ a < 2 ^ w := by
    calc (2 ^ n - 1) * 2 ^ a < 2 ^ n * 2 ^ a :=
          Nat.mul_lt_mul_of_pos_right (Nat.sub_lt (Nat.two_pow_pos n) Nat.one_pos) (Nat.two_pow_pos a)
      _ = 2 ^ (n + a) := (Nat.pow_add 2 n a).symm
      _ ≤ 2 ^ w := Nat.pow_le_pow_right (by decide) (by omega)
  rw [BitVec.toNat_and, BitVec.toNat_ofNat, Nat.mod_eq_of_lt hlt, ← Nat.shiftLeft_eq,
    ← Nat.shiftLeft_eq]
  apply Nat.eq_of_testBit_eq
  intro i
  rw [Nat.testBit_and, Nat.testBit_shiftLeft, Nat.testBit_shiftLeft, Nat.testBit_two_pow_sub_one,
    Nat.testBit_mod_two_pow, Nat.testBit_div_two_pow]
  by_cases hi : a ≤ i
  · rw [Nat.sub_add_cancel hi]
    by_cases hn : i - a < n <;> simp [hi, hn]
  · simp [hi]

-- A mask made of two disjoint masks keeps the sum of what each keeps.
theorem toNat_and_or_of_disjoint (x A B : BitVec w) (h : A &&& B = 0) :
    (x &&& (A ||| B)).toNat = (x &&& A).toNat + (x &&& B).toNat := by
  have hd : (x &&& A) &&& (x &&& B) = 0 := by
    apply BitVec.eq_of_getLsbD_eq
    intro i hi
    have hb := congrArg (·.getLsbD i) h
    simp only [BitVec.getLsbD_and] at hb ⊢
    cases x.getLsbD i <;> cases hA : A.getLsbD i <;> simp_all
  rw [BitVec.and_or_distrib_left, ← BitVec.add_eq_or_of_and_eq_zero _ _ hd,
    BitVec.toNat_add_of_and_eq_zero hd]

end Fields

end BitArith

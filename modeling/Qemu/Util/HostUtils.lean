import Qemu.Lib.CInt

/-!
The portable 64x64 to 128-bit multiplications of `util/host-utils.c`, built on hosts other
than x86-64. A result is the pair `(*plow, *phigh)`; `uint64_t` is `UInt64` and `int64_t` is
`Int64`. `muls64` negates its operands as `int64_t`, which C leaves undefined for `INT64_MIN`
(`CInt.neg`): the result is then `none`.
-/

namespace Qemu.Util

open BitArith CInt

def add128 (plow phigh a b : UInt64) : UInt64 × UInt64 :=
  let plow := plow + a
  -- carry test
  let phigh := if plow < a then phigh + 1 else phigh
  (plow, phigh + b)

def neg128 (plow phigh : UInt64) : UInt64 × UInt64 :=
  add128 (~~~plow) (~~~phigh) 1 0

def mul64 (a b : UInt64) : UInt64 × UInt64 :=
  let a0 : UInt32 := a.toUInt32
  let a1 : UInt32 := (a >>> 32).toUInt32
  let b0 : UInt32 := b.toUInt32
  let b1 : UInt32 := (b >>> 32).toUInt32
  let v := a0.toUInt64 * b0.toUInt64
  let (plow, phigh) := (v, (0 : UInt64))
  let v := a0.toUInt64 * b1.toUInt64
  let (plow, phigh) := add128 plow phigh (v <<< 32) (v >>> 32)
  let v := a1.toUInt64 * b0.toUInt64
  let (plow, phigh) := add128 plow phigh (v <<< 32) (v >>> 32)
  let v := a1.toUInt64 * b1.toUInt64
  (plow, phigh + v)

def mulu64 (a b : UInt64) : UInt64 × UInt64 := mul64 a b

def muls64 (a b : Int64) : Option (UInt64 × UInt64) := do
  let sa := decide (a < 0)
  let a ← if sa then CInt.neg 64 a.toInt else some a.toInt
  let sb := decide (b < 0)
  let b ← if sb then CInt.neg 64 b.toInt else some b.toInt
  -- `mul64` takes the two values, no longer negative, as `uint64_t`
  let (plow, phigh) := mul64 (UInt64.ofNat a.toNat) (UInt64.ofNat b.toNat)
  if sa ^^ sb then some (neg128 plow phigh) else some (plow, phigh)

/-! ### Additions of 128-bit values -/

-- `add128` adds `b:a` to `phigh:plow` modulo `2 ^ 128`: the low word wraps, and is then below
-- `a`, exactly when there is a carry.
theorem add128_val (plow phigh a b : UInt64) :
    (add128 plow phigh a b).2.toNat * 2 ^ 64 + (add128 plow phigh a b).1.toNat =
      (phigh.toNat * 2 ^ 64 + plow.toNat + (b.toNat * 2 ^ 64 + a.toNat)) % 2 ^ 128 := by
  have hl := UInt64.toNat_lt plow
  have hh := UInt64.toNat_lt phigh
  have ha := UInt64.toNat_lt a
  have hb := UInt64.toNat_lt b
  have hcarry : plow + a < a ↔ 2 ^ 64 ≤ plow.toNat + a.toNat := by
    rw [UInt64.lt_iff_toNat_lt, UInt64.toNat_add]
    omega
  unfold add128
  dsimp only
  by_cases hc : 2 ^ 64 ≤ plow.toNat + a.toNat
  · rw [if_pos (hcarry.mpr hc), UInt64.toNat_add, UInt64.toNat_add, UInt64.toNat_add,
      UInt64.toNat_one]
    omega
  · rw [if_neg (mt hcarry.mp hc), UInt64.toNat_add, UInt64.toNat_add]
    omega

-- `neg128` is the two's complement negation of a 128-bit value.
theorem neg128_val (plow phigh : UInt64) :
    (neg128 plow phigh).2.toNat * 2 ^ 64 + (neg128 plow phigh).1.toNat =
      (2 ^ 128 - (phigh.toNat * 2 ^ 64 + plow.toNat)) % 2 ^ 128 := by
  have hl := UInt64.toNat_lt plow
  have hh := UInt64.toNat_lt phigh
  rw [neg128, add128_val, UInt64.toNat_not, UInt64.toNat_not, UInt64.toNat_one,
    UInt64.toNat_zero, UInt64.size]
  omega

/-! ### The product of the halves -/

-- A product of two 32-bit halves does not wrap.
theorem halfProduct_toNat (x y : UInt32) : (x.toUInt64 * y.toUInt64).toNat = x.toNat * y.toNat := by
  have hx := UInt32.toNat_lt x
  have hy := UInt32.toNat_lt y
  rw [UInt64.toNat_mul, UInt32.toNat_toUInt64, UInt32.toNat_toUInt64, Nat.mod_eq_of_lt]
  calc x.toNat * y.toNat < 2 ^ 32 * 2 ^ 32 := Nat.mul_lt_mul'' hx hy
    _ = 2 ^ 64 := by norm_num

-- `v << 32` and `v >> 32` are the low and high words of `v * 2 ^ 32`.
theorem shift_halves (v : UInt64) :
    (v >>> 32).toNat * 2 ^ 64 + (v <<< 32).toNat = v.toNat * 2 ^ 32 := by
  have hv := UInt64.toNat_lt v
  rw [UInt64.toNat_shiftRight, UInt64.toNat_shiftLeft, UInt64.toNat_ofNat, Nat.shiftRight_eq_div_pow,
    Nat.shiftLeft_eq]
  norm_num
  omega

theorem toNat_low_half (a : UInt64) : a.toUInt32.toNat = a.toNat % 2 ^ 32 :=
  UInt64.toNat_toUInt32 a

theorem toNat_high_half (a : UInt64) : (a >>> 32).toUInt32.toNat = a.toNat / 2 ^ 32 := by
  have ha := UInt64.toNat_lt a
  rw [UInt64.toNat_toUInt32, UInt64.toNat_shiftRight, UInt64.toNat_ofNat,
    Nat.shiftRight_eq_div_pow]
  norm_num
  omega

-- The schoolbook identity behind mul64: four products of halves, at 0, 32 and 64 bits.
theorem mul_eq_halves (a b : Nat) :
    a * b = a % 2 ^ 32 * (b % 2 ^ 32) + (a % 2 ^ 32 * (b / 2 ^ 32)) * 2 ^ 32 +
      (a / 2 ^ 32 * (b % 2 ^ 32)) * 2 ^ 32 + (a / 2 ^ 32 * (b / 2 ^ 32)) * 2 ^ 64 := by
  conv_lhs => rw [← Nat.div_add_mod a (2 ^ 32), ← Nat.div_add_mod b (2 ^ 32)]
  ring

-- Two additions modulo `2 ^ 128` and one modulo `2 ^ 64` into the high word, none of which
-- wraps when the whole sum is below `2 ^ 128`.
theorem mul64_combine {v1 x2 x3 v4 p2 l3 h3 : Nat} (hl3 : l3 < 2 ^ 64)
    (c2 : p2 = (v1 + x2) % 2 ^ 128) (c3 : h3 * 2 ^ 64 + l3 = (p2 + x3) % 2 ^ 128)
    (hs : v1 + x2 + x3 + v4 * 2 ^ 64 < 2 ^ 128) :
    (h3 + v4) % 2 ^ 64 * 2 ^ 64 + l3 = v1 + x2 + x3 + v4 * 2 ^ 64 := by
  have e2 : p2 = v1 + x2 := by
    rw [c2]
    exact Nat.mod_eq_of_lt (by clear c2 c3; omega)
  have e3 : h3 * 2 ^ 64 + l3 = p2 + x3 := by
    rw [c3]
    exact Nat.mod_eq_of_lt (by clear c2 c3; omega)
  clear c2 c3
  have hsum : h3 + v4 < 2 ^ 64 := by omega
  rw [Nat.mod_eq_of_lt hsum]
  linarith

theorem mul64_val (a b : UInt64) :
    (mul64 a b).2.toNat * 2 ^ 64 + (mul64 a b).1.toNat = a.toNat * b.toNat := by
  have hprod : a.toNat * b.toNat < 2 ^ 128 := by
    calc a.toNat * b.toNat < 2 ^ 64 * 2 ^ 64 :=
          Nat.mul_lt_mul'' (UInt64.toNat_lt a) (UInt64.toNat_lt b)
      _ = 2 ^ 128 := by norm_num
  have hsplit := mul_eq_halves a.toNat b.toNat
  -- the four partial products, none of which wraps
  have h1 := halfProduct_toNat a.toUInt32 b.toUInt32
  have h2 := halfProduct_toNat a.toUInt32 (b >>> 32).toUInt32
  have h3 := halfProduct_toNat (a >>> 32).toUInt32 b.toUInt32
  have h4 := halfProduct_toNat (a >>> 32).toUInt32 (b >>> 32).toUInt32
  rw [toNat_low_half, toNat_low_half] at h1
  rw [toNat_high_half, toNat_low_half] at h2 h3
  rw [toNat_high_half, toNat_high_half] at h4
  unfold mul64
  dsimp only
  generalize a.toUInt32.toUInt64 * b.toUInt32.toUInt64 = v1 at h1 ⊢
  generalize a.toUInt32.toUInt64 * (b >>> 32).toUInt32.toUInt64 = v2 at h2 ⊢
  generalize (a >>> 32).toUInt32.toUInt64 * b.toUInt32.toUInt64 = v3 at h3 ⊢
  generalize (a >>> 32).toUInt32.toUInt64 * (b >>> 32).toUInt32.toUInt64 = v4 at h4 ⊢
  -- the two middle products go in with add128, the high one into the high word alone
  have c2 := add128_val v1 0 (v2 <<< 32) (v2 >>> 32)
  generalize add128 v1 0 (v2 <<< 32) (v2 >>> 32) = p2 at c2 ⊢
  have c3 := add128_val p2.1 p2.2 (v3 <<< 32) (v3 >>> 32)
  generalize add128 p2.1 p2.2 (v3 <<< 32) (v3 >>> 32) = p3 at c3 ⊢
  rw [UInt64.toNat_zero, Nat.zero_mul, Nat.zero_add, shift_halves] at c2
  rw [shift_halves] at c3
  rw [UInt64.toNat_add, mul64_combine (UInt64.toNat_lt p3.1) c2 c3
    (by rw [h1, h2, h3, h4, ← hsplit]; exact hprod), h1, h2, h3, h4, hsplit]

/-! ### Signed operands -/

-- An `int64_t` is the two's complement reading of its bits.
theorem toInt_eq_signed (x : Int64) : x.toInt = signed 64 x.toUInt64.toNat := by
  show x.toUInt64.toBitVec.toInt = _
  rw [BitVec.toInt_eq_toNat_cond, signed, show x.toUInt64.toBitVec.toNat = x.toUInt64.toNat from rfl]
  split_ifs <;> omega

theorem fits_toInt (x : Int64) : Fits 64 x.toInt := by
  rw [toInt_eq_signed]
  exact fits_signed (by norm_num) (UInt64.toNat_lt _)

theorem toInt_ne_min {x : Int64} (hx : x ≠ Int64.minValue) : x.toInt ≠ -2 ^ (64 - 1) := by
  intro h
  apply hx
  apply Int64.toInt_inj.mp
  rw [h]
  rfl

-- What muls64 hands to mul64 is the operand's magnitude, for every operand but `INT64_MIN`.
theorem magnitude_eq {x : Int64} (hx : x ≠ Int64.minValue) :
    (if decide (x < 0) then CInt.neg 64 x.toInt else some x.toInt) = some (x.toInt.natAbs : Int) := by
  have hlt : decide (x < 0) = decide (x.toInt < 0) := by
    simp [Int64.lt_iff_toInt_lt]
  rw [hlt]
  exact neg_magnitude (fits_toInt x) (toInt_ne_min hx)

theorem magnitude_min :
    (if decide (Int64.minValue < 0) then CInt.neg 64 Int64.minValue.toInt
      else some Int64.minValue.toInt) = none := by
  have hmin : Int64.minValue.toInt = -2 ^ (64 - 1) := by decide
  rw [if_pos (by decide), hmin]
  exact neg_min

theorem natAbs_toInt_le (x : Int64) : x.toInt.natAbs ≤ 2 ^ 63 := by
  have hx := UInt64.toNat_lt x.toUInt64
  rw [toInt_eq_signed, natAbs_signed hx]
  split_ifs <;> omega

theorem toNat_ofNat_natAbs (x : Int64) :
    (UInt64.ofNat (x.toInt.natAbs : Int).toNat).toNat = x.toInt.natAbs := by
  have := natAbs_toInt_le x
  rw [Int.toNat_natCast, UInt64.toNat_ofNat']
  exact Nat.mod_eq_of_lt (by omega)

-- The two negations, then the product of the magnitudes, negated when the signs differ.
theorem muls64_eq (c d : Int64) :
    muls64 c d =
      (if decide (c < 0) then CInt.neg 64 c.toInt else some c.toInt).bind fun a =>
        (if decide (d < 0) then CInt.neg 64 d.toInt else some d.toInt).bind fun b =>
          some (if decide (c < 0) ^^ decide (d < 0)
            then neg128 (mul64 (UInt64.ofNat a.toNat) (UInt64.ofNat b.toNat)).1
              (mul64 (UInt64.ofNat a.toNat) (UInt64.ofNat b.toNat)).2
            else mul64 (UInt64.ofNat a.toNat) (UInt64.ofNat b.toNat)) := by
  unfold muls64
  cases decide (c < 0) <;> cases decide (d < 0) <;> rfl

theorem eq_neg_natAbs {x : Int} (hx : x < 0) : x = -(x.natAbs : Int) := by
  omega

theorem eq_natAbs {x : Int} (hx : ¬ x < 0) : x = (x.natAbs : Int) := by
  omega

-- The product of the magnitudes, negated with neg128 when the signs differ, encodes the signed
-- product modulo `2 ^ 128`.
theorem signed_mul_val {x y : Int} (p : UInt64 × UInt64)
    (hp : p.2.toNat * 2 ^ 64 + p.1.toNat = x.natAbs * y.natAbs) :
    (((if decide (x < 0) ^^ decide (y < 0) then neg128 p.1 p.2 else p).2.toNat * 2 ^ 64 +
        (if decide (x < 0) ^^ decide (y < 0) then neg128 p.1 p.2 else p).1.toNat : Nat) : Int) =
      x * y % 2 ^ 128 := by
  -- the product of the magnitudes is below `2 ^ 128`, being two words
  have hlow := UInt64.toNat_lt p.1
  have hhigh := UInt64.toNat_lt p.2
  by_cases hx : x < 0 <;> by_cases hy : y < 0
  · simp only [hx, hy, decide_true, Bool.xor_self, Bool.false_eq_true, if_false]
    conv_rhs => rw [eq_neg_natAbs hx, eq_neg_natAbs hy, neg_mul_neg]
    omega
  · simp only [hx, hy, decide_true, decide_false, Bool.true_xor, Bool.not_false, if_true]
    rw [neg128_val]
    conv_rhs => rw [eq_neg_natAbs hx, eq_natAbs hy, neg_mul]
    omega
  · simp only [hx, hy, decide_true, decide_false, Bool.false_xor, if_true]
    rw [neg128_val]
    conv_rhs => rw [eq_natAbs hx, eq_neg_natAbs hy, mul_neg]
    omega
  · simp only [hx, hy, decide_false, Bool.xor_self, Bool.false_eq_true, if_false]
    conv_rhs => rw [eq_natAbs hx, eq_natAbs hy]
    omega

-- `mulu64` gives the full 128-bit product of two `uint64_t`. `muls64` gives the two's complement
-- encoding of the product of two `int64_t` other than `INT64_MIN`, and with `INT64_MIN` it runs
-- `-INT64_MIN`, which is undefined.
theorem mulu64_muls64_spec (a b : UInt64) (c d : Int64) :
    (mulu64 a b).2.toNat * 2 ^ 64 + (mulu64 a b).1.toNat = a.toNat * b.toNat ∧
      (c ≠ Int64.minValue → d ≠ Int64.minValue →
        ∃ plow phigh, muls64 c d = some (plow, phigh) ∧
          ((phigh.toNat * 2 ^ 64 + plow.toNat : Nat) : Int) = c.toInt * d.toInt % 2 ^ 128) ∧
      (c = Int64.minValue ∨ d = Int64.minValue → muls64 c d = none) := by
  refine ⟨mul64_val a b, fun hc hd => ?_, fun h => ?_⟩
  · -- mul64 multiplies the magnitudes exactly
    have hmul := mul64_val (UInt64.ofNat (c.toInt.natAbs : Int).toNat)
      (UInt64.ofNat (d.toInt.natAbs : Int).toNat)
    rw [toNat_ofNat_natAbs, toNat_ofNat_natAbs] at hmul
    rw [muls64_eq, magnitude_eq hc, magnitude_eq hd, Option.bind_some, Option.bind_some]
    generalize mul64 (UInt64.ofNat (c.toInt.natAbs : Int).toNat)
      (UInt64.ofNat (d.toInt.natAbs : Int).toNat) = p at hmul
    simp only [Int64.lt_iff_toInt_lt, Int64.toInt_zero]
    exact ⟨_, _, rfl, signed_mul_val p hmul⟩
  · -- the negation of `INT64_MIN` is undefined, whichever operand it is
    rw [muls64_eq]
    rcases h with rfl | rfl
    · rw [magnitude_min, Option.bind_none]
    · cases (if decide (c < 0) then CInt.neg 64 c.toInt else some c.toInt) <;>
        simp only [magnitude_min, Option.bind_none, Option.bind_some]

-- `muls64(&lo, &hi, INT64_MIN, 1)` negates `INT64_MIN` on an `int64_t`; so does either operand
-- being `INT64_MIN`. The product, `-2 ^ 63`, fits 128 bits.
theorem muls64_int64_min :
    muls64 Int64.minValue 1 = none ∧ muls64 1 Int64.minValue = none ∧
      muls64 Int64.minValue Int64.minValue = none := by
  decide

end Qemu.Util

import Qemu.Lib.CInt

/-!
The division helpers of the x86 target (`target-i386/int_helper.c`) for `TARGET_X86_64`:
`helper_div*` and `helper_idiv*` for operands of 8, 16, 32 and 64 bits, and under the 64-bit
ones the 128-by-64 division `div64`, its signed wrapper `idiv64` and the 128-bit `add128` and
`neg128` it uses. `EAX`, `EDX` and `t0` are `target_ulong`, here `BitVec 64`; `uint64_t`
arithmetic is on `Nat` with an explicit `% 2 ^ 64`; a C operation on a signed type is `CInt`,
whose `none` is undefined behaviour. Flags are undefined after a division and not modelled.
-/

namespace Qemu.TargetI386

open BitArith

-- How a division helper ends: it writes `EAX` and `EDX`, raises `EXCP00_DIVZ`, or has evaluated
-- a C operation whose behaviour is undefined. `div64` and `idiv64` end the same way: `ok` with
-- the low and high words, or `divz` for the overflow they return as 1.
inductive DivResult
  | ok (lo hi : BitVec 64)
  | divz
  | undefined
deriving DecidableEq, Repr

/-! ### 8, 16 and 32 bits: C division on a widened dividend -/

-- `helper_divb_AL` and `helper_divw_AX`: `den == 0` and `q > mask` raise, then
-- `q &= mask` and `r = (num % den) & mask` are stored by `write`.
def divUnsigned (mask num den : Nat) (write : Nat → Nat → DivResult) : DivResult :=
  if den = 0 then .divz
  else
    let q := num / den
    if q > mask then .divz
    else write (q &&& mask) ((num % den) &&& mask)

def helper_divb_AL (EAX EDX t0 : BitVec 64) : DivResult :=
  divUnsigned 0xff (EAX &&& 0xffff).toNat (t0 &&& 0xff).toNat fun q r =>
    .ok ((EAX &&& ~~~(0xffff : BitVec 64)) ||| BitVec.ofNat 64 (r <<< 8) ||| BitVec.ofNat 64 q) EDX

def helper_divw_AX (EAX EDX t0 : BitVec 64) : DivResult :=
  divUnsigned 0xffff ((EAX &&& (0xffff : BitVec 64)) ||| ((EDX &&& 0xffff) <<< 16)).toNat
    (t0 &&& 0xffff).toNat
    fun q r => .ok ((EAX &&& ~~~(0xffff : BitVec 64)) ||| BitVec.ofNat 64 q)
      ((EDX &&& ~~~(0xffff : BitVec 64)) ||| BitVec.ofNat 64 r)

-- `helper_idivb_AL` and `helper_idivw_AX`: `int` division, the check `q != (intN_t)q`, then
-- `q &= mask` and `r = (num % den) & mask`, which on an `int` keep the low `N` bits, are
-- stored by `write`.
def idivInt (N : Nat) (num den : Int) (write : Nat → Nat → DivResult) : DivResult :=
  if den = 0 then .divz
  else
    match CInt.div 32 num den with
    | none => .undefined
    | some q =>
      if q ≠ signed N (q % 2 ^ N).toNat then .divz
      else
        match CInt.rem 32 num den with
        | none => .undefined
        | some r => write (q % 2 ^ N).toNat (r % 2 ^ N).toNat

-- `(int16_t)EAX` and `(int8_t)t0` read the low bits in two's complement.
def helper_idivb_AL (EAX EDX t0 : BitVec 64) : DivResult :=
  idivInt 8 (signed 16 (EAX.toNat % 2 ^ 16)) (signed 8 (t0.toNat % 2 ^ 8)) fun q r =>
    .ok ((EAX &&& ~~~(0xffff : BitVec 64)) ||| BitVec.ofNat 64 (r <<< 8) ||| BitVec.ofNat 64 q) EDX

-- `int num` takes the 32-bit value of `DX:AX` with its top bit as the sign.
def helper_idivw_AX (EAX EDX t0 : BitVec 64) : DivResult :=
  idivInt 16 (signed 32 ((EAX &&& (0xffff : BitVec 64)) ||| ((EDX &&& 0xffff) <<< 16)).toNat)
    (signed 16 (t0.toNat % 2 ^ 16)) fun q r =>
    .ok ((EAX &&& ~~~(0xffff : BitVec 64)) ||| BitVec.ofNat 64 q)
      ((EDX &&& ~~~(0xffff : BitVec 64)) ||| BitVec.ofNat 64 r)

-- `EAX = (uint32_t)q` writes the whole 64-bit register, zero-extended.
def helper_divl_EAX (EAX EDX t0 : BitVec 64) : DivResult :=
  let num := (EAX.toNat % 2 ^ 32) ||| ((EDX.toNat % 2 ^ 32) <<< 32)
  let den := t0.toNat % 2 ^ 32
  if den = 0 then .divz
  else
    let q := num / den
    let r := num % den
    if q > 0xffffffff then .divz
    else .ok (BitVec.ofNat 64 (q % 2 ^ 32)) (BitVec.ofNat 64 (r % 2 ^ 32))

-- Here `q` and `r` are both computed, as `int64_t`, before the check.
def helper_idivl_EAX (EAX EDX t0 : BitVec 64) : DivResult :=
  let num := signed 64 ((EAX.toNat % 2 ^ 32) ||| ((EDX.toNat % 2 ^ 32) <<< 32))
  let den := signed 32 (t0.toNat % 2 ^ 32)
  if den = 0 then .divz
  else
    match CInt.div 64 num den, CInt.rem 64 num den with
    | some q, some r =>
      if q ≠ signed 32 (q % 2 ^ 32).toNat then .divz
      else .ok (BitVec.ofNat 64 (q % 2 ^ 32).toNat) (BitVec.ofNat 64 (r % 2 ^ 32).toNat)
    | _, _ => .undefined

/-! ### 64 bits: a 128-by-64 division -/

-- `add128(plow, phigh, a, b)` adds `b:a` to `phigh:plow`, the carry out of the low word
-- found by `*plow < a`.
def add128 (plow phigh a b : Nat) : Nat × Nat :=
  let plow := (plow + a) % 2 ^ 64
  let phigh := if plow < a then (phigh + 1) % 2 ^ 64 else phigh
  (plow, (phigh + b) % 2 ^ 64)

def neg128 (plow phigh : Nat) : Nat × Nat :=
  add128 (2 ^ 64 - 1 - plow) (2 ^ 64 - 1 - phigh) 1 0

-- One round of the shift-and-subtract loop of `div64`: `a1:a0` moves up a bit, and the bit
-- that leaves `a1` (`ab`) takes part in the comparison with `b`.
def div64Step (b a1 a0 : Nat) : Nat × Nat :=
  let ab := a1 >>> 63
  let a1 := ((a1 <<< 1) ||| (a0 >>> 63)) % 2 ^ 64
  let (a1, qb) := if ab ≠ 0 ∨ a1 ≥ b then ((a1 + 2 ^ 64 - b) % 2 ^ 64, 1) else (a1, 0)
  (a1, ((a0 <<< 1) ||| qb) % 2 ^ 64)

def div64Loop (b : Nat) : Nat → Nat → Nat → Nat × Nat
  | 0, a1, a0 => (a1, a0)
  | n + 1, a1, a0 =>
    let (a1, a0) := div64Step b a1 a0
    div64Loop b n a1 a0

-- `div64(plow, phigh, b)` on the 128-bit `phigh:plow`: the quotient goes to `plow`, the
-- remainder to `phigh`.
def div64 (plow phigh b : Nat) : DivResult :=
  let a0 := plow
  let a1 := phigh
  if a1 = 0 then
    if b = 0 then .undefined
    else .ok (BitVec.ofNat 64 (a0 / b)) (BitVec.ofNat 64 (a0 % b))
  else if a1 ≥ b then .divz
  else
    let (a1, a0) := div64Loop b 64 a1 a0
    .ok (BitVec.ofNat 64 a0) (BitVec.ofNat 64 a1)

-- `idiv64(plow, phigh, b)`: the magnitudes are divided, then the signs put back; `b = -b` is
-- a negation of an `int64_t`.
def idiv64 (plow phigh : Nat) (b : Int) : DivResult :=
  let sa := decide (signed 64 phigh < 0)
  let (plow, phigh) := if sa then neg128 plow phigh else (plow, phigh)
  let sb := decide (b < 0)
  match if sb then CInt.neg 64 b else some b with
  | none => .undefined
  | some b =>
    match div64 plow phigh (b % 2 ^ 64).toNat with
    | .ok lo hi =>
      let lo := lo.toNat
      let hi := hi.toNat
      let hi := if sa then (2 ^ 64 - hi) % 2 ^ 64 else hi
      if sa ≠ sb then
        if lo > 2 ^ 63 then .divz
        else .ok (BitVec.ofNat 64 ((2 ^ 64 - lo) % 2 ^ 64)) (BitVec.ofNat 64 hi)
      else
        if lo ≥ 2 ^ 63 then .divz
        else .ok (BitVec.ofNat 64 lo) (BitVec.ofNat 64 hi)
    | r => r

def helper_divq_EAX (EAX EDX t0 : BitVec 64) : DivResult :=
  if t0 = 0 then .divz else div64 EAX.toNat EDX.toNat t0.toNat

def helper_idivq_EAX (EAX EDX t0 : BitVec 64) : DivResult :=
  if t0 = 0 then .divz else idiv64 EAX.toNat EDX.toNat (signed 64 t0.toNat)

/-! ### What `add128`, `neg128` and `div64` compute -/

section Wide

variable {plow phigh : Nat}

-- `add128` adds modulo `2 ^ 128`.
theorem add128_val {a b : Nat} (hl : plow < 2 ^ 64) (ha : a < 2 ^ 64) :
    (add128 plow phigh a b).2 * 2 ^ 64 + (add128 plow phigh a b).1 =
      (phigh * 2 ^ 64 + plow + (b * 2 ^ 64 + a)) % 2 ^ 128 := by
  unfold add128
  dsimp only
  -- the low word wraps, and is then below `a`, exactly when there is a carry
  by_cases hc : plow + a < 2 ^ 64
  · rw [Nat.mod_eq_of_lt hc, if_neg (by omega)]
    omega
  · rw [if_pos (by omega)]
    omega

theorem add128_lt (a b : Nat) :
    (add128 plow phigh a b).1 < 2 ^ 64 ∧ (add128 plow phigh a b).2 < 2 ^ 64 :=
  ⟨Nat.mod_lt _ (by norm_num), Nat.mod_lt _ (by norm_num)⟩

-- `neg128` is the two's complement negation of a 128-bit value.
theorem neg128_val (hl : plow < 2 ^ 64) (hh : phigh < 2 ^ 64) :
    (neg128 plow phigh).2 * 2 ^ 64 + (neg128 plow phigh).1 =
      (2 ^ 128 - (phigh * 2 ^ 64 + plow)) % 2 ^ 128 := by
  unfold neg128
  rw [add128_val (by omega) (by norm_num)]
  congr 1
  omega

end Wide

-- One round: with `t` the partial remainder shifted up by the next dividend bit, `a1` becomes
-- `t % b` and the quotient bit `t / b` enters `a0`.
theorem div64Step_eq {b a1 a0 : Nat} (hb : b < 2 ^ 64) (h1 : a1 < b) (h0 : a0 < 2 ^ 64) :
    div64Step b a1 a0 =
      ((2 * a1 + a0 / 2 ^ 63) % b, 2 * a0 % 2 ^ 64 + (2 * a1 + a0 / 2 ^ 63) / b) := by
  have hbit : a0 / 2 ^ 63 < 2 := by omega
  have hor : (a1 <<< 1) ||| (a0 / 2 ^ 63) = 2 * a1 + a0 / 2 ^ 63 := by
    rw [← Nat.shiftLeft_add_eq_or_of_lt (by simpa using hbit), Nat.shiftLeft_eq]
    ring
  have hor0 (qb : Nat) (hq : qb < 2) : (a0 <<< 1) ||| qb = 2 * a0 + qb := by
    rw [← Nat.shiftLeft_add_eq_or_of_lt (by simpa using hq), Nat.shiftLeft_eq]
    ring
  unfold div64Step
  simp only [Nat.shiftRight_eq_div_pow, hor]
  by_cases hge : b ≤ 2 * a1 + a0 / 2 ^ 63
  · -- the shifted remainder is below `2 * b`: one subtraction, quotient bit 1
    have hq : (2 * a1 + a0 / 2 ^ 63) / b = 1 := by
      rw [Nat.div_eq_iff (by omega)]
      omega
    have hmod : (2 * a1 + a0 / 2 ^ 63) % b = 2 * a1 + a0 / 2 ^ 63 - b := by
      rw [Nat.mod_eq_sub_mod hge, Nat.mod_eq_of_lt (by omega)]
    rw [if_pos (by omega), hor0 1 (by omega), hq, hmod]
    ext <;> simp only <;> omega
  · have hq : (2 * a1 + a0 / 2 ^ 63) / b = 0 := Nat.div_eq_of_lt (by omega)
    rw [if_neg (by omega), hor0 0 (by omega), hq,
      Nat.mod_eq_of_lt (by omega : 2 * a1 + a0 / 2 ^ 63 < b)]
    ext <;> simp only <;> omega

-- The loop with `m` rounds to go: `a1 = r` is the partial remainder, and `a0` holds the `m`
-- dividend bits `s` still to come above the quotient bits `Q` found so far.
theorem div64Loop_eq {b : Nat} (hb0 : 0 < b) (hb : b < 2 ^ 64) :
    ∀ m, m ≤ 64 → ∀ r Q s, r < b → Q < 2 ^ (64 - m) → s < 2 ^ m →
      div64Loop b m r (s * 2 ^ (64 - m) + Q) =
        (((Q * b + r) * 2 ^ m + s) % b, ((Q * b + r) * 2 ^ m + s) / b) := by
  intro m
  induction m with
  | zero =>
    intro _ r Q s hr _ hs
    have hs0 : s = 0 := by simpa using hs
    subst hs0
    simp only [div64Loop, zero_mul, zero_add, pow_zero, mul_one, add_zero]
    rw [Nat.mul_comm Q b, Nat.mul_add_mod, Nat.mod_eq_of_lt hr, Nat.mul_add_div hb0,
      Nat.div_eq_of_lt hr, add_zero]
  | succ m ih =>
    intro hm r Q s hr hQ hs
    have hk : 64 - (m + 1) = 63 - m := by omega
    rw [hk] at hQ ⊢
    have hP : 2 ^ m * 2 ^ (63 - m) = 2 ^ 63 := by rw [← pow_add]; congr 1; omega
    have hP' : 2 ^ (64 - m) = 2 * 2 ^ (63 - m) := by rw [← pow_succ']; congr 1; omega
    have hPs : 2 ^ (m + 1) = 2 * 2 ^ m := pow_succ' 2 m
    have hpos : 0 < 2 ^ m := by positivity
    have hsd := Nat.div_add_mod s (2 ^ m)
    have hsm := Nat.mod_lt s hpos
    have hbit : s / 2 ^ m < 2 := by rw [Nat.div_lt_iff_lt_mul hpos]; omega
    -- below the top bit, what is left of `a0` is under `2 ^ 63`
    have hrest : s % 2 ^ m * 2 ^ (63 - m) + Q < 2 ^ 63 := by
      have : (s % 2 ^ m + 1) * 2 ^ (63 - m) ≤ 2 ^ m * 2 ^ (63 - m) :=
        Nat.mul_le_mul_right _ hsm
      rw [add_mul, one_mul] at this
      omega
    have hw : s * 2 ^ (63 - m) + Q = 2 ^ 63 * (s / 2 ^ m) + (s % 2 ^ m * 2 ^ (63 - m) + Q) := by
      rw [← hP]
      nth_rewrite 1 [← hsd]
      ring
    have hw_lt : s * 2 ^ (63 - m) + Q < 2 ^ 64 := by
      rw [hw]
      have : 2 ^ 63 * (s / 2 ^ m) ≤ 2 ^ 63 * 1 := Nat.mul_le_mul_left _ (by omega)
      omega
    have hwdiv : (s * 2 ^ (63 - m) + Q) / 2 ^ 63 = s / 2 ^ m := by
      rw [hw, Nat.mul_add_div (by positivity), Nat.div_eq_of_lt hrest, add_zero]
    have hw2 : 2 * (s * 2 ^ (63 - m) + Q) % 2 ^ 64 = s % 2 ^ m * 2 ^ (64 - m) + 2 * Q := by
      rw [hw, hP', mul_add, show 2 * (2 ^ 63 * (s / 2 ^ m)) = 2 ^ 64 * (s / 2 ^ m) by ring,
        Nat.mul_add_mod, Nat.mod_eq_of_lt (by omega)]
      ring
    rw [div64Loop, div64Step_eq hb hr hw_lt]
    dsimp only
    rw [hwdiv, hw2]
    generalize ht : 2 * r + s / 2 ^ m = t
    have htb : t / b < 2 := by rw [Nat.div_lt_iff_lt_mul hb0]; omega
    have htd := Nat.div_add_mod t b
    have hQ' : 2 * Q + t / b < 2 ^ (64 - m) := by omega
    rw [show s % 2 ^ m * 2 ^ (64 - m) + 2 * Q + t / b = s % 2 ^ m * 2 ^ (64 - m) + (2 * Q + t / b)
      by ring, ih (by omega) (t % b) (2 * Q + t / b) (s % 2 ^ m) (Nat.mod_lt _ hb0) hQ' hsm]
    -- the number the rest of the loop divides is the one this round divided
    have key : ((2 * Q + t / b) * b + t % b) * 2 ^ m + s % 2 ^ m =
        (Q * b + r) * 2 ^ (m + 1) + s := by
      rw [hPs]
      zify at htd ht hsd ⊢
      linear_combination (2 ^ m : Int) * htd - (2 ^ m : Int) * ht + hsd
    rw [key]

-- `div64` divides the 128-bit `phigh:plow` by a nonzero `b`, and reports the quotients that
-- need more than 64 bits.
theorem div64_eq {plow phigh b : Nat} (hl : plow < 2 ^ 64) (hh : phigh < 2 ^ 64) (hb0 : 0 < b)
    (hb : b < 2 ^ 64) :
    div64 plow phigh b =
      if 2 ^ 64 ≤ (phigh * 2 ^ 64 + plow) / b then .divz
      else .ok (BitVec.ofNat 64 ((phigh * 2 ^ 64 + plow) / b))
        (BitVec.ofNat 64 ((phigh * 2 ^ 64 + plow) % b)) := by
  have hle : 2 ^ 64 ≤ (phigh * 2 ^ 64 + plow) / b ↔ b * 2 ^ 64 ≤ phigh * 2 ^ 64 + plow := by
    rw [Nat.le_div_iff_mul_le hb0, Nat.mul_comm]
  unfold div64
  dsimp only
  by_cases h0 : phigh = 0
  · -- a one-word dividend is divided by C's `/` and `%`
    subst h0
    have : plow / b < 2 ^ 64 := lt_of_le_of_lt (Nat.div_le_self _ _) hl
    rw [if_pos rfl, if_neg (by omega), if_neg (by omega), zero_mul, zero_add]
  rw [if_neg h0]
  by_cases hge : phigh ≥ b
  · have : b * 2 ^ 64 ≤ phigh * 2 ^ 64 := Nat.mul_le_mul_right _ hge
    rw [if_pos hge]
    exact (if_pos (hle.mpr (le_trans this (Nat.le_add_right _ _)))).symm
  · -- the loop starts with `Q = 0` and all 64 bits of `plow` still to come
    have hloop := div64Loop_eq hb0 hb 64 le_rfl phigh 0 plow (by omega) (by norm_num) hl
    simp only [Nat.sub_self, pow_zero, mul_one, add_zero, zero_mul, zero_add] at hloop
    have : phigh * 2 ^ 64 + 2 ^ 64 ≤ b * 2 ^ 64 := by
      rw [← Nat.succ_mul]
      exact Nat.mul_le_mul_right _ (by omega)
    rw [if_neg hge, hloop, if_neg (by rw [hle]; omega)]

end Qemu.TargetI386

import Qemu.TargetI386.IntHelper

/-!
DIV and IDIV as the x86 architecture defines them, and the division helpers of `IntHelper`
against them. The dividend of twice the operand's width is divided by the operand, the
quotient truncated toward zero and the remainder given the dividend's sign; a zero divisor,
or a quotient that the operand's width cannot hold, raises #DE (`EXCP00_DIVZ`). The unsigned
helpers are DIV on every input; the signed ones are IDIV on every input but those where the
C code divides `INT_MIN` by -1 or negates `INT64_MIN`.
-/

namespace Qemu.TargetI386

open BitArith CInt

-- DIV of `num` by an operand of `N` bits; `none` is #DE.
def divArch (N num den : Nat) : Option (Nat × Nat) :=
  if den = 0 ∨ 2 ^ N ≤ num / den then none else some (num / den, num % den)

-- IDIV: the quotient must fit the signed type of `N` bits.
def idivArch (N : Nat) (num den : Int) : Option (Int × Int) :=
  if den = 0 ∨ ¬ Fits N (num.tdiv den) then none else some (num.tdiv den, num.tmod den)

-- The dividend: AX for an 8-bit operand, DX:AX, EDX:EAX or RDX:RAX otherwise.
def dividend (N : Nat) (EAX EDX : BitVec 64) : Nat :=
  if N = 8 then EAX.toNat % 2 ^ 16 else EDX.toNat % 2 ^ N * 2 ^ N + EAX.toNat % 2 ^ N

-- Where the quotient and the remainder go: AL and AH; AX and DX; EAX and EDX, zero-extended as
-- every 32-bit result in 64-bit mode; RAX and RDX. Every other bit is kept.
def writeBack (N : Nat) (EAX EDX : BitVec 64) (q r : Nat) : DivResult :=
  if N = 8 then .ok (setLow EAX 16 (r * 2 ^ 8 + q)) EDX
  else if N = 32 then .ok (BitVec.ofNat 64 q) (BitVec.ofNat 64 r)
  else .ok (setLow EAX N q) (setLow EDX N r)

def DIV (N : Nat) (EAX EDX t0 : BitVec 64) : DivResult :=
  match divArch N (dividend N EAX EDX) (t0.toNat % 2 ^ N) with
  | none => .divz
  | some (q, r) => writeBack N EAX EDX q r

def IDIV (N : Nat) (EAX EDX t0 : BitVec 64) : DivResult :=
  match idivArch N (signed (2 * N) (dividend N EAX EDX)) (signed N (t0.toNat % 2 ^ N)) with
  | none => .divz
  | some (q, r) => writeBack N EAX EDX (q % 2 ^ N).toNat (r % 2 ^ N).toNat

section Arch

variable {N n d : Nat}

theorem divArch_none (h : d = 0 ∨ 2 ^ N ≤ n / d) : divArch N n d = none := if_pos h

theorem divArch_some (h0 : d ≠ 0) (h : n / d < 2 ^ N) : divArch N n d = some (n / d, n % d) :=
  if_neg (by omega)

theorem idivArch_none {a b : Int} (h : b = 0 ∨ ¬ Fits N (a.tdiv b)) : idivArch N a b = none :=
  if_pos h

theorem idivArch_some {a b : Int} (h0 : b ≠ 0) (h : Fits N (a.tdiv b)) :
    idivArch N a b = some (a.tdiv b, a.tmod b) :=
  if_neg (by tauto)

theorem dividend_lt (EAX EDX : BitVec 64) (hN : N ≠ 8) : dividend N EAX EDX < 2 ^ (2 * N) := by
  have hl := Nat.mod_lt EAX.toNat (Nat.two_pow_pos N)
  have hh := Nat.mod_lt EDX.toNat (Nat.two_pow_pos N)
  have : (EDX.toNat % 2 ^ N + 1) * 2 ^ N ≤ 2 ^ N * 2 ^ N := Nat.mul_le_mul_right _ hh
  rw [dividend, if_neg hN, two_mul, pow_add]
  rw [add_mul, one_mul] at this
  omega

end Arch

/-! ### Reading and writing the registers -/

section Registers

variable (EAX EDX : BitVec 64)

theorem or_shiftLeft_eq {a k : Nat} (b : Nat) (ha : a < 2 ^ k) : a ||| b <<< k = b * 2 ^ k + a := by
  rw [Nat.lor_comm, ← Nat.shiftLeft_add_eq_or_of_lt ha, Nat.shiftLeft_eq]

-- `(EAX & 0xffff) | ((EDX & 0xffff) << 16)` is DX:AX.
theorem toNat_DX_AX :
    ((EAX &&& (0xffff : BitVec 64)) ||| ((EDX &&& 0xffff) <<< 16)).toNat = dividend 16 EAX EDX := by
  have hA : (EAX &&& 0xffff).toNat = EAX.toNat % 2 ^ 16 := toNat_and_mask EAX (k := 16) (by norm_num)
  have hD : (EDX &&& 0xffff).toNat = EDX.toNat % 2 ^ 16 := toNat_and_mask EDX (k := 16) (by norm_num)
  have hD' : (EDX.toNat % 2 ^ 16) <<< 16 % 2 ^ 64 = (EDX.toNat % 2 ^ 16) <<< 16 :=
    Nat.mod_eq_of_lt (by rw [Nat.shiftLeft_eq]; omega)
  rw [BitVec.toNat_or, BitVec.toNat_shiftLeft, hA, hD, hD', or_shiftLeft_eq _
    (Nat.mod_lt _ (by norm_num)), dividend, if_neg (by norm_num)]

theorem EDX_EAX_eq : (EAX.toNat % 2 ^ 32) ||| ((EDX.toNat % 2 ^ 32) <<< 32) = dividend 32 EAX EDX := by
  rw [or_shiftLeft_eq _ (Nat.mod_lt _ (by norm_num)), dividend, if_neg (by norm_num)]

theorem dividend_sixtyfour :
    dividend 64 EAX EDX = EDX.toNat * 2 ^ 64 + EAX.toNat := by
  rw [dividend, if_neg (by norm_num), Nat.mod_eq_of_lt EAX.isLt, Nat.mod_eq_of_lt EDX.isLt]

-- `(EAX & ~0xffff) | v` replaces AX.
theorem writeLow16 {v : Nat} (hv : v < 2 ^ 16) :
    (EAX &&& ~~~(0xffff : BitVec 64)) ||| BitVec.ofNat 64 v = setLow EAX 16 v :=
  clear_or_eq_setLow EAX (k := 16) (by norm_num) hv

-- `(EAX & ~0xffff) | (r << 8) | q` writes AL and AH.
theorem writeAX_bytes {q r : Nat} (hq : q < 2 ^ 8) (hr : r < 2 ^ 8) :
    (EAX &&& ~~~(0xffff : BitVec 64)) ||| BitVec.ofNat 64 (r <<< 8) ||| BitVec.ofNat 64 q =
      setLow EAX 16 (r * 2 ^ 8 + q) := by
  rw [BitVec.or_assoc, ← BitVec.ofNat_or, Nat.lor_comm, or_shiftLeft_eq _ hq]
  exact writeLow16 EAX (by omega)

theorem setLow_sixtyfour (v : Nat) : setLow EAX 64 v = BitVec.ofNat 64 v := by
  rw [setLow, Nat.div_eq_of_lt EAX.isLt, zero_mul, zero_add]

theorem writeBack_sixtyfour (q r : Nat) :
    writeBack 64 EAX EDX q r = .ok (BitVec.ofNat 64 q) (BitVec.ofNat 64 r) := by
  rw [writeBack, if_neg (by norm_num), if_neg (by norm_num), setLow_sixtyfour, setLow_sixtyfour]

end Registers

/-! ### The unsigned helpers -/

-- The shared path of `helper_divb_AL` and `helper_divw_AX` is DIV, given stores that agree
-- with DIV's on every quotient and remainder of `N` bits.
theorem divUnsigned_eq {N mask n d : Nat} (hmask : mask = 2 ^ N - 1) (hd : d < 2 ^ N)
    {write write' : Nat → Nat → DivResult}
    (hw : ∀ q r, q < 2 ^ N → r < 2 ^ N → write q r = write' q r) :
    divUnsigned mask n d write =
      match divArch N n d with
      | none => .divz
      | some (q, r) => write' q r := by
  subst hmask
  unfold divUnsigned
  dsimp only
  by_cases h0 : d = 0
  · rw [if_pos h0, divArch_none (.inl h0)]
  by_cases hq : n / d > 2 ^ N - 1
  · rw [if_neg h0, if_pos hq, divArch_none (.inr (by omega))]
  have hqN : n / d < 2 ^ N := by omega
  have hrN : n % d < 2 ^ N := lt_trans (Nat.mod_lt _ (by omega)) hd
  rw [if_neg h0, if_neg hq, divArch_some h0 hqN, Nat.and_two_pow_sub_one_eq_mod,
    Nat.and_two_pow_sub_one_eq_mod, Nat.mod_eq_of_lt hqN, Nat.mod_eq_of_lt hrN]
  exact hw _ _ hqN hrN

theorem helper_divb_AL_eq (EAX EDX t0 : BitVec 64) : helper_divb_AL EAX EDX t0 = DIV 8 EAX EDX t0 := by
  have hnum : (EAX &&& 0xffff).toNat = EAX.toNat % 2 ^ 16 := toNat_and_mask EAX (k := 16) (by norm_num)
  have hden : (t0 &&& 0xff).toNat = t0.toNat % 2 ^ 8 := toNat_and_mask t0 (k := 8) (by norm_num)
  unfold helper_divb_AL DIV
  rw [hnum, hden]
  exact divUnsigned_eq (N := 8) rfl (Nat.mod_lt _ (by norm_num))
    fun q r hq hr => by rw [writeAX_bytes EAX hq hr]; rfl

theorem helper_divw_AX_eq (EAX EDX t0 : BitVec 64) : helper_divw_AX EAX EDX t0 = DIV 16 EAX EDX t0 := by
  have hden : (t0 &&& 0xffff).toNat = t0.toNat % 2 ^ 16 := toNat_and_mask t0 (k := 16) (by norm_num)
  unfold helper_divw_AX DIV
  rw [toNat_DX_AX, hden]
  exact divUnsigned_eq (N := 16) rfl (Nat.mod_lt _ (by norm_num))
    fun q r hq hr => by rw [writeLow16 EAX hq, writeLow16 EDX hr]; rfl

theorem helper_divl_EAX_eq (EAX EDX t0 : BitVec 64) : helper_divl_EAX EAX EDX t0 = DIV 32 EAX EDX t0 := by
  unfold helper_divl_EAX DIV
  rw [EDX_EAX_eq]
  generalize dividend 32 EAX EDX = n
  generalize hd : t0.toNat % 2 ^ 32 = d
  have hd32 : d < 2 ^ 32 := hd ▸ Nat.mod_lt _ (by norm_num)
  dsimp only
  by_cases h0 : d = 0
  · rw [if_pos h0, divArch_none (.inl h0)]
  by_cases hq : n / d > 0xffffffff
  · rw [if_neg h0, if_pos hq, divArch_none (.inr (by omega))]
  have hqN : n / d < 2 ^ 32 := by omega
  have hrN : n % d < 2 ^ 32 := lt_trans (Nat.mod_lt _ (by omega)) hd32
  rw [if_neg h0, if_neg hq, divArch_some h0 hqN, Nat.mod_eq_of_lt hqN, Nat.mod_eq_of_lt hrN]
  rfl

theorem helper_divq_EAX_eq (EAX EDX t0 : BitVec 64) : helper_divq_EAX EAX EDX t0 = DIV 64 EAX EDX t0 := by
  unfold helper_divq_EAX DIV
  rw [dividend_sixtyfour, Nat.mod_eq_of_lt t0.isLt]
  by_cases h0 : t0 = 0
  · subst h0
    have hz : (0 : BitVec 64).toNat = 0 := rfl
    rw [if_pos rfl, hz, divArch_none (.inl rfl)]
  have hpos : 0 < t0.toNat := by
    rcases Nat.eq_zero_or_pos t0.toNat with h | h
    · exact absurd (BitVec.eq_of_toNat_eq h) h0
    · exact h
  rw [if_neg h0, div64_eq EAX.isLt EDX.isLt hpos t0.isLt]
  by_cases hq : 2 ^ 64 ≤ (EDX.toNat * 2 ^ 64 + EAX.toNat) / t0.toNat
  · rw [if_pos hq, divArch_none (.inr hq)]
  have hqN : (EDX.toNat * 2 ^ 64 + EAX.toNat) / t0.toNat < 2 ^ 64 := by omega
  have hrN : (EDX.toNat * 2 ^ 64 + EAX.toNat) % t0.toNat < 2 ^ 64 :=
    lt_trans (Nat.mod_lt _ hpos) t0.isLt
  rw [if_neg hq, divArch_some (by omega) hqN]
  show _ = DivResult.ok (setLow EAX 64 _) (setLow EDX 64 _)
  rw [setLow_sixtyfour, setLow_sixtyfour]

/-! ### The signed helpers -/

-- `q != (intN_t)q` is IDIV's check that the quotient fits `N` bits.
theorem ne_signed_emod_iff {N : Nat} (hN : 0 < N) (q : Int) :
    q ≠ signed N (q % 2 ^ N).toNat ↔ ¬ Fits N q := by
  rw [ne_comm, Ne, signed_emod_eq_iff hN]

-- The shared path of `helper_idivb_AL` and `helper_idivw_AX` is IDIV, but where the `int`
-- division overflows: `INT_MIN / -1`.
theorem idivInt_eq {N : Nat} (hN : 0 < N) {num den : Int} (hnum : Fits 32 num)
    {f g : Nat → Nat → DivResult} (hfg : ∀ q r, q < 2 ^ N → r < 2 ^ N → f q r = g q r) :
    idivInt N num den f =
      if num = -2 ^ 31 ∧ den = -1 then .undefined
      else
        match idivArch N num den with
        | none => .divz
        | some (q, r) => g (q % 2 ^ N).toNat (r % 2 ^ N).toNat := by
  unfold idivInt
  by_cases h0 : den = 0
  · rw [if_pos h0, if_neg (by omega), idivArch_none (.inl h0)]
  rw [if_neg h0]
  have hfits := fits_tdiv_iff hnum h0
  by_cases hmin : num = -2 ^ 31 ∧ den = -1
  · rw [div_of_not_fits (fun h => hfits.mp h hmin), if_pos hmin]
  have hdiv : Fits 32 (num.tdiv den) := hfits.mpr hmin
  rw [if_neg hmin, div_of_fits h0 hdiv]
  dsimp only
  by_cases hq : Fits N (num.tdiv den)
  · rw [if_neg (fun h => (ne_signed_emod_iff hN _).mp h hq), rem_of_fits h0 hdiv,
      idivArch_some h0 hq]
    exact hfg _ _ (toNat_emod_two_pow_lt _ _) (toNat_emod_two_pow_lt _ _)
  · rw [if_pos ((ne_signed_emod_iff hN _).mpr hq), idivArch_none (.inr hq)]

theorem helper_idivb_AL_eq (EAX EDX t0 : BitVec 64) :
    helper_idivb_AL EAX EDX t0 = IDIV 8 EAX EDX t0 := by
  have hnum : Fits 16 (signed 16 (EAX.toNat % 2 ^ 16)) :=
    fits_signed (by norm_num) (Nat.mod_lt _ (by norm_num))
  -- a 16-bit dividend is never `INT_MIN`
  have hmin : ¬ (signed 16 (EAX.toNat % 2 ^ 16) = -2 ^ 31 ∧ signed 8 (t0.toNat % 2 ^ 8) = -1) := by
    rintro ⟨h, -⟩
    have hlo := hnum.1
    rw [h] at hlo
    norm_num at hlo
  unfold helper_idivb_AL IDIV
  rw [idivInt_eq (by norm_num) (hnum.mono (by norm_num)) (g := writeBack 8 EAX EDX)
    fun q r hq hr => by rw [writeAX_bytes EAX hq hr]; rfl, if_neg hmin, dividend, if_pos rfl]

theorem helper_idivw_AX_eq (EAX EDX t0 : BitVec 64) :
    helper_idivw_AX EAX EDX t0 =
      if signed 32 (dividend 16 EAX EDX) = -2 ^ 31 ∧ signed 16 (t0.toNat % 2 ^ 16) = -1 then
        .undefined
      else IDIV 16 EAX EDX t0 := by
  have hnum : Fits 32 (signed 32 (dividend 16 EAX EDX)) :=
    fits_signed (by norm_num) (dividend_lt EAX EDX (by norm_num))
  unfold helper_idivw_AX IDIV
  rw [toNat_DX_AX]
  exact idivInt_eq (by norm_num) hnum (g := writeBack 16 EAX EDX)
    fun q r hq hr => by rw [writeLow16 EAX hq, writeLow16 EDX hr]; rfl

-- Unlike the 8- and 16-bit helpers, both `num / den` and `num % den` are evaluated, on
-- `int64_t`, before the check; the result is the same.
theorem helper_idivl_EAX_eq (EAX EDX t0 : BitVec 64) :
    helper_idivl_EAX EAX EDX t0 =
      if signed 64 (dividend 32 EAX EDX) = -2 ^ 63 ∧ signed 32 (t0.toNat % 2 ^ 32) = -1 then
        .undefined
      else IDIV 32 EAX EDX t0 := by
  have hnum : Fits 64 (signed 64 (dividend 32 EAX EDX)) :=
    fits_signed (by norm_num) (dividend_lt EAX EDX (by norm_num))
  unfold helper_idivl_EAX IDIV
  rw [EDX_EAX_eq, show 2 * 32 = 64 from rfl]
  generalize signed 64 (dividend 32 EAX EDX) = num at hnum ⊢
  generalize signed 32 (t0.toNat % 2 ^ 32) = den
  dsimp only
  by_cases h0 : den = 0
  · rw [if_pos h0, if_neg (by omega), idivArch_none (.inl h0)]
  rw [if_neg h0]
  have hfits := fits_tdiv_iff hnum h0
  by_cases hmin : num = -2 ^ 63 ∧ den = -1
  · rw [div_of_not_fits (fun h => hfits.mp h hmin), if_pos hmin]
  have hdiv : Fits 64 (num.tdiv den) := hfits.mpr hmin
  rw [div_of_fits h0 hdiv, rem_of_fits h0 hdiv, if_neg hmin]
  dsimp only
  by_cases hq : Fits 32 (num.tdiv den)
  · rw [if_neg (fun h => (ne_signed_emod_iff (by norm_num) _).mp h hq), idivArch_some h0 hq]
    rfl
  · rw [if_pos ((ne_signed_emod_iff (by norm_num) _).mpr hq), idivArch_none (.inr hq)]

/-! ### The 64-bit signed helper -/

section Idiv64

variable {plow phigh : Nat}

-- The sign of the 128-bit `phigh:plow` is that of its high word.
theorem signed_wide_neg_iff (hl : plow < 2 ^ 64) (hh : phigh < 2 ^ 64) :
    signed 128 (phigh * 2 ^ 64 + plow) < 0 ↔ signed 64 phigh < 0 := by
  rw [signed_neg_iff (by omega), signed_neg_iff hh]
  show 2 ^ 127 ≤ _ ↔ 2 ^ 63 ≤ _
  omega

-- What `idiv64` divides: the magnitude of the dividend, which `neg128` computes when the
-- high word is negative.
theorem idiv64_magnitude (hl : plow < 2 ^ 64) (hh : phigh < 2 ^ 64) :
    ∃ pl ph, (if decide (signed 64 phigh < 0) then neg128 plow phigh else (plow, phigh)) = (pl, ph) ∧
      pl < 2 ^ 64 ∧ ph < 2 ^ 64 ∧ ph * 2 ^ 64 + pl = (signed 128 (phigh * 2 ^ 64 + plow)).natAbs := by
  have hn : phigh * 2 ^ 64 + plow < 2 ^ 128 := by omega
  have hsign : signed 64 phigh < 0 ↔ 2 ^ 63 ≤ phigh := signed_neg_iff hh
  rw [natAbs_signed hn]
  by_cases hs : 2 ^ 63 ≤ phigh
  · refine ⟨(neg128 plow phigh).1, (neg128 plow phigh).2, if_pos (decide_eq_true (hsign.mpr hs)),
      (add128_lt 1 0).1, (add128_lt 1 0).2, ?_⟩
    rw [neg128_val hl hh, if_neg (show ¬ _ < 2 ^ 127 by omega)]
    omega
  · refine ⟨plow, phigh, if_neg fun h => hs (hsign.mp (of_decide_eq_true h)), hl, hh, ?_⟩
    rw [if_pos (show _ < 2 ^ 127 by omega)]

theorem idiv64_eq {b : Int} (hl : plow < 2 ^ 64) (hh : phigh < 2 ^ 64) (hb0 : b ≠ 0)
    (hb : Fits 64 b) (hmin : b ≠ -2 ^ 63) :
    idiv64 plow phigh b =
      match idivArch 64 (signed 128 (phigh * 2 ^ 64 + plow)) b with
      | none => .divz
      | some (q, r) => .ok (BitVec.ofNat 64 (q % 2 ^ 64).toNat) (BitVec.ofNat 64 (r % 2 ^ 64).toNat) := by
  obtain ⟨pl, ph, hp, hpl, hph, hpv⟩ := idiv64_magnitude hl hh
  have hsa : decide (signed 64 phigh < 0) = decide (signed 128 (phigh * 2 ^ 64 + plow) < 0) :=
    decide_eq_decide.mpr (signed_wide_neg_iff hl hh).symm
  have hbpos : 0 < b.natAbs := Int.natAbs_pos.mpr hb0
  have hblt : b.natAbs ≤ 2 ^ 63 := by
    obtain ⟨h1, h2⟩ := hb
    change -2 ^ 63 ≤ b at h1
    change b < 2 ^ 63 at h2
    omega
  have hbn : ((b.natAbs : Int) % 2 ^ 64).toNat = b.natAbs := by omega
  unfold idiv64
  simp only []
  rw [hp, neg_magnitude hb hmin]
  simp only []
  rw [hbn, div64_eq hpl hph hbpos (by omega), hpv, hsa]
  set a := signed 128 (phigh * 2 ^ 64 + plow)
  have htdiv := tdiv_signMag (decide (a < 0)) (decide (b < 0)) a.natAbs b.natAbs
  have htmod := tmod_signMag (decide (a < 0)) (decide (b < 0)) a.natAbs b.natAbs
  rw [← eq_signMag a, ← eq_signMag b] at htdiv htmod
  have hr : a.natAbs % b.natAbs < b.natAbs := Nat.mod_lt _ hbpos
  generalize a.natAbs / b.natAbs = q at htdiv htmod ⊢
  generalize a.natAbs % b.natAbs = r at htdiv htmod hr ⊢
  by_cases hq : 2 ^ 64 ≤ q
  · -- `div64` overflows, and no signed quotient of 64 bits is that large either
    rw [if_pos hq, idivArch_none (.inr fun h => ?_)]
    rw [htdiv] at h
    obtain ⟨h1, h2⟩ := h
    change -2 ^ 63 ≤ _ at h1
    change _ < 2 ^ 63 at h2
    split_ifs at h1 h2 <;> omega
  have hq' : q < 2 ^ 64 := by omega
  have hr' : r < 2 ^ 64 := by omega
  rw [if_neg hq]
  simp only [BitVec.toNat_ofNat, Nat.mod_eq_of_lt hq', Nat.mod_eq_of_lt hr']
  unfold idivArch
  rw [htdiv, htmod]
  generalize decide (a < 0) = sa
  generalize decide (b < 0) = sb
  cases sa <;> cases sb <;>
    simp only [ne_eq, not_true_eq_false, not_false_eq_true, Bool.false_eq_true, Bool.true_eq_false,
      reduceIte, hb0, false_or, fits_natCast_iff, fits_neg_natCast_iff, Nat.reduceSub]
  -- in each case `idiv64` checks `div64`'s quotient against the bound that `Fits` gives
  all_goals
    split_ifs
    · omega
    · rfl
    · congr 2 <;> omega
    · omega

end Idiv64

-- `helper_idivq_EAX` is IDIV but on the divisor `INT64_MIN`, which `idiv64` negates.
theorem helper_idivq_EAX_eq (EAX EDX t0 : BitVec 64) :
    helper_idivq_EAX EAX EDX t0 =
      if signed 64 t0.toNat = -2 ^ 63 then .undefined else IDIV 64 EAX EDX t0 := by
  have hb : Fits 64 (signed 64 t0.toNat) := fits_signed (by norm_num) t0.isLt
  unfold helper_idivq_EAX IDIV
  rw [dividend_sixtyfour, Nat.mod_eq_of_lt t0.isLt]
  simp only [writeBack_sixtyfour]
  by_cases h0 : t0 = 0
  · subst h0
    have hz : signed 64 (0 : BitVec 64).toNat = 0 := rfl
    rw [if_pos rfl, hz, if_neg (by norm_num), idivArch_none (.inl rfl)]
  have hb0 : signed 64 t0.toNat ≠ 0 := by
    have : t0.toNat ≠ 0 := fun h => h0 (BitVec.eq_of_toNat_eq h)
    unfold signed
    split_ifs <;> omega
  rw [if_neg h0]
  by_cases hmin : signed 64 t0.toNat = -2 ^ 63
  · have hneg : ¬ Fits 64 (-signed 64 t0.toNat) := by
      rw [hmin]
      unfold Fits
      norm_num
    rw [if_pos hmin]
    unfold idiv64
    simp only []
    rw [if_pos (decide_eq_true (by rw [hmin]; norm_num)), neg_of_not_fits hneg]
  · rw [if_neg hmin, idiv64_eq EAX.isLt EDX.isLt hb0 hb hmin]

-- Where the C code has undefined behaviour, IDIV is defined: `INT_MIN / -1` in `int` for
-- `idivw` and in `int64_t` for `idivl`, where #DE is due, and `-INT64_MIN` for `idivq`,
-- where 0 divided by `INT64_MIN` is 0 remainder 0.
theorem idiv_overflow_undefined :
    helper_idivw_AX 0 0x8000 0xffff = .undefined ∧ IDIV 16 0 0x8000 0xffff = .divz ∧
    helper_idivl_EAX 0 0x80000000 0xffffffff = .undefined ∧
      IDIV 32 0 0x80000000 0xffffffff = .divz ∧
    helper_idivq_EAX 0 0 0x8000000000000000 = .undefined ∧
      IDIV 64 0 0 0x8000000000000000 = .ok 0 0 := by
  decide

end Qemu.TargetI386

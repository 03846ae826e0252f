import Qemu.Lib.BitArith

/-!
C's signed integer division, remainder and negation (C99 6.5.5, 6.5.3.3) on a signed type of
`w` bits: a result that the type cannot hold is undefined behaviour, here `none`. Division
truncates toward zero and the remainder takes the dividend's sign, as `Int.tdiv` and
`Int.tmod` do.
-/

namespace CInt

open BitArith

-- A value of a signed type of `w` bits.
def Fits (w : Nat) (x : Int) : Prop := -2 ^ (w - 1) ≤ x ∧ x < 2 ^ (w - 1)

instance (w : Nat) (x : Int) : Decidable (Fits w x) := inferInstanceAs (Decidable (_ ∧ _))

-- `a / b`
def div (w : Nat) (a b : Int) : Option Int :=
  if b = 0 ∨ ¬ Fits w (a.tdiv b) then none else some (a.tdiv b)

-- `a % b`: undefined whenever `a / b` is.
def rem (w : Nat) (a b : Int) : Option Int :=
  if b = 0 ∨ ¬ Fits w (a.tdiv b) then none else some (a.tmod b)

-- `-a`
def neg (w : Nat) (a : Int) : Option Int := if Fits w (-a) then some (-a) else none

section Ops

variable {w : Nat} {a b : Int}

theorem div_of_fits (hb : b ≠ 0) (h : Fits w (a.tdiv b)) : div w a b = some (a.tdiv b) :=
  if_neg (by tauto)

theorem rem_of_fits (hb : b ≠ 0) (h : Fits w (a.tdiv b)) : rem w a b = some (a.tmod b) :=
  if_neg (by tauto)

theorem div_of_not_fits (h : ¬ Fits w (a.tdiv b)) : div w a b = none := if_pos (.inr h)

theorem rem_of_not_fits (h : ¬ Fits w (a.tdiv b)) : rem w a b = none := if_pos (.inr h)

theorem neg_of_fits (h : Fits w (-a)) : neg w a = some (-a) := if_pos h

theorem neg_of_not_fits (h : ¬ Fits w (-a)) : neg w a = none := if_neg h

end Ops

/-! ### Signs and magnitudes -/

-- Truncating division works on the magnitudes and gives the quotient the sign the two signs
-- make together, and the remainder the dividend's sign.
theorem tdiv_signMag (sa sb : Bool) (m n : Nat) :
    (if sa then -(m : Int) else m).tdiv (if sb then -(n : Int) else n) =
      if sa = sb then ((m / n : Nat) : Int) else -((m / n : Nat) : Int) := by
  cases sa <;> cases sb <;> simp [Int.neg_tdiv, Int.tdiv_neg]

theorem tmod_signMag (sa sb : Bool) (m n : Nat) :
    (if sa then -(m : Int) else m).tmod (if sb then -(n : Int) else n) =
      if sa then -((m % n : Nat) : Int) else ((m % n : Nat) : Int) := by
  have h := Int.ofNat_tmod m n
  cases sa <;> cases sb <;> simp [Int.neg_tmod, Int.tmod_neg, h]

theorem eq_signMag (a : Int) : a = if decide (a < 0) then -(a.natAbs : Int) else a.natAbs := by
  split_ifs with h <;> simp at h <;> omega

/-! ### Which results fit -/

section Range

variable {v w : Nat} {a b : Int}

theorem Fits.mono (hvw : v ≤ w) (h : Fits v a) : Fits w a := by
  have : (2 : Int) ^ (v - 1) ≤ 2 ^ (w - 1) := pow_le_pow_right₀ (by norm_num) (by omega)
  obtain ⟨hlo, hhi⟩ := h
  constructor <;> omega

-- The one quotient of two values of `w` bits that does not fit `w` bits: the most negative
-- value divided by -1.
theorem fits_tdiv_iff (ha : Fits w a) (hb : b ≠ 0) :
    Fits w (a.tdiv b) ↔ ¬ (a = -2 ^ (w - 1) ∧ b = -1) := by
  unfold Fits at ha ⊢
  obtain ⟨ha0, ha1⟩ := ha
  generalize hM : (2 : Int) ^ (w - 1) = M at ha0 ha1 ⊢
  have hM1 : 1 ≤ M := hM ▸ one_le_pow₀ (by norm_num)
  constructor
  · rintro ⟨-, hlt⟩ ⟨rfl, rfl⟩
    rw [Int.tdiv_neg, Int.tdiv_one, neg_neg] at hlt
    exact lt_irrefl _ hlt
  · intro hne
    have hq : (a.tdiv b).natAbs = a.natAbs / b.natAbs := Int.natAbs_tdiv a b
    rcases Nat.lt_or_ge b.natAbs 2 with hb2 | hb2
    · -- a divisor of 1 or -1 gives the dividend or its negation
      rcases Int.natAbs_eq b with hb' | hb'
      · have hb1 : b = 1 := by omega
        subst hb1
        rw [Int.tdiv_one]
        exact ⟨ha0, ha1⟩
      · have hb1 : b = -1 := by omega
        subst hb1
        rw [Int.tdiv_neg, Int.tdiv_one]
        have : a ≠ -M := fun h => hne ⟨h, rfl⟩
        constructor <;> omega
    · -- any other divisor at least halves the dividend
      have hle : a.natAbs / b.natAbs ≤ a.natAbs / 2 := Nat.div_le_div_left hb2 (by norm_num)
      have : ((a.tdiv b).natAbs : Int) < M := by omega
      constructor <;> omega

theorem fits_natCast_iff (q : Nat) : Fits w q ↔ q < 2 ^ (w - 1) := by
  have hcast : ((2 ^ (w - 1) : Nat) : Int) = 2 ^ (w - 1) := by push_cast; rfl
  unfold Fits
  omega

theorem fits_neg_natCast_iff (q : Nat) : Fits w (-(q : Int)) ↔ q ≤ 2 ^ (w - 1) := by
  have hcast : ((2 ^ (w - 1) : Nat) : Int) = 2 ^ (w - 1) := by push_cast; rfl
  have hpos : (0 : Int) < 2 ^ (w - 1) := by positivity
  unfold Fits
  omega

-- `if (b < 0) b = -b;` gives the magnitude of every value but the most negative one, whose
-- negation is undefined.
theorem neg_magnitude (hb : Fits w b) (hmin : b ≠ -2 ^ (w - 1)) :
    (if decide (b < 0) then neg w b else some b) = some (b.natAbs : Int) := by
  obtain ⟨hlo, hhi⟩ := hb
  by_cases hneg : b < 0
  · have hfits : Fits w (-b) := ⟨by omega, by omega⟩
    rw [if_pos (decide_eq_true hneg), neg_of_fits hfits]
    congr 1
    omega
  · rw [if_neg fun h => hneg (of_decide_eq_true h)]
    congr 1
    omega

theorem neg_min : neg w (-2 ^ (w - 1)) = none :=
  neg_of_not_fits fun h => lt_irrefl ((2 : Int) ^ (w - 1)) (by simpa using h.2)

-- A dividend of fewer bits than the type divides without overflow.
theorem fits_tdiv_of_lt (hv : 0 < v) (hvw : v < w) (ha : Fits v a) : Fits w (a.tdiv b) := by
  have hpow : (2 : Int) ^ (v - 1) < 2 ^ (w - 1) := pow_lt_pow_right₀ (by norm_num) (by omega)
  have hle : ((a.tdiv b).natAbs : Int) ≤ a.natAbs := by
    rw [Int.natAbs_tdiv]
    exact_mod_cast Nat.div_le_self _ _
  obtain ⟨hlo, hhi⟩ := ha
  constructor <;> omega

-- Two's complement reads every word of `N` bits as a value of the signed type.
theorem fits_signed {N x : Nat} (hN : 0 < N) (hx : x < 2 ^ N) : Fits N (signed N x) := by
  have hP : (2 : Int) ^ N = 2 * 2 ^ (N - 1) := by
    rw [← pow_succ']
    congr 1
    omega
  have hx' : (x : Int) < 2 ^ N := by exact_mod_cast hx
  unfold Fits signed
  split <;> rename_i h
  · have : (x : Int) < 2 ^ (N - 1) := by exact_mod_cast h
    constructor <;> omega
  · have : ¬ (x : Int) < 2 ^ (N - 1) := by exact_mod_cast h
    constructor <;> omega

-- A conversion to an unsigned type of `N` bits, `(uintN_t)q`, is below `2 ^ N`.
theorem toNat_emod_two_pow_lt (q : Int) (N : Nat) : (q % 2 ^ N).toNat < 2 ^ N := by
  have h : q % 2 ^ N < ((2 ^ N : Nat) : Int) := by
    push_cast
    exact Int.emod_lt_of_pos _ (by positivity)
  omega

-- A conversion to a signed type of `N` bits, `(intN_t)q`, keeps `q` exactly when it fits.
theorem signed_emod_eq_iff {N : Nat} (hN : 0 < N) (q : Int) :
    signed N (q % 2 ^ N).toNat = q ↔ Fits N q := by
  have h0 : 0 ≤ q % 2 ^ N := Int.emod_nonneg _ (by positivity)
  have h1 : q % 2 ^ N < 2 ^ N := Int.emod_lt_of_pos _ (by positivity)
  have hcast : (((q % 2 ^ N).toNat : Nat) : Int) = q % 2 ^ N := Int.toNat_of_nonneg h0
  constructor
  · intro h
    rw [← h]
    apply fits_signed hN
    have : ((q % 2 ^ N).toNat : Int) < 2 ^ N := by rw [hcast]; exact h1
    exact_mod_cast this
  · rintro ⟨hlo, hhi⟩
    have hmod := emod_two_pow_eq_ite hN hlo hhi
    have hP : (2 : Int) ^ N = 2 * 2 ^ (N - 1) := by
      rw [← pow_succ']
      congr 1
      omega
    have hpow : ((2 ^ (N - 1) : Nat) : Int) = 2 ^ (N - 1) := by push_cast; rfl
    unfold signed
    -- the residue is below `2 ^ (N - 1)` exactly when `q` is not negative
    split <;> rename_i h
    · rw [← Int.ofNat_lt, hcast, hpow, hmod] at h
      rw [hcast, hmod]
      split at h <;> omega
    · rw [← Int.ofNat_lt, hcast, hpow, hmod] at h
      rw [hcast, hmod]
      split at h <;> omega

end Range

end CInt

import Mathlib.Data.BitVec
import Mathlib.Data.List.Range
import Mathlib.Order.Interval.Finset.Nat

/-!
Bits of a `w`-bit word as a set of positions: the mask `(2 << l) - (1 << s)` of the positions
`s..l`, the lowest set position (`ctz`) and what `x & (x - 1)` leaves, and the population count.
A row of words (`Nat → BitVec w`) is read as one long string of bits, bit `n` at word `n / w`,
position `n % w`. When each row of a stack summarises the one below (bit `n` set iff word `n`
below is nonzero), a bit of any row is set iff the last row has a set bit under it.
-/

namespace WordBits

variable {w : Nat}

theorem ne_zero_iff_exists_getLsbD (x : BitVec w) : x ≠ 0 ↔ ∃ j < w, x.getLsbD j = true := by
  constructor
  · intro hx
    by_contra hnone
    apply hx
    apply BitVec.eq_of_getLsbD_eq
    intro j hj
    have hbit : x.getLsbD j = false := by
      by_contra hb
      exact hnone ⟨j, hj, by simpa using hb⟩
    simp [hbit]
  · rintro ⟨j, -, hj⟩ rfl
    simp at hj

theorem eq_zero_iff_getLsbD (x : BitVec w) : x = 0 ↔ ∀ j, x.getLsbD j = false := by
  constructor
  · rintro rfl j
    simp
  · intro h
    apply BitVec.eq_of_getLsbD_eq
    intro j _
    simp [h j]

theorem getLsbD_not_zero (j : Nat) : (~~~(0 : BitVec w)).getLsbD j = decide (j < w) := by
  rw [BitVec.getLsbD_not, BitVec.ofNat_eq_ofNat, BitVec.getLsbD_ofNat, Nat.zero_testBit]
  simp

theorem toNat_rangeMask {s l : Nat} (hsl : s ≤ l) (hl : l < w) :
    ((2 : BitVec w) <<< l - (1 : BitVec w) <<< s).toNat = 2 ^ (l + 1) - 2 ^ s := by
  have hs : 2 ^ s ≤ 2 ^ (l + 1) := Nat.pow_le_pow_right (by decide) (by omega)
  have hlw : 2 ^ (l + 1) ≤ 2 ^ w := Nat.pow_le_pow_right (by decide) hl
  have hsw : 2 ^ s < 2 ^ w := Nat.pow_lt_pow_right (by decide) (by omega)
  have hpos : 1 ≤ 2 ^ s := Nat.one_le_two_pow
  have hone : ((1 : BitVec w) <<< s).toNat = 2 ^ s := by
    rw [BitVec.toNat_shiftLeft, BitVec.ofNat_eq_ofNat, BitVec.toNat_ofNat, Nat.shiftLeft_eq,
      Nat.mod_eq_of_lt (Nat.one_lt_two_pow (by omega)), Nat.one_mul, Nat.mod_eq_of_lt hsw]
  have htwo : ((2 : BitVec w) <<< l).toNat = 2 ^ (l + 1) % 2 ^ w := by
    rw [BitVec.toNat_shiftLeft, BitVec.ofNat_eq_ofNat, BitVec.toNat_ofNat, Nat.shiftLeft_eq,
      Nat.mod_mul_mod, Nat.pow_succ, Nat.mul_comm]
  rw [BitVec.toNat_sub, hone, htwo]
  rcases Nat.lt_or_ge (l + 1) w with hlt | hge
  · -- the shift of 2 stays inside the word: no wrap-around
    rw [Nat.mod_eq_of_lt (Nat.pow_lt_pow_right (by decide) hlt),
      show 2 ^ w - 2 ^ s + 2 ^ (l + 1) = 2 ^ w + (2 ^ (l + 1) - 2 ^ s) by omega, Nat.add_mod_left]
    exact Nat.mod_eq_of_lt (by omega)
  · -- `2 << (w - 1)` is zero and the subtraction wraps around
    have hw : l + 1 = w := by omega
    rw [hw, Nat.mod_self, Nat.add_zero]
    exact Nat.mod_eq_of_lt (by omega)

-- The mask `(2 << l) - (1 << s)` that hbitmap.c builds has exactly the positions `s..l`.
theorem getLsbD_rangeMask {s l : Nat} (hsl : s ≤ l) (hl : l < w) (j : Nat) :
    ((2 : BitVec w) <<< l - (1 : BitVec w) <<< s).getLsbD j = (decide (s ≤ j) && decide (j ≤ l)) := by
  have hsplit : 2 ^ (l + 1) - 2 ^ s = 2 ^ s * (2 ^ (l + 1 - s) - 1) := by
    rw [Nat.mul_sub, Nat.mul_one, ← Nat.pow_add, Nat.add_sub_cancel' (by omega)]
  rw [BitVec.getLsbD, toNat_rangeMask hsl hl, hsplit, Nat.testBit_two_pow_mul,
    Nat.testBit_two_pow_sub_one]
  by_cases hsj : s ≤ j
  · simp only [ge_iff_le, hsj, decide_true, Bool.true_and]
    by_cases hjl : j ≤ l
    · simp only [hjl, decide_true, decide_eq_true_eq]
      omega
    · simp only [hjl, decide_false, decide_eq_false_iff_not]
      omega
  · simp [hsj]

-- `(1 << b) - 1` has the positions below `b`.
theorem getLsbD_lowMask {b : Nat} (hb : b < w) (j : Nat) :
    ((1 : BitVec w) <<< b - 1).getLsbD j = decide (j < b) := by
  have hpow : 2 ^ b < 2 ^ w := Nat.pow_lt_pow_right (by decide) hb
  have hpos : 1 ≤ 2 ^ b := Nat.one_le_two_pow
  have hone : (1 : BitVec w).toNat = 1 := by
    rw [BitVec.ofNat_eq_ofNat, BitVec.toNat_ofNat, Nat.mod_eq_of_lt (Nat.one_lt_two_pow (by omega))]
  have hval : ((1 : BitVec w) <<< b - 1).toNat = 2 ^ b - 1 := by
    rw [BitVec.toNat_sub, BitVec.toNat_shiftLeft, hone, Nat.shiftLeft_eq, Nat.one_mul,
      Nat.mod_eq_of_lt hpow, show 2 ^ w - 1 + 2 ^ b = 2 ^ w + (2 ^ b - 1) by omega, Nat.add_mod_left]
    exact Nat.mod_eq_of_lt (by omega)
  rw [BitVec.getLsbD, hval, Nat.testBit_two_pow_sub_one]

theorem getLsbD_not_shiftLeft (b j : Nat) :
    (~~~((1 : BitVec w) <<< b)).getLsbD j = (decide (j < w) && decide (j ≠ b)) := by
  have htw : (1 : BitVec w) <<< b = BitVec.twoPow w b := rfl
  rw [htw, BitVec.getLsbD_not, BitVec.getLsbD_twoPow]
  by_cases hj : j < w
  · by_cases hjb : j = b
    · subst hjb
      simp [hj]
    · simp [hj, Ne.symm hjb, hjb]
  · simp [hj]

-- Testing one bit with a one-bit mask.
theorem and_shiftLeft_ne_zero_iff (x : BitVec w) {b : Nat} (hb : b < w) :
    x &&& (1 : BitVec w) <<< b ≠ 0 ↔ x.getLsbD b = true := by
  have htw : (1 : BitVec w) <<< b = BitVec.twoPow w b := rfl
  rw [ne_zero_iff_exists_getLsbD, htw]
  constructor
  · rintro ⟨j, -, hbit⟩
    rw [BitVec.getLsbD_and, BitVec.getLsbD_twoPow] at hbit
    simp only [Bool.and_eq_true, decide_eq_true_eq] at hbit
    rw [hbit.2.2]
    exact hbit.1
  · intro hx
    refine ⟨b, hb, ?_⟩
    rw [BitVec.getLsbD_and, BitVec.getLsbD_twoPow, hx]
    simp [hb]

theorem ctz_lt_of_ne_zero {x : BitVec w} (hx : x ≠ 0) : x.ctz.toNat < w := by
  have h := BitVec.ctz_lt_iff_ne_zero.mpr hx
  rw [BitVec.lt_def, BitVec.natCast_eq_ofNat, BitVec.toNat_ofNat] at h
  exact Nat.lt_of_lt_of_le h (Nat.mod_le _ _)

theorem getLsbD_ctz {x : BitVec w} (hx : x ≠ 0) : x.getLsbD x.ctz.toNat = true :=
  BitVec.getLsbD_true_ctz_of_ne_zero hx

-- No set position is below the lowest one.
theorem ctz_le_of_getLsbD {x : BitVec w} {j : Nat} (h : x.getLsbD j = true) : x.ctz.toNat ≤ j := by
  by_contra hlt
  rw [BitVec.getLsbD_false_of_lt_ctz (Nat.lt_of_not_le hlt)] at h
  exact Bool.false_ne_true h

-- Below and at the lowest set position of `n`, `n` is `2 ^ k` modulo `2 ^ (k + 1)`.
private theorem toNat_eq_of_ctz {x : BitVec w} (hx : x ≠ 0) :
    x.toNat = 2 ^ (x.ctz.toNat + 1) * (x.toNat / 2 ^ (x.ctz.toNat + 1)) + 2 ^ x.ctz.toNat := by
  have hlow : x.toNat % 2 ^ (x.ctz.toNat + 1) = 2 ^ x.ctz.toNat := by
    apply Nat.eq_of_testBit_eq
    intro i
    rw [Nat.testBit_mod_two_pow, Nat.testBit_two_pow]
    rcases Nat.lt_trichotomy i x.ctz.toNat with hi | rfl | hi
    · have hb := BitVec.getLsbD_false_of_lt_ctz hi
      rw [BitVec.getLsbD] at hb
      simp [hb, Nat.ne_of_gt hi]
    · have hb := getLsbD_ctz hx
      rw [BitVec.getLsbD] at hb
      simp [hb]
    · simp [show ¬ i < x.ctz.toNat + 1 by omega, Nat.ne_of_lt hi]
  have := Nat.div_add_mod x.toNat (2 ^ (x.ctz.toNat + 1))
  omega

-- `x & (x - 1)` is `x` with its lowest set bit cleared.
theorem getLsbD_and_sub_one {x : BitVec w} (hx : x ≠ 0) (j : Nat) :
    (x &&& (x - 1)).getLsbD j = (x.getLsbD j && decide (j ≠ x.ctz.toNat)) := by
  have hw : 0 < w := Nat.lt_of_le_of_lt (Nat.zero_le _) (ctz_lt_of_ne_zero hx)
  have hn := toNat_eq_of_ctz hx
  set k := x.ctz.toNat with hk
  set q := x.toNat / 2 ^ (k + 1)
  have hpos : 1 ≤ x.toNat := by
    have : 1 ≤ 2 ^ k := Nat.one_le_two_pow
    omega
  have hsub : (x - 1).toNat = 2 ^ (k + 1) * q + (2 ^ k - 1) := by
    rw [BitVec.toNat_sub, BitVec.ofNat_eq_ofNat, BitVec.toNat_ofNat,
      Nat.mod_eq_of_lt (Nat.one_lt_two_pow (by omega)),
      show 2 ^ w - 1 + x.toNat = 2 ^ w + (x.toNat - 1) by omega, Nat.add_mod_left,
      Nat.mod_eq_of_lt (by omega)]
    have : 1 ≤ 2 ^ k := Nat.one_le_two_pow
    omega
  have hk1 : 2 ^ k < 2 ^ (k + 1) := Nat.pow_lt_pow_right (by decide) (by omega)
  simp only [BitVec.getLsbD, BitVec.toNat_and, Nat.testBit_and, hsub]
  rw [hn, Nat.testBit_two_pow_mul_add q hk1, Nat.testBit_two_pow_mul_add q (by omega)]
  rcases Nat.lt_or_ge j (k + 1) with hj | hj
  · rw [if_pos hj, if_pos hj, Nat.testBit_two_pow, Nat.testBit_two_pow_sub_one]
    by_cases hjk : j = k
    · simp [hjk]
    · simp [hjk, Ne.symm hjk]
  · rw [if_neg (by omega), if_neg (by omega)]
    simp [show j ≠ k by omega]

-- Clearing the lowest set bit of a word that holds the positions from `lo` on where `P` holds
-- leaves those after the lowest one.
theorem getLsbD_and_sub_one_of_from {x : BitVec w} (hx : x ≠ 0) {P : Nat → Bool} {lo : Nat}
    (hbits : ∀ j, j < w → x.getLsbD j = (P j && decide (lo ≤ j))) {j : Nat} (hj : j < w) :
    (x &&& (x - 1)).getLsbD j = (P j && decide (x.ctz.toNat < j)) := by
  have hlo : lo ≤ x.ctz.toNat := by
    have h := getLsbD_ctz hx
    rw [hbits _ (ctz_lt_of_ne_zero hx)] at h
    exact of_decide_eq_true (Bool.and_eq_true _ _ ▸ h).2
  rw [getLsbD_and_sub_one hx, hbits j hj]
  by_cases hP : P j = true
  · by_cases hlt : x.ctz.toNat < j
    · simp [hP, hlt, show lo ≤ j by omega, show j ≠ x.ctz.toNat by omega]
    · by_cases hle : lo ≤ j
      · have hge := ctz_le_of_getLsbD (show x.getLsbD j = true by rw [hbits j hj]; simp [hP, hle])
        simp [show j = x.ctz.toNat by omega]
      · simp [hP, hlt, hle]
  · simp [hP]

theorem cpopNatRec_eq_countP (x : BitVec w) (n : Nat) :
    x.cpopNatRec n 0 = (List.range n).countP (x.getLsbD ·) := by
  induction n with
  | zero => rfl
  | succ n ih =>
    rw [BitVec.cpopNatRec_succ, BitVec.cpopNatRec_eq, ih, List.range_succ, List.countP_append]
    by_cases hb : x.getLsbD n <;> simp [hb]

-- Bit `n` of a row of words: position `n % w` of word `n / w`.
def rowBit (row : Nat → BitVec w) (n : Nat) : Bool := (row (n / w)).getLsbD (n % w)

theorem rowBit_update (row : Nat → BitVec w) (p : Nat) (v : BitVec w) (n : Nat) :
    rowBit (Function.update row p v) n = if n / w = p then v.getLsbD (n % w) else rowBit row n := by
  by_cases h : n / w = p
  · subst h
    simp [rowBit]
  · simp [rowBit, h]

-- A word of the row is nonzero iff one of the bits it holds is set.
theorem row_ne_zero_iff (hw : 0 < w) (row : Nat → BitVec w) (p : Nat) :
    row p ≠ 0 ↔ ∃ n, n / w = p ∧ rowBit row n = true := by
  rw [ne_zero_iff_exists_getLsbD]
  constructor
  · rintro ⟨j, hj, hbit⟩
    refine ⟨w * p + j, ?_, ?_⟩
    · rw [Nat.mul_add_div hw, Nat.div_eq_of_lt hj, Nat.add_zero]
    · rw [rowBit, Nat.mul_add_div hw, Nat.div_eq_of_lt hj, Nat.add_zero, Nat.mul_add_mod,
        Nat.mod_eq_of_lt hj]
      exact hbit
  · rintro ⟨n, rfl, hbit⟩
    exact ⟨n % w, Nat.mod_lt _ hw, hbit⟩

-- A word is determined by the bits of the row it holds.
theorem word_eq_of_rowBit (hw : 0 < w) {row row' : Nat → BitVec w} {p : Nat}
    (h : ∀ n, n / w = p → rowBit row n = rowBit row' n) : row p = row' p := by
  apply BitVec.eq_of_getLsbD_eq
  intro j hj
  have hn := h (w * p + j) (by rw [Nat.mul_add_div hw, Nat.div_eq_of_lt hj, Nat.add_zero])
  rwa [rowBit, rowBit, Nat.mul_add_div hw, Nat.div_eq_of_lt hj, Nat.add_zero, Nat.mul_add_mod,
    Nat.mod_eq_of_lt hj] at hn

-- Two rows with the same bits are the same row.
theorem row_ext (hw : 0 < w) {row row' : Nat → BitVec w} (h : ∀ n, rowBit row n = rowBit row' n) :
    row = row' := by
  funext p
  apply BitVec.eq_of_getLsbD_eq
  intro j hj
  have hn := h (w * p + j)
  rwa [rowBit, rowBit, Nat.mul_add_div hw, Nat.div_eq_of_lt hj, Nat.add_zero, Nat.mul_add_mod,
    Nat.mod_eq_of_lt hj] at hn

-- In a stack of rows `lv 0, ..., lv L` where each row from `i` on summarises the next one,
-- bit `n` of row `i` is set iff a set bit of the last row lies among the `w ^ (L - i)` under it.
theorem rowBit_iff_exists_last (hw : 0 < w) {lv : Nat → Nat → BitVec w} {L i : Nat} (hi : i ≤ L)
    (hsum : ∀ k, i ≤ k → k < L → ∀ n, rowBit (lv k) n = true ↔ lv (k + 1) n ≠ 0) (n : Nat) :
    rowBit (lv i) n = true ↔ ∃ x, rowBit (lv L) x = true ∧ x / w ^ (L - i) = n := by
  induction h : L - i generalizing i n with
  | zero =>
    have hiL : i = L := by omega
    subst hiL
    simp
  | succ d ih =>
    have hlt : i < L := by omega
    rw [hsum i (Nat.le_refl i) hlt n, row_ne_zero_iff hw]
    constructor
    · rintro ⟨m, hm, hbit⟩
      obtain ⟨x, hx, hxm⟩ := (ih (i := i + 1) (by omega)
        (fun k hk hkL => hsum k (by omega) hkL) m (by omega)).mp hbit
      refine ⟨x, hx, ?_⟩
      rw [Nat.pow_succ, ← Nat.div_div_eq_div_mul, hxm, hm]
    · rintro ⟨x, hx, hxn⟩
      refine ⟨x / w ^ d, ?_, ?_⟩
      · rw [Nat.div_div_eq_div_mul, ← Nat.pow_succ, hxn]
      · exact (ih (i := i + 1) (by omega) (fun k hk hkL => hsum k (by omega) hkL) _ (by omega)).mpr
          ⟨x, hx, rfl⟩

/-! ### Positions of an interval -/

-- Splitting an interval splits a count over it.
theorem countP_range'_split (P : Nat → Bool) {a m b : Nat} (ham : a ≤ m) (hmb : m ≤ b) :
    (List.range' a (b - a)).countP P =
      (List.range' a (m - a)).countP P + (List.range' m (b - m)).countP P := by
  obtain ⟨k, rfl⟩ := Nat.exists_eq_add_of_le ham
  obtain ⟨l, rfl⟩ := Nat.exists_eq_add_of_le hmb
  rw [show a + k + l - a = k + l by omega, show a + k - a = k by omega,
    show a + k + l - (a + k) = l by omega, ← List.range'_append_1, List.countP_append]

theorem countP_range'_eq_zero (P : Nat → Bool) {a b : Nat} (h : ∀ x, a ≤ x → x < b → P x = false) :
    (List.range' a (b - a)).countP P = 0 := by
  rw [List.countP_eq_zero]
  intro x hx
  rw [List.mem_range'_1] at hx
  simp [h x hx.1 (by omega)]

-- Counting the positions `a + j` for `j < n` is counting over `a .. a + n`.
theorem countP_range_add (P : Nat → Bool) (a n : Nat) :
    (List.range n).countP (fun j => P (a + j)) = (List.range' a n).countP P := by
  rw [List.range'_eq_map_range, List.countP_map]
  rfl

-- Counting over an interval with the positions outside `lo .. hi - 1` switched off.
theorem countP_range'_window (P : Nat → Bool) {a n lo hi : Nat} (h1 : a ≤ lo) (h2 : lo ≤ hi)
    (h3 : hi ≤ a + n) :
    (List.range' a n).countP (fun x => P x && decide (lo ≤ x) && decide (x < hi)) =
      (List.range' lo (hi - lo)).countP P := by
  have hsplit := countP_range'_split (fun x => P x && decide (lo ≤ x) && decide (x < hi)) h1
    (Nat.le_trans h2 h3)
  have hsplit' := countP_range'_split (fun x => P x && decide (lo ≤ x) && decide (x < hi)) h2 h3
  rw [show a + n - a = n by omega] at hsplit
  have hlow : (List.range' a (lo - a)).countP
      (fun x => P x && decide (lo ≤ x) && decide (x < hi)) = 0 :=
    countP_range'_eq_zero _ (fun x _ hx => by simp; omega)
  have hhigh : (List.range' hi (a + n - hi)).countP
      (fun x => P x && decide (lo ≤ x) && decide (x < hi)) = 0 :=
    countP_range'_eq_zero _ (fun x hx _ => by simp; omega)
  rw [hsplit, hsplit', hlow, hhigh, Nat.zero_add, Nat.add_zero]
  apply List.countP_congr
  intro x hx
  rw [List.mem_range'_1] at hx
  simp [show lo ≤ x by omega, show x < hi by omega]

-- Counting `P` from `t` on and before `e` over `a .. a + n - 1`, when `P` holds nowhere from
-- `t` up to `a`, counts `P` over `t .. e - 1`.
theorem countP_range'_from (P : Nat → Bool) {a n t e : Nat} (hte : t ≤ e) (hae : a ≤ e)
    (he : e ≤ a + n) (hnone : ∀ x, t ≤ x → x < a → P x = false) :
    (List.range' a n).countP (fun x => P x && decide (t ≤ x) && decide (x < e)) =
      (List.range' t (e - t)).countP P := by
  by_cases hta : t ≤ a
  · -- the word lies wholly after `t`: the test `t ≤ x` is always true on it
    have hcongr : (List.range' a n).countP (fun x => P x && decide (t ≤ x) && decide (x < e)) =
        (List.range' a n).countP (fun x => P x && decide (a ≤ x) && decide (x < e)) := by
      apply List.countP_congr
      intro x hx
      rw [List.mem_range'_1] at hx
      simp [show t ≤ x by omega, show a ≤ x by omega]
    rw [hcongr, countP_range'_window P (Nat.le_refl a) hae he, countP_range'_split P hta hae,
      countP_range'_eq_zero P hnone, Nat.zero_add]
  · exact countP_range'_window P (by omega) hte he

-- Counting over `a .. b - 1` in three parts around `s .. l`.
theorem countP_range'_three (P : Nat → Bool) {a s l b : Nat} (has : a ≤ s) (hsl : s ≤ l + 1)
    (hlb : l + 1 ≤ b) :
    (List.range' a (b - a)).countP P = (List.range' a (s - a)).countP P +
      (List.range' s (l + 1 - s)).countP P + (List.range' (l + 1) (b - (l + 1))).countP P := by
  rw [countP_range'_split P has (Nat.le_trans hsl hlb), countP_range'_split P hsl hlb,
    Nat.add_assoc]

section Window

variable (P : Nat → Bool) {a s l b : Nat}

-- Outside `s .. l` a predicate changed only inside it counts as before.
theorem countP_range'_congr_outside {Q : Nat → Bool} (hQ : ∀ x, (x < s ∨ l < x) → Q x = P x)
    (c d : Nat) (hcd : d ≤ s ∨ l < c) :
    (List.range' c (d - c)).countP Q = (List.range' c (d - c)).countP P := by
  apply List.countP_congr
  intro x hx
  rw [List.mem_range'_1] at hx
  rw [hQ x (by omega)]

-- Setting the positions `s .. l` inside `a .. b - 1` adds those of them that were not set.
theorem countP_range'_or (has : a ≤ s) (hsl : s ≤ l) (hlb : l < b) :
    (List.range' a (b - a)).countP (fun x => P x || (decide (s ≤ x) && decide (x ≤ l))) +
        (List.range' s (l + 1 - s)).countP P =
      (List.range' a (b - a)).countP P + (l + 1 - s) := by
  have hQ : ∀ x, (x < s ∨ l < x) → (P x || (decide (s ≤ x) && decide (x ≤ l))) = P x := by
    intro x hx
    have : (decide (s ≤ x) && decide (x ≤ l)) = false := by
      simp only [Bool.and_eq_false_iff, decide_eq_false_iff_not]
      omega
    rw [this, Bool.or_false]
  have hmid : (List.range' s (l + 1 - s)).countP
      (fun x => P x || (decide (s ≤ x) && decide (x ≤ l))) = l + 1 - s := by
    rw [List.countP_eq_length.mpr, List.length_range']
    intro x hx
    rw [List.mem_range'_1] at hx
    simp [show s ≤ x by omega, show x ≤ l by omega]
  have hle : (List.range' s (l + 1 - s)).countP P ≤ l + 1 - s :=
    (List.countP_le_length).trans (List.length_range').le
  rw [countP_range'_three _ has (by omega) hlb, countP_range'_three P has (by omega) hlb, hmid,
    countP_range'_congr_outside P hQ a s (Or.inl (Nat.le_refl s)),
    countP_range'_congr_outside P hQ (l + 1) b (Or.inr (Nat.lt_succ_self l))]
  omega

-- Clearing the positions `s .. l` inside `a .. b - 1` removes those of them that were set.
theorem countP_range'_and_not (has : a ≤ s) (hsl : s ≤ l) (hlb : l < b) :
    (List.range' a (b - a)).countP (fun x => P x && !(decide (s ≤ x) && decide (x ≤ l))) +
        (List.range' s (l + 1 - s)).countP P =
      (List.range' a (b - a)).countP P := by
  have hQ : ∀ x, (x < s ∨ l < x) → (P x && !(decide (s ≤ x) && decide (x ≤ l))) = P x := by
    intro x hx
    have : (decide (s ≤ x) && decide (x ≤ l)) = false := by
      simp only [Bool.and_eq_false_iff, decide_eq_false_iff_not]
      omega
    rw [this, Bool.not_false, Bool.and_true]
  have hmid : (List.range' s (l + 1 - s)).countP
      (fun x => P x && !(decide (s ≤ x) && decide (x ≤ l))) = 0 := by
    rw [List.countP_eq_zero]
    intro x hx
    rw [List.mem_range'_1] at hx
    simp [show s ≤ x by omega, show x ≤ l by omega]
  rw [countP_range'_three _ has (by omega) hlb, countP_range'_three P has (by omega) hlb, hmid,
    countP_range'_congr_outside P hQ a s (Or.inl (Nat.le_refl s)),
    countP_range'_congr_outside P hQ (l + 1) b (Or.inr (Nat.lt_succ_self l))]
  omega

end Window

-- The finite set of positions in `a .. b - 1` where `P` holds has as many elements as `P` holds
-- on `List.range' a (b - a)`.
theorem card_filter_Ico (P : Nat → Bool) (a b : Nat) :
    ((Finset.Ico a b).filter (fun x => P x = true)).card = (List.range' a (b - a)).countP P := by
  rw [Nat.Ico_eq_range', List.countP_eq_length_filter]
  simp [Finset.card, Finset.filter_val]

theorem card_filter_range (P : Nat → Bool) (n : Nat) :
    ((Finset.range n).filter (fun x => P x = true)).card = (List.range n).countP P := by
  rw [Finset.range_eq_Ico, card_filter_Ico, List.range_eq_range', Nat.sub_zero]

theorem filter_range'_eq_nil (P : Nat → Bool) {a b : Nat} (h : ∀ x, a ≤ x → x < b → P x = false) :
    (List.range' a (b - a)).filter P = [] := by
  rw [List.filter_eq_nil_iff]
  intro x hx
  rw [List.mem_range'_1] at hx
  simp [h x hx.1 (by omega)]

-- The positions of an interval where `P` holds start with the first one.
theorem filter_range'_of_first (P : Nat → Bool) {a x b : Nat} (hax : a ≤ x) (hxb : x < b)
    (hx : P x = true) (hfirst : ∀ y, a ≤ y → y < x → P y = false) :
    (List.range' a (b - a)).filter P = x :: (List.range' (x + 1) (b - (x + 1))).filter P := by
  obtain ⟨k, rfl⟩ := Nat.exists_eq_add_of_le hax
  have hnil : (List.range' a k).filter P = [] := by
    have h := @filter_range'_eq_nil P a (a + k) (fun y hy1 hy2 => hfirst y hy1 hy2)
    rwa [show a + k - a = k by omega] at h
  rw [show b - a = k + (1 + (b - (a + k + 1))) by omega, ← List.range'_append_1,
    ← List.range'_append_1, List.filter_append, List.filter_append, hnil, List.range'_succ,
    List.range'_zero]
  simp [hx]

end WordBits

import Qemu.Util.HbitmapIter
import Qemu.Lib.CInt
import Mathlib.Data.Finset.Sort
import Mathlib.Order.Interval.Finset.Nat

/-!
hbitmap_set, hbitmap_reset, hbitmap_get and hbitmap_alloc against the representation invariant
`Wf`. hb_set_between and hb_reset_between change the last level and then walk up while a word
changed between zero and nonzero; the summaries they leave are proved level by level, by
induction on the level they start at. An hbitmap stands for a finite set of chunks (items
shifted right by the granularity): after any run of in-range hbitmap_set and hbitmap_reset
calls from hbitmap_alloc, hbitmap_get, hbitmap_count and the iterator answer for that set.
-/

namespace Qemu.Hbitmap

open WordBits

-- Level `i` summarises level `i + 1`: bit `n` of level `i` is set iff word `n` of level
-- `i + 1` is nonzero, bit 63 of level 0 (the sentinel) apart.
def Summarises (levels : Nat → Nat → Word) (i : Nat) : Prop :=
  ∀ n, (i = 0 → n ≠ 63) → (rowBit (levels i) n = true ↔ levels (i + 1) n ≠ 0)

-- A summary reads two levels only.
theorem Summarises.of_eq {levels levels' : Nat → Nat → Word} {i : Nat} (h : Summarises levels i)
    (h0 : levels' i = levels i) (h1 : levels' (i + 1) = levels (i + 1)) : Summarises levels' i := by
  intro n hn
  rw [h0, h1]
  exact h n hn

theorem Summarises.update {levels : Nat → Nat → Word} {i j : Nat} (h : Summarises levels i)
    (hi : j ≠ i) (hi1 : j ≠ i + 1) (row : Nat → Word) :
    Summarises (Function.update levels j row) i :=
  h.of_eq (Function.update_of_ne (Ne.symm hi) _ _) (Function.update_of_ne (Ne.symm hi1) _ _)

/-! ### The row work on words -/

-- A word with a bit of `start..last` is nonzero once the range is set.
theorem hb_set_row_ne_zero (row : Nat → Word) {start last p : Nat} (hsl : start ≤ last)
    (hp1 : start / 64 ≤ p) (hp2 : p ≤ last / 64) : (hb_set_row row start last).1 p ≠ 0 := by
  rw [row_ne_zero_iff (by decide)]
  by_cases hs : start ≤ p * 64
  · refine ⟨p * 64, by omega, ?_⟩
    rw [hb_set_row_rowBit row hsl]
    simp [hs, show p * 64 ≤ last by omega]
  · refine ⟨start, by omega, ?_⟩
    rw [hb_set_row_rowBit row hsl]
    simp [hsl]

-- Words outside `start / 64 .. last / 64` are left as they are.
theorem hb_set_row_of_out (row : Nat → Word) {start last p : Nat} (hsl : start ≤ last)
    (hp : p < start / 64 ∨ last / 64 < p) : (hb_set_row row start last).1 p = row p := by
  apply word_eq_of_rowBit (by decide)
  intro n hn
  rw [hb_set_row_rowBit row hsl]
  have : (decide (start ≤ n) && decide (n ≤ last)) = false := by
    simp only [Bool.and_eq_false_iff, decide_eq_false_iff_not]
    omega
  rw [this, Bool.or_false]

theorem hb_reset_row_of_out (row : Nat → Word) {start last p : Nat} (hsl : start ≤ last)
    (hp : p < start / 64 ∨ last / 64 < p) : (hb_reset_row row start last).1 p = row p := by
  apply word_eq_of_rowBit (by decide)
  intro n hn
  rw [hb_reset_row_rowBit row hsl]
  have : (decide (start ≤ n) && decide (n ≤ last)) = false := by
    simp only [Bool.and_eq_false_iff, decide_eq_false_iff_not]
    omega
  rw [this, Bool.not_false, Bool.and_true]

/-! ### hb_set_between -/

section SetBetween

theorem hb_set_between_zero (levels : Nat → Nat → Word) (s l : Nat) :
    hb_set_between levels 0 s l = Function.update levels 0 (hb_set_row (levels 0) s l).1 := by
  rw [hb_set_between]

theorem hb_set_between_succ (levels : Nat → Nat → Word) (k s l : Nat) :
    hb_set_between levels (k + 1) s l =
      if (hb_set_row (levels (k + 1)) s l).2 then
        hb_set_between (Function.update levels (k + 1) (hb_set_row (levels (k + 1)) s l).1) k
          (s / 64) (l / 64)
      else Function.update levels (k + 1) (hb_set_row (levels (k + 1)) s l).1 := by
  rw [hb_set_between, shiftRight_level, shiftRight_level]

-- hb_set_between leaves the levels below the one it starts at as they are.
theorem hb_set_between_of_lt (L : Nat) :
    ∀ (levels : Nat → Nat → Word) (s l i : Nat), L < i → hb_set_between levels L s l i = levels i := by
  induction L with
  | zero =>
    intro levels s l i hi
    rw [hb_set_between_zero]
    exact Function.update_of_ne (by omega) _ _
  | succ k ih =>
    intro levels s l i hi
    rcases hr : hb_set_row (levels (k + 1)) s l with ⟨row', changed⟩
    rw [hb_set_between_succ, hr]
    cases changed with
    | true => rw [if_pos rfl, ih _ _ _ _ (by omega), Function.update_of_ne (by omega)]
    | false => exact Function.update_of_ne (by omega) _ _

-- The level hb_set_between starts at ends up with the row work done on it.
theorem hb_set_between_self (levels : Nat → Nat → Word) (L s l : Nat) :
    hb_set_between levels L s l L = (hb_set_row (levels L) s l).1 := by
  rcases hr : hb_set_row (levels L) s l with ⟨row', changed⟩
  cases L with
  | zero =>
    rw [hb_set_between_zero, hr]
    exact Function.update_self _ _ _
  | succ k =>
    rw [hb_set_between_succ, hr]
    cases changed with
    | true => rw [if_pos rfl, hb_set_between_of_lt k _ _ _ _ (by omega), Function.update_self]
    | false => exact Function.update_self _ _ _

-- hb_set_between only sets bits.
theorem hb_set_between_mono (L : Nat) :
    ∀ (levels : Nat → Nat → Word) (s l : Nat), s ≤ l → ∀ i n, rowBit (levels i) n = true →
      rowBit (hb_set_between levels L s l i) n = true := by
  -- setting the row of level `j` keeps every set bit of every level
  have hstep : ∀ (levels : Nat → Nat → Word) (j s l : Nat), s ≤ l → ∀ i n,
      rowBit (levels i) n = true →
        rowBit (Function.update levels j (hb_set_row (levels j) s l).1 i) n = true := by
    intro levels j s l hsl i n hn
    by_cases hij : i = j
    · subst hij
      rw [Function.update_self, hb_set_row_rowBit _ hsl, hn, Bool.true_or]
    · rwa [Function.update_of_ne hij]
  induction L with
  | zero =>
    intro levels s l hsl i n hn
    rw [hb_set_between_zero]
    exact hstep levels 0 s l hsl i n hn
  | succ k ih =>
    intro levels s l hsl i n hn
    rcases hr : hb_set_row (levels (k + 1)) s l with ⟨row', changed⟩
    have hup := hstep levels (k + 1) s l hsl i n hn
    rw [hr] at hup
    rw [hb_set_between_succ, hr]
    cases changed with
    | true => exact ih _ _ _ (Nat.div_le_div_right hsl) i n hup
    | false => exact hup

-- The summaries hb_set_between leaves. Started at level `L` with the bits `s..l` to set, it
-- needs the pairs of levels above `L - 1` and below `L` summarised, level `L - 1` summarising
-- level `L` as it is, and level `L + 1` summarising level `L` with the range set; then every
-- pair is summarised after it. The induction is on `L`. When no word of the range was zero the
-- recursion stops, and the summary of level `L` by level `L - 1` still holds, as the words of
-- the range stay nonzero.
theorem hb_set_between_summarises {L : Nat} (hL : L ≤ 6) :
    ∀ (levels : Nat → Nat → Word) (s l : Nat), s ≤ l →
      (∀ i, i + 1 < L → Summarises levels i) →
      (L ≠ 0 → Summarises levels (L - 1)) →
      (L < 6 → ∀ n, (L = 0 → n ≠ 63) →
        ((rowBit (levels L) n || (decide (s ≤ n) && decide (n ≤ l))) = true ↔
          levels (L + 1) n ≠ 0)) →
      (∀ i, L < i → i < 6 → Summarises levels i) →
      ∀ i, i < 6 → Summarises (hb_set_between levels L s l) i := by
  induction L with
  | zero =>
    intro levels s l hsl _ _ hpost hbelow i hi
    rw [hb_set_between_zero]
    rcases Nat.eq_zero_or_pos i with rfl | hipos
    · intro n hn
      rw [Function.update_self, Function.update_of_ne (by decide), hb_set_row_rowBit _ hsl]
      exact hpost (by decide) n hn
    · exact (hbelow i hipos hi).update (by omega) (by omega) _
  | succ k ih =>
    intro levels s l hsl habove hprev hpost hbelow i hi
    have hprev' : Summarises levels k := hprev (by omega)
    rcases hr : hb_set_row (levels (k + 1)) s l with ⟨row', changed⟩
    have hbits : ∀ n, rowBit row' n = (rowBit (levels (k + 1)) n ||
        (decide (s ≤ n) && decide (n ≤ l))) := by
      intro n
      rw [← hb_set_row_rowBit _ hsl, hr]
    have hin : ∀ p, s / 64 ≤ p → p ≤ l / 64 → row' p ≠ 0 := by
      intro p hp1 hp2
      have := hb_set_row_ne_zero (levels (k + 1)) hsl hp1 hp2
      rwa [hr] at this
    have hout : ∀ p, (p < s / 64 ∨ l / 64 < p) → row' p = levels (k + 1) p := by
      intro p hp
      have := hb_set_row_of_out (levels (k + 1)) hsl hp
      rwa [hr] at this
    -- the pairs other than `(k, k + 1)` hold with the new row of level `k + 1`
    have hrest : ∀ i, i < 6 → i ≠ k → Summarises (Function.update levels (k + 1) row') i := by
      intro i hi hik
      rcases Nat.lt_or_ge i (k + 1) with hlt | hge
      · exact (habove i (by omega)).update (by omega) (by omega) _
      · rcases Nat.eq_or_lt_of_le hge with heq | hgt
        · subst heq
          intro n hn
          rw [Function.update_self, Function.update_of_ne (by omega), hbits]
          exact hpost hi n (by omega)
        · exact (hbelow i hgt hi).update (by omega) (by omega) _
    rw [hb_set_between_succ, hr]
    cases changed with
    | true =>
      -- go on one level up with the words of the range
      rw [if_pos rfl]
      refine ih (by omega) _ (s / 64) (l / 64) (Nat.div_le_div_right hsl)
        (fun j hj => hrest j (by omega) (by omega))
        (fun hk => hrest (k - 1) (by omega) (by omega)) (fun _ n hn => ?_)
        (fun j hj hj6 => hrest j hj6 (by omega)) i hi
      rw [Function.update_of_ne (by omega), Function.update_self]
      by_cases hrange : s / 64 ≤ n ∧ n ≤ l / 64
      · have hr1 : (decide (s / 64 ≤ n) && decide (n ≤ l / 64)) = true := by
          simp [hrange.1, hrange.2]
        rw [hr1, Bool.or_true]
        exact ⟨fun _ => hin n hrange.1 hrange.2, fun _ => rfl⟩
      · have : (decide (s / 64 ≤ n) && decide (n ≤ l / 64)) = false := by
          simp only [Bool.and_eq_false_iff, decide_eq_false_iff_not]
          omega
        rw [this, Bool.or_false, hout n (by omega)]
        exact hprev' n hn
    | false =>
      -- every word of the range was nonzero, so level `k` still summarises level `k + 1`
      rw [if_neg Bool.false_ne_true]
      dsimp only
      have hnz : ∀ p, s / 64 ≤ p → p ≤ l / 64 → levels (k + 1) p ≠ 0 := by
        intro p hp1 hp2 hz
        have := (hb_set_row_changed (levels (k + 1)) hsl).mpr ⟨p, hp1, hp2, hz⟩
        rw [hr] at this
        exact Bool.false_ne_true this
      by_cases hik : i = k
      · subst hik
        intro n hn
        rw [Function.update_of_ne (by omega), Function.update_self, hprev' n hn]
        by_cases hrange : s / 64 ≤ n ∧ n ≤ l / 64
        · exact ⟨fun _ => hin n hrange.1 hrange.2, fun _ => hnz n hrange.1 hrange.2⟩
        · rw [hout n (by omega)]
      · exact hrest i hi hik

end SetBetween

/-! ### hb_reset_between -/

section ResetBetween

theorem hb_reset_between_zero (levels : Nat → Nat → Word) (s l : Nat) :
    hb_reset_between levels 0 s l = Function.update levels 0 (hb_reset_row (levels 0) s l).1 := by
  rw [hb_reset_between]

theorem hb_reset_between_succ (levels : Nat → Nat → Word) (k s l : Nat) :
    hb_reset_between levels (k + 1) s l =
      if (hb_reset_row (levels (k + 1)) s l).2.2.2 then
        hb_reset_between (Function.update levels (k + 1) (hb_reset_row (levels (k + 1)) s l).1) k
          (hb_reset_row (levels (k + 1)) s l).2.1 (hb_reset_row (levels (k + 1)) s l).2.2.1
      else Function.update levels (k + 1) (hb_reset_row (levels (k + 1)) s l).1 := by
  rw [hb_reset_between]

-- hb_reset_between leaves the levels below the one it starts at as they are.
theorem hb_reset_between_of_lt (L : Nat) :
    ∀ (levels : Nat → Nat → Word) (s l i : Nat), L < i →
      hb_reset_between levels L s l i = levels i := by
  induction L with
  | zero =>
    intro levels s l i hi
    rw [hb_reset_between_zero]
    exact Function.update_of_ne (by omega) _ _
  | succ k ih =>
    intro levels s l i hi
    rcases hr : hb_reset_row (levels (k + 1)) s l with ⟨row', pos, lastpos, changed⟩
    rw [hb_reset_between_succ, hr]
    cases changed with
    | true => rw [if_pos rfl, ih _ _ _ _ (by omega), Function.update_of_ne (by omega)]
    | false => exact Function.update_of_ne (by omega) _ _

-- The level hb_reset_between starts at ends up with the row work done on it.
theorem hb_reset_between_self (levels : Nat → Nat → Word) (L s l : Nat) :
    hb_reset_between levels L s l L = (hb_reset_row (levels L) s l).1 := by
  rcases hr : hb_reset_row (levels L) s l with ⟨row', pos, lastpos, changed⟩
  cases L with
  | zero =>
    rw [hb_reset_between_zero, hr]
    exact Function.update_self _ _ _
  | succ k =>
    rw [hb_reset_between_succ, hr]
    cases changed with
    | true => rw [if_pos rfl, hb_reset_between_of_lt k _ _ _ _ (by omega), Function.update_self]
    | false => exact Function.update_self _ _ _

-- The ranges hb_reset_between walks up with stay below bit 63 of level 0: started at level `L`
-- below `32 * 64 ^ L`, as the last level of a bitmap of at most `2 ^ 41` bits is, it keeps the
-- sentinel.
theorem hb_reset_between_sentinel (L : Nat) :
    ∀ (levels : Nat → Nat → Word) (s l : Nat), s ≤ l → l < 32 * 64 ^ L →
      rowBit (levels 0) 63 = true → rowBit (hb_reset_between levels L s l 0) 63 = true := by
  induction L with
  | zero =>
    intro levels s l hsl hl h63
    rw [hb_reset_between_zero, Function.update_self, hb_reset_row_rowBit _ hsl, h63]
    simp only [Nat.pow_zero, Nat.mul_one] at hl
    simp [show ¬ 63 ≤ l by omega]
  | succ k ih =>
    intro levels s l hsl hl h63
    rcases hr : hb_reset_row (levels (k + 1)) s l with ⟨row', pos, lastpos, changed⟩
    rw [hb_reset_between_succ, hr]
    cases changed with
    | true =>
      obtain ⟨-, hpl, hll, -⟩ := (hb_reset_row_range (levels (k + 1)) hsl hr).1 rfl
      have hl' : l / 64 < 32 * 64 ^ k := by
        rw [Nat.div_lt_iff_lt_mul (by decide), Nat.mul_assoc, ← Nat.pow_succ]
        exact hl
      refine ih _ pos lastpos hpl (by omega) ?_
      rwa [Function.update_of_ne (by omega)]
    | false =>
      dsimp only
      rwa [if_neg Bool.false_ne_true, Function.update_of_ne (by omega)]

-- The summaries hb_reset_between leaves, under the same conditions as for hb_set_between with
-- the range cleared. A word that still holds a bit after the clearing is left out of the range
-- the level above clears; when no word became zero the recursion stops, and the summary of
-- level `L` by level `L - 1` still holds.
theorem hb_reset_between_summarises {L : Nat} (hL : L ≤ 6) :
    ∀ (levels : Nat → Nat → Word) (s l : Nat), s ≤ l →
      (∀ i, i + 1 < L → Summarises levels i) →
      (L ≠ 0 → Summarises levels (L - 1)) →
      (L < 6 → ∀ n, (L = 0 → n ≠ 63) →
        ((rowBit (levels L) n && !(decide (s ≤ n) && decide (n ≤ l))) = true ↔
          levels (L + 1) n ≠ 0)) →
      (∀ i, L < i → i < 6 → Summarises levels i) →
      ∀ i, i < 6 → Summarises (hb_reset_between levels L s l) i := by
  induction L with
  | zero =>
    intro levels s l hsl _ _ hpost hbelow i hi
    rw [hb_reset_between_zero]
    rcases Nat.eq_zero_or_pos i with rfl | hipos
    · intro n hn
      rw [Function.update_self, Function.update_of_ne (by decide), hb_reset_row_rowBit _ hsl]
      exact hpost (by decide) n hn
    · exact (hbelow i hipos hi).update (by omega) (by omega) _
  | succ k ih =>
    intro levels s l hsl habove hprev hpost hbelow i hi
    have hprev' : Summarises levels k := hprev (by omega)
    rcases hr : hb_reset_row (levels (k + 1)) s l with ⟨row', pos, lastpos, changed⟩
    have hbits : ∀ n, rowBit row' n = (rowBit (levels (k + 1)) n &&
        !(decide (s ≤ n) && decide (n ≤ l))) := by
      intro n
      rw [← hb_reset_row_rowBit _ hsl, hr]
    obtain ⟨hcleared, hkept⟩ := hb_reset_row_range (levels (k + 1)) hsl hr
    -- a word keeps being zero or nonzero unless it lies in the range cleared above
    have hsame : ∀ p, (changed = true → p < pos ∨ lastpos < p) →
        (row' p = 0 ↔ levels (k + 1) p = 0) := by
      intro p hp
      by_cases hrange : s / 64 ≤ p ∧ p ≤ l / 64
      · exact hkept p hrange.1 hrange.2 hp
      · have := hb_reset_row_of_out (levels (k + 1)) hsl (p := p) (by omega)
        rw [hr] at this
        dsimp only at this
        rw [this]
    have hrest : ∀ i, i < 6 → i ≠ k → Summarises (Function.update levels (k + 1) row') i := by
      intro i hi hik
      rcases Nat.lt_or_ge i (k + 1) with hlt | hge
      · exact (habove i (by omega)).update (by omega) (by omega) _
      · rcases Nat.eq_or_lt_of_le hge with heq | hgt
        · subst heq
          intro n hn
          rw [Function.update_self, Function.update_of_ne (by omega), hbits]
          exact hpost hi n (by omega)
        · exact (hbelow i hgt hi).update (by omega) (by omega) _
    rw [hb_reset_between_succ, hr]
    cases changed with
    | true =>
      -- go on one level up with the words that became zero
      rw [if_pos rfl]
      obtain ⟨-, hpl, -, hzero⟩ := hcleared rfl
      refine ih (by omega) _ pos lastpos hpl
        (fun j hj => hrest j (by omega) (by omega))
        (fun hk => hrest (k - 1) (by omega) (by omega)) (fun _ n hn => ?_)
        (fun j hj hj6 => hrest j hj6 (by omega)) i hi
      rw [Function.update_of_ne (by omega), Function.update_self]
      by_cases hrange : pos ≤ n ∧ n ≤ lastpos
      · have hr1 : (decide (pos ≤ n) && decide (n ≤ lastpos)) = true := by
          simp [hrange.1, hrange.2]
        rw [hr1, Bool.not_true, Bool.and_false]
        exact ⟨fun h => absurd h Bool.false_ne_true, fun h => absurd (hzero n hrange.1 hrange.2) h⟩
      · have hr0 : (decide (pos ≤ n) && decide (n ≤ lastpos)) = false := by
          simp only [Bool.and_eq_false_iff, decide_eq_false_iff_not]
          omega
        rw [hr0, Bool.not_false, Bool.and_true, hprev' n hn, Ne, Ne, hsame n (fun _ => by omega)]
    | false =>
      -- no word became zero, so level `k` still summarises level `k + 1`
      rw [if_neg Bool.false_ne_true]
      dsimp only
      by_cases hik : i = k
      · subst hik
        intro n hn
        rw [Function.update_of_ne (by omega), Function.update_self, hprev' n hn, Ne, Ne,
          hsame n (fun h => absurd h Bool.false_ne_true)]
      · exact hrest i hi hik

end ResetBetween

/-! ### The operations keep `Wf` -/

section Operations

variable {hb : HBitmap}

theorem Wf.summarises (h : Wf hb) {i : Nat} (hi : i < 6) : Summarises hb.levels i :=
  h.summary i hi

-- `start >> g .. last >> g` is a range when `start .. last` is.
theorem shiftRight_le_shiftRight {a b : Nat} (hab : a ≤ b) (g : Nat) : a >>> g ≤ b >>> g := by
  rw [Nat.shiftRight_eq_div_pow, Nat.shiftRight_eq_div_pow]
  exact Nat.div_le_div_right hab

-- A bitmap whose levels are those hb_set_between leaves for the chunks `s..l`, with the count
-- grown by the chunks of `s..l` that were not set, keeps the invariant.
theorem Wf.set_between (h : Wf hb) {s l : Nat} (hsl : s ≤ l) (hl : l < hb.size) (hb' : HBitmap)
    (hsize : hb'.size = hb.size) (hg : hb'.granularity = hb.granularity)
    (hlevels : hb'.levels = hb_set_between hb.levels 6 s l)
    (hcount : hb'.count = hb.count + (l - s + 1 - (List.range' s (l + 1 - s)).countP (hb.bit 6))) :
    Wf hb' ∧ ∀ n, hb'.bit 6 n = (hb.bit 6 n || (decide (s ≤ n) && decide (n ≤ l))) := by
  have hbits : ∀ n, hb'.bit 6 n = (hb.bit 6 n || (decide (s ≤ n) && decide (n ≤ l))) := by
    intro n
    rw [HBitmap.bit, hlevels, hb_set_between_self, hb_set_row_rowBit _ hsl, HBitmap.bit]
  have hsumm := hb_set_between_summarises (le_refl 6) hb.levels s l hsl
    (fun i hi => h.summarises (by omega)) (fun _ => h.summarises (by decide))
    (fun h6 => absurd h6 (by decide)) (fun i hi hi6 => absurd hi6 (by omega))
  -- the count grows by the chunks of the run that were not set
  have hle : (List.range' s (l + 1 - s)).countP (hb.bit 6) ≤ l + 1 - s :=
    List.countP_le_length.trans List.length_range'.le
  have hcnt := countP_range'_or (hb.bit 6) (Nat.zero_le s) hsl hl
  rw [Nat.sub_zero, ← List.range_eq_range', ← h.count_eq] at hcnt
  have hnew : (List.range hb'.size).countP (hb'.bit 6) = (List.range hb.size).countP
      (fun x => hb.bit 6 x || (decide (s ≤ x) && decide (x ≤ l))) := by
    rw [hsize]
    exact List.countP_congr fun x _ => by rw [hbits]
  refine ⟨⟨hg ▸ h.granularity_lt, hsize ▸ h.size_le, fun i hi n hn => ?_, ?_, fun x hx => ?_, ?_⟩,
    hbits⟩
  · rw [HBitmap.bit, hlevels]
    exact hsumm i hi n hn
  · rw [HBitmap.bit, hlevels]
    exact hb_set_between_mono 6 hb.levels s l hsl 0 63 h.sentinel
  · -- a set chunk was set before or lies in the run
    rw [hbits] at hx
    rcases Bool.or_eq_true _ _ ▸ hx with hx | hx
    · exact hsize ▸ h.last_lt x hx
    · simp only [Bool.and_eq_true, decide_eq_true_eq] at hx
      omega
  · rw [hnew, hcount]
    omega

-- hbitmap_set of a nonempty run of items whose last chunk is in the bitmap keeps the invariant
-- and sets the chunks of the run.
theorem hbitmap_set_wf (h : Wf hb) {start count : Nat} (hcount : 0 < count)
    (hlast : (start + count - 1) >>> hb.granularity < hb.size) :
    ∃ hb', hbitmap_set hb start count = some hb' ∧ Wf hb' ∧ hb'.size = hb.size ∧
      hb'.granularity = hb.granularity ∧
      ∀ n, hb'.bit 6 n = (hb.bit 6 n || (decide (start >>> hb.granularity ≤ n) &&
        decide (n ≤ (start + count - 1) >>> hb.granularity))) := by
  have hsl : start >>> hb.granularity ≤ (start + count - 1) >>> hb.granularity :=
    shiftRight_le_shiftRight (by omega) _
  simp only [hbitmap_set, hb_count_between_spec h hsl hlast, Option.bind_eq_bind,
    Option.bind_some, HBITMAP_LEVELS_eq, Nat.reduceSub]
  obtain ⟨hwf, hbits⟩ := h.set_between hsl hlast { hb with
    count := hb.count + ((start + count - 1) >>> hb.granularity - start >>> hb.granularity + 1 -
      (List.range' (start >>> hb.granularity) ((start + count - 1) >>> hb.granularity + 1 -
        start >>> hb.granularity)).countP (hb.bit 6)),
    levels := hb_set_between hb.levels 6 (start >>> hb.granularity)
      ((start + count - 1) >>> hb.granularity) } rfl rfl rfl rfl
  exact ⟨_, rfl, hwf, rfl, rfl, hbits⟩

-- A bitmap whose levels are those hb_reset_between leaves for the chunks `s..l`, with the count
-- less the chunks of `s..l` that were set, keeps the invariant.
theorem Wf.reset_between (h : Wf hb) {s l : Nat} (hsl : s ≤ l) (hl : l < hb.size)
    (hb' : HBitmap) (hsize : hb'.size = hb.size) (hg : hb'.granularity = hb.granularity)
    (hlevels : hb'.levels = hb_reset_between hb.levels 6 s l)
    (hcount : hb'.count = hb.count - (List.range' s (l + 1 - s)).countP (hb.bit 6)) :
    Wf hb' ∧ ∀ n, hb'.bit 6 n = (hb.bit 6 n && !(decide (s ≤ n) && decide (n ≤ l))) := by
  have hbits : ∀ n, hb'.bit 6 n = (hb.bit 6 n && !(decide (s ≤ n) && decide (n ≤ l))) := by
    intro n
    rw [HBitmap.bit, hlevels, hb_reset_between_self, hb_reset_row_rowBit _ hsl, HBitmap.bit]
  have hsumm := hb_reset_between_summarises (le_refl 6) hb.levels s l hsl
    (fun i hi => h.summarises (by omega)) (fun _ => h.summarises (by decide))
    (fun h6 => absurd h6 (by decide)) (fun i hi hi6 => absurd hi6 (by omega))
  -- the last level of a bitmap of at most `2 ^ 41` chunks stays below the sentinel's range
  have hl41 : l < 32 * 64 ^ 6 := by
    have h41 : (32 * 64 ^ 6 : Nat) = 2 ^ 41 := rfl
    have := h.size_le
    rw [HBITMAP_LOG_MAX_SIZE_eq] at this
    omega
  -- the count loses the chunks of the run that were set
  have hcnt := countP_range'_and_not (hb.bit 6) (Nat.zero_le s) hsl hl
  rw [Nat.sub_zero, ← List.range_eq_range', ← h.count_eq] at hcnt
  have hnew : (List.range hb'.size).countP (hb'.bit 6) = (List.range hb.size).countP
      (fun x => hb.bit 6 x && !(decide (s ≤ x) && decide (x ≤ l))) := by
    rw [hsize]
    exact List.countP_congr fun x _ => by rw [hbits]
  refine ⟨⟨hg ▸ h.granularity_lt, hsize ▸ h.size_le, fun i hi n hn => ?_, ?_, fun x hx => ?_, ?_⟩,
    hbits⟩
  · rw [HBitmap.bit, hlevels]
    exact hsumm i hi n hn
  · rw [HBitmap.bit, hlevels]
    exact hb_reset_between_sentinel 6 hb.levels s l hsl hl41 h.sentinel
  · rw [hbits] at hx
    exact hsize ▸ h.last_lt x (Bool.and_eq_true _ _ ▸ hx).1
  · rw [hnew, hcount]
    omega

-- hbitmap_reset of a nonempty run of items whose last chunk is in the bitmap keeps the
-- invariant and clears the chunks of the run.
theorem hbitmap_reset_wf (h : Wf hb) {start count : Nat} (hcount : 0 < count)
    (hlast : (start + count - 1) >>> hb.granularity < hb.size) :
    ∃ hb', hbitmap_reset hb start count = some hb' ∧ Wf hb' ∧ hb'.size = hb.size ∧
      hb'.granularity = hb.granularity ∧
      ∀ n, hb'.bit 6 n = (hb.bit 6 n && !(decide (start >>> hb.granularity ≤ n) &&
        decide (n ≤ (start + count - 1) >>> hb.granularity))) := by
  have hsl : start >>> hb.granularity ≤ (start + count - 1) >>> hb.granularity :=
    shiftRight_le_shiftRight (by omega) _
  simp only [hbitmap_reset, hb_count_between_spec h hsl hlast, Option.bind_eq_bind,
    Option.bind_some, HBITMAP_LEVELS_eq, Nat.reduceSub]
  obtain ⟨hwf, hbits⟩ := h.reset_between hsl hlast { hb with
    count := hb.count - (List.range' (start >>> hb.granularity)
      ((start + count - 1) >>> hb.granularity + 1 - start >>> hb.granularity)).countP (hb.bit 6),
    levels := hb_reset_between hb.levels 6 (start >>> hb.granularity)
      ((start + count - 1) >>> hb.granularity) } rfl rfl rfl rfl
  exact ⟨_, rfl, hwf, rfl, rfl, hbits⟩

-- hbitmap_get reads the bit of the item's chunk in the last level.
theorem hbitmap_get_eq (hb : HBitmap) (item : Nat) :
    hbitmap_get hb item = hb.bit 6 (item >>> hb.granularity) := by
  simp only [hbitmap_get, HBITMAP_LEVELS_eq, Nat.reduceSub, shiftRight_level, and_long]
  rw [HBitmap.bit, rowBit, Bool.eq_iff_iff, bne_iff_ne,
    and_shiftLeft_ne_zero_iff _ (Nat.mod_lt _ (by decide))]

-- The loop of hbitmap_alloc ends with one word at level 0 whenever the last level has at most
-- `64 ^ (k + 1)` bits, `k + 1` levels down.
theorem levelSize_eq_one (k : Nat) : ∀ size, size ≤ 64 ^ (k + 1) → levelSize (k + 1) size = 1 := by
  induction k with
  | zero =>
    intro size hs
    simp only [levelSize, BITS_PER_LONG_eq, shiftRight_level]
    omega
  | succ k ih =>
    intro size hs
    rw [levelSize]
    apply ih
    simp only [BITS_PER_LONG_eq, shiftRight_level]
    have hp : 64 ^ (k + 1 + 1) = 64 ^ (k + 1) * 64 := Nat.pow_succ 64 (k + 1)
    have hpos : 1 ≤ 64 ^ (k + 1) := Nat.one_le_pow _ _ (by decide)
    omega

-- hbitmap_alloc within its first two asserts passes the third, and gives an empty bitmap that
-- keeps the invariant.
theorem hbitmap_alloc_wf {size g : Nat} (hg : g < 64)
    (hsize : ((size + (1 <<< g) - 1) % 2 ^ 64) >>> g ≤ 2 ^ 41) :
    ∃ hb, hbitmap_alloc size g = some hb ∧ Wf hb ∧
      hb.size = ((size + (1 <<< g) - 1) % 2 ^ 64) >>> g ∧ hb.granularity = g ∧
      ∀ n, hb.bit 6 n = false := by
  have hone : levelSize HBITMAP_LEVELS (((size + (1 <<< g) - 1) % 2 ^ 64) >>> g) = 1 :=
    levelSize_eq_one 6 _ (Nat.le_trans hsize (by decide))
  have hmax : ((size + (1 <<< g) - 1) % 2 ^ 64) >>> g ≤ 1 <<< HBITMAP_LOG_MAX_SIZE := by
    have h41 : (1 <<< HBITMAP_LOG_MAX_SIZE : Nat) = 2 ^ 41 := rfl
    rw [h41]
    exact hsize
  simp only [hbitmap_alloc, if_pos hg, if_pos hmax, if_pos hone]
  -- every word is zero but the sentinel's
  have hbit : ∀ i n, rowBit (fun pos => if i = 0 ∧ pos = 0 then (1 : Word) <<< (BITS_PER_LONG - 1)
      else 0) n = decide (i = 0 ∧ n = 63) := by
    intro i n
    rw [rowBit]
    by_cases hw : i = 0 ∧ n / 64 = 0
    · rw [if_pos hw, getLsbD_sentinel]
      simp only [hw.1, true_and, decide_eq_decide]
      omega
    · rw [if_neg hw]
      simp
      omega
  refine ⟨_, rfl, ⟨hg, by rw [← Nat.one_shiftLeft]; exact hmax, fun i hi n hn => ?_, ?_,
    fun x hx => ?_, ?_⟩, rfl, rfl, fun n => ?_⟩
  · rw [HBitmap.bit, hbit]
    simp only [Nat.add_one_ne_zero, false_and, if_false, ne_eq, not_true_eq_false, iff_false,
      decide_eq_true_eq]
    omega
  · rw [HBitmap.bit, hbit]
    rfl
  · rw [HBitmap.bit, hbit] at hx
    exact absurd (of_decide_eq_true hx).1 (by decide)
  · rw [List.countP_eq_zero.mpr fun n _ => by
      rw [HBitmap.bit, hbit, decide_eq_true_iff]
      exact fun h => absurd h.1 (by decide)]
  · rw [HBitmap.bit, hbit]
    rfl

-- What hbitmap_alloc's asserts let through.
theorem hbitmap_alloc_cond {size g : Nat} {hb : HBitmap} (halloc : hbitmap_alloc size g = some hb) :
    g < 64 ∧ ((size + (1 <<< g) - 1) % 2 ^ 64) >>> g ≤ 2 ^ 41 := by
  simp only [hbitmap_alloc] at halloc
  split_ifs at halloc with hg hmax
  have h41 : (1 <<< HBITMAP_LOG_MAX_SIZE : Nat) = 2 ^ 41 := rfl
  exact ⟨hg, h41 ▸ hmax⟩

end Operations

/-! ### What a bitmap stands for, and runs of calls -/

section Runs

-- What an hbitmap stands for: its set chunks, the items shifted right by the granularity.
def HBitmap.chunks (hb : HBitmap) : Finset Nat :=
  (Finset.range hb.size).filter (fun n => hb.bit 6 n = true)

theorem Wf.mem_chunks {hb : HBitmap} (h : Wf hb) (n : Nat) :
    n ∈ hb.chunks ↔ hb.bit 6 n = true := by
  rw [HBitmap.chunks, Finset.mem_filter, Finset.mem_range]
  exact ⟨fun hn => hn.2, fun hn => ⟨h.last_lt n hn, hn⟩⟩

theorem Wf.count_eq_card {hb : HBitmap} (h : Wf hb) : hb.count = hb.chunks.card := by
  rw [h.count_eq, HBitmap.chunks, card_filter_range]

-- Under the invariant the set bits of the last level from `t` on are the chunks from `t` on, in
-- increasing order.
theorem Wf.leavesFrom_eq_sort {hb : HBitmap} (h : Wf hb) (t : Nat) :
    leavesFrom hb t = (hb.chunks.filter (t ≤ ·)).sort (· ≤ ·) := by
  have hnodup : (leavesFrom hb t).Nodup := (List.nodup_range' 1).filter _
  have hset : (leavesFrom hb t).toFinset = hb.chunks.filter (t ≤ ·) := by
    ext n
    rw [List.mem_toFinset, leavesFrom, List.mem_filter, List.mem_range'_1, Finset.mem_filter,
      h.mem_chunks]
    constructor
    · rintro ⟨⟨htn, -⟩, hn⟩
      exact ⟨hn, htn⟩
    · rintro ⟨hn, htn⟩
      exact ⟨⟨htn, by have := h.last_lt n hn; omega⟩, hn⟩
  rw [← hset]
  exact ((List.toFinset_sort _ hnodup).mpr
    (((List.pairwise_lt_range' 1).filter _).imp Nat.le_of_lt)).symm

-- A call the users of an hbitmap make on it.
inductive Op where
  | set (start count : Nat)
  | reset (start count : Nat)
  deriving DecidableEq, Repr

def Op.call (hb : HBitmap) : Op → Option HBitmap
  | .set start count => hbitmap_set hb start count
  | .reset start count => hbitmap_reset hb start count

-- The calls made in order on one bitmap.
def runOps (hb : HBitmap) : List Op → Option HBitmap
  | [] => some hb
  | op :: ops => (op.call hb).bind (runOps · ops)

-- The chunks a call on `start, count` covers at granularity `g`.
def span (g start count : Nat) : Finset Nat := Finset.Icc (start >>> g) ((start + count - 1) >>> g)

-- A call on a nonempty run of items whose last chunk lies in a bitmap of `size` chunks.
def Op.InRange (size g : Nat) : Op → Prop
  | .set start count | .reset start count => 0 < count ∧ (start + count - 1) >>> g < size

instance (size g : Nat) : DecidablePred (Op.InRange size g)
  | .set start count => inferInstanceAs (Decidable (0 < count ∧ (start + count - 1) >>> g < size))
  | .reset start count => inferInstanceAs (Decidable (0 < count ∧ (start + count - 1) >>> g < size))

-- The set of chunks after a call, as a shadow array of the chunks tracks it.
def Op.shadow (g : Nat) (S : Finset Nat) : Op → Finset Nat
  | .set start count => S ∪ span g start count
  | .reset start count => S \ span g start count

-- An in-range call on a valid bitmap goes through, keeps the invariant, and leaves the chunks
-- the shadow set has.
theorem Op.call_refines {hb : HBitmap} (h : Wf hb) {op : Op} (hop : op.InRange hb.size hb.granularity) :
    ∃ hb', op.call hb = some hb' ∧ Wf hb' ∧ hb'.size = hb.size ∧
      hb'.granularity = hb.granularity ∧ hb'.chunks = op.shadow hb.granularity hb.chunks := by
  cases op with
  | set start count =>
    obtain ⟨hb', hset, h', hsize, hg, hbits⟩ := hbitmap_set_wf h hop.1 hop.2
    refine ⟨hb', hset, h', hsize, hg, ?_⟩
    ext n
    rw [h'.mem_chunks, hbits, Op.shadow, Finset.mem_union, h.mem_chunks, span, Finset.mem_Icc]
    simp only [Bool.or_eq_true, Bool.and_eq_true, decide_eq_true_eq]
  | reset start count =>
    obtain ⟨hb', hreset, h', hsize, hg, hbits⟩ := hbitmap_reset_wf h hop.1 hop.2
    refine ⟨hb', hreset, h', hsize, hg, ?_⟩
    ext n
    rw [h'.mem_chunks, hbits, Op.shadow, Finset.mem_sdiff, h.mem_chunks, span, Finset.mem_Icc]
    simp only [Bool.and_eq_true, Bool.not_eq_true', Bool.and_eq_false_iff, decide_eq_false_iff_not,
      not_and_or]

-- Every run of in-range calls from a valid bitmap goes through, keeps the invariant, and leaves
-- the chunks the shadow set has. The induction is on the calls, one step lemma each.
theorem runOps_refines : ∀ (ops : List Op) {hb : HBitmap}, Wf hb →
    (∀ op ∈ ops, op.InRange hb.size hb.granularity) →
    ∃ hb', runOps hb ops = some hb' ∧ Wf hb' ∧ hb'.size = hb.size ∧
      hb'.granularity = hb.granularity ∧
      hb'.chunks = ops.foldl (Op.shadow hb.granularity) hb.chunks
  | [], hb, h, _ => ⟨hb, rfl, h, rfl, rfl, rfl⟩
  | op :: ops, hb, h, hops => by
    obtain ⟨hb1, hcall, h1, hsize1, hg1, hchunks1⟩ := Op.call_refines h (hops op List.mem_cons_self)
    have hops' : ∀ op ∈ ops, op.InRange hb1.size hb1.granularity := by
      intro op' hop'
      rw [hsize1, hg1]
      exact hops op' (List.mem_cons_of_mem _ hop')
    obtain ⟨hb', hrun, h', hsize', hg', hchunks'⟩ := runOps_refines ops h1 hops'
    refine ⟨hb', by rw [runOps, hcall, Option.bind_some, hrun], h', hsize'.trans hsize1,
      hg'.trans hg1, ?_⟩
    rw [hchunks', hchunks1, hg1, List.foldl_cons]

-- hbitmap_alloc gives a valid bitmap with no chunk set.
theorem hbitmap_alloc_spec {size g : Nat} {hb : HBitmap} (halloc : hbitmap_alloc size g = some hb) :
    Wf hb ∧ hb.granularity = g ∧ hb.chunks = ∅ := by
  obtain ⟨hg, hsize⟩ := hbitmap_alloc_cond halloc
  obtain ⟨hb0, halloc0, h0, -, hg0, hbits⟩ := hbitmap_alloc_wf hg hsize
  obtain rfl : hb = hb0 := Option.some.inj (halloc.symm.trans halloc0)
  refine ⟨h0, hg0, ?_⟩
  ext n
  rw [h0.mem_chunks, hbits]
  simp

end Runs

/-! ### Runs from hbitmap_alloc -/

section FromAlloc

variable {size g : Nat} {hb : HBitmap}

-- After hbitmap_alloc and any run of in-range hbitmap_set and hbitmap_reset calls, hbitmap_get
-- at an item of the bitmap says whether the item's chunk is in the shadow set, hbitmap_count
-- gives the size of that set shifted by the granularity, and hbitmap_empty whether it is empty.
theorem hbitmap_run_get_count (halloc : hbitmap_alloc size g = some hb) (ops : List Op)
    (hops : ∀ op ∈ ops, op.InRange hb.size g) :
    ∃ hb', runOps hb ops = some hb' ∧
      (∀ item, item >>> g < hb.size →
        hbitmap_get hb' item = decide (item >>> g ∈ ops.foldl (Op.shadow g) ∅)) ∧
      hbitmap_count hb' = ((ops.foldl (Op.shadow g) ∅).card <<< g) % 2 ^ 64 ∧
      hbitmap_empty hb' = decide (ops.foldl (Op.shadow g) ∅ = ∅) := by
  obtain ⟨h0, hg0, hempty⟩ := hbitmap_alloc_spec halloc
  obtain ⟨hb', hrun, h', -, hg', hchunks⟩ := runOps_refines ops h0 (hg0 ▸ hops)
  rw [hg0, hempty] at hchunks
  rw [hg0] at hg'
  refine ⟨hb', hrun, fun item _ => ?_, ?_, ?_⟩
  · rw [hbitmap_get_eq, hg', ← hchunks, Bool.eq_iff_iff, decide_eq_true_iff, h'.mem_chunks]
  · rw [hbitmap_count, h'.count_eq_card, hchunks, hg']
  · rw [hbitmap_empty, h'.count_eq_card, hchunks, Bool.eq_iff_iff, beq_iff_eq, decide_eq_true_iff,
      Finset.card_eq_zero]

theorem hbitmap_run_get_count_four :
    ∃ hb', runOps ⟨4, 0, 0, fun i pos => if i = 0 ∧ pos = 0 then (1 : Word) <<< (BITS_PER_LONG - 1)
        else 0⟩ [.set 0 3, .reset 1 1] = some hb' ∧
      (∀ item, item >>> 0 < 4 → hbitmap_get hb' item =
        decide (item >>> 0 ∈ [Op.set 0 3, .reset 1 1].foldl (Op.shadow 0) ∅)) ∧
      hbitmap_count hb' = (([Op.set 0 3, .reset 1 1].foldl (Op.shadow 0) ∅).card <<< 0) % 2 ^ 64 ∧
      hbitmap_empty hb' = decide ([Op.set 0 3, .reset 1 1].foldl (Op.shadow 0) ∅ = ∅) :=
  @hbitmap_run_get_count 4 0 _ rfl _ (by decide)

-- After hbitmap_alloc and any run of in-range calls, every level summarises the one below, the
-- sentinel is set, and the count field is the number of set chunks.
theorem hbitmap_run_wf (halloc : hbitmap_alloc size g = some hb) (ops : List Op)
    (hops : ∀ op ∈ ops, op.InRange hb.size g) :
    ∃ hb', runOps hb ops = some hb' ∧ Wf hb' := by
  obtain ⟨h0, hg0, -⟩ := hbitmap_alloc_spec halloc
  obtain ⟨hb', hrun, h', -⟩ := runOps_refines ops h0 (hg0 ▸ hops)
  exact ⟨hb', hrun, h'⟩

theorem hbitmap_run_wf_four :
    ∃ hb', runOps ⟨4, 0, 0, fun i pos => if i = 0 ∧ pos = 0 then (1 : Word) <<< (BITS_PER_LONG - 1)
        else 0⟩ [.set 0 3, .reset 1 1] = some hb' ∧ Wf hb' :=
  @hbitmap_run_wf 4 0 _ rfl _ (by decide)

-- After hbitmap_alloc and any run of in-range calls, hbitmap_iter_init at an item of the bitmap
-- and then hbitmap_iter_next, called again and again, return the chunks of the shadow set from
-- the item's chunk on, in increasing order and shifted by the granularity, each once, and then
-- `-1` at every later call. A bitmap whose size shifted by the granularity is at most 2^63 has
-- every such item in the range of the int64_t that hbitmap_iter_next returns.
theorem hbitmap_run_iter (halloc : hbitmap_alloc size g = some hb) (ops : List Op)
    (hops : ∀ op ∈ ops, op.InRange hb.size g) (hbig : hb.size <<< g ≤ 2 ^ 63) {first : Nat}
    (hfirst : first >>> g < hb.size) :
    ∃ hb', runOps hb ops = some hb' ∧
      (∀ x ∈ ops.foldl (Op.shadow g) ∅, CInt.Fits 64 ((x <<< g : Nat) : Int)) ∧
      ∃ hbi, hbitmap_iter_init hb' first = some hbi ∧ ∀ k,
      iterNextN ((((ops.foldl (Op.shadow g) ∅).filter (first >>> g ≤ ·)).sort (· ≤ ·)).length + k)
        hbi = some ((((ops.foldl (Op.shadow g) ∅).filter (first >>> g ≤ ·)).sort (· ≤ ·)).map
          (fun x => ((x <<< g : Nat) : Int)) ++ List.replicate k (-1)) := by
  obtain ⟨h0, hg0, hempty⟩ := hbitmap_alloc_spec halloc
  obtain ⟨hb', hrun, h', hsize', hg', hchunks⟩ := runOps_refines ops h0 (hg0 ▸ hops)
  rw [hg0, hempty] at hchunks
  rw [hg0] at hg'
  have hfirst' : first >>> hb'.granularity < hb'.size := by rw [hg', hsize']; exact hfirst
  obtain ⟨hbi, hinit, hit⟩ := hbitmap_iter_init_spec h' hfirst'
  refine ⟨hb', hrun, fun x hx => ?_, hbi, hinit, fun k => ?_⟩
  · -- a chunk of the shadow set is a chunk of the bitmap, so below its size
    have hx : x < hb.size := by
      rw [← hchunks, HBitmap.chunks, Finset.mem_filter, Finset.mem_range] at hx
      exact hsize' ▸ hx.1
    rw [CInt.fits_natCast_iff]
    calc x <<< g < hb.size <<< g := by
          rw [Nat.shiftLeft_eq, Nat.shiftLeft_eq]
          exact Nat.mul_lt_mul_of_pos_right hx (Nat.two_pow_pos g)
      _ ≤ 2 ^ 63 := hbig
  have hnext := iterNextN_leavesFrom h' k _ hbi _ rfl hit
  rwa [h'.leavesFrom_eq_sort, hchunks, hg'] at hnext

theorem hbitmap_run_iter_four :
    ∃ hb', runOps ⟨4, 0, 0, fun i pos => if i = 0 ∧ pos = 0 then (1 : Word) <<< (BITS_PER_LONG - 1)
        else 0⟩ [.set 0 3, .reset 1 1] = some hb' ∧
      (∀ x ∈ [Op.set 0 3, .reset 1 1].foldl (Op.shadow 0) ∅, CInt.Fits 64 ((x <<< 0 : Nat) : Int)) ∧
      ∃ hbi, hbitmap_iter_init hb' 1 = some hbi ∧ ∀ k,
      iterNextN (((([Op.set 0 3, .reset 1 1].foldl (Op.shadow 0) ∅).filter (1 >>> 0 ≤ ·)).sort
        (· ≤ ·)).length + k) hbi = some (((([Op.set 0 3, .reset 1 1].foldl (Op.shadow 0) ∅).filter
          (1 >>> 0 ≤ ·)).sort (· ≤ ·)).map (fun x => ((x <<< 0 : Nat) : Int)) ++
            List.replicate k (-1)) :=
  @hbitmap_run_iter 4 0 _ rfl _ (by decide) (by decide) _ (by decide)

-- After hbitmap_alloc and any run of in-range calls, hb_count_between counts the chunks of the
-- shadow set in `start..last`.
theorem hb_count_between_run (halloc : hbitmap_alloc size g = some hb) (ops : List Op)
    (hops : ∀ op ∈ ops, op.InRange hb.size g) {start last : Nat} (hsl : start ≤ last)
    (hlast : last < hb.size) :
    ∃ hb', runOps hb ops = some hb' ∧ hb_count_between hb' start last =
      some ((ops.foldl (Op.shadow g) ∅).filter (fun n => start ≤ n ∧ n ≤ last)).card := by
  obtain ⟨h0, hg0, hempty⟩ := hbitmap_alloc_spec halloc
  obtain ⟨hb', hrun, h', hsize', -, hchunks⟩ := runOps_refines ops h0 (hg0 ▸ hops)
  rw [hg0, hempty] at hchunks
  refine ⟨hb', hrun, ?_⟩
  rw [hb_count_between_spec h' hsl (hsize' ▸ hlast), ← hchunks, ← card_filter_Ico]
  congr 2
  ext n
  rw [Finset.mem_filter, Finset.mem_filter, h'.mem_chunks, Finset.mem_Ico]
  constructor
  · rintro ⟨⟨h1, h2⟩, hn⟩
    exact ⟨hn, h1, by omega⟩
  · rintro ⟨hn, h1, h2⟩
    exact ⟨⟨h1, by omega⟩, hn⟩

theorem hb_count_between_run_four :
    ∃ hb', runOps ⟨4, 0, 0, fun i pos => if i = 0 ∧ pos = 0 then (1 : Word) <<< (BITS_PER_LONG - 1)
        else 0⟩ [.set 0 3, .reset 1 1] = some hb' ∧ hb_count_between hb' 1 3 =
      some (([Op.set 0 3, .reset 1 1].foldl (Op.shadow 0) ∅).filter (fun n => 1 ≤ n ∧ n ≤ 3)).card :=
  @hb_count_between_run 4 0 _ rfl _ (by decide) _ _ (by decide) (by decide)

end FromAlloc

-- hbitmap_alloc fails only at its first two asserts: for every size they let through, the
-- loop leaves level 0 one word, so `assert(size == 1)` holds.
theorem hbitmap_alloc_some_iff (size g : Nat) :
    (∃ hb, hbitmap_alloc size g = some hb) ↔
      g < 64 ∧ ((size + (1 <<< g) - 1) % 2 ^ 64) >>> g ≤ 2 ^ 41 := by
  constructor
  · rintro ⟨hb, halloc⟩
    exact hbitmap_alloc_cond halloc
  · rintro ⟨hg, hsize⟩
    obtain ⟨hb, halloc, -⟩ := hbitmap_alloc_wf hg hsize
    exact ⟨hb, halloc⟩

end Qemu.Hbitmap

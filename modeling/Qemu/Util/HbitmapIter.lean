import Qemu.Util.Hbitmap

/-!
The iterator of include/qemu/hbitmap.h (hbitmap_iter_init, hbitmap_iter_skip_words,
hbitmap_iter_next, hbitmap_iter_next_word) and hb_count_between, which is built on it. A valid
iterator at threshold `t` (`IterWf`) holds in `cur[6]` the set bits of word `pos` of the last
level from `t` on, and in `cur[i]`, for a level above, the bits of the word that holds the bit
over `pos`, those after it. From a valid iterator `hbitmap_iter_next` returns the first set bit
of the last level at or after `t` and moves the threshold past it, or returns `-1` when there
is none; `hbitmap_iter_next_word` does the same a word at a time; so a run of calls returns the
set bits in increasing order and then `-1` for ever, and hb_count_between counts the set bits
of its range.
-/

namespace Qemu.Hbitmap

open WordBits

-- `cur[m]` for a level above the last: the bits of the word of level `m` that holds the bit
-- over word `p` of the last level, those after that bit.
def CurAt (hb : HBitmap) (p : Nat) (cur : Nat → Word) (m : Nat) : Prop :=
  ∀ j, j < 64 →
    (cur m).getLsbD j = (hb.bit m (above p m / 64 * 64 + j) && decide (above p m % 64 < j))

-- An iterator over `hb` that has returned every set bit before `t`: `pos` is the word of `t`
-- (or the one before, when `t` starts a word), `cur[6]` holds its set bits from `t` on.
structure IterWf (hb : HBitmap) (hbi : HBitmapIter) (t : Nat) : Prop where
  hb_eq : hbi.hb = hb
  granularity_eq : hbi.granularity = hb.granularity
  pos_lt : hbi.pos < 2 ^ 35
  le_t : hbi.pos * 64 ≤ t
  t_le : t ≤ hbi.pos * 64 + 64
  up : ∀ m, m < 6 → CurAt hb hbi.pos hbi.cur m
  last : ∀ j, j < 64 →
    (hbi.cur 6).getLsbD j = (hb.bit 6 (hbi.pos * 64 + j) && decide (t ≤ hbi.pos * 64 + j))

-- The set bits of the last level from `t` on, in increasing order.
def leavesFrom (hb : HBitmap) (t : Nat) : List Nat := (List.range' t (hb.size - t)).filter (hb.bit 6)

/-! ### hbitmap_iter_init -/

-- The loop of hbitmap_iter_init, run for the levels below `k`, from the bit `pos` of the last
-- level shifted up to level `k - 1`.
theorem iterInitLoop_spec (hb : HBitmap) (pos : Nat) (k : Nat) (hk : k ≤ 7) (cur : Nat → Word) :
    (∀ m, k ≤ m → iterInitLoop hb k (pos / 64 ^ (7 - k)) cur m = cur m) ∧
    (∀ m, m < k → m < 6 → ∀ j, j < 64 →
      (iterInitLoop hb k (pos / 64 ^ (7 - k)) cur m).getLsbD j =
        (hb.bit m (above (pos / 64) m / 64 * 64 + j) && decide (above (pos / 64) m % 64 < j))) ∧
    (6 < k → ∀ j, j < 64 →
      (iterInitLoop hb k (pos / 64 ^ (7 - k)) cur 6).getLsbD j =
        (hb.bit 6 (pos / 64 * 64 + j) && decide (pos % 64 ≤ j))) := by
  induction k generalizing cur with
  | zero =>
    refine ⟨fun m _ => rfl, fun m hm => absurd hm (Nat.not_lt_zero m), fun h => absurd h (by omega)⟩
  | succ k ih =>
    -- one pass of the loop body at level `k`, then the levels below it
    have hpos : pos / 64 ^ (7 - (k + 1)) / 64 = pos / 64 ^ (7 - k) := by
      rw [Nat.div_div_eq_div_mul, ← Nat.pow_succ, show (7 - (k + 1)).succ = 7 - k by omega]
    have hbit : pos / 64 ^ (7 - (k + 1)) = if k = 6 then pos else above (pos / 64) k := by
      split
      · subst_vars
        simp
      · rw [above, Nat.div_div_eq_div_mul, ← Nat.pow_succ', show (5 - k).succ = 7 - (k + 1) by omega]
    simp only [iterInitLoop, and_long, shiftRight_level, hpos]
    obtain ⟨hout, hlow, h6⟩ := ih (by omega) (Function.update cur k
      (if k ≠ HBITMAP_LEVELS - 1 then
        hb.levels k (pos / 64 ^ (7 - k)) &&& ~~~((1 : Word) <<< (pos / 64 ^ (7 - (k + 1)) % 64) - 1) &&&
          ~~~((1 : Word) <<< (pos / 64 ^ (7 - (k + 1)) % 64))
       else hb.levels k (pos / 64 ^ (7 - k)) &&& ~~~((1 : Word) <<< (pos / 64 ^ (7 - (k + 1)) % 64) - 1)))
    have hlevel : hb.levels k (pos / 64 ^ (7 - k)) = hb.levels k ((pos / 64 ^ (7 - (k + 1))) / 64) := by
      rw [hpos]
    refine ⟨fun m hm => ?_, fun m hm hm6 j hj => ?_, fun hk6 j hj => ?_⟩
    · rw [hout m (by omega), Function.update_of_ne (by omega)]
    · rcases Nat.lt_or_ge m k with hmk | hmk
      · exact hlow m hmk hm6 j hj
      · have hmk' : m = k := by omega
        subst hmk'
        rw [hout m (Nat.le_refl _), Function.update_self, if_pos (by simp; omega), hlevel, hbit,
          if_neg (by omega)]
        rw [BitVec.getLsbD_and, BitVec.getLsbD_and, BitVec.getLsbD_not, getLsbD_lowMask
          (Nat.mod_lt _ (by decide)), getLsbD_not_shiftLeft, ← hb.bit_word _ _ hj]
        by_cases hlt : above (pos / 64) m % 64 < j
        · simp [hj, hlt, show ¬ j < above (pos / 64) m % 64 by omega, show j ≠ above (pos / 64) m % 64 by omega]
        · by_cases heq : j = above (pos / 64) m % 64
          · simp [heq]
          · simp [hj, hlt, show j < above (pos / 64) m % 64 by omega]
    · have hk' : k = 6 := by omega
      subst hk'
      rw [hout 6 (Nat.le_refl _), Function.update_self, if_neg (by simp), hlevel, hbit, if_pos rfl]
      rw [BitVec.getLsbD_and, BitVec.getLsbD_not, getLsbD_lowMask (Nat.mod_lt _ (by decide)),
        ← hb.bit_word _ _ hj]
      by_cases hle : pos % 64 ≤ j
      · simp [hj, hle, show ¬ j < pos % 64 by omega]
      · simp [hj, hle, show j < pos % 64 by omega]

-- hbitmap_iter_init at a bit inside the bitmap gives an iterator at that bit.
theorem hbitmap_iter_init_spec {hb : HBitmap} (h : Wf hb) {first : Nat}
    (hfirst : first >>> hb.granularity < hb.size) :
    ∃ hbi, hbitmap_iter_init hb first = some hbi ∧ IterWf hb hbi (first >>> hb.granularity) := by
  obtain ⟨-, hlow, h6⟩ := iterInitLoop_spec hb (first >>> hb.granularity) 7 (Nat.le_refl _)
    (fun _ => 0)
  simp only [Nat.sub_self, Nat.pow_zero, Nat.div_one] at hlow h6
  refine ⟨_, by simp only [hbitmap_iter_init, HBITMAP_LEVELS_eq]; rw [if_pos hfirst], ?_⟩
  have hlt : first >>> hb.granularity < 2 ^ 41 :=
    Nat.lt_of_lt_of_le hfirst (by simpa using h.size_le)
  refine ⟨rfl, rfl, ?_, ?_, ?_, ?_, ?_⟩
  · simp only [shiftRight_level]
    omega
  · simp only [shiftRight_level]
    omega
  · simp only [shiftRight_level]
    omega
  · intro i hi j hj
    simpa only [shiftRight_level] using hlow i (by omega) hi j hj
  · intro j hj
    simp only [shiftRight_level]
    rw [h6 (by decide) j hj]
    congr 2
    apply propext
    omega

/-! ### hbitmap_iter_skip_words -/

-- The `do ... while` loop stops at the highest level below `i` whose `cur` is nonzero.
theorem skipWordsUp_eq (cur : Nat → Word) {i k : Nat} (pos : Nat) (hk : k < i) (hne : cur k ≠ 0)
    (hz : ∀ m, k < m → m < i → cur m = 0) :
    skipWordsUp cur i pos = some (k, pos / 64 ^ (i - k), cur k) := by
  induction i generalizing pos with
  | zero => omega
  | succ i ih =>
    simp only [skipWordsUp, shiftRight_level]
    by_cases hki : k = i
    · subst hki
      rw [if_neg hne, Nat.add_sub_cancel_left, Nat.pow_one]
    · rw [if_pos (hz i (by omega) (by omega)), ih (pos / 64) (by omega)
        (fun m hm1 hm2 => hz m hm1 (by omega)), Nat.div_div_eq_div_mul, ← Nat.pow_succ',
        show (i - k).succ = i + 1 - k by omega]

-- Some level below `i` has bits left, so there is a highest one.
theorem exists_top_ne_zero (cur : Nat → Word) : ∀ i, (∃ m, m < i ∧ cur m ≠ 0) →
    ∃ k, k < i ∧ cur k ≠ 0 ∧ ∀ m, k < m → m < i → cur m = 0
  | 0, ⟨m, hm, _⟩ => absurd hm (Nat.not_lt_zero m)
  | i + 1, hex => by
    by_cases hi : cur i = 0
    · obtain ⟨m, hm, hne⟩ := hex
      have hmi : m < i := by
        rcases Nat.lt_or_ge m i with h | h
        · exact h
        · exact absurd (show m = i by omega ▸ hi) hne
      obtain ⟨k, hk, hkne, hkz⟩ := exists_top_ne_zero cur i ⟨m, hmi, hne⟩
      refine ⟨k, by omega, hkne, fun m hm1 hm2 => ?_⟩
      by_cases hmi' : m = i
      · rw [hmi']
        exact hi
      · exact hkz m hm1 (by omega)
    · exact ⟨i, by omega, hi, fun m hm1 hm2 => absurd hm2 (by omega)⟩

-- With `cur[m]` empty for every level `m` above `k` (`cur[6]` included), every set bit of the
-- last level from `t` on lies under a later bit of level `k` than the word `pos`.
theorem IterWf.above_lt {hb : HBitmap} {hbi : HBitmapIter} {t : Nat} (h : Wf hb)
    (hit : IterWf hb hbi t) {k : Nat} (hk : k ≤ 5) (hz : ∀ m, k < m → m ≤ 6 → hbi.cur m = 0)
    {x : Nat} (hx : hb.bit 6 x = true) (htx : t ≤ x) : above hbi.pos k < above (x / 64) k := by
  induction hd : 5 - k generalizing k with
  | zero =>
    -- `cur[6]` is empty: the set bits from `t` on are past word `pos`
    have hk5 : k = 5 := by omega
    subst hk5
    rw [above_five, above_five]
    by_contra hle
    have hword : x / 64 = hbi.pos := by have := hit.le_t; omega
    have hbit := hit.last (x % 64) (Nat.mod_lt _ (by decide))
    rw [hz 6 (by decide) (Nat.le_refl _), show hbi.pos * 64 + x % 64 = x by omega] at hbit
    simp [hx, htx] at hbit
  | succ d ih =>
    have hA := ih (k := k + 1) (by omega) (fun m hm1 hm2 => hz m (by omega) hm2) (by omega)
    rw [above_succ _ (show k < 5 by omega), above_succ _ (show k < 5 by omega)]
    by_contra hle
    -- otherwise the bit over `x` at level `k + 1` is one of the bits left in `cur[k + 1]`
    have hword : above (x / 64) (k + 1) / 64 = above hbi.pos (k + 1) / 64 := by
      have := Nat.div_le_div_right (c := 64) (Nat.le_of_lt hA)
      omega
    have hset : hb.bit (k + 1) (above (x / 64) (k + 1)) = true :=
      (h.bit_iff_above (by omega) (by omega)).mpr ⟨x, hx, rfl⟩
    have hcur := hit.up (k + 1) (by omega) (above (x / 64) (k + 1) % 64) (Nat.mod_lt _ (by decide))
    rw [hz (k + 1) (by omega) (by omega), ← hword, Nat.div_add_mod' (above (x / 64) (k + 1)) 64] at hcur
    simp [hset] at hcur
    omega

theorem bitops_ctzl_of_ne_zero {c : Word} (hc : c ≠ 0) : bitops_ctzl c = c.ctz.toNat := by
  rw [bitops_ctzl, if_neg hc]

-- The `for` loop of hbitmap_iter_skip_words, from level `i` down to the last, where `c` holds
-- the bits of word `pos` of level `i` from `lo` on: it follows the lowest set bit down to the
-- first word `q` of the last level under it; on the way each `cur[m]` keeps the bits after the
-- one over `q`.
theorem skipWordsDown_spec {hb : HBitmap} (h : Wf hb) (n : Nat) :
    ∀ (i pos : Nat) (c : Word) (cur : Nat → Word) (lo : Nat), i + n = 6 → 0 < n → c ≠ 0 →
      (∀ j, j < 64 → c.getLsbD j = (hb.bit i (pos * 64 + j) && decide (lo ≤ j))) →
      (i = 0 → pos * 64 + c.ctz.toNat ≠ 63) →
      ∃ cur' q, skipWordsDown hb n i pos c cur = (cur', q, hb.levels 6 q) ∧ hb.levels 6 q ≠ 0 ∧
        above q i = pos * 64 + c.ctz.toNat ∧
        (∀ x, hb.bit 6 x = true → above (x / 64) i = pos * 64 + c.ctz.toNat → q ≤ x / 64) ∧
        (∀ m, i ≤ m → m < 6 → CurAt hb q cur' m) ∧ (∀ m, (m < i ∨ 6 ≤ m) → cur' m = cur m) := by
  induction n with
  | zero => intro _ _ _ _ _ _ hn; omega
  | succ n ih =>
    intro i pos c cur lo hin _ hc hbits hreal
    have hctz := ctz_lt_of_ne_zero hc
    have hn0div : (pos * 64 + c.ctz.toNat) / 64 = pos := by omega
    have hn0mod : (pos * 64 + c.ctz.toNat) % 64 = c.ctz.toNat := by omega
    -- the bit taken at level `i` is set, so the word below it is nonzero
    have hset : hb.bit i (pos * 64 + c.ctz.toNat) = true := by
      have := getLsbD_ctz hc
      rw [hbits _ hctz] at this
      exact (Bool.and_eq_true _ _ ▸ this).1
    have hbelow : hb.levels (i + 1) (pos * 64 + c.ctz.toNat) ≠ 0 :=
      (h.summary i (by omega) _ hreal).mp hset
    -- `cur[i]` keeps the bits of word `pos` after the one taken
    have hkeep : ∀ j, j < 64 → (c &&& (c - 1)).getLsbD j =
        (hb.bit i (pos * 64 + j) && decide (c.ctz.toNat < j)) :=
      fun j hj => getLsbD_and_sub_one_of_from hc hbits hj
    simp only [skipWordsDown, shiftLeft_level, bitops_ctzl_of_ne_zero hc]
    rcases n with _ | n
    · -- from level 5 the word below is one of the last level
      have hi5 : i = 5 := by omega
      subst hi5
      refine ⟨Function.update cur 5 (c &&& (c - 1)), pos * 64 + c.ctz.toNat, rfl, hbelow,
        above_five _, ?_, ?_, ?_⟩
      · intro x _ hxa
        rw [above_five] at hxa
        omega
      · intro m hm1 hm2 j hj
        have hm5 : m = 5 := by omega
        subst hm5
        rw [Function.update_self, hkeep j hj, above_five, hn0div, hn0mod]
      · intro m hm
        rw [Function.update_of_ne (by omega)]
    · -- the whole word below is fresh: its lowest set bit is taken next, and so on
      have hfresh : ∀ j, j < 64 → (hb.levels (i + 1) (pos * 64 + c.ctz.toNat)).getLsbD j =
          (hb.bit (i + 1) ((pos * 64 + c.ctz.toNat) * 64 + j) && decide (0 ≤ j)) := by
        intro j hj
        rw [hb.bit_word _ _ hj]
        simp
      obtain ⟨cur', q, heq, hq6, hqa, hqmin, hqcur, hqout⟩ := ih (i + 1) (pos * 64 + c.ctz.toNat)
        (hb.levels (i + 1) (pos * 64 + c.ctz.toNat)) (Function.update cur i (c &&& (c - 1))) 0
        (by omega) (by omega) hbelow hfresh (by omega)
      have hctz' := ctz_lt_of_ne_zero hbelow
      have hqi : above q i = pos * 64 + c.ctz.toNat := by
        rw [above_succ _ (by omega), hqa]
        omega
      refine ⟨cur', q, heq, hq6, hqi, ?_, ?_, ?_⟩
      · -- a set bit under the one taken lies under a bit of level `i + 1` at or after the next one
        intro x hx hxa
        have hAdiv : above (x / 64) (i + 1) / 64 = pos * 64 + c.ctz.toNat := by
          rw [← above_succ _ (by omega)]
          exact hxa
        have hAset : hb.bit (i + 1) (above (x / 64) (i + 1)) = true :=
          (h.bit_iff_above (by omega) (by omega)).mpr ⟨x, hx, rfl⟩
        have hAge : (hb.levels (i + 1) (pos * 64 + c.ctz.toNat)).ctz.toNat ≤
            above (x / 64) (i + 1) % 64 := by
          apply ctz_le_of_getLsbD
          rw [← hb.bit_word _ _ (Nat.mod_lt _ (by decide)), ← hAdiv, Nat.div_add_mod']
          exact hAset
        rcases Nat.lt_or_ge (above q (i + 1)) (above (x / 64) (i + 1)) with hlt | hge
        · exact Nat.le_of_lt (lt_of_above_lt hlt)
        · exact hqmin x hx (by omega)
      · intro m hm1 hm2 j hj
        rcases Nat.lt_or_ge i m with him | him
        · exact hqcur m (by omega) hm2 j hj
        · have hmi : m = i := by omega
          subst hmi
          rw [hqout m (Or.inl (by omega)), Function.update_self, hkeep j hj, hqi, hn0div, hn0mod]
      · intro m hm
        rw [hqout m (by omega), Function.update_of_ne (by omega)]

theorem getLsbD_sentinel (j : Nat) :
    ((1 : Word) <<< (BITS_PER_LONG - 1)).getLsbD j = decide (j = 63) := by
  have htw : (1 : Word) <<< (BITS_PER_LONG - 1) = BitVec.twoPow 64 63 := rfl
  rw [htw, BitVec.getLsbD_twoPow]
  by_cases hj : j = 63 <;> simp [hj, eq_comm]

-- A word whose only set bit is bit 63 is the sentinel.
theorem eq_sentinel {c : Word} (h63 : c.getLsbD 63 = true) (hlow : ∀ j, j < 63 → c.getLsbD j = false) :
    c = (1 : Word) <<< (BITS_PER_LONG - 1) := by
  apply BitVec.eq_of_getLsbD_eq
  intro j hj
  rw [getLsbD_sentinel]
  by_cases hj63 : j = 63
  · subst hj63
    simp [h63]
  · simp [hlow j (by omega), hj63]

-- `cur[0]` always holds the sentinel.
theorem IterWf.sentinel {hb : HBitmap} {hbi : HBitmapIter} {t : Nat} (h : Wf hb)
    (hit : IterWf hb hbi t) : (hbi.cur 0).getLsbD 63 = true := by
  have hp0 := above_zero_lt hit.pos_lt
  rw [hit.up 0 (by decide) 63 (by decide), show above hbi.pos 0 / 64 = 0 by omega, Nat.zero_mul,
    Nat.zero_add, h.sentinel, Bool.true_and, decide_eq_true_eq]
  omega

-- When the up loop reaches level 0 and finds only the sentinel there, no set bit is left.
theorem IterWf.lt_of_sentinel {hb : HBitmap} {hbi : HBitmapIter} {t : Nat} (h : Wf hb)
    (hit : IterWf hb hbi t) (hz : ∀ m, 0 < m → m ≤ 6 → hbi.cur m = 0)
    (hs : hbi.cur 0 = (1 : Word) <<< (BITS_PER_LONG - 1)) {x : Nat} (hx : hb.bit 6 x = true) :
    x < t := by
  by_contra hle
  have hA := hit.above_lt h (Nat.zero_le 5) hz hx (by omega)
  have hA32 : above (x / 64) 0 < 32 :=
    above_zero_lt (by have := h.last_lt_pow hx; omega)
  have hp0 := above_zero_lt hit.pos_lt
  have hset : hb.bit 0 (above (x / 64) 0) = true :=
    (h.bit_iff_above (by decide) (fun _ => by omega)).mpr ⟨x, hx, rfl⟩
  have hcur := hit.up 0 (by decide) (above (x / 64) 0) (by omega)
  rw [hs, getLsbD_sentinel, show above hbi.pos 0 / 64 = 0 by omega, Nat.zero_mul, Nat.zero_add,
    hset] at hcur
  simp at hcur
  omega

-- hbitmap_iter_skip_words on an iterator whose `cur[6]` is empty: either no set bit is left and
-- it returns 0, or it moves to the first word `q` after `pos` with a set bit and returns it.
theorem hbitmap_iter_skip_words_spec {hb : HBitmap} {hbi : HBitmapIter} {t : Nat} (h : Wf hb)
    (hit : IterWf hb hbi t) (hz : hbi.cur 6 = 0) :
    ((∀ x, hb.bit 6 x = true → x < t) ∧ hbitmap_iter_skip_words hbi = some (hbi, 0)) ∨
    ∃ q cur', hbitmap_iter_skip_words hbi = some ({ hbi with pos := q, cur := cur' }, hb.levels 6 q) ∧
      hb.levels 6 q ≠ 0 ∧ hbi.pos < q ∧ (∀ x, hb.bit 6 x = true → t ≤ x → q ≤ x / 64) ∧
      (∀ m, m < 6 → CurAt hb q cur' m) ∧ cur' 6 = hbi.cur 6 := by
  have hp0 := above_zero_lt hit.pos_lt
  have hne0 : hbi.cur 0 ≠ 0 := by
    intro h0
    have := hit.sentinel h
    rw [h0] at this
    simp at this
  -- the up loop stops at the highest level `k` with bits left
  obtain ⟨k, hk6, hkne, hkz⟩ := exists_top_ne_zero hbi.cur 6 ⟨0, by decide, hne0⟩
  have hzall : ∀ m, k < m → m ≤ 6 → hbi.cur m = 0 := by
    intro m hm1 hm2
    by_cases hm6 : m = 6
    · rw [hm6]
      exact hz
    · exact hkz m hm1 (by omega)
  have hup := skipWordsUp_eq hbi.cur hbi.pos hk6 hkne hkz
  simp only [hbitmap_iter_skip_words, HBITMAP_LEVELS_eq, Nat.reduceSub]
  rw [hup]
  dsimp only
  by_cases hsent : k = 0 ∧ hbi.cur k = (1 : Word) <<< (BITS_PER_LONG - 1)
  · obtain ⟨rfl, hs⟩ := hsent
    left
    refine ⟨fun x hx => hit.lt_of_sentinel h (fun m hm1 hm2 => hzall m hm1 hm2) hs hx, ?_⟩
    rw [if_pos ⟨rfl, hs⟩]
  · right
    rw [if_neg hsent]
    have hctz := ctz_lt_of_ne_zero hkne
    have hpos : hbi.pos / 64 ^ (6 - k) = above hbi.pos k / 64 := by
      rw [above, Nat.div_div_eq_div_mul, ← Nat.pow_succ, show (5 - k).succ = 6 - k by omega]
    have hbits : ∀ j, j < 64 → (hbi.cur k).getLsbD j = (hb.bit k (hbi.pos / 64 ^ (6 - k) * 64 + j) &&
        decide (above hbi.pos k % 64 + 1 ≤ j)) := by
      intro j hj
      rw [hit.up k hk6 j hj, hpos]
      rfl
    -- at level 0 the lowest bit left is not the sentinel
    have hreal : k = 0 → hbi.pos / 64 ^ (6 - k) * 64 + (hbi.cur k).ctz.toNat ≠ 63 := by
      rintro rfl
      rw [hpos, show above hbi.pos 0 / 64 = 0 by omega, Nat.zero_mul, Nat.zero_add]
      intro h63
      apply hsent
      refine ⟨rfl, eq_sentinel (hit.sentinel h) fun j hj => ?_⟩
      exact BitVec.getLsbD_false_of_lt_ctz (by omega)
    obtain ⟨cur', q, hdown, hq6, hqa, hqmin, hqcur, hqout⟩ := skipWordsDown_spec h (6 - k) k
      (hbi.pos / 64 ^ (6 - k)) (hbi.cur k) hbi.cur (above hbi.pos k % 64 + 1) (by omega) (by omega)
      hkne hbits hreal
    have hlo : above hbi.pos k % 64 + 1 ≤ (hbi.cur k).ctz.toNat := by
      have := getLsbD_ctz hkne
      rw [hbits _ hctz] at this
      exact of_decide_eq_true (Bool.and_eq_true _ _ ▸ this).2
    simp only [hit.hb_eq, hdown, if_neg hq6]
    refine ⟨q, cur', rfl, hq6, ?_, ?_, ?_, hqout 6 (Or.inr (Nat.le_refl _))⟩
    · apply lt_of_above_lt (i := k)
      rw [hqa, hpos]
      omega
    · -- the first set bit from `t` on lies under a bit of level `k` at or after the one taken
      intro x hx htx
      have hA := hit.above_lt h (by omega) hzall hx htx
      rcases Nat.lt_or_ge (above q k) (above (x / 64) k) with hlt | hge
      · exact Nat.le_of_lt (lt_of_above_lt hlt)
      · apply hqmin x hx
        rw [hqa] at hge
        have hAword : above (x / 64) k / 64 = above hbi.pos k / 64 := by
          have := Nat.div_le_div_right (c := 64) (Nat.le_of_lt hA)
          omega
        have hAset : hb.bit k (above (x / 64) k) = true := by
          apply (h.bit_iff_above hk6 fun hk0 => ?_).mpr ⟨x, hx, rfl⟩
          subst hk0
          have := above_zero_lt (p := x / 64) (by have := h.last_lt_pow hx; omega)
          omega
        have hbit : (hbi.cur k).getLsbD (above (x / 64) k % 64) = true := by
          rw [hbits _ (Nat.mod_lt _ (by decide)), hpos, ← hAword, Nat.div_add_mod', hAset]
          simp only [Bool.true_and, decide_eq_true_eq]
          omega
        have := ctz_le_of_getLsbD hbit
        omega
    · intro m hm
      rcases Nat.lt_or_ge m k with hmk | hmk
      · -- above level `k` the new word shares its bits with the old one
        have hsame : above q m = above hbi.pos m := by
          rw [above_of_le q (Nat.le_of_lt hmk) (by omega), above_of_le hbi.pos (Nat.le_of_lt hmk)
            (by omega), show k - m = (k - m - 1) + 1 by omega, Nat.pow_succ',
            ← Nat.div_div_eq_div_mul, ← Nat.div_div_eq_div_mul, hqa, hpos]
          congr 1
          omega
        intro j hj
        rw [hqout m (Or.inl hmk), hsame]
        exact hit.up m hm j hj
      · exact hqcur m hmk hm

/-! ### hbitmap_iter_next_word and hbitmap_iter_next -/

theorem leavesFrom_eq_nil {hb : HBitmap} {t : Nat} (hnone : ∀ x, hb.bit 6 x = true → x < t) :
    leavesFrom hb t = [] :=
  filter_range'_eq_nil _ fun x hx _ => by
    by_contra hbit
    have := hnone x (by simpa using hbit)
    omega

theorem leavesFrom_eq_cons {hb : HBitmap} (h : Wf hb) {t x : Nat} (htx : t ≤ x)
    (hx : hb.bit 6 x = true) (hfirst : ∀ y, t ≤ y → y < x → hb.bit 6 y = false) :
    leavesFrom hb t = x :: leavesFrom hb (x + 1) :=
  filter_range'_of_first _ htx (h.last_lt x hx) hx hfirst

-- A nonzero word of the last level holds a set bit.
theorem exists_bit_of_ne_zero {hb : HBitmap} {q : Nat} (hq : hb.levels 6 q ≠ 0) :
    ∃ j, j < 64 ∧ hb.bit 6 (q * 64 + j) = true := by
  obtain ⟨j, hj, hbit⟩ := (ne_zero_iff_exists_getLsbD _).mp hq
  exact ⟨j, hj, by rw [hb.bit_word _ _ hj]; exact hbit⟩

-- After returning the lowest set bit of word `pos` (the word holding the set bits from
-- `pos * 64 + lo` on), the iterator is valid just past that bit.
theorem iterWf_take_lowest {hb : HBitmap} {hbi : HBitmapIter} (hhb : hbi.hb = hb)
    (hg : hbi.granularity = hb.granularity) (hp : hbi.pos < 2 ^ 35)
    (hup : ∀ m, m < 6 → CurAt hb hbi.pos hbi.cur m) {c : Word} (hc : c ≠ 0) {lo : Nat}
    (hbits : ∀ j, j < 64 → c.getLsbD j = (hb.bit 6 (hbi.pos * 64 + j) && decide (lo ≤ j))) :
    IterWf hb { hbi with cur := Function.update hbi.cur 6 (c &&& (c - 1)) }
      (hbi.pos * 64 + c.ctz.toNat + 1) := by
  have hctz := ctz_lt_of_ne_zero hc
  refine ⟨hhb, hg, hp, ?_, ?_, fun m hm j hj => ?_, fun j hj => ?_⟩ <;> dsimp only
  · omega
  · omega
  · rw [Function.update_of_ne (by omega)]
    exact hup m hm j hj
  · rw [Function.update_self, getLsbD_and_sub_one_of_from hc hbits hj]
    congr 2
    apply propext
    omega

-- The lowest set bit of such a word is the first set bit from the threshold on.
theorem first_of_lowest {hb : HBitmap} {t q lo : Nat} {c : Word} (hc : c ≠ 0)
    (hbits : ∀ j, j < 64 → c.getLsbD j = (hb.bit 6 (q * 64 + j) && decide (lo ≤ j)))
    (hlo : t ≤ q * 64 + lo) (hbefore : ∀ y, hb.bit 6 y = true → t ≤ y → q * 64 + lo ≤ y) :
    t ≤ q * 64 + c.ctz.toNat ∧ hb.bit 6 (q * 64 + c.ctz.toNat) = true ∧
      ∀ y, t ≤ y → y < q * 64 + c.ctz.toNat → hb.bit 6 y = false := by
  have hctz := ctz_lt_of_ne_zero hc
  have hset := getLsbD_ctz hc
  rw [hbits _ hctz] at hset
  obtain ⟨hbit, hle⟩ := Bool.and_eq_true _ _ ▸ hset
  refine ⟨by have := of_decide_eq_true hle; omega, hbit, fun y hty hyx => ?_⟩
  by_contra hy
  have hy' : hb.bit 6 y = true := by simpa using hy
  have hq := hbefore y hy' hty
  have hj : y - q * 64 < 64 := by omega
  have hcy : c.getLsbD (y - q * 64) = true := by
    rw [hbits _ hj, show q * 64 + (y - q * 64) = y by omega, hy']
    simp only [Bool.true_and, decide_eq_true_eq]
    omega
  have := ctz_le_of_getLsbD hcy
  omega

-- hbitmap_iter_next_word from a valid iterator at `t`: either no set bit is left, it returns
-- `-1` and the iterator stays as it is; or it returns the first word holding a set bit from `t`
-- on, with those bits, and the iterator is valid after that word.
theorem hbitmap_iter_next_word_spec {hb : HBitmap} {hbi : HBitmapIter} {t : Nat} (h : Wf hb)
    (hit : IterWf hb hbi t) :
    ∃ hbi' pos c, hbitmap_iter_next_word hbi = some (hbi', pos, c) ∧
      (((∀ x, hb.bit 6 x = true → x < t) ∧ pos = SIZE_MAX ∧ c = 0 ∧ IterWf hb hbi' t) ∨
       ((∃ x, hb.bit 6 x = true ∧ t ≤ x ∧ x / 64 = pos) ∧
        (∀ x, hb.bit 6 x = true → t ≤ x → pos ≤ x / 64) ∧
        (∀ j, j < 64 → c.getLsbD j = (hb.bit 6 (pos * 64 + j) && decide (t ≤ pos * 64 + j))) ∧
        IterWf hb hbi' (pos * 64 + 64))) := by
  by_cases hz : hbi.cur 6 = 0
  · rcases hbitmap_iter_skip_words_spec h hit hz with ⟨hnone, hskip⟩ |
      ⟨q, cur', hskip, hq6, hpq, hqmin, hqcur, -⟩
    · refine ⟨hbi, SIZE_MAX, 0, ?_, Or.inl ⟨hnone, rfl, rfl, hit⟩⟩
      simp only [hbitmap_iter_next_word, HBITMAP_LEVELS_eq, Nat.reduceSub, hz, if_true, hskip,
        Option.bind_eq_bind, Option.bind_some, if_true]
      rfl
    · -- the skip found word `q`
      obtain ⟨j, hj, hbit⟩ := exists_bit_of_ne_zero hq6
      have hqt : t ≤ q * 64 := by have := hit.t_le; omega
      refine ⟨{ hbi with pos := q, cur := Function.update cur' 6 0 }, q, hb.levels 6 q, ?_,
        Or.inr ⟨⟨q * 64 + j, hbit, by omega, by omega⟩, hqmin, fun j hj => ?_, ?_⟩⟩
      · simp only [hbitmap_iter_next_word, HBITMAP_LEVELS_eq, Nat.reduceSub, hz, if_true, hskip,
          Option.bind_eq_bind, Option.bind_some, if_neg hq6]
        rfl
      · rw [← hb.bit_word _ _ hj]
        simp only [show t ≤ q * 64 + j by omega, decide_true, Bool.and_true]
      · have hql : q < 2 ^ 35 := by have := h.last_lt_pow hbit; omega
        refine ⟨hit.hb_eq, hit.granularity_eq, hql, by dsimp only; omega, by dsimp only; omega,
          fun m hm j hj => ?_, fun j hj => ?_⟩
        · dsimp only
          rw [Function.update_of_ne (by omega)]
          exact hqcur m hm j hj
        · dsimp only
          rw [Function.update_self]
          simp [show ¬ q * 64 + 64 ≤ q * 64 + j by omega]
  · -- bits are left in word `pos`
    have hctz := ctz_lt_of_ne_zero hz
    have hset := getLsbD_ctz hz
    rw [hit.last _ hctz] at hset
    obtain ⟨hbit, hle⟩ := Bool.and_eq_true _ _ ▸ hset
    refine ⟨{ hbi with cur := Function.update hbi.cur 6 0 }, hbi.pos, hbi.cur 6, ?_,
      Or.inr ⟨⟨hbi.pos * 64 + (hbi.cur 6).ctz.toNat, hbit, of_decide_eq_true hle, by omega⟩,
        fun x _ htx => ?_, hit.last, ?_⟩⟩
    · simp only [hbitmap_iter_next_word, HBITMAP_LEVELS_eq, Nat.reduceSub, hz, if_false,
        Option.bind_eq_bind, Option.bind_some]
      rfl
    · have := hit.le_t
      omega
    · refine ⟨hit.hb_eq, hit.granularity_eq, hit.pos_lt, by dsimp only; omega,
        by dsimp only; omega, fun m hm j hj => ?_, fun j hj => ?_⟩
      · dsimp only
        rw [Function.update_of_ne (by omega)]
        exact hit.up m hm j hj
      · dsimp only
        rw [Function.update_self]
        simp [show ¬ hbi.pos * 64 + 64 ≤ hbi.pos * 64 + j by omega]

-- hbitmap_iter_next from a valid iterator at `t` refines taking the head of the list of set bits
-- from `t` on: on an empty list it returns `-1` and stays valid at `t`; otherwise it returns the
-- head shifted left by the granularity and is valid just past it.
theorem hbitmap_iter_next_spec {hb : HBitmap} {hbi : HBitmapIter} {t : Nat} (h : Wf hb)
    (hit : IterWf hb hbi t) :
    ∃ hbi' r, hbitmap_iter_next hbi = some (hbi', r) ∧
      ((leavesFrom hb t = [] ∧ r = -1 ∧ IterWf hb hbi' t) ∨
       ∃ x, leavesFrom hb t = x :: leavesFrom hb (x + 1) ∧
         r = ((x <<< hb.granularity : Nat) : Int) ∧ IterWf hb hbi' (x + 1)) := by
  by_cases hz : hbi.cur 6 = 0
  · rcases hbitmap_iter_skip_words_spec h hit hz with ⟨hnone, hskip⟩ |
      ⟨q, cur', hskip, hq6, hpq, hqmin, hqcur, -⟩
    · refine ⟨hbi, -1, ?_, Or.inl ⟨leavesFrom_eq_nil hnone, rfl, hit⟩⟩
      simp only [hbitmap_iter_next, HBITMAP_LEVELS_eq, Nat.reduceSub, hz, if_true, hskip,
        Option.bind_eq_bind, Option.bind_some, if_true]
      rfl
    · -- the lowest set bit of the word `q` found by the skip
      have hbits : ∀ j, j < 64 → (hb.levels 6 q).getLsbD j = (hb.bit 6 (q * 64 + j) && decide (0 ≤ j)) := by
        intro j hj
        rw [hb.bit_word _ _ hj]
        simp
      have hqt : t ≤ q * 64 + 0 := by have := hit.t_le; omega
      obtain ⟨htx, hx, hfirst⟩ := first_of_lowest hq6 hbits hqt
        (fun y hy hty => by have := hqmin y hy hty; omega)
      have hql : q < 2 ^ 35 := by have := h.last_lt_pow hx; omega
      refine ⟨{ hbi with pos := q, cur := Function.update cur' 6 (hb.levels 6 q &&& (hb.levels 6 q - 1)) },
        _, ?_, Or.inr ⟨q * 64 + (hb.levels 6 q).ctz.toNat, leavesFrom_eq_cons h htx hx hfirst,
        rfl, @iterWf_take_lowest hb { hbi with pos := q, cur := cur' } hit.hb_eq
        hit.granularity_eq hql hqcur _ hq6 _ hbits⟩⟩
      simp only [hbitmap_iter_next, HBITMAP_LEVELS_eq, Nat.reduceSub, hz, if_true, hskip,
        Option.bind_eq_bind, Option.bind_some, if_neg hq6, bitops_ctzl_of_ne_zero hq6,
        shiftLeft_level, hit.granularity_eq]
      rfl
  · -- the lowest bit left in word `pos`
    have hbits : ∀ j, j < 64 → (hbi.cur 6).getLsbD j =
        (hb.bit 6 (hbi.pos * 64 + j) && decide (t - hbi.pos * 64 ≤ j)) := by
      intro j hj
      rw [hit.last j hj]
      congr 2
      apply propext
      have := hit.le_t
      omega
    have hle := hit.le_t
    obtain ⟨htx, hx, hfirst⟩ := first_of_lowest (t := t) hz hbits (by omega)
      (fun y _ hty => by omega)
    refine ⟨{ hbi with cur := Function.update hbi.cur 6 (hbi.cur 6 &&& (hbi.cur 6 - 1)) }, _, ?_,
      Or.inr ⟨hbi.pos * 64 + (hbi.cur 6).ctz.toNat, leavesFrom_eq_cons h htx hx hfirst,
      rfl, iterWf_take_lowest hit.hb_eq hit.granularity_eq hit.pos_lt hit.up hz hbits⟩⟩
    simp only [hbitmap_iter_next, HBITMAP_LEVELS_eq, Nat.reduceSub, hz, if_false,
      Option.bind_eq_bind, Option.bind_some, bitops_ctzl_of_ne_zero hz, shiftLeft_level,
      hit.granularity_eq]
    rfl

-- `n` successive calls of hbitmap_iter_next and what they return, as a caller's
-- `while ((item = hbitmap_iter_next(&hbi)) ...)` loop sees them.
def iterNextN : Nat → HBitmapIter → Option (List Int)
  | 0, _ => some []
  | n + 1, hbi => do
    let (hbi, r) ← hbitmap_iter_next hbi
    let rs ← iterNextN n hbi
    return r :: rs

-- From a valid iterator at `t`, the calls return each set bit from `t` on once, in increasing
-- order and shifted by the granularity, and then `-1` at every later call.
theorem iterNextN_leavesFrom {hb : HBitmap} (h : Wf hb) (k : Nat) :
    ∀ (l : List Nat) (hbi : HBitmapIter) (t : Nat), leavesFrom hb t = l → IterWf hb hbi t →
      iterNextN (l.length + k) hbi =
        some (l.map (fun x => ((x <<< hb.granularity : Nat) : Int)) ++ List.replicate k (-1)) := by
  intro l
  induction l with
  | nil =>
    intro hbi t hl hit
    -- nothing is left: every call returns `-1` and keeps the iterator
    induction k generalizing hbi with
    | zero => rfl
    | succ k ihk =>
      obtain ⟨hbi', r, hnext, hres⟩ := hbitmap_iter_next_spec h hit
      rcases hres with ⟨-, rfl, hit'⟩ | ⟨x, hx, -, -⟩
      · simp only [List.length_nil, Nat.zero_add] at ihk ⊢
        simp [iterNextN, hnext, ihk hbi' hit', List.replicate_succ]
      · rw [hl] at hx
        exact absurd hx (List.cons_ne_nil _ _).symm
  | cons x l ih =>
    intro hbi t hl hit
    obtain ⟨hbi', r, hnext, hres⟩ := hbitmap_iter_next_spec h hit
    rcases hres with ⟨hnil, -, -⟩ | ⟨y, hy, rfl, hit'⟩
    · rw [hl] at hnil
      exact absurd hnil (List.cons_ne_nil _ _)
    · rw [hl] at hy
      obtain ⟨rfl, hrest⟩ := List.cons.inj hy
      rw [List.length_cons, Nat.add_right_comm]
      simp [iterNextN, hnext, ih hbi' (x + 1) hrest.symm hit']

-- hbitmap_iter_init at `first` and then `n` calls of hbitmap_iter_next: the set bits of the
-- last level from `first >> granularity` on, each once and in increasing order, then `-1`.
theorem hbitmap_iter_init_next {hb : HBitmap} (h : Wf hb) {first : Nat}
    (hfirst : first >>> hb.granularity < hb.size) (k : Nat) :
    ∃ hbi, hbitmap_iter_init hb first = some hbi ∧
      iterNextN ((leavesFrom hb (first >>> hb.granularity)).length + k) hbi =
        some ((leavesFrom hb (first >>> hb.granularity)).map
          (fun x => ((x <<< hb.granularity : Nat) : Int)) ++ List.replicate k (-1)) := by
  obtain ⟨hbi, hinit, hit⟩ := hbitmap_iter_init_spec h hfirst
  exact ⟨hbi, hinit, iterNextN_leavesFrom h k _ hbi _ rfl hit⟩

/-! ### hb_count_between -/

-- The population count of a word whose bit `j` is `Q (pos * 64 + j)` counts `Q` over the word.
theorem popcountl_eq_countP {c : Word} {Q : Nat → Bool} {pos : Nat}
    (hbits : ∀ j, j < 64 → c.getLsbD j = Q (pos * 64 + j)) :
    popcountl c = (List.range' (pos * 64) 64).countP Q := by
  rw [popcountl, cpopNatRec_eq_countP, ← countP_range_add]
  apply List.countP_congr
  intro j hj
  rw [hbits j (List.mem_range.mp hj)]

-- A word of the last level read from `t` on and cut off before `e`, with no set bit between `t`
-- and the word, holds as many set bits as `t .. e - 1`.
theorem popcountl_word {hb : HBitmap} {t pos e : Nat} {c : Word} (hte : t ≤ e)
    (hpe : pos * 64 ≤ e) (he : e ≤ pos * 64 + 64)
    (hmin : ∀ x, hb.bit 6 x = true → t ≤ x → pos ≤ x / 64)
    (hbits : ∀ j, j < 64 → c.getLsbD j =
      (hb.bit 6 (pos * 64 + j) && decide (t ≤ pos * 64 + j) && decide (pos * 64 + j < e))) :
    popcountl c = (List.range' t (e - t)).countP (hb.bit 6) := by
  rw [popcountl_eq_countP (Q := fun x => hb.bit 6 x && decide (t ≤ x) && decide (x < e)) hbits]
  refine countP_range'_from _ hte hpe he (fun x htx hxp => ?_)
  by_contra hx
  have := hmin x (Bool.eq_true_of_not_eq_false hx) htx
  have : x / 64 < pos := Nat.div_lt_of_lt_mul (by omega)
  omega

-- The loop of hb_count_between from a valid iterator at `t`, having counted the set bits in
-- `start .. t - 1`: with fuel for the words up to `e / 64`, it stops, and the count it returns,
-- completed as the code does when it stopped at word `e / 64`, is the number of set bits in
-- `start .. e - 1`. The induction is on the fuel; each word counted moves `t` past it.
theorem hbCountLoop_spec {hb : HBitmap} (h : Wf hb) {start e : Nat} (he : e < 2 ^ 64) :
    ∀ fuel hbi t, IterWf hb hbi t → start ≤ t → t ≤ e → e / 64 + 1 ≤ fuel + t / 64 →
      ∃ count pos c, hbCountLoop (e / 64) fuel hbi
          ((List.range' start (t - start)).countP (hb.bit 6)) = some (count, pos, c) ∧
        (if pos = e / 64 then count + popcountl (c &&& ((1 : Word) <<< (e % 64) - 1))
          else count) = (List.range' start (e - start)).countP (hb.bit 6) := by
  intro fuel
  induction fuel with
  | zero =>
    intro hbi t _ _ hte hfuel
    have := Nat.div_le_div_right (c := 64) hte
    omega
  | succ fuel ih =>
    intro hbi t hit hst hte hfuel
    have hsplit := countP_range'_split (hb.bit 6) hst hte
    obtain ⟨hbi', pos, c, hnext, hcase⟩ := hbitmap_iter_next_word_spec h hit
    rcases hcase with ⟨hnone, rfl, rfl, -⟩ | ⟨⟨x, hx, htx, hxpos⟩, hmin, hbits, hit'⟩
    · -- no set bit is left from `t` on: the loop stops at `SIZE_MAX`
      have hend : e / 64 < SIZE_MAX := by simp only [SIZE_MAX]; omega
      refine ⟨(List.range' start (t - start)).countP (hb.bit 6), SIZE_MAX, 0, ?_, ?_⟩
      · simp only [hbCountLoop, hnext, Option.bind_eq_bind, Option.bind_some, ge_iff_le,
          if_pos (Nat.le_of_lt hend)]
        rfl
      · have hrest : (List.range' t (e - t)).countP (hb.bit 6) = 0 :=
          countP_range'_eq_zero _ (fun y hy _ => Bool.eq_false_iff.mpr fun hy' => by
            have := hnone y hy'; omega)
        rw [if_neg (Nat.ne_of_gt hend), hsplit, hrest, Nat.add_zero]
    · by_cases hpe : e / 64 ≤ pos
      · -- the word is at or past `e / 64`: the loop stops there
        refine ⟨(List.range' start (t - start)).countP (hb.bit 6), pos, c, ?_, ?_⟩
        · simp only [hbCountLoop, hnext, Option.bind_eq_bind, Option.bind_some, ge_iff_le,
            if_pos hpe]
          rfl
        · by_cases hpeq : pos = e / 64
          · -- the word of `e`: count its bits below `e % 64`
            have hmask : popcountl (c &&& ((1 : Word) <<< (e % 64) - 1)) =
                (List.range' t (e - t)).countP (hb.bit 6) := by
              refine popcountl_word hte (by omega) (by omega) hmin (fun j hj => ?_)
              rw [BitVec.getLsbD_and, hbits j hj, getLsbD_lowMask (Nat.mod_lt _ (by decide))]
              congr 1
              apply Bool.eq_iff_iff.mpr
              simp only [decide_eq_true_eq]
              omega
            rw [if_pos hpeq, hmask, hsplit]
          · -- the word is past `e`: nothing is set between `t` and `e`
            have hrest : (List.range' t (e - t)).countP (hb.bit 6) = 0 :=
              countP_range'_eq_zero _ (fun y hy hye => Bool.eq_false_iff.mpr fun hy' => by
                have := hmin y hy' hy
                have : y / 64 ≤ e / 64 := Nat.div_le_div_right (by omega)
                omega)
            rw [if_neg hpeq, hsplit, hrest, Nat.add_zero]
      · -- a word before `e / 64`: add all its bits and go on past it
        have hword : popcountl c = (List.range' t (pos * 64 + 64 - t)).countP (hb.bit 6) := by
          refine popcountl_word (by omega) (by omega) (Nat.le_refl _) hmin (fun j hj => ?_)
          rw [hbits j hj, decide_eq_true (by omega : pos * 64 + j < pos * 64 + 64),
            Bool.and_true]
        have hcount : (List.range' start (t - start)).countP (hb.bit 6) + popcountl c =
            (List.range' start (pos * 64 + 64 - start)).countP (hb.bit 6) := by
          rw [hword, countP_range'_split (hb.bit 6) hst (by omega : t ≤ pos * 64 + 64)]
        have hpt : t / 64 ≤ pos := by rw [← hxpos]; exact Nat.div_le_div_right htx
        obtain ⟨count, pos', c', hloop, hres⟩ :=
          ih hbi' (pos * 64 + 64) hit' (by omega) (by omega) (by omega)
        refine ⟨count, pos', c', ?_, hres⟩
        simp only [hbCountLoop, hnext, Option.bind_eq_bind, Option.bind_some, ge_iff_le,
          if_neg hpe]
        rw [hcount]
        exact hloop

-- hb_count_between counts the set bits of the last level in `start .. last`.
theorem hb_count_between_spec {hb : HBitmap} (h : Wf hb) {start last : Nat} (hsl : start ≤ last)
    (hlast : last < hb.size) :
    hb_count_between hb start last =
      some ((List.range' start (last + 1 - start)).countP (hb.bit 6)) := by
  have hfirst : start <<< hb.granularity >>> hb.granularity = start := Nat.shiftLeft_shiftRight _ _
  have hstart : start <<< hb.granularity >>> hb.granularity < hb.size := by
    rw [hfirst]
    omega
  obtain ⟨hbi, hinit, hit⟩ := hbitmap_iter_init_spec h hstart
  rw [hfirst] at hit
  have hsize : hb.size ≤ 2 ^ 41 := by simpa using h.size_le
  obtain ⟨count, pos, c, hloop, hres⟩ := hbCountLoop_spec h (e := last + 1) (by omega)
    ((last + 1) / 64 + 1) hbi start hit (Nat.le_refl _) (by omega) (by omega)
  rw [Nat.sub_self, List.range'_zero, List.countP_nil] at hloop
  simp only [hb_count_between, hinit, Option.bind_eq_bind, Option.bind_some, shiftRight_level,
    hloop, and_long]
  split
  · rw [if_pos (by assumption)] at hres
    rw [← hres]
    rfl
  · rw [if_neg (by assumption)] at hres
    rw [← hres]
    rfl

end Qemu.Hbitmap

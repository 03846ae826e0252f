import Qemu.Lib.WordBits

/-!
util/hbitmap.c and the inline iterator of include/qemu/hbitmap.h on a 64-bit host, where
`BITS_PER_LONG` is 64, `BITS_PER_LEVEL` 6 and `HBITMAP_LEVELS` 7. Level `i` is a row of
`unsigned long`s indexed by position; the arrays that `hbitmap_alloc` sizes are total
functions here. Every call that reaches an `assert` or would read `hbi->cur[-1]` returns
`none`. The representation invariant `Wf` (each level summarises the one below, the sentinel,
the count) and what it gives: a bit of level `i` is set iff a set bit of the last level lies
under it.
-/

namespace Qemu.Hbitmap

open WordBits

-- `unsigned long`
abbrev Word := BitVec 64

def BITS_PER_LONG : Nat := 64
def BITS_PER_LEVEL : Nat := 6
def HBITMAP_LOG_MAX_SIZE : Nat := 41
def HBITMAP_LEVELS : Nat := HBITMAP_LOG_MAX_SIZE / BITS_PER_LEVEL + 1
-- `(size_t)-1` as returned by hbitmap_iter_next_word at the end
def SIZE_MAX : Nat := 2 ^ 64 - 1

structure HBitmap where
  size : Nat
  count : Nat
  granularity : Nat
  levels : Nat → Nat → Word

structure HBitmapIter where
  hb : HBitmap
  granularity : Nat
  pos : Nat
  cur : Nat → Word

-- ctpop64, that is `__builtin_popcountll`
def popcountl (l : Word) : Nat := l.cpopNatRec 64 0

-- `__builtin_ffsl(word) - 1` as an `unsigned long`: the lowest set bit, `-1` for zero.
def bitops_ctzl (word : Word) : Nat := if word = 0 then 2 ^ 64 - 1 else word.ctz.toNat

-- hb_set_elem: OR the bits `start..last` of one word into it; whether it was zero before.
def hb_set_elem (elem : Word) (start last : Nat) : Word × Bool :=
  let mask := (2 : Word) <<< (last &&& (BITS_PER_LONG - 1)) -
    (1 : Word) <<< (start &&& (BITS_PER_LONG - 1))
  (elem ||| mask, elem == 0)

-- hb_reset_elem: clear the bits `start..last` of one word; whether it went from nonzero to zero.
def hb_reset_elem (elem : Word) (start last : Nat) : Word × Bool :=
  let mask := (2 : Word) <<< (last &&& (BITS_PER_LONG - 1)) -
    (1 : Word) <<< (start &&& (BITS_PER_LONG - 1))
  (elem &&& ~~~mask, elem != 0 && (elem &&& ~~~mask) == 0)

-- The `for (;;)` loop of hb_set_between and hb_reset_between: word `i` is done and `next` is
-- the first bit after it; each word before `lastpos` is noted in `changed` if `test` holds of it
-- and then overwritten with `v`. It returns the row, `i`, `start` and `changed` as the loop
-- leaves them.
def fillLoop (v : Word) (test : Word → Bool) (lastpos : Nat) :
    Nat → (Nat → Word) → Nat → Nat → Bool → (Nat → Word) × Nat × Nat × Bool
  | 0, row, i, next, changed => (row, i, next, changed)
  | fuel + 1, row, i, next, changed =>
    let start := next
    let next := next + BITS_PER_LONG
    let i := i + 1
    if i = lastpos then (row, i, start, changed)
    else fillLoop v test lastpos fuel (Function.update row i v) i next (changed || test (row i))

-- The loop of hb_set_between: `changed |= (levels[level][i] == 0)`, then `~0UL`.
def hbSetLoop (lastpos : Nat) := fillLoop (~~~0) (· == 0) lastpos

-- The work of hb_set_between on one level: the row with the bits `start..last` set, and
-- whether a word of the range was zero before.
def hb_set_row (row : Nat → Word) (start last : Nat) : (Nat → Word) × Bool :=
  let pos := start >>> BITS_PER_LEVEL
  let lastpos := last >>> BITS_PER_LEVEL
  let (row, i, start, changed) :=
    if pos < lastpos then
      let next := (start ||| (BITS_PER_LONG - 1)) + 1
      let (elem, changed) := hb_set_elem (row pos) start (next - 1)
      hbSetLoop lastpos (lastpos - pos) (Function.update row pos elem) pos next changed
    else (row, pos, start, false)
  let (elem, c) := hb_set_elem (row i) start last
  (Function.update row i elem, changed || c)

-- hb_set_between: set the bits `start..last` of a level and, while a word went from zero to
-- nonzero, the bits of those words in the level above.
def hb_set_between (levels : Nat → Nat → Word) (level start last : Nat) : Nat → Nat → Word :=
  let (row, changed) := hb_set_row (levels level) start last
  let levels := Function.update levels level row
  match level with
  | 0 => levels
  | level + 1 =>
    if changed then hb_set_between levels level (start >>> BITS_PER_LEVEL) (last >>> BITS_PER_LEVEL)
    else levels

-- The loop of hb_reset_between: `changed |= (levels[level][i] != 0)`, then `0UL`.
def hbResetLoop (lastpos : Nat) := fillLoop 0 (· != 0) lastpos

-- The work of hb_reset_between on one level: the row with the bits `start..last` cleared,
-- the range `pos..lastpos` of words that must be cleared in the level above (a first or last
-- word that keeps a bit is dropped from it), and whether a word became zero.
def hb_reset_row (row : Nat → Word) (start last : Nat) : (Nat → Word) × Nat × Nat × Bool :=
  let pos := start >>> BITS_PER_LEVEL
  let lastpos := last >>> BITS_PER_LEVEL
  let (row, pos, i, start, changed) :=
    if pos < lastpos then
      let next := (start ||| (BITS_PER_LONG - 1)) + 1
      let (elem, blanked) := hb_reset_elem (row pos) start (next - 1)
      let (row, i, start, changed) :=
        hbResetLoop lastpos (lastpos - pos) (Function.update row pos elem) pos next blanked
      (row, if blanked then pos else pos + 1, i, start, changed)
    else (row, pos, pos, start, false)
  let (elem, blanked) := hb_reset_elem (row i) start last
  (Function.update row i elem, pos, if blanked then lastpos else lastpos - 1, changed || blanked)

-- hb_reset_between: clear the bits `start..last` of a level and, while words became zero,
-- their bits in the level above.
def hb_reset_between (levels : Nat → Nat → Word) (level start last : Nat) : Nat → Nat → Word :=
  let (row, pos, lastpos, changed) := hb_reset_row (levels level) start last
  let levels := Function.update levels level row
  match level with
  | 0 => levels
  | level + 1 => if changed then hb_reset_between levels level pos lastpos else levels

-- The loop of hbitmap_iter_init, from level `HBITMAP_LEVELS - 1` down to 0: each `cur[i]`
-- keeps the bits of its word after the one that leads to `first` (at the last level, from it on).
def iterInitLoop (hb : HBitmap) : Nat → Nat → (Nat → Word) → Nat → Word
  | 0, _, cur => cur
  | i + 1, pos, cur =>
    let bit := pos &&& (BITS_PER_LONG - 1)
    let pos := pos >>> BITS_PER_LEVEL
    let c := hb.levels i pos &&& ~~~((1 : Word) <<< bit - 1)
    let c := if i ≠ HBITMAP_LEVELS - 1 then c &&& ~~~((1 : Word) <<< bit) else c
    iterInitLoop hb i pos (Function.update cur i c)

def hbitmap_iter_init (hb : HBitmap) (first : Nat) : Option HBitmapIter :=
  let pos := first >>> hb.granularity
  if pos < hb.size then
    some { hb, granularity := hb.granularity, pos := pos >>> BITS_PER_LEVEL,
           cur := iterInitLoop hb HBITMAP_LEVELS pos (fun _ => 0) }
  else none

-- The `do ... while (cur == 0)` loop of hbitmap_iter_skip_words, going up from level `i`:
-- the first level with bits left, the position shifted up to it, and its bits. Reading below
-- level 0 is `none`; the sentinel of level 0 keeps it from happening.
def skipWordsUp (cur : Nat → Word) : Nat → Nat → Option (Nat × Nat × Word)
  | 0, _ => none
  | i + 1, pos =>
    let c := cur i
    let pos := pos >>> BITS_PER_LEVEL
    if c = 0 then skipWordsUp cur i pos else some (i, pos, c)

-- The `for` loop of hbitmap_iter_skip_words, going down `n` levels from level `i`: at each
-- level the lowest set bit of `cur` is taken, the rest is stored back in `hbi->cur[i]`, and the
-- word it selects in the level below becomes `cur`.
def skipWordsDown (hb : HBitmap) : Nat → Nat → Nat → Word → (Nat → Word) → (Nat → Word) × Nat × Word
  | 0, _, pos, c, cur => (cur, pos, c)
  | n + 1, i, pos, c, cur =>
    let pos := (pos <<< BITS_PER_LEVEL) + bitops_ctzl c
    let cur := Function.update cur i (c &&& (c - 1))
    skipWordsDown hb n (i + 1) pos (hb.levels (i + 1) pos) cur

def hbitmap_iter_skip_words (hbi : HBitmapIter) : Option (HBitmapIter × Word) :=
  match skipWordsUp hbi.cur (HBITMAP_LEVELS - 1) hbi.pos with
  | none => none
  | some (i, pos, c) =>
    -- only the sentinel is left: the end of the iteration
    if i = 0 ∧ c = (1 : Word) <<< (BITS_PER_LONG - 1) then some (hbi, 0)
    else
      let (cur, pos, c) := skipWordsDown hbi.hb (HBITMAP_LEVELS - 1 - i) i pos c hbi.cur
      if c = 0 then none else some ({ hbi with pos, cur }, c)

-- The item is returned as the source's int64_t: the model keeps the Nat value, so callers must
-- keep every chunk shifted by the granularity below 2^63.
def hbitmap_iter_next (hbi : HBitmapIter) : Option (HBitmapIter × Int) := do
  let (hbi, cur) ← if hbi.cur (HBITMAP_LEVELS - 1) = 0 then hbitmap_iter_skip_words hbi
    else some (hbi, hbi.cur (HBITMAP_LEVELS - 1))
  if cur = 0 then return (hbi, -1)
  let hbi := { hbi with cur := Function.update hbi.cur (HBITMAP_LEVELS - 1) (cur &&& (cur - 1)) }
  let item := (hbi.pos <<< BITS_PER_LEVEL) + bitops_ctzl cur
  return (hbi, ((item <<< hbi.granularity : Nat) : Int))

def hbitmap_iter_next_word (hbi : HBitmapIter) : Option (HBitmapIter × Nat × Word) := do
  let (hbi, cur) ← if hbi.cur (HBITMAP_LEVELS - 1) = 0 then hbitmap_iter_skip_words hbi
    else some (hbi, hbi.cur (HBITMAP_LEVELS - 1))
  if cur = 0 then return (hbi, SIZE_MAX, 0)
  return ({ hbi with cur := Function.update hbi.cur (HBITMAP_LEVELS - 1) 0 }, hbi.pos, cur)

-- The `for (;;)` loop of hb_count_between: add up the words before `endpos`; it returns the
-- count and the position and word at which it stopped.
def hbCountLoop (endpos : Nat) : Nat → HBitmapIter → Nat → Option (Nat × Nat × Word)
  | 0, _, _ => none
  | fuel + 1, hbi, count => do
    let (hbi, pos, cur) ← hbitmap_iter_next_word hbi
    if pos ≥ endpos then return (count, pos, cur)
    hbCountLoop endpos fuel hbi (count + popcountl cur)

-- hb_count_between: the number of set bits in `start..last` of the last level. The loop
-- visits fewer than `(last + 1) / 64 + 1` words.
def hb_count_between (hb : HBitmap) (start last : Nat) : Option Nat := do
  let hbi ← hbitmap_iter_init hb (start <<< hb.granularity)
  let end_ := last + 1
  let (count, pos, cur) ← hbCountLoop (end_ >>> BITS_PER_LEVEL)
    ((end_ >>> BITS_PER_LEVEL) + 1) hbi 0
  if pos = end_ >>> BITS_PER_LEVEL then
    let bit := end_ &&& (BITS_PER_LONG - 1)
    return count + popcountl (cur &&& ((1 : Word) <<< bit - 1))
  return count

def hbitmap_empty (hb : HBitmap) : Bool := hb.count == 0

def hbitmap_granularity (hb : HBitmap) : Nat := hb.granularity

-- `hb->count << hb->granularity` as a `uint64_t`
def hbitmap_count (hb : HBitmap) : Nat := (hb.count <<< hb.granularity) % 2 ^ 64

def hbitmap_set (hb : HBitmap) (start count : Nat) : Option HBitmap := do
  let last := start + count - 1
  let start := start >>> hb.granularity
  let last := last >>> hb.granularity
  let count := last - start + 1
  let between ← hb_count_between hb start last
  return { hb with count := hb.count + (count - between),
                   levels := hb_set_between hb.levels (HBITMAP_LEVELS - 1) start last }

def hbitmap_reset (hb : HBitmap) (start count : Nat) : Option HBitmap := do
  let last := start + count - 1
  let start := start >>> hb.granularity
  let last := last >>> hb.granularity
  let between ← hb_count_between hb start last
  return { hb with count := hb.count - between,
                   levels := hb_reset_between hb.levels (HBITMAP_LEVELS - 1) start last }

-- The source checks no bound: for an item whose chunk is past the end it reads beyond the last
-- level's array, where the model reads zero. Only items of the bitmap have a specified answer.
def hbitmap_get (hb : HBitmap) (item : Nat) : Bool :=
  let pos := item >>> hb.granularity
  let bit := (1 : Word) <<< (pos &&& (BITS_PER_LONG - 1))
  (hb.levels (HBITMAP_LEVELS - 1) (pos >>> BITS_PER_LEVEL) &&& bit) != 0

-- The loop of hbitmap_alloc that sizes the levels from the last one up: each is the number of
-- words of the one below, at least one; level 0 must come out as one word.
def levelSize : Nat → Nat → Nat
  | 0, size => size
  | i + 1, size => levelSize i (max ((size + BITS_PER_LONG - 1) >>> BITS_PER_LEVEL) 1)

def hbitmap_alloc (size granularity : Nat) : Option HBitmap :=
  if granularity < 64 then
    let size := ((size + (1 <<< granularity) - 1) % 2 ^ 64) >>> granularity
    if size ≤ 1 <<< HBITMAP_LOG_MAX_SIZE then
      if levelSize HBITMAP_LEVELS size = 1 then
        -- g_malloc0 for every level, then the sentinel `levels[0][0] |= 1UL << 63`
        some { size, count := 0, granularity,
               levels := fun i pos => if i = 0 ∧ pos = 0 then (1 : Word) <<< (BITS_PER_LONG - 1)
                 else 0 }
      else none
    else none
  else none

/-! ### Shifts and masks as division and remainder -/

@[simp] theorem BITS_PER_LONG_eq : BITS_PER_LONG = 64 := rfl
@[simp] theorem BITS_PER_LEVEL_eq : BITS_PER_LEVEL = 6 := rfl
@[simp] theorem HBITMAP_LEVELS_eq : HBITMAP_LEVELS = 7 := rfl

@[simp] theorem shiftRight_level (n : Nat) : n >>> BITS_PER_LEVEL = n / 64 := by
  rw [Nat.shiftRight_eq_div_pow]
  rfl

@[simp] theorem shiftLeft_level (n : Nat) : n <<< BITS_PER_LEVEL = n * 64 := by
  rw [Nat.shiftLeft_eq]
  rfl

@[simp] theorem and_long (n : Nat) : n &&& (BITS_PER_LONG - 1) = n % 64 :=
  Nat.and_two_pow_sub_one_eq_mod n 6

-- `(start | (BITS_PER_LONG - 1)) + 1` is the first bit of the next word.
@[simp] theorem or_long_add_one (n : Nat) : (n ||| (BITS_PER_LONG - 1)) + 1 = n / 64 * 64 + 64 := by
  have hor : n ||| 63 = 2 ^ 6 * (n / 2 ^ 6) + 63 := by
    apply Nat.eq_of_testBit_eq
    intro i
    rw [Nat.testBit_or, Nat.testBit_two_pow_mul_add _ (by decide : 63 < 2 ^ 6)]
    rcases Nat.lt_or_ge i 6 with hi | hi
    · rw [if_pos hi, show (63 : Nat) = 2 ^ 6 - 1 from rfl, Nat.testBit_two_pow_sub_one]
      simp [hi]
    · rw [if_neg (by omega), Nat.testBit_div_two_pow, Nat.sub_add_cancel hi,
        show (63 : Nat) = 2 ^ 6 - 1 from rfl, Nat.testBit_two_pow_sub_one]
      simp [show ¬ i < 6 by omega]
  show (n ||| 63) + 1 = _
  rw [hor]
  omega

/-! ### One word -/

theorem getLsbD_set_elem (elem : Word) {start last : Nat} (hw : start / 64 = last / 64)
    (hsl : start ≤ last) (j : Nat) :
    (hb_set_elem elem start last).1.getLsbD j =
      (elem.getLsbD j || (decide (start % 64 ≤ j) && decide (j ≤ last % 64))) := by
  have hmod : start % 64 ≤ last % 64 := by omega
  simp only [hb_set_elem, and_long, BitVec.getLsbD_or,
    getLsbD_rangeMask hmod (Nat.mod_lt _ (by decide))]

@[simp] theorem hb_set_elem_snd (elem : Word) (start last : Nat) :
    (hb_set_elem elem start last).2 = (elem == 0) := rfl

theorem getLsbD_reset_elem (elem : Word) {start last : Nat} (hw : start / 64 = last / 64)
    (hsl : start ≤ last) (j : Nat) :
    (hb_reset_elem elem start last).1.getLsbD j =
      (elem.getLsbD j && !(decide (start % 64 ≤ j) && decide (j ≤ last % 64))) := by
  have hmod : start % 64 ≤ last % 64 := by omega
  by_cases hj : j < 64
  · simp only [hb_reset_elem, and_long, BitVec.getLsbD_and, BitVec.getLsbD_not,
      getLsbD_rangeMask hmod (Nat.mod_lt _ (by decide)),
      hj, decide_true, Bool.true_and]
  · rw [BitVec.getLsbD_of_ge elem j (by omega),
      BitVec.getLsbD_of_ge (hb_reset_elem elem start last).1 j (by omega), Bool.false_and]

theorem reset_elem_blanked_iff (elem : Word) (start last : Nat) :
    (hb_reset_elem elem start last).2 = true ↔ elem ≠ 0 ∧ (hb_reset_elem elem start last).1 = 0 := by
  simp [hb_reset_elem]

/-! ### One level: the row work of hb_set_between and hb_reset_between -/

-- The row with the words strictly between `i` and `lastpos` replaced by `v`.
def fillBetween (row : Nat → Word) (i lastpos : Nat) (v : Word) : Nat → Word :=
  fun p => if i < p ∧ p < lastpos then v else row p

theorem rowBit_fillBetween (row : Nat → Word) (i lastpos : Nat) (v : Word) (n : Nat) :
    rowBit (fillBetween row i lastpos v) n =
      if i < n / 64 ∧ n / 64 < lastpos then v.getLsbD (n % 64) else rowBit row n := by
  unfold rowBit fillBetween
  split <;> rfl

-- The loop runs from word `i` to `lastpos` and writes `v` over the words between.
theorem fillLoop_eq (v : Word) (test : Word → Bool) {lastpos : Nat} (fuel : Nat)
    (row : Nat → Word) (i : Nat) (changed : Bool) (hi : i < lastpos) (hf : lastpos - i ≤ fuel) :
    ∃ changed', fillLoop v test lastpos fuel row i (i * 64 + 64) changed =
        (fillBetween row i lastpos v, lastpos, lastpos * 64, changed') ∧
      (changed' = true ↔ changed = true ∨ ∃ p, i < p ∧ p < lastpos ∧ test (row p) = true) := by
  induction fuel generalizing row i changed with
  | zero => omega
  | succ fuel ih =>
    by_cases hlast : i + 1 = lastpos
    · subst hlast
      refine ⟨changed, ?_, ?_⟩
      · have hfill : fillBetween row i (i + 1) v = row := by
          funext p
          simp only [fillBetween]
          split <;> first | omega | rfl
        simp only [fillLoop, if_true, hfill, BITS_PER_LONG_eq, Nat.succ_mul]
      · constructor
        · exact Or.inl
        · rintro (h | ⟨p, hp1, hp2, -⟩)
          · exact h
          · omega
    · obtain ⟨c', heq, hc'⟩ := ih (Function.update row (i + 1) v) (i + 1)
        (changed || test (row (i + 1))) (by omega) (by omega)
      have hfill : fillBetween (Function.update row (i + 1) v) (i + 1) lastpos v =
          fillBetween row i lastpos v := by
        funext p
        by_cases hp : p = i + 1
        · subst hp
          simp [fillBetween, Nat.lt_of_le_of_ne hi hlast]
        · simp only [fillBetween, Function.update_of_ne hp]
          by_cases hr : i + 1 < p ∧ p < lastpos
          · rw [if_pos hr, if_pos (by omega)]
          · rw [if_neg hr, if_neg (by omega)]
      refine ⟨c', ?_, ?_⟩
      · simp only [fillLoop, hlast, if_false, BITS_PER_LONG_eq]
        rw [show i * 64 + 64 + 64 = (i + 1) * 64 + 64 by omega, heq, hfill]
      · rw [hc']
        constructor
        · rintro (h | ⟨p, hp1, hp2, hp⟩)
          · rcases Bool.or_eq_true _ _ ▸ h with h | h
            · exact Or.inl h
            · exact Or.inr ⟨i + 1, by omega, by omega, h⟩
          · rw [Function.update_of_ne (by omega)] at hp
            exact Or.inr ⟨p, by omega, hp2, hp⟩
        · rintro (h | ⟨p, hp1, hp2, hp⟩)
          · simp [h]
          · by_cases hpi : p = i + 1
            · subst hpi
              simp [hp]
            · exact Or.inr ⟨p, by omega, hp2, by rw [Function.update_of_ne hpi]; exact hp⟩

-- After the row work of hb_set_between the bits `start..last` are set and no other changes.
theorem hb_set_row_rowBit (row : Nat → Word) {start last : Nat} (hsl : start ≤ last) (n : Nat) :
    rowBit (hb_set_row row start last).1 n =
      (rowBit row n || (decide (start ≤ n) && decide (n ≤ last))) := by
  by_cases hp : start / 64 < last / 64
  · obtain ⟨c', hloop, -⟩ := fillLoop_eq (~~~0) (· == 0) (last / 64 - start / 64)
      (Function.update row (start / 64)
        (hb_set_elem (row (start / 64)) start (start / 64 * 64 + 64 - 1)).1)
      (start / 64) (hb_set_elem (row (start / 64)) start (start / 64 * 64 + 64 - 1)).2 hp
      (Nat.le_refl _)
    simp only [hb_set_row, hbSetLoop, shiftRight_level, or_long_add_one, if_pos hp, hloop,
      rowBit_update, rowBit_fillBetween]
    -- the last word, the words between, the first word, and the rest of the row
    by_cases hn : n / 64 = last / 64
    · rw [if_pos hn, getLsbD_set_elem _ (by omega) (by omega), fillBetween, if_neg (by omega),
        Function.update_of_ne (by omega), rowBit, hn]
      congr 1
      simp only [Nat.mul_mod_left, Nat.zero_le, decide_true, Bool.true_and]
      by_cases hl : n % 64 ≤ last % 64
      · simp only [hl, decide_true]
        simp only [show start ≤ n by omega, show n ≤ last by omega, decide_true, Bool.and_self]
      · simp only [hl, decide_false]
        simp only [show ¬ n ≤ last by omega, decide_false, Bool.and_false]
    · rw [if_neg hn]
      by_cases hmid : start / 64 < n / 64 ∧ n / 64 < last / 64
      · rw [if_pos hmid, getLsbD_not_zero]
        simp [Nat.mod_lt n (by decide : 0 < 64), show start ≤ n by omega,
          show n ≤ last by omega]
      · rw [if_neg hmid]
        by_cases hfirst : n / 64 = start / 64
        · rw [if_pos hfirst, getLsbD_set_elem _ (by omega) (by omega), rowBit, hfirst]
          congr 1
          have hlast : n ≤ last := by omega
          by_cases hs : start % 64 ≤ n % 64
          · simp [hs, show start ≤ n by omega, hlast, show n % 64 ≤ 63 by omega]
          · simp [hs, show ¬ start ≤ n by omega]
        · have hout : (decide (start ≤ n) && decide (n ≤ last)) = false := by
            simp only [Bool.and_eq_false_iff, decide_eq_false_iff_not]
            omega
          rw [if_neg hfirst, hout, Bool.or_false]
  · have hw : start / 64 = last / 64 := by omega
    simp only [hb_set_row, shiftRight_level, if_neg hp, rowBit_update]
    by_cases hn : n / 64 = start / 64
    · rw [if_pos hn, getLsbD_set_elem _ hw hsl, rowBit, hn]
      congr 1
      by_cases hs : start ≤ n <;> by_cases hl : n ≤ last <;> simp [hs, hl] <;> omega
    · have hout : (decide (start ≤ n) && decide (n ≤ last)) = false := by
        simp only [Bool.and_eq_false_iff, decide_eq_false_iff_not]
        omega
      rw [if_neg hn, hout, Bool.or_false]

-- The level above needs an update iff a word of the range was zero before.
theorem hb_set_row_changed (row : Nat → Word) {start last : Nat} (hsl : start ≤ last) :
    (hb_set_row row start last).2 = true ↔ ∃ p, start / 64 ≤ p ∧ p ≤ last / 64 ∧ row p = 0 := by
  by_cases hp : start / 64 < last / 64
  · obtain ⟨c', hloop, hc'⟩ := fillLoop_eq (~~~0) (· == 0) (last / 64 - start / 64)
      (Function.update row (start / 64)
        (hb_set_elem (row (start / 64)) start (start / 64 * 64 + 64 - 1)).1)
      (start / 64) (hb_set_elem (row (start / 64)) start (start / 64 * 64 + 64 - 1)).2 hp
      (Nat.le_refl _)
    simp only [hb_set_row, hbSetLoop, shiftRight_level, or_long_add_one, if_pos hp]
    rw [hloop]
    simp only [Bool.or_eq_true, hc', fillBetween, hb_set_elem_snd, beq_iff_eq]
    rw [if_neg (by omega), Function.update_of_ne (by omega)]
    constructor
    · rintro ((h | ⟨p, hp1, hp2, h⟩) | h)
      · exact ⟨start / 64, Nat.le_refl _, by omega, h⟩
      · exact ⟨p, by omega, by omega, by rwa [Function.update_of_ne (by omega)] at h⟩
      · exact ⟨last / 64, by omega, Nat.le_refl _, h⟩
    · rintro ⟨p, hp1, hp2, h⟩
      rcases Nat.lt_or_ge (start / 64) p with hlo | hlo
      · rcases Nat.lt_or_ge p (last / 64) with hhi | hhi
        · exact Or.inl (Or.inr ⟨p, hlo, hhi, by rwa [Function.update_of_ne (by omega)]⟩)
        · exact Or.inr (by rwa [show p = last / 64 by omega] at h)
      · exact Or.inl (Or.inl (by rwa [show p = start / 64 by omega] at h))
  · simp only [hb_set_row, shiftRight_level, if_neg hp, Bool.false_or, hb_set_elem_snd, beq_iff_eq]
    constructor
    · intro h
      exact ⟨start / 64, Nat.le_refl _, by omega, h⟩
    · rintro ⟨p, hp1, hp2, h⟩
      rwa [show p = start / 64 by omega] at h

@[simp] theorem hb_reset_elem_snd (elem : Word) (start last : Nat) :
    (hb_reset_elem elem start last).2 = (elem != 0 && (hb_reset_elem elem start last).1 == 0) := rfl

-- The row work of hb_reset_between when the range spans several words: the first word, the
-- words between, the last word, and the range of the level above that is left to clear.
theorem hb_reset_row_of_lt (row : Nat → Word) {start last : Nat} (hp : start / 64 < last / 64) :
    ∃ c', (c' = true ↔ (hb_reset_elem (row (start / 64)) start (start / 64 * 64 + 63)).2 = true ∨
        ∃ p, start / 64 < p ∧ p < last / 64 ∧ row p ≠ 0) ∧
      hb_reset_row row start last =
        (Function.update (fillBetween (Function.update row (start / 64)
            (hb_reset_elem (row (start / 64)) start (start / 64 * 64 + 63)).1) (start / 64) (last / 64) 0)
          (last / 64) (hb_reset_elem (row (last / 64)) (last / 64 * 64) last).1,
         if (hb_reset_elem (row (start / 64)) start (start / 64 * 64 + 63)).2 then start / 64
         else start / 64 + 1,
         if (hb_reset_elem (row (last / 64)) (last / 64 * 64) last).2 then last / 64 else last / 64 - 1,
         c' || (hb_reset_elem (row (last / 64)) (last / 64 * 64) last).2) := by
  obtain ⟨c', hloop, hc'⟩ := fillLoop_eq 0 (· != 0) (last / 64 - start / 64)
    (Function.update row (start / 64) (hb_reset_elem (row (start / 64)) start (start / 64 * 64 + 63)).1)
    (start / 64) (hb_reset_elem (row (start / 64)) start (start / 64 * 64 + 63)).2 hp (Nat.le_refl _)
  have hlastw : fillBetween (Function.update row (start / 64)
      (hb_reset_elem (row (start / 64)) start (start / 64 * 64 + 63)).1) (start / 64) (last / 64) 0
      (last / 64) = row (last / 64) := by
    rw [fillBetween, if_neg (by omega), Function.update_of_ne (by omega)]
  refine ⟨c', ?_, ?_⟩
  · rw [hc']
    apply or_congr Iff.rfl
    constructor
    · rintro ⟨p, hp1, hp2, h⟩
      rw [Function.update_of_ne (by omega)] at h
      exact ⟨p, hp1, hp2, by simpa using h⟩
    · rintro ⟨p, hp1, hp2, h⟩
      exact ⟨p, hp1, hp2, by rw [Function.update_of_ne (by omega)]; simpa using h⟩
  · simp only [hb_reset_row, hbResetLoop, shiftRight_level, or_long_add_one, if_pos hp,
      show start / 64 * 64 + 64 - 1 = start / 64 * 64 + 63 by omega]
    rw [hloop]
    simp only [hlastw]

theorem hb_reset_row_of_not_lt (row : Nat → Word) {start last : Nat} (hp : ¬ start / 64 < last / 64) :
    hb_reset_row row start last =
      (Function.update row (start / 64) (hb_reset_elem (row (start / 64)) start last).1, start / 64,
       if (hb_reset_elem (row (start / 64)) start last).2 then last / 64 else last / 64 - 1,
       (hb_reset_elem (row (start / 64)) start last).2) := by
  simp only [hb_reset_row, shiftRight_level, if_neg hp, Bool.false_or]

theorem reset_elem_eq_zero_of_blanked {elem : Word} {start last : Nat}
    (h : (hb_reset_elem elem start last).2 = true) : (hb_reset_elem elem start last).1 = 0 :=
  ((reset_elem_blanked_iff elem start last).mp h).2

-- A word that is not blanked is zero after the reset iff it was zero before.
theorem reset_elem_eq_zero_iff {elem : Word} {start last : Nat}
    (h : (hb_reset_elem elem start last).2 = false) :
    (hb_reset_elem elem start last).1 = 0 ↔ elem = 0 := by
  have hzero : elem = 0 → (hb_reset_elem elem start last).1 = 0 := by
    rintro rfl
    simp [hb_reset_elem]
  constructor
  · intro h0
    by_contra hne
    have := (reset_elem_blanked_iff elem start last).mpr ⟨hne, h0⟩
    rw [h] at this
    exact Bool.false_ne_true this
  · exact hzero

-- After the row work of hb_reset_between the bits `start..last` are clear and no other changes.
theorem hb_reset_row_rowBit (row : Nat → Word) {start last : Nat} (hsl : start ≤ last) (n : Nat) :
    rowBit (hb_reset_row row start last).1 n =
      (rowBit row n && !(decide (start ≤ n) && decide (n ≤ last))) := by
  have hout : ¬ (start ≤ n ∧ n ≤ last) →
      (rowBit row n && !(decide (start ≤ n) && decide (n ≤ last))) = rowBit row n := by
    intro h
    have : (decide (start ≤ n) && decide (n ≤ last)) = false := by
      simp only [Bool.and_eq_false_iff, decide_eq_false_iff_not]
      omega
    rw [this, Bool.not_false, Bool.and_true]
  by_cases hp : start / 64 < last / 64
  · obtain ⟨c', -, heq⟩ := hb_reset_row_of_lt row hp
    rw [heq]
    simp only [rowBit_update, rowBit_fillBetween]
    by_cases hn : n / 64 = last / 64
    · rw [if_pos hn, getLsbD_reset_elem _ (by omega) (by omega), rowBit, hn]
      congr 1
      simp only [Nat.mul_mod_left, Nat.zero_le, decide_true, Bool.true_and]
      by_cases hl : n % 64 ≤ last % 64
      · simp [hl, show start ≤ n by omega, show n ≤ last by omega]
      · simp [hl, show ¬ n ≤ last by omega]
    · rw [if_neg hn]
      by_cases hmid : start / 64 < n / 64 ∧ n / 64 < last / 64
      · rw [if_pos hmid]
        simp [show start ≤ n by omega, show n ≤ last by omega]
      · rw [if_neg hmid]
        by_cases hfirst : n / 64 = start / 64
        · rw [if_pos hfirst, getLsbD_reset_elem _ (by omega) (by omega), rowBit, hfirst]
          congr 1
          by_cases hs : start % 64 ≤ n % 64
          · simp [hs, show start ≤ n by omega, show n ≤ last by omega, show n % 64 ≤ 63 by omega]
          · simp [hs, show ¬ start ≤ n by omega]
        · rw [if_neg hfirst, hout (by omega)]
  · rw [hb_reset_row_of_not_lt row hp]
    simp only [rowBit_update]
    by_cases hn : n / 64 = start / 64
    · rw [if_pos hn, getLsbD_reset_elem _ (by omega) hsl, rowBit, hn]
      congr 1
      by_cases hs : start ≤ n <;> by_cases hl : n ≤ last <;> simp [hs, hl] <;> omega
    · rw [if_neg hn, hout (by omega)]

-- What the level above must clear: when a word became zero, `pos..lastpos` lies among the
-- words of the range and those words are now zero; every other word of the range is zero
-- after the reset iff it was zero before.
theorem hb_reset_row_range (row : Nat → Word) {start last : Nat} (hsl : start ≤ last)
    {row' : Nat → Word} {pos lastpos : Nat} {changed : Bool}
    (h : hb_reset_row row start last = (row', pos, lastpos, changed)) :
    (changed = true → start / 64 ≤ pos ∧ pos ≤ lastpos ∧ lastpos ≤ last / 64 ∧
      ∀ p, pos ≤ p → p ≤ lastpos → row' p = 0) ∧
    ∀ p, start / 64 ≤ p → p ≤ last / 64 → (changed = true → p < pos ∨ lastpos < p) →
      (row' p = 0 ↔ row p = 0) := by
  by_cases hp : start / 64 < last / 64
  · obtain ⟨c', hc', heq⟩ := hb_reset_row_of_lt row hp
    rw [heq] at h
    simp only [Prod.mk.injEq] at h
    obtain ⟨rfl, rfl, rfl, rfl⟩ := h
    -- the first word, the words between and the last word after the reset
    set first := hb_reset_elem (row (start / 64)) start (start / 64 * 64 + 63)
    set lastw := hb_reset_elem (row (last / 64)) (last / 64 * 64) last
    have hfirst : Function.update (fillBetween (Function.update row (start / 64) first.1)
        (start / 64) (last / 64) 0) (last / 64) lastw.1 (start / 64) = first.1 := by
      simp [Function.update_of_ne (show start / 64 ≠ last / 64 by omega), fillBetween]
    have hmid : ∀ p, start / 64 < p → p < last / 64 → Function.update (fillBetween
        (Function.update row (start / 64) first.1) (start / 64) (last / 64) 0) (last / 64)
        lastw.1 p = 0 := by
      intro p hp1 hp2
      simp [Function.update_of_ne (show p ≠ last / 64 by omega), fillBetween, hp1, hp2]
    have hlast : Function.update (fillBetween (Function.update row (start / 64) first.1)
        (start / 64) (last / 64) 0) (last / 64) lastw.1 (last / 64) = lastw.1 := by simp
    constructor
    · intro hch
      refine ⟨by split <;> omega, ?_, by split <;> omega, ?_⟩
      · cases hbf : first.2 <;> cases hbl : lastw.2 <;> simp only [Bool.false_eq_true, ↓reduceIte]
        · have hc : c' = true := by simpa [hbl] using hch
          obtain ⟨p, hp1, hp2, -⟩ := (hc'.mp hc).resolve_left (by simp [hbf])
          omega
        all_goals omega
      · intro p hp1 hp2
        by_cases hps : p = start / 64
        · subst hps
          have hbf : first.2 = true := by
            by_contra hne
            simp only [hne, if_false] at hp1
            omega
          rw [hfirst, reset_elem_eq_zero_of_blanked hbf]
        · by_cases hpl : p = last / 64
          · subst hpl
            have hbl : lastw.2 = true := by
              by_contra hne
              simp only [hne, if_false] at hp2
              omega
            rw [hlast, reset_elem_eq_zero_of_blanked hbl]
          · exact hmid p (by split at hp1 <;> omega) (by split at hp2 <;> omega)
    · intro p hp1 hp2 hout
      by_cases hps : p = start / 64
      · subst hps
        cases hbf : first.2
        · rw [hfirst]
          exact reset_elem_eq_zero_iff hbf
        · have := hout (by simp [hc'.mpr (Or.inl hbf)])
          simp only [hbf, if_true] at this
          split at this <;> omega
      · by_cases hpl : p = last / 64
        · subst hpl
          cases hbl : lastw.2
          · rw [hlast]
            exact reset_elem_eq_zero_iff hbl
          · have := hout (by simp [hbl])
            simp only [hbl, if_true] at this
            split at this <;> omega
        · rw [hmid p (by omega) (by omega)]
          by_cases hch : (c' || lastw.2) = true
          · have := hout hch
            split at this <;> split at this <;> omega
          · have hc : c' = false := (by simpa using hch : c' = false ∧ lastw.2 = false).1
            constructor
            · intro _
              by_contra hne
              have := hc'.mpr (Or.inr ⟨p, by omega, by omega, hne⟩)
              rw [hc] at this
              exact Bool.false_ne_true this
            · intro _
              rfl
  · rw [hb_reset_row_of_not_lt row hp] at h
    simp only [Prod.mk.injEq] at h
    obtain ⟨rfl, rfl, rfl, rfl⟩ := h
    constructor
    · intro hch
      refine ⟨Nat.le_refl _, by simp only [hch, if_true]; omega, by split <;> omega, ?_⟩
      intro p hp1 hp2
      simp only [hch, if_true] at hp2
      rw [show p = start / 64 by omega, Function.update_self, reset_elem_eq_zero_of_blanked hch]
    · intro p hp1 hp2 hout
      have hps : p = start / 64 := by omega
      subst hps
      cases hb : (hb_reset_elem (row (start / 64)) start last).2
      · rw [Function.update_self]
        exact reset_elem_eq_zero_iff hb
      · have := hout hb
        simp only [hb, if_true] at this
        omega

/-! ### The representation invariant -/

@[simp] theorem HBITMAP_LOG_MAX_SIZE_eq : HBITMAP_LOG_MAX_SIZE = 41 := rfl

-- Bit `n` of level `i`.
def HBitmap.bit (hb : HBitmap) (i n : Nat) : Bool := rowBit (hb.levels i) n

theorem HBitmap.bit_word (hb : HBitmap) (i W : Nat) {j : Nat} (hj : j < 64) :
    hb.bit i (W * 64 + j) = (hb.levels i W).getLsbD j := by
  rw [HBitmap.bit, rowBit, Nat.mul_comm, Nat.mul_add_div (by decide), Nat.div_eq_of_lt hj,
    Nat.add_zero, Nat.mul_add_mod, Nat.mod_eq_of_lt hj]

-- The representation invariant: each level but the last (level 6, `HBITMAP_LEVELS - 1`)
-- summarises the one below it (bit `n` is set iff word `n` below is nonzero), except the
-- sentinel, bit 63 of level 0, which is always set; no bit of the last level is at or beyond
-- `size`; `count` is the number of its set bits; and the size and granularity are within what
-- hbitmap_alloc accepts.
structure Wf (hb : HBitmap) : Prop where
  granularity_lt : hb.granularity < 64
  size_le : hb.size ≤ 2 ^ HBITMAP_LOG_MAX_SIZE
  summary : ∀ i, i < 6 → ∀ n, (i = 0 → n ≠ 63) → (hb.bit i n = true ↔ hb.levels (i + 1) n ≠ 0)
  sentinel : hb.bit 0 63 = true
  last_lt : ∀ x, hb.bit 6 x = true → x < hb.size
  count_eq : hb.count = (List.range hb.size).countP (hb.bit 6)

namespace Wf

variable {hb : HBitmap}

-- Below level 0 a bit is set iff some set bit of the last level lies under it.
theorem bit_iff (h : Wf hb) {i : Nat} (hi : 0 < i) (hiL : i ≤ 6) (n : Nat) :
    hb.bit i n = true ↔ ∃ x, hb.bit 6 x = true ∧ x / 64 ^ (6 - i) = n :=
  rowBit_iff_exists_last (by decide) hiL
    (fun k hk hkL m => h.summary k hkL m (by omega)) n

-- A word of a level below level 0 is nonzero iff a set bit of the last level lies under it.
theorem word_ne_zero_iff (h : Wf hb) {i : Nat} (hi : 0 < i) (hiL : i ≤ 6) (p : Nat) :
    hb.levels i p ≠ 0 ↔ ∃ x, hb.bit 6 x = true ∧ x / 64 ^ (7 - i) = p := by
  rw [row_ne_zero_iff (by decide)]
  constructor
  · rintro ⟨n, rfl, hn⟩
    obtain ⟨x, hx, rfl⟩ := (h.bit_iff hi hiL n).mp hn
    refine ⟨x, hx, ?_⟩
    rw [Nat.div_div_eq_div_mul, ← Nat.pow_succ, show (6 - i).succ = 7 - i by omega]
  · rintro ⟨x, hx, rfl⟩
    refine ⟨x / 64 ^ (6 - i), ?_, (h.bit_iff hi hiL _).mpr ⟨x, hx, rfl⟩⟩
    rw [Nat.div_div_eq_div_mul, ← Nat.pow_succ, show (6 - i).succ = 7 - i by omega]

theorem last_lt_pow (h : Wf hb) {x : Nat} (hx : hb.bit 6 x = true) : x < 2 ^ 41 :=
  Nat.lt_of_lt_of_le (h.last_lt x hx) (by simpa using h.size_le)

-- A bit of level 0 other than the sentinel is set iff some set bit of the last level is under
-- it.
theorem bit_zero_iff (h : Wf hb) {n : Nat} (hn : n ≠ 63) :
    hb.bit 0 n = true ↔ ∃ x, hb.bit 6 x = true ∧ x / 64 ^ 6 = n := by
  rw [h.summary 0 (by decide) n (fun _ => hn), h.word_ne_zero_iff (by decide) (by decide)]

end Wf

-- The bit of level `i` (below 6) that word `p` of the last level lies under.
def above (p i : Nat) : Nat := p / 64 ^ (5 - i)

theorem above_five (p : Nat) : above p 5 = p := by
  simp [above]

theorem above_succ (p : Nat) {i : Nat} (hi : i < 5) : above p i = above p (i + 1) / 64 := by
  rw [above, above, Nat.div_div_eq_div_mul, ← Nat.pow_succ, show (5 - (i + 1)).succ = 5 - i by omega]

-- Level 0 is one word: the bit above a word of a bitmap of at most `2 ^ 41` bits is below 32.
theorem above_zero_lt {p : Nat} (hp : p < 2 ^ 35) : above p 0 < 32 := by
  rw [above, Nat.div_lt_iff_lt_mul (by decide)]
  exact Nat.lt_of_lt_of_le hp (by decide)

theorem above_mono {p q : Nat} (hpq : p ≤ q) (i : Nat) : above p i ≤ above q i :=
  Nat.div_le_div_right hpq

-- A word lies under a later bit of some level than another word only if it comes after it.
theorem lt_of_above_lt {p q i : Nat} (h : above p i < above q i) : p < q :=
  Nat.lt_of_not_le fun hle => Nat.not_le_of_lt h (above_mono hle i)

-- Going up from level `k` to level `m`.
theorem above_of_le (p : Nat) {m k : Nat} (hmk : m ≤ k) (hk : k ≤ 5) :
    above p m = above p k / 64 ^ (k - m) := by
  rw [above, above, Nat.div_div_eq_div_mul, ← Nat.pow_add, show 5 - k + (k - m) = 5 - m by omega]

-- The bit of level `i` over a bit `x` of the last level.
theorem div_pow_eq_above (x : Nat) {i : Nat} (hi : i < 6) : x / 64 ^ (6 - i) = above (x / 64) i := by
  rw [above, Nat.div_div_eq_div_mul, ← Nat.pow_succ', show (5 - i).succ = 6 - i by omega]

-- A bit of a level above the last is set iff a set bit of the last level lies under it (the
-- sentinel apart).
theorem Wf.bit_iff_above {hb : HBitmap} (h : Wf hb) {i n : Nat} (hi : i < 6) (hn : i = 0 → n ≠ 63) :
    hb.bit i n = true ↔ ∃ x, hb.bit 6 x = true ∧ above (x / 64) i = n := by
  rcases Nat.eq_zero_or_pos i with rfl | hpos
  · rw [h.bit_zero_iff (hn rfl)]
    simp only [← div_pow_eq_above _ hi]
  · rw [h.bit_iff hpos (by omega)]
    simp only [div_pow_eq_above _ hi]

end Qemu.Hbitmap

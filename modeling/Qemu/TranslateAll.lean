import Qemu.Lib.ByteMem

/-!
Self-modifying-code detection on a physical page (`translate-all.c`). Each page keeps the
list of translation blocks (TBs) that hold code from it, each with the number `n` of the page
in the TB (a TB spans at most two pages), and, once the page has seen enough writes, a bitmap
of the bytes that some TB covers. A guest store to a page with code goes to
`tb_invalidate_phys_page_fast`, which tests the bitmap and only on a hit calls
`tb_invalidate_phys_page_range` to invalidate the TBs that the store overlaps.

Page addresses are `tb_page_addr_t`, the 64-bit `ram_addr_t`. A TB's `pc` is kept unbounded:
the code only uses it through `& ~TARGET_PAGE_MASK`, which its wrap at `2^w`, `w ≥ 12`, does not
change. The `int` counters of `set_bits` and `build_page_bitmap` are never negative there and
are kept as `Nat`; its masks are `int`s, kept as 32-bit words.
-/

namespace Qemu.TranslateAll

open ByteMem

def TARGET_PAGE_BITS : Nat := 12

def TARGET_PAGE_SIZE : Nat := 1 <<< TARGET_PAGE_BITS

def SMC_BITMAP_USE_THRESHOLD : Nat := 10

abbrev tb_page_addr_t := BitVec 64

def TARGET_PAGE_MASK : tb_page_addr_t := ~~~(BitVec.ofNat 64 (TARGET_PAGE_SIZE - 1))

/-! ### The code bitmap -/

-- `x & ~7` on a non-negative `int`.
def clearLow3 (x : Nat) : Nat := x >>> 3 <<< 3

-- `*tab |= mask`, with the `int` mask cut to the byte.
def orByte (tab : Mem) (idx : Nat) (mask : BitVec 32) : Mem :=
  Function.update tab idx (tab idx ||| UInt8.ofBitVec (mask.setWidth 8))

-- `while (start < end1) { *tab++ = 0xff; start += 8; }`
def fillLoop (tab : Mem) (idx start end1 : Nat) : Mem × Nat × Nat :=
  if start < end1 then fillLoop (Function.update tab idx 0xff) (idx + 1) (start + 8) end1
  else (tab, idx, start)
termination_by end1 - start

-- `static inline void set_bits(uint8_t *tab, int start, int len)`, with `tab` the bitmap.
def set_bits (tab : Mem) (start len : Nat) : Mem :=
  let end_ := start + len
  let idx := start >>> 3
  let mask : BitVec 32 := (0xff : BitVec 32) <<< (start &&& 7)
  if clearLow3 start = clearLow3 end_ then
    if start < end_ then orByte tab idx (mask &&& ~~~((0xff : BitVec 32) <<< (end_ &&& 7))) else tab
  else
    let tab := orByte tab idx mask
    let (tab, idx, start) := fillLoop tab (idx + 1) (clearLow3 (start + 8)) (clearLow3 end_)
    if start < end_ then orByte tab idx (~~~((0xff : BitVec 32) <<< (end_ &&& 7))) else tab

-- Bit `i` of the bitmap: bit `i % 8` of byte `i / 8`.
def bit (tab : Mem) (i : Nat) : Bool := (tab (i / 8)).toBitVec.getLsbD (i % 8)

theorem clearLow3_eq (x : Nat) : clearLow3 x = x / 8 * 8 := by
  simp [clearLow3, Nat.shiftRight_eq_div_pow, Nat.shiftLeft_eq]

theorem and_seven (x : Nat) : x &&& 7 = x % 8 :=
  Nat.and_two_pow_sub_one_eq_mod x 3

theorem bit_orByte (tab : Mem) (idx : Nat) (mask : BitVec 32) (i : Nat) :
    bit (orByte tab idx mask) i =
      (bit tab i || (decide (i / 8 = idx) && mask.getLsbD (i % 8))) := by
  have hi : i % 8 < 8 := Nat.mod_lt i (by decide)
  unfold bit orByte
  by_cases h : i / 8 = idx
  · subst h
    simp [UInt8.toBitVec_or, hi]
  · simp [h]

theorem bit_update_ff (tab : Mem) (idx i : Nat) :
    bit (Function.update tab idx 0xff) i = (bit tab i || decide (i / 8 = idx)) := by
  have hi : i % 8 < 8 := Nat.mod_lt i (by decide)
  unfold bit
  by_cases h : i / 8 = idx
  · subst h
    have hff : ∀ j < 8, (0xff : UInt8).toBitVec.getLsbD j = true := by decide
    rw [Function.update_self, hff _ hi]
    simp
  · simp [h]

-- The bits of the three masks `set_bits` builds, within a byte.
theorem getLsbD_ff_shiftLeft {s j : Nat} (hj : j < 8) :
    ((0xff : BitVec 32) <<< s).getLsbD j = decide (s ≤ j) := by
  have h255 : (255 : Nat) = 2 ^ 8 - 1 := rfl
  rw [BitVec.getLsbD_shiftLeft, show (0xff : BitVec 32) = BitVec.ofNat 32 255 from rfl,
    BitVec.getLsbD_ofNat, h255, Nat.testBit_two_pow_sub_one]
  by_cases hs : s ≤ j <;> simp [hs] <;> omega

theorem getLsbD_not_ff_shiftLeft {e j : Nat} (hj : j < 8) :
    (~~~((0xff : BitVec 32) <<< e)).getLsbD j = decide (j < e) := by
  rw [BitVec.getLsbD_not, getLsbD_ff_shiftLeft hj]
  by_cases he : e ≤ j <;> simp [he] <;> omega

-- The loop fills whole bytes from `start` to `end1`, both on a byte boundary.
theorem fillLoop_spec (tab : Mem) (idx start end1 : Nat) (hstart : start = 8 * idx)
    (hend1 : end1 % 8 = 0) :
    (fillLoop tab idx start end1).2.2 = max start end1 ∧
      (fillLoop tab idx start end1).2.1 = max start end1 / 8 ∧
      ∀ i, bit (fillLoop tab idx start end1).1 i =
        (bit tab i || (decide (start ≤ i) && decide (i < end1))) := by
  fun_induction fillLoop tab idx start end1 with
  | case1 tab idx start hlt ih =>
      obtain ⟨hs, hidx, hbits⟩ := ih (by omega)
      refine ⟨by rw [hs]; omega, by rw [hidx]; omega, fun i => ?_⟩
      rw [hbits, bit_update_ff]
      by_cases h1 : i / 8 = idx <;> by_cases h2 : start ≤ i <;> by_cases h3 : i < end1 <;>
        by_cases h4 : start + 8 ≤ i <;> simp [h1, h2, h3, h4] <;> omega
  | case2 tab idx start hlt =>
      dsimp only
      refine ⟨by omega, by omega, fun i => ?_⟩
      by_cases h : i < end1 <;> simp [h] <;> omega

theorem or_congr_bool (b : Bool) {p q : Bool} (h : p = true ↔ q = true) :
    (b || p) = (b || q) := by
  rw [Bool.eq_iff_iff.mpr h]

-- `set_bits` sets exactly the bits `[start, start + len)`: the first byte from `start & 7` up,
-- the whole bytes between, and the last byte below `end & 7`.
theorem bit_set_bits (tab : Mem) (start len i : Nat) :
    bit (set_bits tab start len) i =
      (bit tab i || (decide (start ≤ i) && decide (i < start + len))) := by
  have hi : i % 8 < 8 := Nat.mod_lt i (by decide)
  have hidx : start >>> 3 = start / 8 := Nat.shiftRight_eq_div_pow start 3
  unfold set_bits
  simp only [clearLow3_eq, and_seven, hidx]
  by_cases hsame : start / 8 * 8 = (start + len) / 8 * 8
  · rw [if_pos hsame]
    split_ifs with hlt
    · -- one byte: the masks meet in `[start & 7, end & 7)`
      rw [bit_orByte, BitVec.getLsbD_and, getLsbD_ff_shiftLeft hi, getLsbD_not_ff_shiftLeft hi]
      apply or_congr_bool
      simp only [Bool.and_eq_true, decide_eq_true_eq]
      omega
    · have hlen : len = 0 := by omega
      simp [hlen]
  rw [if_neg hsame]
  obtain ⟨hst, hix, hbits⟩ := fillLoop_spec
    (orByte tab (start / 8) ((0xff : BitVec 32) <<< (start % 8))) (start / 8 + 1)
    ((start + 8) / 8 * 8) ((start + len) / 8 * 8) (by omega) (by omega)
  generalize fillLoop _ _ _ _ = r at hst hix hbits ⊢
  obtain ⟨tab', idx', start'⟩ := r
  dsimp only at hst hix hbits ⊢
  -- the loop stops at the last byte boundary, past the first byte
  rw [Nat.max_eq_right (by omega)] at hst hix
  subst hst hix
  split_ifs with hlast
  · -- the last byte holds the bits below `end & 7`
    rw [bit_orByte, hbits, bit_orByte, getLsbD_ff_shiftLeft hi, getLsbD_not_ff_shiftLeft hi]
    simp only [Bool.or_assoc]
    apply or_congr_bool
    simp only [Bool.or_eq_true, Bool.and_eq_true, decide_eq_true_eq]
    omega
  · rw [hbits, bit_orByte, getLsbD_ff_shiftLeft hi]
    simp only [Bool.or_assoc]
    apply or_congr_bool
    simp only [Bool.or_eq_true, Bool.and_eq_true, decide_eq_true_eq]
    omega

/-! ### Translation blocks and the page lists -/

-- The fields of a `TranslationBlock` that the page lists use; `tb_id` stands for its address.
structure TranslationBlock where
  tb_id : Nat
  pc : Nat
  size : UInt16
  page_addr : Fin 2 → tb_page_addr_t

-- An entry of a page list: the tagged pointer `tb | n`, `n` the TB's page that this page is.
abbrev PageEntry := TranslationBlock × Fin 2

structure PageDesc where
  first_tb : List PageEntry
  code_write_count : Nat
  code_bitmap : Option Mem

-- `l1_map`: the descriptors by page number; `none` where `page_find` returns `NULL`.
abbrev PageMap := Nat → Option PageDesc

-- `addr >> TARGET_PAGE_BITS`
def pageIndex (addr : tb_page_addr_t) : Nat := (addr >>> TARGET_PAGE_BITS).toNat

-- The bytes `[tb_start, tb_end)` of the page that `build_page_bitmap` marks for an entry, with
-- `x & ~TARGET_PAGE_MASK` the offset `x % TARGET_PAGE_SIZE` in the page.
def tbSpan (e : PageEntry) : Nat × Nat :=
  if e.2 = 0 then
    let tb_start := e.1.pc % TARGET_PAGE_SIZE
    let tb_end := tb_start + e.1.size.toNat
    (tb_start, if tb_end > TARGET_PAGE_SIZE then TARGET_PAGE_SIZE else tb_end)
  else (0, (e.1.pc + e.1.size.toNat) % TARGET_PAGE_SIZE)

-- `static void build_page_bitmap(PageDesc *p)`
def build_page_bitmap (p : PageDesc) : PageDesc :=
  { p with
    code_bitmap := some (p.first_tb.foldl
      (fun tab e => set_bits tab (tbSpan e).1 ((tbSpan e).2 - (tbSpan e).1)) fun _ => 0) }

-- `static inline void invalidate_page_bitmap(PageDesc *p)`
def invalidate_page_bitmap (p : PageDesc) : PageDesc :=
  { p with code_bitmap := none, code_write_count := 0 }

-- `static inline void tb_page_remove(TranslationBlock **ptb, TranslationBlock *tb)`: unlinks
-- the first entry of `tb`; a list without one is left as it is.
def tb_page_remove (first_tb : List PageEntry) (tb : TranslationBlock) : List PageEntry :=
  first_tb.eraseP fun e => e.1.tb_id = tb.tb_id

-- `p = page_find(addr >> TARGET_PAGE_BITS); tb_page_remove(&p->first_tb, tb);
-- invalidate_page_bitmap(p);`
def removeFromPage (pages : PageMap) (addr : tb_page_addr_t) (tb : TranslationBlock) : PageMap :=
  match pages (pageIndex addr) with
  | none => pages
  | some p =>
      Function.update pages (pageIndex addr)
        (some (invalidate_page_bitmap { p with first_tb := tb_page_remove p.first_tb tb }))

-- `void tb_phys_invalidate(TranslationBlock *tb, tb_page_addr_t page_addr)`: its page lists.
def tb_phys_invalidate (pages : PageMap) (tb : TranslationBlock) (page_addr : tb_page_addr_t) :
    PageMap :=
  let pages :=
    if tb.page_addr 0 ≠ page_addr then removeFromPage pages (tb.page_addr 0) tb else pages
  if tb.page_addr 1 ≠ -1 ∧ tb.page_addr 1 ≠ page_addr then
    removeFromPage pages (tb.page_addr 1) tb
  else pages

-- The test of `tb_invalidate_phys_page_range` whether an entry's TB meets `[start, end)`.
def tbOverlaps (e : PageEntry) (start end_ : tb_page_addr_t) : Bool :=
  let tb_start := if e.2 = 0 then e.1.page_addr 0 + BitVec.ofNat 64 (e.1.pc % TARGET_PAGE_SIZE)
    else e.1.page_addr 1
  let tb_end := if e.2 = 0 then tb_start + BitVec.ofNat 64 e.1.size.toNat
    else tb_start + BitVec.ofNat 64 ((e.1.pc + e.1.size.toNat) % TARGET_PAGE_SIZE)
  !(decide (tb_end ≤ start) || decide (tb_start ≥ end_))

-- The loop of `tb_invalidate_phys_page_range` over the page's list.
def invalidateLoop (pages : PageMap) (start end_ : tb_page_addr_t) : List PageEntry → PageMap
  | [] => pages
  | e :: rest =>
      invalidateLoop (if tbOverlaps e start end_ then tb_phys_invalidate pages e.1 (-1) else pages)
        start end_ rest

-- `if (!p->code_bitmap && ++p->code_write_count >= SMC_BITMAP_USE_THRESHOLD &&
-- is_cpu_write_access) build_page_bitmap(p);`
def count_code_write (p : PageDesc) (is_cpu_write_access : Bool) : PageDesc :=
  match p.code_bitmap with
  | some _ => p
  | none =>
      let p := { p with code_write_count := p.code_write_count + 1 }
      if p.code_write_count ≥ SMC_BITMAP_USE_THRESHOLD ∧ is_cpu_write_access then
        build_page_bitmap p
      else p

-- `if (!p->first_tb) invalidate_page_bitmap(p);`
def drop_empty_bitmap (pages : PageMap) (index : Nat) : PageMap :=
  match pages index with
  | some p =>
      if p.first_tb = [] then Function.update pages index (some (invalidate_page_bitmap p))
      else pages
  | none => pages

-- `void tb_invalidate_phys_page_range(tb_page_addr_t start, tb_page_addr_t end,
-- int is_cpu_write_access)`, its page lists and bitmaps.
def tb_invalidate_phys_page_range (pages : PageMap) (start end_ : tb_page_addr_t)
    (is_cpu_write_access : Bool) : PageMap :=
  match pages (pageIndex start) with
  | none => pages
  | some p =>
      let p := count_code_write p is_cpu_write_access
      let pages := invalidateLoop (Function.update pages (pageIndex start) (some p)) start end_
        p.first_tb
      -- if no code remaining, no need to continue to use slow writes
      drop_empty_bitmap pages (pageIndex start)

-- `void tb_invalidate_phys_page_fast(tb_page_addr_t start, int len)`
def tb_invalidate_phys_page_fast (pages : PageMap) (start : tb_page_addr_t) (len : Nat) :
    PageMap :=
  match pages (pageIndex start) with
  | none => pages
  | some p =>
      match p.code_bitmap with
      | some code_bitmap =>
          let offset := (start &&& ~~~TARGET_PAGE_MASK).toNat
          let b := (code_bitmap (offset >>> 3)).toNat >>> (offset &&& 7)
          if b &&& ((1 <<< len) - 1) ≠ 0 then
            tb_invalidate_phys_page_range pages start (start + BitVec.ofNat 64 len) true
          else pages
      | none => tb_invalidate_phys_page_range pages start (start + BitVec.ofNat 64 len) true

-- `page_find_alloc(index, 1)`: a zeroed descriptor where there was none.
def page_find_alloc (pages : PageMap) (index : Nat) : PageDesc :=
  (pages index).getD ⟨[], 0, none⟩

-- `static inline void tb_alloc_page(TranslationBlock *tb, unsigned int n,
-- tb_page_addr_t page_addr)`, called with `tb->page_addr[n]` already `page_addr`.
def tb_alloc_page (pages : PageMap) (tb : TranslationBlock) (n : Fin 2)
    (page_addr : tb_page_addr_t) : PageMap :=
  let p := page_find_alloc pages (pageIndex page_addr)
  Function.update pages (pageIndex page_addr)
    (some (invalidate_page_bitmap { p with first_tb := (tb, n) :: p.first_tb }))

-- `static void tb_link_page(TranslationBlock *tb, tb_page_addr_t phys_pc,
-- tb_page_addr_t phys_page2)`, its page lists: the TB is linked with both `page_addr` set.
def tb_link_page (pages : PageMap) (tb : TranslationBlock) (phys_pc phys_page2 : tb_page_addr_t) :
    PageMap :=
  let tb := { tb with page_addr := ![phys_pc &&& TARGET_PAGE_MASK, phys_page2] }
  let pages := tb_alloc_page pages tb 0 (phys_pc &&& TARGET_PAGE_MASK)
  if phys_page2 ≠ -1 then tb_alloc_page pages tb 1 phys_page2 else pages

-- `static void page_flush_tb(void)`
def page_flush_tb (pages : PageMap) : PageMap :=
  fun index => (pages index).map fun p => invalidate_page_bitmap { p with first_tb := [] }

/-! ### The bitmap covers every TB of its page -/

-- Every byte `build_page_bitmap` marks for an entry of the list is set.
def Covers (tab : Mem) (first_tb : List PageEntry) : Prop :=
  ∀ e ∈ first_tb, ∀ i, (tbSpan e).1 ≤ i → i < (tbSpan e).2 → bit tab i = true

-- An entry linked into page `index`: the TB's address for that page is the page's, and the TB
-- holds code (`1 <= size`, as `TranslationBlock` documents).
structure Linked (index : Nat) (e : PageEntry) : Prop where
  aligned : (e.1.page_addr e.2).toNat % TARGET_PAGE_SIZE = 0
  index_eq : pageIndex (e.1.page_addr e.2) = index
  size_pos : 1 ≤ e.1.size.toNat

structure PageInv (index : Nat) (p : PageDesc) : Prop where
  linked : ∀ e ∈ p.first_tb, Linked index e
  covers : ∀ tab, p.code_bitmap = some tab → Covers tab p.first_tb

def PagesInv (pages : PageMap) : Prop := ∀ index p, pages index = some p → PageInv index p

theorem bit_set_bits_of_bit {tab : Mem} {i : Nat} (h : bit tab i = true) (start len : Nat) :
    bit (set_bits tab start len) i = true := by
  rw [bit_set_bits, h, Bool.true_or]

-- The fold of `build_page_bitmap` keeps what is set and marks every entry it passes.
theorem bit_foldl_set_bits (first_tb : List PageEntry) {tab : Mem} {i : Nat}
    (h : bit tab i = true) :
    bit (first_tb.foldl (fun tab e => set_bits tab (tbSpan e).1 ((tbSpan e).2 - (tbSpan e).1)) tab)
      i = true := by
  induction first_tb generalizing tab with
  | nil => exact h
  | cons e rest ih => exact ih (bit_set_bits_of_bit h _ _)

theorem covers_foldl_set_bits (first_tb : List PageEntry) (tab : Mem) :
    Covers (first_tb.foldl (fun tab e => set_bits tab (tbSpan e).1 ((tbSpan e).2 - (tbSpan e).1))
      tab) first_tb := by
  induction first_tb generalizing tab with
  | nil => intro e he; simp at he
  | cons e rest ih =>
      intro e' he' i hlo hhi
      rw [List.foldl_cons]
      rcases List.mem_cons.mp he' with rfl | hrest
      · apply bit_foldl_set_bits
        rw [bit_set_bits]
        simp only [Bool.or_eq_true, Bool.and_eq_true, decide_eq_true_eq]
        omega
      · exact ih _ e' hrest i hlo hhi

theorem PageInv.build {index : Nat} {p : PageDesc} (h : PageInv index p) :
    PageInv index (build_page_bitmap p) where
  linked := h.linked
  covers tab htab := by
    cases htab
    exact covers_foldl_set_bits p.first_tb _

-- A page without a bitmap needs only its entries linked.
theorem PageInv.of_none {index : Nat} {p : PageDesc}
    (hlinked : ∀ e ∈ p.first_tb, Linked index e)
    (hnone : p.code_bitmap = none) : PageInv index p where
  linked := hlinked
  covers tab htab := by rw [hnone] at htab; cases htab

theorem PagesInv.update {pages : PageMap} (h : PagesInv pages) {index : Nat} {p : PageDesc}
    (hp : PageInv index p) : PagesInv (Function.update pages index (some p)) := by
  intro index' p' hp'
  by_cases hi : index' = index
  · subst hi
    rw [Function.update_self, Option.some.injEq] at hp'
    exact hp' ▸ hp
  · rw [Function.update_of_ne hi] at hp'
    exact h index' p' hp'

theorem pagesInv_removeFromPage {pages : PageMap} (h : PagesInv pages) (addr : tb_page_addr_t)
    (tb : TranslationBlock) : PagesInv (removeFromPage pages addr tb) := by
  unfold removeFromPage
  split
  · exact h
  · rename_i p hp
    refine h.update (PageInv.of_none (fun e he => (h _ p hp).linked e ?_) rfl)
    exact List.mem_of_mem_eraseP he

theorem pagesInv_tb_phys_invalidate {pages : PageMap} (h : PagesInv pages) (tb : TranslationBlock)
    (page_addr : tb_page_addr_t) : PagesInv (tb_phys_invalidate pages tb page_addr) := by
  have h0 : PagesInv (if tb.page_addr 0 ≠ page_addr then removeFromPage pages (tb.page_addr 0) tb
      else pages) := by
    split_ifs
    · exact pagesInv_removeFromPage h _ tb
    · exact h
  unfold tb_phys_invalidate
  dsimp only
  by_cases h1 : tb.page_addr 1 ≠ -1 ∧ tb.page_addr 1 ≠ page_addr
  · rw [if_pos h1]
    exact pagesInv_removeFromPage h0 _ tb
  · rw [if_neg h1]
    exact h0

theorem pagesInv_invalidateLoop {pages : PageMap} (h : PagesInv pages) (start end_ : tb_page_addr_t)
    (first_tb : List PageEntry) : PagesInv (invalidateLoop pages start end_ first_tb) := by
  induction first_tb generalizing pages with
  | nil => exact h
  | cons e rest ih =>
      apply ih
      split_ifs
      · exact pagesInv_tb_phys_invalidate h e.1 (-1)
      · exact h

theorem PageInv.counted {index : Nat} {p : PageDesc} (h : PageInv index p)
    (is_cpu_write_access : Bool) : PageInv index (count_code_write p is_cpu_write_access) := by
  unfold count_code_write
  split
  · exact h
  · rename_i hnone
    have hcount : PageInv index { p with code_write_count := p.code_write_count + 1 } :=
      PageInv.of_none h.linked hnone
    dsimp only
    split_ifs
    · exact hcount.build
    · exact hcount

theorem pagesInv_drop_empty_bitmap {pages : PageMap} (h : PagesInv pages) (index : Nat) :
    PagesInv (drop_empty_bitmap pages index) := by
  unfold drop_empty_bitmap
  split
  · rename_i p hp
    split_ifs with hempty
    · refine h.update (PageInv.of_none ?_ rfl)
      intro e he
      simp only [invalidate_page_bitmap, hempty] at he
      exact absurd he List.not_mem_nil
    · exact h
  · exact h

theorem pagesInv_tb_invalidate_phys_page_range {pages : PageMap} (h : PagesInv pages)
    (start end_ : tb_page_addr_t) (is_cpu_write_access : Bool) :
    PagesInv (tb_invalidate_phys_page_range pages start end_ is_cpu_write_access) := by
  unfold tb_invalidate_phys_page_range
  split
  · exact h
  · rename_i p hp
    exact pagesInv_drop_empty_bitmap (pagesInv_invalidateLoop
      (h.update ((h _ p hp).counted is_cpu_write_access)) start end_ _) _

theorem pagesInv_tb_invalidate_phys_page_fast {pages : PageMap} (h : PagesInv pages)
    (start : tb_page_addr_t) (len : Nat) :
    PagesInv (tb_invalidate_phys_page_fast pages start len) := by
  unfold tb_invalidate_phys_page_fast
  split
  · exact h
  · split
    · dsimp only
      split_ifs
      · exact pagesInv_tb_invalidate_phys_page_range h _ _ true
      · exact h
    · exact pagesInv_tb_invalidate_phys_page_range h _ _ true

theorem page_find_alloc_linked {pages : PageMap} (h : PagesInv pages) (index : Nat) :
    ∀ e ∈ (page_find_alloc pages index).first_tb, Linked index e := by
  unfold page_find_alloc
  cases hp : pages index with
  | none => simp
  | some p => exact (h index p hp).linked

theorem pagesInv_tb_alloc_page {pages : PageMap} (h : PagesInv pages) {tb : TranslationBlock}
    {n : Fin 2} {page_addr : tb_page_addr_t} (hlink : Linked (pageIndex page_addr) (tb, n)) :
    PagesInv (tb_alloc_page pages tb n page_addr) := by
  refine h.update (PageInv.of_none ?_ rfl)
  intro e he
  rcases List.mem_cons.mp he with rfl | hold
  · exact hlink
  · exact page_find_alloc_linked h _ e hold

theorem pageIndex_eq (addr : tb_page_addr_t) : pageIndex addr = addr.toNat / TARGET_PAGE_SIZE := by
  rw [pageIndex, BitVec.toNat_ushiftRight, Nat.shiftRight_eq_div_pow]
  rfl

-- `phys_pc & TARGET_PAGE_MASK` is the address of a page.
theorem and_page_mask_aligned (x : tb_page_addr_t) :
    (x &&& TARGET_PAGE_MASK).toNat % TARGET_PAGE_SIZE = 0 := by
  apply Nat.eq_of_testBit_eq
  intro i
  rw [show TARGET_PAGE_SIZE = 2 ^ 12 from rfl, Nat.testBit_mod_two_pow, Nat.zero_testBit,
    BitVec.testBit_toNat, BitVec.getLsbD_and, TARGET_PAGE_MASK, BitVec.getLsbD_not,
    BitVec.getLsbD_ofNat, show TARGET_PAGE_SIZE - 1 = 2 ^ 12 - 1 from rfl,
    Nat.testBit_two_pow_sub_one]
  by_cases hi : i < 12 <;> simp [hi]

theorem pagesInv_tb_link_page {pages : PageMap} (h : PagesInv pages) (tb : TranslationBlock)
    (phys_pc phys_page2 : tb_page_addr_t) (hsize : 1 ≤ tb.size.toNat)
    (hpage2 : phys_page2 = -1 ∨ phys_page2.toNat % TARGET_PAGE_SIZE = 0) :
    PagesInv (tb_link_page pages tb phys_pc phys_page2) := by
  have hlink0 : Linked (pageIndex (phys_pc &&& TARGET_PAGE_MASK))
      ({ tb with page_addr := ![phys_pc &&& TARGET_PAGE_MASK, phys_page2] }, 0) :=
    ⟨and_page_mask_aligned phys_pc, rfl, hsize⟩
  have h0 := pagesInv_tb_alloc_page h hlink0
  unfold tb_link_page
  dsimp only
  split_ifs with h2
  · exact pagesInv_tb_alloc_page h0 ⟨hpage2.resolve_left h2, rfl, hsize⟩
  · exact h0

theorem pagesInv_page_flush_tb (pages : PageMap) : PagesInv (page_flush_tb pages) := by
  intro index p hp
  unfold page_flush_tb at hp
  obtain ⟨p0, -, rfl⟩ := Option.map_eq_some_iff.mp hp
  exact PageInv.of_none (fun e he => absurd he List.not_mem_nil) rfl

/-! ### The fast path sees every write that meets a TB -/

theorem offset_toNat (start : tb_page_addr_t) :
    (start &&& ~~~TARGET_PAGE_MASK).toNat = start.toNat % TARGET_PAGE_SIZE := by
  rw [TARGET_PAGE_MASK, BitVec.not_not, BitVec.toNat_and, BitVec.toNat_ofNat]
  exact Nat.and_two_pow_sub_one_eq_mod _ 12

-- A TB that `tb_invalidate_phys_page_range` finds overlapping `[start, start + len)` has a
-- byte of its span among the `len` bytes from `start`'s offset. Both sums can wrap at `2^64`,
-- but a wrapped end only makes the test fail.
theorem overlap_mem_span {start : tb_page_addr_t} {len : Nat} {e : PageEntry}
    (hlink : Linked (pageIndex start) e) (hlen : 1 ≤ len)
    (hov : tbOverlaps e start (start + BitVec.ofNat 64 len)) :
    ∃ j < len, (tbSpan e).1 ≤ start.toNat % TARGET_PAGE_SIZE + j ∧
      start.toNat % TARGET_PAGE_SIZE + j < (tbSpan e).2 := by
  obtain ⟨tb, n⟩ := e
  obtain ⟨haligned, hindex, hsize⟩ := hlink
  dsimp only at haligned hindex hsize
  rw [pageIndex_eq, pageIndex_eq] at hindex
  have hps : TARGET_PAGE_SIZE = 4096 := rfl
  have hs := tb.size.toNat_lt
  have hbase := (tb.page_addr n).isLt
  have hstart := start.isLt
  by_cases hn : n = 0
  · subst hn
    simp only [tbOverlaps, tbSpan, if_true, Bool.not_eq_true', Bool.or_eq_false_iff,
      decide_eq_false_iff_not, BitVec.not_le, ge_iff_le, BitVec.lt_def, BitVec.toNat_add,
      BitVec.toNat_ofNat, hps] at hov haligned hindex ⊢
    obtain ⟨hlo, hhi⟩ := hov
    -- the byte at the larger of the two offsets is in both
    refine ⟨max (start.toNat % 4096) (tb.pc % 4096) - start.toNat % 4096, ?_, ?_⟩
    · omega
    · split_ifs <;> omega
  · have hn1 : n = 1 := by omega
    subst hn1
    simp only [tbOverlaps, tbSpan, show (1 : Fin 2) ≠ 0 by decide, if_false, Bool.not_eq_true',
      Bool.or_eq_false_iff, decide_eq_false_iff_not, BitVec.not_le, ge_iff_le, BitVec.lt_def,
      BitVec.toNat_add, BitVec.toNat_ofNat, hps] at hov haligned hindex ⊢
    obtain ⟨hlo, -⟩ := hov
    -- on its second page a TB starts at the page start
    exact ⟨0, by omega, by omega, by omega⟩

-- The fast path's test of byte `offset >> 3` shifted by `offset & 7` against `len` ones sees the
-- bits `[offset, offset + len)`: an aligned store of 1, 2, 4 or 8 bytes stays in one byte.
theorem fast_test_ne_zero {tab : Mem} {offset len j : Nat}
    (hlen : len = 1 ∨ len = 2 ∨ len = 4 ∨ len = 8) (halign : offset % len = 0) (hj : j < len)
    (hbit : bit tab (offset + j) = true) :
    (tab (offset >>> 3)).toNat >>> (offset &&& 7) &&& ((1 <<< len) - 1) ≠ 0 := by
  have hlow : offset % 8 + j < 8 := by rcases hlen with rfl | rfl | rfl | rfl <;> omega
  unfold bit at hbit
  rw [show (offset + j) / 8 = offset / 8 by omega, show (offset + j) % 8 = offset % 8 + j by omega,
    ← BitVec.testBit_toNat, UInt8.toNat_toBitVec] at hbit
  rw [show offset >>> 3 = offset / 8 from Nat.shiftRight_eq_div_pow offset 3, and_seven]
  intro h0
  have hb := congrArg (Nat.testBit · j) h0
  simp only [Nat.testBit_and, Nat.testBit_shiftRight, Nat.shiftLeft_eq, Nat.one_mul,
    Nat.testBit_two_pow_sub_one, Nat.zero_testBit, hbit, hj, decide_true, Bool.and_self] at hb
  exact absurd hb (by decide)

-- In a state where the invariant holds, a store that `tb_invalidate_phys_page_range` would
-- find overlapping a TB of its page takes the fast path to that same call.
theorem tb_invalidate_phys_page_fast_of_overlap {pages : PageMap} (hinv : PagesInv pages)
    {start : tb_page_addr_t} {len : Nat} (hlen : len = 1 ∨ len = 2 ∨ len = 4 ∨ len = 8)
    (halign : start.toNat % len = 0) {p : PageDesc} (hp : pages (pageIndex start) = some p)
    {e : PageEntry} (he : e ∈ p.first_tb)
    (hov : tbOverlaps e start (start + BitVec.ofNat 64 len)) :
    tb_invalidate_phys_page_fast pages start len =
      tb_invalidate_phys_page_range pages start (start + BitVec.ofNat 64 len) true := by
  have hpos : 1 ≤ len := by omega
  obtain ⟨j, hj, hlo, hhi⟩ := overlap_mem_span ((hinv _ p hp).linked e he) hpos hov
  have hoff : start.toNat % TARGET_PAGE_SIZE % len = 0 := by
    rw [show TARGET_PAGE_SIZE = 4096 from rfl]
    rcases hlen with rfl | rfl | rfl | rfl <;> omega
  unfold tb_invalidate_phys_page_fast
  rw [hp]
  dsimp only
  cases hbm : p.code_bitmap with
  | none => rfl
  | some tab =>
      have hbit := (hinv _ p hp).covers tab hbm e he _ hlo hhi
      dsimp only
      rw [offset_toNat, if_pos (fast_test_ne_zero hlen hoff hj hbit)]

/-! ### Runs -/

-- The calls that change the page lists and bitmaps.
inductive TbOp where
  | link (tb : TranslationBlock) (phys_pc phys_page2 : tb_page_addr_t)
  | phys_invalidate (tb : TranslationBlock) (page_addr : tb_page_addr_t)
  | invalidate_range (start end_ : tb_page_addr_t) (is_cpu_write_access : Bool)
  | invalidate_fast (start : tb_page_addr_t) (len : Nat)
  | flush

def TbOp.exec (pages : PageMap) : TbOp → PageMap
  | .link tb phys_pc phys_page2 => tb_link_page pages tb phys_pc phys_page2
  | .phys_invalidate tb page_addr => tb_phys_invalidate pages tb page_addr
  | .invalidate_range start end_ is_cpu_write_access =>
      tb_invalidate_phys_page_range pages start end_ is_cpu_write_access
  | .invalidate_fast start len => tb_invalidate_phys_page_fast pages start len
  | .flush => page_flush_tb pages

-- What `tb_gen_code` passes to `tb_link_page`: a TB with code, and a second page that is
-- `-1` or the address of a page.
def TbOp.Valid : TbOp → Prop
  | .link tb _ phys_page2 =>
      1 ≤ tb.size.toNat ∧ (phys_page2 = -1 ∨ phys_page2.toNat % TARGET_PAGE_SIZE = 0)
  | _ => True

def runOps (pages : PageMap) (ops : List TbOp) : PageMap := ops.foldl TbOp.exec pages

theorem pagesInv_exec {pages : PageMap} (h : PagesInv pages) (op : TbOp) (hop : op.Valid) :
    PagesInv (op.exec pages) := by
  cases op with
  | link tb phys_pc phys_page2 => exact pagesInv_tb_link_page h tb phys_pc phys_page2 hop.1 hop.2
  | phys_invalidate tb page_addr => exact pagesInv_tb_phys_invalidate h tb page_addr
  | invalidate_range start end_ is_cpu_write_access =>
      exact pagesInv_tb_invalidate_phys_page_range h start end_ is_cpu_write_access
  | invalidate_fast start len => exact pagesInv_tb_invalidate_phys_page_fast h start len
  | flush => exact pagesInv_page_flush_tb pages

theorem pagesInv_runOps {pages : PageMap} (h : PagesInv pages) (ops : List TbOp)
    (hops : ∀ op ∈ ops, op.Valid) : PagesInv (runOps pages ops) := by
  induction ops generalizing pages with
  | nil => exact h
  | cons op ops ih =>
      exact ih (pagesInv_exec h op (hops op List.mem_cons_self))
        fun op' h' => hops op' (List.mem_cons_of_mem op h')

-- Whenever a page has a bitmap, it marks every byte of every TB on the page's list.
def BitmapCovers (pages : PageMap) : Prop :=
  ∀ index p tab, pages index = some p → p.code_bitmap = some tab → Covers tab p.first_tb

-- An aligned store of 1, 2, 4 or 8 bytes that `tb_invalidate_phys_page_range` would find
-- overlapping a TB of its page takes the fast path to that same call.
def FastPathComplete (pages : PageMap) : Prop :=
  ∀ (start : tb_page_addr_t) (len : Nat), (len = 1 ∨ len = 2 ∨ len = 4 ∨ len = 8) →
    start.toNat % len = 0 →
    (∃ p, pages (pageIndex start) = some p ∧
      ∃ e ∈ p.first_tb, tbOverlaps e start (start + BitVec.ofNat 64 len)) →
    tb_invalidate_phys_page_fast pages start len =
      tb_invalidate_phys_page_range pages start (start + BitVec.ofNat 64 len) true

theorem PagesInv.fastPathComplete {pages : PageMap} (hinv : PagesInv pages) :
    FastPathComplete pages := by
  rintro start len hlen halign ⟨p, hp, e, he, hov⟩
  exact tb_invalidate_phys_page_fast_of_overlap hinv hlen halign hp he hov

theorem tb_invalidate_phys_page_fast_complete (ops : List TbOp) (hops : ∀ op ∈ ops, op.Valid) :
    BitmapCovers (runOps (fun _ => none) ops) ∧
      FastPathComplete (runOps (fun _ => none) ops) := by
  have hinv := pagesInv_runOps (fun _ _ hp => absurd hp (Option.some_ne_none _).symm) ops hops
  exact ⟨fun index p tab hp htab => (hinv index p hp).covers tab htab, hinv.fastPathComplete⟩

-- A TB of 32 bytes from `0x1ff0`, across the pages at `0x1000` and `0x5000`, then a store.
def twoPageOps : List TbOp :=
  [.link ⟨0, 0x1ff0, 32, fun _ => 0⟩ 0x1ff0 0x5000, .invalidate_fast 0x5008 4]

theorem tb_invalidate_phys_page_fast_complete_two_pages :
    (∀ op ∈ twoPageOps, op.Valid) ∧
      BitmapCovers (runOps (fun _ => none) twoPageOps) ∧
      FastPathComplete (runOps (fun _ => none) twoPageOps) := by
  have hops : ∀ op ∈ twoPageOps, op.Valid := by
    intro op hop
    rcases List.mem_pair.mp hop with rfl | rfl
    · exact ⟨by decide, .inr (by decide)⟩
    · trivial
  exact ⟨hops, tb_invalidate_phys_page_fast_complete twoPageOps hops⟩

end Qemu.TranslateAll

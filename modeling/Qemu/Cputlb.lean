import Qemu.Lib.PrefixMask

/-!
The software TLB of one CPU (`cputlb.c`): a table per MMU mode of `CPU_TLB_SIZE` entries
indexed by the page number, each mapping one `TARGET_PAGE_SIZE` page. Large pages are mapped
one small page at a time, so the CPU also keeps one aligned region, `tlb_flush_addr` under
`tlb_flush_mask`, that covers every large page mapped since the last full flush;
`tlb_flush_page` flushes everything when its address falls in that region. `target_ulong`
is a word of `w` bits; `TARGET_PAGE_BITS`, `CPU_TLB_BITS` and `NB_MMU_MODES` are those of
the i386 target. The physical side of an entry (`addend`, `iotlb`) and the jump cache are
left out.
-/

namespace Qemu.Cputlb

open PrefixMask

def TARGET_PAGE_BITS : Nat := 12

def CPU_TLB_BITS : Nat := 8

def CPU_TLB_SIZE : Nat := 1 <<< CPU_TLB_BITS

def NB_MMU_MODES : Nat := 3

def PAGE_READ : Nat := 0x0001

def PAGE_WRITE : Nat := 0x0002

def PAGE_EXEC : Nat := 0x0004

variable {w : Nat}

-- `(1 << TARGET_PAGE_BITS)`, an `int` compared with a `target_ulong`.
def TARGET_PAGE_SIZE : BitVec w := BitVec.ofNat w (1 <<< TARGET_PAGE_BITS)

-- `~(TARGET_PAGE_SIZE - 1)`, an `int` widened to `target_ulong`.
def TARGET_PAGE_MASK : BitVec w := ~~~(BitVec.ofNat w ((1 <<< TARGET_PAGE_BITS) - 1))

def TLB_INVALID_MASK : BitVec w := BitVec.ofNat w (1 <<< 3)

def TLB_NOTDIRTY : BitVec w := BitVec.ofNat w (1 <<< 4)

def TLB_MMIO : BitVec w := BitVec.ofNat w (1 <<< 5)

structure CPUTLBEntry (w : Nat) where
  addr_read : BitVec w
  addr_write : BitVec w
  addr_code : BitVec w

-- `s_cputlb_empty_entry`: every address `-1`.
def s_cputlb_empty_entry : CPUTLBEntry w := ⟨-1, -1, -1⟩

structure CPUArchState (w : Nat) where
  tlb_table : Fin NB_MMU_MODES → Fin CPU_TLB_SIZE → CPUTLBEntry w
  tlb_flush_addr : BitVec w
  tlb_flush_mask : BitVec w

-- `(vaddr >> TARGET_PAGE_BITS) & (CPU_TLB_SIZE - 1)`
def tlb_index (vaddr : BitVec w) : Fin CPU_TLB_SIZE :=
  ⟨((vaddr >>> TARGET_PAGE_BITS) &&& BitVec.ofNat w (CPU_TLB_SIZE - 1)).toNat, by
    rw [BitVec.toNat_and, BitVec.toNat_ofNat]
    have h := Nat.and_le_right (n := (vaddr >>> TARGET_PAGE_BITS).toNat)
      (m := (CPU_TLB_SIZE - 1) % 2 ^ w)
    have h' := Nat.mod_le (CPU_TLB_SIZE - 1) (2 ^ w)
    have hs : CPU_TLB_SIZE = 256 := rfl
    omega⟩

-- `void tlb_flush(CPUArchState *env, int flush_global)`: every entry of every mode is
-- emptied and the large-page region is reset to none.
def tlb_flush (env : CPUArchState w) : CPUArchState w :=
  { env with
    tlb_table := fun _ _ => s_cputlb_empty_entry
    tlb_flush_addr := -1
    tlb_flush_mask := 0 }

-- The test of `tlb_flush_entry`: one of the entry's addresses, with its flags below the page
-- cleared but `TLB_INVALID_MASK` kept, is `addr`.
def ValidFor (e : CPUTLBEntry w) (addr : BitVec w) : Prop :=
  addr = e.addr_read &&& (TARGET_PAGE_MASK ||| TLB_INVALID_MASK) ∨
    addr = e.addr_write &&& (TARGET_PAGE_MASK ||| TLB_INVALID_MASK) ∨
    addr = e.addr_code &&& (TARGET_PAGE_MASK ||| TLB_INVALID_MASK)

instance (e : CPUTLBEntry w) (addr : BitVec w) : Decidable (ValidFor e addr) :=
  inferInstanceAs (Decidable (_ ∨ _ ∨ _))

-- `static inline void tlb_flush_entry(CPUTLBEntry *tlb_entry, target_ulong addr)`
def tlb_flush_entry (tlb_entry : CPUTLBEntry w) (addr : BitVec w) : CPUTLBEntry w :=
  if ValidFor tlb_entry addr then s_cputlb_empty_entry else tlb_entry

-- `void tlb_flush_page(CPUArchState *env, target_ulong addr)`
def tlb_flush_page (env : CPUArchState w) (addr : BitVec w) : CPUArchState w :=
  -- Check if we need to flush due to large pages.
  if addr &&& env.tlb_flush_mask = env.tlb_flush_addr then tlb_flush env
  else
    let addr := addr &&& TARGET_PAGE_MASK
    let i := tlb_index addr
    { env with
      tlb_table := fun mmu_idx j =>
        if j = i then tlb_flush_entry (env.tlb_table mmu_idx j) addr else env.tlb_table mmu_idx j }

-- `while (((env->tlb_flush_addr ^ vaddr) & mask) != 0) { mask <<= 1; }`, for at most `n`
-- rounds; `w` rounds shift every bit out.
def widenMask (x : BitVec w) : Nat → BitVec w → BitVec w
  | 0, mask => mask
  | n + 1, mask => if x &&& mask ≠ 0 then widenMask x n (mask <<< 1) else mask

-- `static void tlb_add_large_page(CPUArchState *env, target_ulong vaddr, target_ulong size)`
def tlb_add_large_page (env : CPUArchState w) (vaddr size : BitVec w) : CPUArchState w :=
  let mask := ~~~(size - 1)
  if env.tlb_flush_addr = -1 then
    { env with tlb_flush_addr := vaddr &&& mask, tlb_flush_mask := mask }
  else
    -- Extend the existing region to include the new page.
    let mask := widenMask (env.tlb_flush_addr ^^^ vaddr) (w + 1) (mask &&& env.tlb_flush_mask)
    { env with tlb_flush_addr := env.tlb_flush_addr &&& mask, tlb_flush_mask := mask }

-- What `tlb_set_page` learns of the memory at `paddr`: `memory_region_is_ram`,
-- `memory_region_is_romd`, `section->readonly`, `cpu_physical_memory_is_dirty` of the page,
-- and whether `memory_region_section_get_iotlb` routes it to a watchpoint (which sets
-- `TLB_MMIO` in `address`).
structure MemoryRegionSection where
  ram : Bool
  romd : Bool
  readonly : Bool
  dirty : Bool
  watch : Bool

-- `void tlb_set_page(CPUArchState *env, target_ulong vaddr, hwaddr paddr, int prot,
-- int mmu_idx, target_ulong size)`, with `sect` for the section found at `paddr`; `none` is
-- the failed `assert(size >= TARGET_PAGE_SIZE)`.
def tlb_set_page (env : CPUArchState w) (vaddr : BitVec w) (sect : MemoryRegionSection)
    (prot : Nat) (mmu_idx : Fin NB_MMU_MODES) (size : BitVec w) : Option (CPUArchState w) :=
  if size < TARGET_PAGE_SIZE then none
  else
    let env := if size ≠ TARGET_PAGE_SIZE then tlb_add_large_page env vaddr size else env
    -- IO memory case (romd handled later)
    let address := if !(sect.ram || sect.romd) then vaddr ||| TLB_MMIO else vaddr
    let code_address := address
    let address := if sect.watch then address ||| TLB_MMIO else address
    let index := tlb_index vaddr
    let te : CPUTLBEntry w :=
      { addr_read := if prot &&& PAGE_READ ≠ 0 then address else -1
        addr_write :=
          if prot &&& PAGE_WRITE ≠ 0 then
            -- Write access calls the I/O callback.
            if (sect.ram && sect.readonly) || sect.romd then address ||| TLB_MMIO
            else if sect.ram && !sect.dirty then address ||| TLB_NOTDIRTY
            else address
          else -1
        addr_code := if prot &&& PAGE_EXEC ≠ 0 then code_address else -1 }
    some { env with
      tlb_table := Function.update env.tlb_table mmu_idx
        (Function.update (env.tlb_table mmu_idx) index te) }

-- The hit test of the softmmu load and store helpers (`softmmu_template.h`): the entry's
-- address `tlb_addr` maps the page of `addr`, with `TLB_INVALID_MASK` clear.
def tlb_hit (tlb_addr addr : BitVec w) : Prop :=
  addr &&& TARGET_PAGE_MASK = tlb_addr &&& (TARGET_PAGE_MASK ||| TLB_INVALID_MASK)

-- An entry maps `addr` for reads, writes or code.
def EntryHit (e : CPUTLBEntry w) (addr : BitVec w) : Prop :=
  tlb_hit e.addr_read addr ∨ tlb_hit e.addr_write addr ∨ tlb_hit e.addr_code addr

/-! ### Page masks and the slot of a page -/

theorem TARGET_PAGE_MASK_eq : (TARGET_PAGE_MASK : BitVec w) = pmask w TARGET_PAGE_BITS := by
  apply BitVec.eq_of_getLsbD_eq
  intro i hi
  rw [TARGET_PAGE_MASK, BitVec.getLsbD_not, BitVec.getLsbD_ofNat, Nat.shiftLeft_eq, Nat.one_mul,
    Nat.testBit_two_pow_sub_one, getLsbD_pmask]
  by_cases h : TARGET_PAGE_BITS ≤ i <;> simp [hi, h]
  omega

-- The index depends only on the page: the bits from `TARGET_PAGE_BITS` up.
theorem tlb_index_and_mask (x y : BitVec w) :
    tlb_index (x &&& (TARGET_PAGE_MASK ||| y)) = tlb_index x := by
  simp only [tlb_index, TARGET_PAGE_MASK_eq, and_pmask_or_shiftRight]

theorem tlb_index_and_page_mask (x : BitVec w) :
    tlb_index (x &&& TARGET_PAGE_MASK) = tlb_index x := by
  have h := tlb_index_and_mask x 0
  rwa [show (TARGET_PAGE_MASK ||| 0 : BitVec w) = TARGET_PAGE_MASK from BitVec.or_zero] at h

-- An address of a page: nothing below `TARGET_PAGE_BITS`.
def PageAligned (page : BitVec w) : Prop := page &&& TARGET_PAGE_MASK = page

theorem pageAligned_and_mask (x : BitVec w) : PageAligned (x &&& TARGET_PAGE_MASK) := by
  rw [PageAligned, BitVec.and_assoc, BitVec.and_self]

-- `-1` under the test's mask keeps `TLB_INVALID_MASK`, which no page address has.
theorem not_pageAligned_invalid (hw : TARGET_PAGE_BITS < w) :
    ¬PageAligned ((-1 : BitVec w) &&& (TARGET_PAGE_MASK ||| TLB_INVALID_MASK)) := by
  intro ha
  have h3 := congrArg (·.getLsbD 3) ha
  rw [show (-1 : BitVec w) = BitVec.allOnes w from BitVec.neg_one_eq_allOnes] at h3
  simp only [TARGET_PAGE_MASK_eq, TLB_INVALID_MASK, BitVec.getLsbD_and, BitVec.getLsbD_or,
    getLsbD_pmask, BitVec.getLsbD_ofNat, BitVec.getLsbD_allOnes] at h3
  simp [TARGET_PAGE_BITS] at h3 hw
  exact absurd (h3 (by omega)) (by decide)

theorem not_validFor_empty (hw : TARGET_PAGE_BITS < w) {page : BitVec w} (hp : PageAligned page) :
    ¬ValidFor s_cputlb_empty_entry page := by
  rintro (h | h | h) <;> exact not_pageAligned_invalid hw (h ▸ hp)


-- `vaddr` with flags below the page other than `TLB_INVALID_MASK`: what `tlb_set_page` stores.
def Flagged (vaddr a : BitVec w) : Prop :=
  a &&& (TARGET_PAGE_MASK ||| TLB_INVALID_MASK) = vaddr &&& (TARGET_PAGE_MASK ||| TLB_INVALID_MASK)

-- A flag bit `b` between `TLB_INVALID_MASK` and the page bits is cleared by the test's mask.
theorem flag_and_mask {b : Nat} (hb3 : 3 < b) (hb : b < TARGET_PAGE_BITS) :
    BitVec.ofNat w (1 <<< b) &&& (TARGET_PAGE_MASK ||| TLB_INVALID_MASK) = 0 := by
  apply BitVec.eq_of_getLsbD_eq
  intro i hi
  simp only [TARGET_PAGE_MASK_eq, TLB_INVALID_MASK, BitVec.getLsbD_and, BitVec.getLsbD_or,
    getLsbD_pmask, BitVec.getLsbD_ofNat, Nat.shiftLeft_eq, Nat.one_mul, Nat.testBit_two_pow]
  by_cases h : b = i
  · subst h
    simp [hi]
    omega
  · simp [h]

theorem Flagged.refl (vaddr : BitVec w) : Flagged vaddr vaddr := rfl

theorem Flagged.or_flag {vaddr a : BitVec w} (h : Flagged vaddr a) {b : Nat} (hb3 : 3 < b)
    (hb : b < TARGET_PAGE_BITS) : Flagged vaddr (a ||| BitVec.ofNat w (1 <<< b)) := by
  rw [Flagged, BitVec.and_or_distrib_right, flag_and_mask hb3 hb,
    show ∀ x : BitVec w, x ||| 0 = x from fun _ => BitVec.or_zero]
  exact h

theorem Flagged.or_mmio {vaddr a : BitVec w} (h : Flagged vaddr a) :
    Flagged vaddr (a ||| TLB_MMIO) :=
  h.or_flag (by decide) (by decide)

theorem Flagged.or_notdirty {vaddr a : BitVec w} (h : Flagged vaddr a) :
    Flagged vaddr (a ||| TLB_NOTDIRTY) :=
  h.or_flag (by decide) (by decide)

-- Each address of an entry `tlb_set_page` writes for `vaddr`: `-1`, or `vaddr` with flags.
structure EntryOf (vaddr : BitVec w) (te : CPUTLBEntry w) : Prop where
  read : te.addr_read = -1 ∨ Flagged vaddr te.addr_read
  write : te.addr_write = -1 ∨ Flagged vaddr te.addr_write
  code : te.addr_code = -1 ∨ Flagged vaddr te.addr_code

-- An address field of the entry: the address if the protection allows, `-1` if not.
theorem ite_entryOf {c : Prop} [Decidable c] {vaddr a : BitVec w} (h : Flagged vaddr a) :
    (if c then a else -1) = -1 ∨ Flagged vaddr (if c then a else -1) := by
  split_ifs
  · exact .inr h
  · exact .inl rfl

theorem flagged_ite_mmio (c : Bool) {vaddr a : BitVec w} (h : Flagged vaddr a) :
    Flagged vaddr (if c then a ||| TLB_MMIO else a) := by
  cases c
  · exact h
  · exact h.or_mmio

-- The write address: `TLB_MMIO` for ROM and ROM devices, `TLB_NOTDIRTY` for clean RAM.
theorem flagged_write {c₁ c₂ : Prop} [Decidable c₁] [Decidable c₂] {vaddr a : BitVec w}
    (h : Flagged vaddr a) :
    Flagged vaddr (if c₁ then a ||| TLB_MMIO else if c₂ then a ||| TLB_NOTDIRTY else a) := by
  split_ifs
  · exact h.or_mmio
  · exact h.or_notdirty
  · exact h

-- What `tlb_set_page` does past its size check: maybe widen the region, then write one
-- entry for `vaddr` in the slot of its page.
theorem tlb_set_page_eq (env : CPUArchState w) (vaddr : BitVec w) (sect : MemoryRegionSection)
    (prot : Nat) (mmu_idx : Fin NB_MMU_MODES) {size : BitVec w}
    (hsize : ¬size < TARGET_PAGE_SIZE) :
    ∃ te, EntryOf vaddr te ∧
      tlb_set_page env vaddr sect prot mmu_idx size = some
        { (if size ≠ TARGET_PAGE_SIZE then tlb_add_large_page env vaddr size else env) with
          tlb_table := Function.update
            (if size ≠ TARGET_PAGE_SIZE then tlb_add_large_page env vaddr size else env).tlb_table
              mmu_idx
            (Function.update
              ((if size ≠ TARGET_PAGE_SIZE then tlb_add_large_page env vaddr size
                else env).tlb_table mmu_idx)
              (tlb_index vaddr) te) } := by
  -- `address` is `vaddr`, maybe with `TLB_MMIO`; `code_address` is taken before the watchpoint
  have hcode := flagged_ite_mmio (!(sect.ram || sect.romd)) (Flagged.refl vaddr)
  have haddr := flagged_ite_mmio sect.watch hcode
  exact ⟨_, ⟨ite_entryOf haddr, ite_entryOf (flagged_write haddr), ite_entryOf hcode⟩,
    by rw [tlb_set_page, if_neg hsize]⟩

/-! ### The large-page region -/

-- Each round of the loop makes the mask one bit coarser until the two words agree under it;
-- from a prefix mask, `n` rounds with `w ≤ K + n` always get there.
theorem widenMask_spec (x : BitVec w) (n K : Nat) (hn : w ≤ K + n) :
    ∃ K', K ≤ K' ∧ widenMask x n (pmask w K) = pmask w K' ∧ x &&& pmask w K' = 0 := by
  induction n generalizing K with
  | zero =>
      refine ⟨K, le_refl K, rfl, ?_⟩
      rw [pmask_of_le (by omega)]
      exact BitVec.and_zero
  | succ n ih =>
      rw [widenMask]
      split_ifs with hx
      · obtain ⟨K', hK, hwiden, hzero⟩ := ih (K + 1) (by omega)
        rw [pmask_shiftLeft]
        exact ⟨K', by omega, hwiden, hzero⟩
      · exact ⟨K, le_refl K, rfl, not_not.mp hx⟩

-- A large page mapped by `tlb_set_page`: the aligned block of `size` bytes around `vaddr`.
structure LargePage (w : Nat) where
  vaddr : BitVec w
  size : BitVec w

def LargePage.Contains (p : LargePage w) (a : BitVec w) : Prop :=
  a.toNat / p.size.toNat = p.vaddr.toNat / p.size.toNat

-- The sizes the callers pass: a power of two, at least `TARGET_PAGE_SIZE`.
def SizeOk (size : BitVec w) : Prop :=
  ∃ k, TARGET_PAGE_BITS ≤ k ∧ k < w ∧ size = BitVec.twoPow w k

theorem contains_twoPow_iff (vaddr : BitVec w) {k : Nat} (hk : k < w) (a : BitVec w) :
    LargePage.Contains ⟨vaddr, BitVec.twoPow w k⟩ a ↔
      a &&& pmask w k = vaddr &&& pmask w k := by
  rw [and_pmask_eq_iff, LargePage.Contains, BitVec.toNat_twoPow,
    Nat.mod_eq_of_lt (Nat.pow_lt_pow_right (by decide) hk)]

theorem sizeOk_not_lt (hw : TARGET_PAGE_BITS < w) {size : BitVec w} (hs : SizeOk size) :
    ¬size < TARGET_PAGE_SIZE := by
  obtain ⟨k, hk12, hkw, rfl⟩ := hs
  have hpage : (TARGET_PAGE_SIZE : BitVec w).toNat = 2 ^ TARGET_PAGE_BITS := by
    rw [TARGET_PAGE_SIZE, BitVec.toNat_ofNat, Nat.shiftLeft_eq, Nat.one_mul,
      Nat.mod_eq_of_lt (Nat.pow_lt_pow_right (by decide) hw)]
  rw [BitVec.lt_def, hpage, BitVec.toNat_twoPow,
    Nat.mod_eq_of_lt (Nat.pow_lt_pow_right (by decide) hkw), Nat.not_lt]
  exact Nat.pow_le_pow_right (by decide) hk12

-- The region `tlb_flush_addr`/`tlb_flush_mask` and the large pages it must cover: the mask is
-- a prefix mask, the region is `-1` only when there is none, and every address of every page
-- falls in it.
structure RegionInv (env : CPUArchState w) (L : List (LargePage w)) : Prop where
  shape : ∃ K, env.tlb_flush_mask = pmask w K
  empty : env.tlb_flush_addr = -1 → L = []
  covers : ∀ p ∈ L, ∀ a, p.Contains a → a &&& env.tlb_flush_mask = env.tlb_flush_addr

-- The invariant reads only the region.
theorem RegionInv.of_region_eq {env env' : CPUArchState w} {L : List (LargePage w)}
    (haddr : env'.tlb_flush_addr = env.tlb_flush_addr)
    (hmask : env'.tlb_flush_mask = env.tlb_flush_mask) (hinv : RegionInv env L) :
    RegionInv env' L where
  shape := hmask ▸ hinv.shape
  empty h := hinv.empty (haddr ▸ h)
  covers p hp a ha := by
    rw [haddr, hmask]
    exact hinv.covers p hp a ha

-- A region base masked by a prefix mask of more than one bit is never `-1`.
theorem and_pmask_ne_neg_one (hw : TARGET_PAGE_BITS < w) (x : BitVec w) {K : Nat}
    (hK : TARGET_PAGE_BITS ≤ K) : x &&& pmask w K ≠ -1 := by
  rw [show (-1 : BitVec w) = BitVec.allOnes w from BitVec.neg_one_eq_allOnes]
  exact and_pmask_ne_allOnes x (by simp [TARGET_PAGE_BITS] at hK; omega) (by omega)

theorem regionInv_tlb_flush (env : CPUArchState w) : RegionInv (tlb_flush env) [] where
  shape := ⟨w, (pmask_of_le (le_refl w)).symm⟩
  empty _ := rfl
  covers _ hp := absurd hp List.not_mem_nil

-- A new large page either starts the region or widens it until the old base and the new
-- page agree under the mask; either way the old pages and the new one are covered.
theorem regionInv_tlb_add_large_page (hw : TARGET_PAGE_BITS < w) {env : CPUArchState w}
    {L : List (LargePage w)} (hinv : RegionInv env L) (vaddr : BitVec w) {size : BitVec w}
    (hs : SizeOk size) :
    RegionInv (tlb_add_large_page env vaddr size) (⟨vaddr, size⟩ :: L) := by
  obtain ⟨k, hk12, hkw, rfl⟩ := hs
  have hnew := contains_twoPow_iff vaddr hkw
  unfold tlb_add_large_page
  rw [not_twoPow_sub_one hkw]
  split_ifs with haddr
  · -- the first large page since the last flush
    have hL := hinv.empty haddr
    subst hL
    dsimp only
    refine ⟨⟨k, rfl⟩, fun h => absurd h (and_pmask_ne_neg_one hw vaddr hk12), ?_⟩
    intro p hp a ha
    rw [List.mem_singleton.mp hp] at ha
    exact (hnew a).mp ha
  · obtain ⟨K, hK⟩ := hinv.shape
    dsimp only
    rw [hK, pmask_and_pmask]
    obtain ⟨K', hK', hwiden, hzero⟩ :=
      widenMask_spec (env.tlb_flush_addr ^^^ vaddr) (w + 1) (max k K) (by omega)
    have hagree := and_eq_of_xor_and_eq_zero hzero
    rw [hwiden]
    refine ⟨⟨K', rfl⟩, fun h => absurd h (and_pmask_ne_neg_one hw _ (by omega)), ?_⟩
    intro p hp a ha
    rcases List.mem_cons.mp hp with rfl | hp
    · calc a &&& pmask w K' = a &&& pmask w k &&& pmask w K' := by
            rw [and_pmask_and_pmask a (by omega)]
        _ = vaddr &&& pmask w K' := by rw [(hnew a).mp ha, and_pmask_and_pmask vaddr (by omega)]
        _ = env.tlb_flush_addr &&& pmask w K' := hagree.symm
    · calc a &&& pmask w K' = a &&& pmask w K &&& pmask w K' := by
            rw [and_pmask_and_pmask a (by omega)]
        _ = env.tlb_flush_addr &&& pmask w K' := by rw [← hK, hinv.covers p hp a ha]

theorem tlb_add_large_page_table (env : CPUArchState w) (vaddr size : BitVec w) :
    (tlb_add_large_page env vaddr size).tlb_table = env.tlb_table := by
  unfold tlb_add_large_page
  split_ifs <;> rfl

/-! ### Entries sit in the slot of their page -/

-- `tlb_flush_entry` tests exactly the hits on the page.
theorem entryHit_iff_validFor (e : CPUTLBEntry w) (addr : BitVec w) :
    EntryHit e addr ↔ ValidFor e (addr &&& TARGET_PAGE_MASK) := Iff.rfl

-- An entry that holds a page is in that page's slot, in every MMU mode.
def Slotted (env : CPUArchState w) : Prop :=
  ∀ mmu_idx j page, PageAligned page → ValidFor (env.tlb_table mmu_idx j) page →
    j = tlb_index page

theorem Slotted.of_table_eq {env env' : CPUArchState w} (htable : env'.tlb_table = env.tlb_table)
    (hs : Slotted env) : Slotted env' := by
  intro mmu_idx j page hp hv
  rw [htable] at hv
  exact hs mmu_idx j page hp hv

theorem slotted_tlb_flush (hw : TARGET_PAGE_BITS < w) (env : CPUArchState w) :
    Slotted (tlb_flush env) :=
  fun _ _ _ hp hv => absurd hv (not_validFor_empty hw hp)

-- An entry written by `tlb_set_page` for `vaddr` holds no page but that of `vaddr`.
theorem EntryOf.slot (hw : TARGET_PAGE_BITS < w) {vaddr : BitVec w} {te : CPUTLBEntry w}
    (hte : EntryOf vaddr te) {page : BitVec w} (hp : PageAligned page) (hv : ValidFor te page) :
    tlb_index page = tlb_index vaddr := by
  have field : ∀ f : BitVec w, (f = -1 ∨ Flagged vaddr f) →
      page = f &&& (TARGET_PAGE_MASK ||| TLB_INVALID_MASK) →
        tlb_index page = tlb_index vaddr := by
    rintro f (rfl | hf) rfl
    · exact absurd hp (not_pageAligned_invalid hw)
    · rw [hf, tlb_index_and_mask]
  rcases hv with h | h | h
  · exact field _ hte.read h
  · exact field _ hte.write h
  · exact field _ hte.code h

theorem Slotted.set_entry (hw : TARGET_PAGE_BITS < w) {env : CPUArchState w} (hs : Slotted env)
    {vaddr : BitVec w} {te : CPUTLBEntry w} (hte : EntryOf vaddr te) (mmu_idx : Fin NB_MMU_MODES) :
    Slotted { env with
      tlb_table := Function.update env.tlb_table mmu_idx
        (Function.update (env.tlb_table mmu_idx) (tlb_index vaddr) te) } := by
  intro m j page hp hv
  dsimp only at hv
  by_cases hm : m = mmu_idx
  · subst hm
    rw [Function.update_self] at hv
    by_cases hj : j = tlb_index vaddr
    · subst hj
      rw [Function.update_self] at hv
      exact (hte.slot hw hp hv).symm
    · rw [Function.update_of_ne hj] at hv
      exact hs m j page hp hv
  · rw [Function.update_of_ne hm] at hv
    exact hs m j page hp hv

theorem tlb_flush_entry_cases (e : CPUTLBEntry w) (addr : BitVec w) :
    tlb_flush_entry e addr = s_cputlb_empty_entry ∨ tlb_flush_entry e addr = e := by
  unfold tlb_flush_entry
  split_ifs
  · exact .inl rfl
  · exact .inr rfl

theorem not_validFor_tlb_flush_entry (hw : TARGET_PAGE_BITS < w) {addr : BitVec w}
    (hp : PageAligned addr) (e : CPUTLBEntry w) : ¬ValidFor (tlb_flush_entry e addr) addr := by
  unfold tlb_flush_entry
  split_ifs with hv
  · exact not_validFor_empty hw hp
  · exact hv

theorem slotted_tlb_flush_page (hw : TARGET_PAGE_BITS < w) {env : CPUArchState w} (hs : Slotted env)
    (addr : BitVec w) : Slotted (tlb_flush_page env addr) := by
  unfold tlb_flush_page
  split_ifs
  · exact slotted_tlb_flush hw env
  · intro m j page hp hv
    dsimp only at hv
    split_ifs at hv
    · rcases tlb_flush_entry_cases (env.tlb_table m j) (addr &&& TARGET_PAGE_MASK) with h | h <;>
        rw [h] at hv
      · exact absurd hv (not_validFor_empty hw hp)
      · exact hs m j page hp hv
    · exact hs m j page hp hv

/-! ### Runs -/

-- The calls a CPU makes on its TLB.
inductive TlbOp (w : Nat) where
  | set_page (vaddr : BitVec w) (sect : MemoryRegionSection) (prot : Nat)
      (mmu_idx : Fin NB_MMU_MODES) (size : BitVec w)
  | flush
  | flush_page (addr : BitVec w)

-- One call; `none` is a failed assertion.
def TlbOp.exec (env : CPUArchState w) : TlbOp w → Option (CPUArchState w)
  | .set_page vaddr sect prot mmu_idx size => tlb_set_page env vaddr sect prot mmu_idx size
  | .flush => some (tlb_flush env)
  | .flush_page addr => some (tlb_flush_page env addr)

-- The calls the targets make: `tlb_set_page` with a power-of-two size.
def TlbOp.Valid : TlbOp w → Prop
  | .set_page _ _ _ _ size => SizeOk size
  | _ => True

-- The large pages mapped since the last full flush, after the call.
def TlbOp.mapped (env : CPUArchState w) (L : List (LargePage w)) : TlbOp w → List (LargePage w)
  | .set_page vaddr _ _ _ size => if size ≠ TARGET_PAGE_SIZE then ⟨vaddr, size⟩ :: L else L
  | .flush => []
  | .flush_page addr => if addr &&& env.tlb_flush_mask = env.tlb_flush_addr then [] else L

def run (env : CPUArchState w) : List (TlbOp w) → Option (CPUArchState w)
  | [] => some env
  | op :: ops => (op.exec env).bind (run · ops)

-- A run with the large pages mapped along it.
def runMapped (env : CPUArchState w) (L : List (LargePage w)) :
    List (TlbOp w) → Option (CPUArchState w × List (LargePage w))
  | [] => some (env, L)
  | op :: ops =>
      match op.exec env with
      | some env' => runMapped env' (op.mapped env L) ops
      | none => none

-- The pages are bookkeeping only: the states are those of the plain run.
theorem runMapped_map_fst (env : CPUArchState w) (L : List (LargePage w)) (ops : List (TlbOp w)) :
    (runMapped env L ops).map Prod.fst = run env ops := by
  induction ops generalizing env L with
  | nil => rfl
  | cons op ops ih =>
      rw [runMapped, run]
      cases op.exec env with
      | none => rfl
      | some env' => exact ih env' _

structure TlbInv (env : CPUArchState w) (L : List (LargePage w)) : Prop where
  region : RegionInv env L
  slotted : Slotted env

theorem tlbInv_tlb_flush (hw : TARGET_PAGE_BITS < w) (env : CPUArchState w) :
    TlbInv (tlb_flush env) [] :=
  ⟨regionInv_tlb_flush env, slotted_tlb_flush hw env⟩

theorem tlbInv_exec (hw : TARGET_PAGE_BITS < w) {env : CPUArchState w} {L : List (LargePage w)}
    (hinv : TlbInv env L) (op : TlbOp w) (hop : op.Valid) :
    ∃ env', op.exec env = some env' ∧ TlbInv env' (op.mapped env L) := by
  cases op with
  | set_page vaddr sect prot mmu_idx size =>
      obtain ⟨te, hte, heq⟩ :=
        tlb_set_page_eq env vaddr sect prot mmu_idx (sizeOk_not_lt hw hop)
      refine ⟨_, heq, ?_, ?_⟩
      · -- only a large page moves the region
        simp only [TlbOp.mapped]
        split_ifs
        · refine (regionInv_tlb_add_large_page hw hinv.region vaddr hop).of_region_eq ?_ ?_ <;> rfl
        · refine hinv.region.of_region_eq ?_ ?_ <;> rfl
      · have htable : (if size ≠ TARGET_PAGE_SIZE then tlb_add_large_page env vaddr size
            else env).tlb_table = env.tlb_table := by
          split_ifs
          · exact tlb_add_large_page_table env vaddr size
          · rfl
        exact (Slotted.of_table_eq htable hinv.slotted).set_entry hw hte mmu_idx
  | flush => exact ⟨_, rfl, tlbInv_tlb_flush hw env⟩
  | flush_page addr =>
      refine ⟨_, rfl, ?_, slotted_tlb_flush_page hw hinv.slotted addr⟩
      simp only [TlbOp.mapped]
      unfold tlb_flush_page
      split_ifs
      · exact regionInv_tlb_flush env
      · refine hinv.region.of_region_eq ?_ ?_ <;> rfl

theorem tlbInv_runMapped (hw : TARGET_PAGE_BITS < w) {env : CPUArchState w} {L : List (LargePage w)}
    (hinv : TlbInv env L) (ops : List (TlbOp w)) (hops : ∀ op ∈ ops, op.Valid) :
    ∃ env' L', runMapped env L ops = some (env', L') ∧ TlbInv env' L' := by
  induction ops generalizing env L with
  | nil => exact ⟨env, L, rfl, hinv⟩
  | cons op ops ih =>
      obtain ⟨env', hexec, hinv'⟩ := tlbInv_exec hw hinv op (hops op List.mem_cons_self)
      rw [runMapped, hexec]
      exact ih hinv' fun op' h => hops op' (List.mem_cons_of_mem op h)

-- After `tlb_flush_page env a` nothing hits the page of `a`, nor any large page that holds `a`:
-- such a page lies in the region, and `a` with it, which forces the full flush.
theorem tlb_flush_page_no_hit (hw : TARGET_PAGE_BITS < w) {env : CPUArchState w}
    {L : List (LargePage w)} (hinv : TlbInv env L) (a b : BitVec w)
    (hb : b &&& TARGET_PAGE_MASK = a &&& TARGET_PAGE_MASK ∨
      ∃ p ∈ L, p.Contains a ∧ p.Contains b)
    (mmu_idx : Fin NB_MMU_MODES) (j : Fin CPU_TLB_SIZE) :
    ¬EntryHit ((tlb_flush_page env a).tlb_table mmu_idx j) b := by
  rw [entryHit_iff_validFor]
  unfold tlb_flush_page
  split_ifs with hfull
  · exact not_validFor_empty hw (pageAligned_and_mask b)
  · have hpage : b &&& TARGET_PAGE_MASK = a &&& TARGET_PAGE_MASK := by
      rcases hb with hb | ⟨p, hp, ha, _⟩
      · exact hb
      · exact absurd (hinv.region.covers p hp a ha) hfull
    dsimp only
    rw [hpage]
    split_ifs with hj
    · exact not_validFor_tlb_flush_entry hw (pageAligned_and_mask a) _
    · exact fun hv => hj (hinv.slotted mmu_idx j _ (pageAligned_and_mask a) hv)

theorem tlb_flush_page_large_pages (hw : TARGET_PAGE_BITS < w) (env0 : CPUArchState w)
    (ops : List (TlbOp w)) (hops : ∀ op ∈ ops, op.Valid) :
    ∃ env L, runMapped (tlb_flush env0) [] ops = some (env, L) ∧
      (∀ p ∈ L, ∀ a, p.Contains a → a &&& env.tlb_flush_mask = env.tlb_flush_addr) ∧
      ∀ a b, (b &&& TARGET_PAGE_MASK = a &&& TARGET_PAGE_MASK ∨
          ∃ p ∈ L, p.Contains a ∧ p.Contains b) →
        ∀ mmu_idx j, ¬EntryHit ((tlb_flush_page env a).tlb_table mmu_idx j) b := by
  obtain ⟨env, L, hrun, hinv⟩ := tlbInv_runMapped hw (tlbInv_tlb_flush hw env0) ops hops
  exact ⟨env, L, hrun, hinv.region.covers, tlb_flush_page_no_hit hw hinv⟩

-- A 2 MiB page mapped in MMU mode 0, then a small page inside it flushed.
def twoMbOps : List (TlbOp 64) :=
  [.set_page 0x200000 ⟨true, false, false, true, false⟩ 7 ⟨0, by decide⟩
      (BitVec.twoPow 64 21),
    .flush_page 0x201000]

theorem tlb_flush_page_large_pages_two_mb :
    TARGET_PAGE_BITS < 64 ∧ (∀ op ∈ twoMbOps, op.Valid) ∧
      ∃ env L, runMapped (tlb_flush ⟨fun _ _ => s_cputlb_empty_entry, -1, 0⟩) [] twoMbOps =
          some (env, L) ∧
        (∀ p ∈ L, ∀ a, p.Contains a → a &&& env.tlb_flush_mask = env.tlb_flush_addr) ∧
        ∀ a b, (b &&& TARGET_PAGE_MASK = a &&& TARGET_PAGE_MASK ∨
            ∃ p ∈ L, p.Contains a ∧ p.Contains b) →
          ∀ mmu_idx j, ¬EntryHit ((tlb_flush_page env a).tlb_table mmu_idx j) b := by
  have hops : ∀ op ∈ twoMbOps, op.Valid := by
    intro op hop
    rcases List.mem_pair.mp hop with rfl | rfl
    · exact ⟨21, by decide, by decide, rfl⟩
    · trivial
  exact ⟨by decide, hops, tlb_flush_page_large_pages (by decide) _ _ hops⟩

end Qemu.Cputlb

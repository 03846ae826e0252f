import Qemu.Lib.Bsearch
import Qemu.Memory.FlatView

/-!
`memory_region_find` (`memory.c`): the section of the address space's current flat view that
covers the start of `[addr, addr + size)`. It looks a range up with `bsearch` and
`cmp_flatrange_addr`, then steps back while the range before still intersects the query. The
address space is its current view; `bsearch` is the C library's, as `Bsearch.bsearch` has it.
-/

namespace Qemu.Memory

variable {MR : Type}

-- `static int cmp_flatrange_addr(const void *addr_, const void *fr_)`.
def cmp_flatrange_addr (addr : AddrRange) (fr : FlatRange MR) : Int :=
  if addrrange_end addr ≤ fr.addr.start then -1
  else if addr.start ≥ addrrange_end fr.addr then 1
  else 0

-- `static FlatRange *address_space_lookup(AddressSpace *as, AddrRange addr)`: the index of the
-- range found.
def address_space_lookup (view : List (FlatRange MR)) (addr : AddrRange) : Option Nat :=
  Bsearch.bsearch (cmp_flatrange_addr addr) view

-- The loop `while (fr > as->current_map->ranges && addrrange_intersects(fr[-1].addr, range))`
-- from the range at `i`.
def walkLeft (view : List (FlatRange MR)) (range : AddrRange) : Nat → Nat
  | 0 => 0
  | i + 1 =>
      match view[i]? with
      | some fr => if addrrange_intersects fr.addr range then walkLeft view range i else i + 1
      | none => i + 1

structure MemoryRegionSection (MR : Type) where
  mr : Option MR
  offset_within_region : UInt64
  size : Nat
  offset_within_address_space : Nat
  readonly : Bool
deriving DecidableEq, Repr

-- `MemoryRegionSection memory_region_find(MemoryRegion *address_space, hwaddr addr,
-- uint64_t size)`.
def memory_region_find (view : List (FlatRange MR)) (addr size : UInt64) :
    MemoryRegionSection MR :=
  let range := addrrange_make addr.toNat size.toNat
  let ret : MemoryRegionSection MR := ⟨none, 0, 0, 0, false⟩
  match address_space_lookup view range with
  | none => ret
  | some i =>
      match view[walkLeft view range i]? with
      | none => ret
      | some fr =>
          let range := addrrange_intersection range fr.addr
          { mr := some fr.mr,
            offset_within_region := fr.offset_in_region + UInt64.ofNat (range.start - fr.addr.start),
            size := range.size, offset_within_address_space := range.start,
            readonly := fr.readonly }

/-! ### The lookup on a sorted view -/

-- The part of the query `q` that the range `fr` covers, as a section.
def sectionOf (fr : FlatRange MR) (q : AddrRange) : MemoryRegionSection MR :=
  let start := max q.start fr.addr.start
  { mr := some fr.mr, offset_within_region := fr.offset_in_region + UInt64.ofNat (start - fr.addr.start),
    size := min (addrrange_end q) (addrrange_end fr.addr) - start,
    offset_within_address_space := start, readonly := fr.readonly }

section Sorted

variable {view : List (FlatRange MR)} {q : AddrRange}

-- The comparison is zero exactly on the ranges that share an address with the query.
theorem cmp_flatrange_addr_eq_zero {fr : FlatRange MR} (hq : 0 < q.size) (hfr : 0 < fr.addr.size) :
    cmp_flatrange_addr q fr = 0 ↔ Overlaps fr.addr q := by
  rw [overlaps_iff]
  unfold cmp_flatrange_addr
  simp only [addrrange_end] at *
  -- before the range, after it, or neither
  split_ifs <;> constructor <;> intro h <;> omega

-- On a sorted view the query lies after some ranges, meets the next ones and lies before the
-- rest: `bsearch` may search it.
theorem Sorted.partitioned (h : Sorted view) :
    Bsearch.Partitioned (cmp_flatrange_addr q) view := by
  unfold Bsearch.Partitioned
  refine List.Pairwise.imp ?_ h
  intro a b hab
  unfold cmp_flatrange_addr
  simp only [addrrange_end] at hab ⊢
  split_ifs <;> omega

-- Stepping back from a range that shares an address with the query ends at the first such range.
theorem walkLeft_first (h : Sorted view) (hne : ∀ fr ∈ view, 0 < fr.addr.size) (hq : 0 < q.size)
    {i : Nat} {fr : FlatRange MR} (hi : view[i]? = some fr) (hfr : Overlaps fr.addr q) :
    ∃ fr', view[walkLeft view q i]? = some fr' ∧ Overlaps fr'.addr q ∧
      ∀ j < walkLeft view q i, ∀ g, view[j]? = some g → ¬ Overlaps g.addr q := by
  induction i generalizing fr with
  | zero => exact ⟨fr, hi, hfr, fun j hj => absurd hj (Nat.not_lt_zero j)⟩
  | succ i ih =>
      obtain ⟨hlt, -⟩ := List.getElem?_eq_some_iff.mp hi
      have hprev : view[i]? = some view[i] := List.getElem?_eq_getElem (by omega)
      have hprevne := hne _ (List.getElem_mem (by omega : i < view.length))
      rw [walkLeft, hprev]
      dsimp only
      split
      · -- the range before intersects the query too: step back
        rename_i hint
        exact ih hprev ((addrrange_intersects_iff hprevne hq).mp hint)
      · -- it does not, and by sortedness neither does any range before it
        rename_i hint
        refine ⟨fr, hi, hfr, fun j hj g hg hgq => ?_⟩
        rcases Nat.lt_or_eq_of_le (Nat.le_of_lt_succ hj) with hji | rfl
        · have := h.overlaps_between hji (Nat.lt_succ_self i) hg hprev hi hprevne hgq hfr
          exact hint ((addrrange_intersects_iff hprevne hq).mpr this)
        · rw [hprev] at hg
          cases hg
          exact hint ((addrrange_intersects_iff hprevne hq).mpr hgq)

-- The first range that shares an address with the query starts no later than any other that
-- does.
theorem first_overlap_lowest (h : Sorted view) {k : Nat} {fr : FlatRange MR}
    (hk : view[k]? = some fr) (hbefore : ∀ j < k, ∀ g, view[j]? = some g → ¬ Overlaps g.addr q)
    {g : FlatRange MR} (hg : g ∈ view) (hgq : Overlaps g.addr q) : fr.addr.start ≤ g.addr.start := by
  obtain ⟨j, hj, rfl⟩ := List.getElem_of_mem hg
  have hjv : view[j]? = some view[j] := List.getElem?_eq_getElem hj
  rcases Nat.lt_or_ge j k with hjk | hkj
  · exact absurd hgq (hbefore j hjk _ hjv)
  · rcases Nat.lt_or_eq_of_le hkj with hkj | rfl
    · have := h.le hkj hk hjv
      simp only [addrrange_end] at this
      omega
    · rw [hjv] at hk
      cases hk
      exact Nat.le_refl _

end Sorted

-- On a view sorted by start and disjoint, of ranges of at least one address each, a query of at
-- least one address finds nothing when no range shares an address with it, and otherwise the
-- lowest range that does, cut to the query.
theorem memory_region_find_lowest (view : List (FlatRange MR)) (hsorted : Sorted view)
    (hne : ∀ fr ∈ view, 0 < fr.addr.size) (addr size : UInt64) (hsize : 1 ≤ size.toNat) :
    ((∀ fr ∈ view, ¬ Overlaps fr.addr (addrrange_make addr.toNat size.toNat)) ∧
        (memory_region_find view addr size).mr = none) ∨
      ∃ fr ∈ view, Overlaps fr.addr (addrrange_make addr.toNat size.toNat) ∧
        (∀ g ∈ view, Overlaps g.addr (addrrange_make addr.toNat size.toNat) →
          fr.addr.start ≤ g.addr.start) ∧
        memory_region_find view addr size = sectionOf fr (addrrange_make addr.toNat size.toNat) := by
  have hq : 0 < (addrrange_make addr.toNat size.toNat).size := hsize
  unfold memory_region_find
  dsimp only
  cases hfind : address_space_lookup view (addrrange_make addr.toNat size.toNat) with
  | none =>
      -- `bsearch` found nothing, so no range meets the query
      refine .inl ⟨fun fr hfr hfq => ?_, rfl⟩
      have hall := (Bsearch.bsearch_eq_none_iff hsorted.partitioned).mp hfind fr hfr
      exact hall ((cmp_flatrange_addr_eq_zero hq (hne fr hfr)).mpr hfq)
  | some i =>
      -- `bsearch` found a range that meets the query; stepping back gives the first one
      obtain ⟨-, -, p, hp, hzero⟩ := Bsearch.bsearchLoop_sound hfind
      have hpq := (cmp_flatrange_addr_eq_zero hq (hne p (List.mem_of_getElem? hp))).mp hzero
      obtain ⟨fr, hk, hfrq, hbefore⟩ := walkLeft_first hsorted hne hq hp hpq
      refine .inr ⟨fr, List.mem_of_getElem? hk, hfrq,
        fun g hg hgq => first_overlap_lowest hsorted hk hbefore hg hgq, ?_⟩
      dsimp only
      rw [hk]
      rfl

-- Two ranges, `[0, 0x1000)` of region 1 and `[0x1000, 0x3000)` of region 2 from its offset 0x200.
def twoRanges : List (FlatRange Nat) :=
  [⟨1, 0, ⟨0, 0x1000⟩, 0, true, false⟩, ⟨2, 0x200, ⟨0x1000, 0x2000⟩, 0, true, false⟩]

theorem memory_region_find_two_ranges :
    Sorted twoRanges ∧ (∀ fr ∈ twoRanges, 0 < fr.addr.size) ∧ 1 ≤ (0x1000 : UInt64).toNat ∧
      (((∀ fr ∈ twoRanges, ¬ Overlaps fr.addr (addrrange_make (0x800 : UInt64).toNat
          (0x1000 : UInt64).toNat)) ∧ (memory_region_find twoRanges 0x800 0x1000).mr = none) ∨
        ∃ fr ∈ twoRanges, Overlaps fr.addr (addrrange_make (0x800 : UInt64).toNat
            (0x1000 : UInt64).toNat) ∧
          (∀ g ∈ twoRanges, Overlaps g.addr (addrrange_make (0x800 : UInt64).toNat
            (0x1000 : UInt64).toNat) → fr.addr.start ≤ g.addr.start) ∧
          memory_region_find twoRanges 0x800 0x1000 =
            sectionOf fr (addrrange_make (0x800 : UInt64).toNat (0x1000 : UInt64).toNat)) := by
  have hsorted : Sorted twoRanges := by decide
  have hne : ∀ fr ∈ twoRanges, 0 < fr.addr.size := by decide
  have hsize : 1 ≤ (0x1000 : UInt64).toNat := by decide
  exact ⟨hsorted, hne, hsize, memory_region_find_lowest twoRanges hsorted hne 0x800 0x1000 hsize⟩

end Qemu.Memory

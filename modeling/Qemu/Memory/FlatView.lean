import Mathlib.Data.List.Basic

/-!
The flat view of an address space (`memory.c`): the ranges of guest-physical addresses in which
each memory region shows, each a `FlatRange` of the region, the offset into it and the range of
addresses. A view is a list of ranges, `FlatView.ranges[0, nr)`. The `Int128` fields of an
`AddrRange` are never negative in a view and are natural numbers here. A memory region is
anything with equality: the code compares `MemoryRegion` pointers only.
-/

namespace Qemu.Memory

structure AddrRange where
  start : Nat
  size : Nat
deriving DecidableEq, Repr

def addrrange_make (start size : Nat) : AddrRange := ⟨start, size⟩

def addrrange_equal (r1 r2 : AddrRange) : Bool := r1.start == r2.start && r1.size == r2.size

def addrrange_end (r : AddrRange) : Nat := r.start + r.size

def addrrange_contains (range : AddrRange) (addr : Nat) : Bool :=
  addr ≥ range.start && addr < addrrange_end range

def addrrange_intersects (r1 r2 : AddrRange) : Bool :=
  addrrange_contains r1 r2.start || addrrange_contains r2 r1.start

def addrrange_intersection (r1 r2 : AddrRange) : AddrRange :=
  let start := max r1.start r2.start
  let end_ := min (addrrange_end r1) (addrrange_end r2)
  addrrange_make start (end_ - start)

-- `struct FlatRange`, a range of memory in the global map; addresses are absolute.
structure FlatRange (MR : Type) where
  mr : MR
  offset_in_region : UInt64
  addr : AddrRange
  dirty_log_mask : UInt8
  readable : Bool
  readonly : Bool
deriving DecidableEq, Repr

-- `static bool flatrange_equal(FlatRange *a, FlatRange *b)`: all but `dirty_log_mask`.
def flatrange_equal {MR : Type} [DecidableEq MR] (a b : FlatRange MR) : Bool :=
  a.mr = b.mr && addrrange_equal a.addr b.addr && a.offset_in_region = b.offset_in_region &&
    a.readable = b.readable && a.readonly = b.readonly

/-! ### Views sorted by start and disjoint -/

-- The two ranges share an address.
def Overlaps (r1 r2 : AddrRange) : Prop :=
  max r1.start r2.start < min (addrrange_end r1) (addrrange_end r2)

instance (r1 r2 : AddrRange) : Decidable (Overlaps r1 r2) :=
  inferInstanceAs (Decidable (_ < _))

theorem overlaps_iff (r1 r2 : AddrRange) :
    Overlaps r1 r2 ↔ r1.start < addrrange_end r1 ∧ r2.start < addrrange_end r2 ∧
      r1.start < addrrange_end r2 ∧ r2.start < addrrange_end r1 := by
  unfold Overlaps
  omega

-- For ranges of at least one address, `addrrange_intersects` is sharing an address.
theorem addrrange_intersects_iff {r1 r2 : AddrRange} (h1 : 0 < r1.size) (h2 : 0 < r2.size) :
    addrrange_intersects r1 r2 = true ↔ Overlaps r1 r2 := by
  simp only [addrrange_intersects, addrrange_contains, Bool.or_eq_true, Bool.and_eq_true,
    decide_eq_true_eq, overlaps_iff]
  simp only [addrrange_end]
  omega

-- Each range ends where or before the next one starts: sorted by start and disjoint.
def Sorted {MR : Type} (view : List (FlatRange MR)) : Prop :=
  view.Pairwise fun a b => addrrange_end a.addr ≤ b.addr.start

instance {MR : Type} (view : List (FlatRange MR)) : Decidable (Sorted view) :=
  inferInstanceAs (Decidable (List.Pairwise _ view))

theorem Sorted.le {MR : Type} {view : List (FlatRange MR)} (h : Sorted view) {i j : Nat}
    (hij : i < j) {a b : FlatRange MR} (ha : view[i]? = some a) (hb : view[j]? = some b) :
    addrrange_end a.addr ≤ b.addr.start := by
  obtain ⟨hi, rfl⟩ := List.getElem?_eq_some_iff.mp ha
  obtain ⟨hj, rfl⟩ := List.getElem?_eq_some_iff.mp hb
  exact List.pairwise_iff_getElem.mp h i j hi hj hij

-- In a sorted view of ranges of at least one address, the ranges that share an address with a
-- query lie next to each other: one between two of them shares one too.
theorem Sorted.overlaps_between {MR : Type} {view : List (FlatRange MR)} (h : Sorted view)
    {q : AddrRange} {i j k : Nat} (hij : i < j) (hjk : j < k) {a b c : FlatRange MR}
    (ha : view[i]? = some a) (hb : view[j]? = some b) (hc : view[k]? = some c)
    (hbne : 0 < b.addr.size) (hqa : Overlaps a.addr q) (hqc : Overlaps c.addr q) :
    Overlaps b.addr q := by
  have hab := h.le hij ha hb
  have hbc := h.le hjk hb hc
  rw [overlaps_iff] at hqa hqc ⊢
  simp only [addrrange_end] at hab hbc hqa hqc ⊢
  omega

-- The starts of the ranges increase along the view.
def StartsIncrease {MR : Type} (view : List (FlatRange MR)) : Prop :=
  view.Pairwise fun a b => a.addr.start < b.addr.start

-- A view sorted by start and disjoint has increasing starts once no range is empty.
theorem Sorted.startsIncrease {MR : Type} {view : List (FlatRange MR)} (h : Sorted view)
    (hne : ∀ fr ∈ view, 0 < fr.addr.size) : StartsIncrease view := by
  refine h.imp_of_mem fun {a b} ha _ hab => ?_
  have := hne a ha
  simp only [addrrange_end] at hab
  omega

end Qemu.Memory

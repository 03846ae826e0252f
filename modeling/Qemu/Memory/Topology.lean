import Qemu.Memory.FlatView
import Mathlib.Data.List.Lex

/-!
Topology updates (`memory.c`). When the memory map changes, `address_space_update_topology`
compares the old flat view with the new one in two passes of one merge loop: the first tells the
listeners of the ranges that went (`region_del`), the second of those that came (`region_add`) or
stayed (`region_nop`, with `log_start` or `log_stop` when dirty logging changed). The ioeventfds
of the address space are updated by the same kind of merge over two arrays kept in the order
`memory_region_ioeventfd_before`. Each listener callback is recorded with the range or the
ioeventfd it is given, in the order of the calls; which listeners hear it is left out.
-/

namespace Qemu.Memory

variable {MR : Type} [DecidableEq MR]

inductive TopologyCall (MR : Type)
  | region_del (fr : FlatRange MR)
  | region_add (fr : FlatRange MR)
  | region_nop (fr : FlatRange MR)
  | log_start (fr : FlatRange MR)
  | log_stop (fr : FlatRange MR)
deriving DecidableEq, Repr

-- The logging callbacks for a range in both views.
def logChange (frold frnew : FlatRange MR) : List (TopologyCall MR) :=
  if frold.dirty_log_mask ≠ 0 ∧ frnew.dirty_log_mask = 0 then [.log_stop frnew]
  else if frnew.dirty_log_mask ≠ 0 ∧ frold.dirty_log_mask = 0 then [.log_start frnew]
  else []

-- `static void address_space_update_topology_pass(AddressSpace *as, FlatView old_view,
-- FlatView new_view, bool adding)`: the callbacks it makes, from `ranges[iold]` and
-- `ranges[inew]` on.
def address_space_update_topology_pass (adding : Bool) :
    List (FlatRange MR) → List (FlatRange MR) → List (TopologyCall MR)
  | [], [] => []
  | frold :: old, [] =>
      (if adding then [] else [.region_del frold]) ++ address_space_update_topology_pass adding old []
  | [], frnew :: new =>
      (if adding then [.region_add frnew] else []) ++ address_space_update_topology_pass adding [] new
  | frold :: old, frnew :: new =>
      if frold.addr.start < frnew.addr.start ∨
          (frold.addr.start = frnew.addr.start ∧ flatrange_equal frold frnew = false) then
        -- in old, but (not in new, or in new but attributes changed)
        (if adding then [] else [.region_del frold]) ++
          address_space_update_topology_pass adding old (frnew :: new)
      else if flatrange_equal frold frnew then
        -- in both (logging may have changed)
        (if adding then .region_nop frnew :: logChange frold frnew else []) ++
          address_space_update_topology_pass adding old new
      else
        -- in new
        (if adding then [.region_add frnew] else []) ++
          address_space_update_topology_pass adding (frold :: old) new
termination_by old new => old.length + new.length

-- The callbacks of `address_space_update_topology` for the old and the new view.
def address_space_update_topology (old new : List (FlatRange MR)) : List (TopologyCall MR) :=
  address_space_update_topology_pass false old new ++ address_space_update_topology_pass true old new

/-! ### The passes on sorted views -/

theorem flatrange_equal_iff {a b : FlatRange MR} :
    flatrange_equal a b = true ↔ a.mr = b.mr ∧ a.addr.start = b.addr.start ∧
      a.addr.size = b.addr.size ∧ a.offset_in_region = b.offset_in_region ∧
      a.readable = b.readable ∧ a.readonly = b.readonly := by
  simp [flatrange_equal, addrrange_equal, and_assoc]

-- Equal ranges start at the same address.
theorem flatrange_equal_of_start_ne {a b : FlatRange MR} (h : a.addr.start ≠ b.addr.start) :
    flatrange_equal a b = false := by
  rw [← Bool.not_eq_true, flatrange_equal_iff]
  exact fun h' => h h'.2.1

-- The ranges of `view` with no equal range in `other`.
def onlyIn (view other : List (FlatRange MR)) : List (FlatRange MR) :=
  view.filter fun fr => !other.any (flatrange_equal fr)

theorem onlyIn_cons_other {view other : List (FlatRange MR)} {fr : FlatRange MR}
    (h : ∀ g ∈ view, flatrange_equal g fr = false) :
    onlyIn view (fr :: other) = onlyIn view other := by
  unfold onlyIn
  refine List.filter_congr fun g hg => ?_
  simp [h g hg]

theorem onlyIn_cons_of_none {view other : List (FlatRange MR)} {fr : FlatRange MR}
    (h : ∀ m ∈ other, flatrange_equal fr m = false) :
    onlyIn (fr :: view) other = fr :: onlyIn view other := by
  have hany : other.any (flatrange_equal fr) = false := List.any_eq_false.mpr fun m hm => by
    simp [h m hm]
  simp [onlyIn, hany]

theorem onlyIn_cons_of_equal {view other : List (FlatRange MR)} {fr m : FlatRange MR}
    (hm : m ∈ other) (h : flatrange_equal fr m = true) :
    onlyIn (fr :: view) other = onlyIn view other := by
  have hany : other.any (flatrange_equal fr) = true := List.any_eq_true.mpr ⟨m, hm, h⟩
  simp [onlyIn, hany]

-- What the adding pass calls for a range of the new view.
def addingCalls (old : List (FlatRange MR)) (frnew : FlatRange MR) : List (TopologyCall MR) :=
  match old.find? (flatrange_equal · frnew) with
  | some frold => .region_nop frnew :: logChange frold frnew
  | none => [.region_add frnew]

theorem flatMap_addingCalls_cons {old news : List (FlatRange MR)} {frold : FlatRange MR}
    (h : ∀ m ∈ news, flatrange_equal frold m = false) :
    news.flatMap (addingCalls (frold :: old)) = news.flatMap (addingCalls old) := by
  refine List.flatMap_congr fun m hm => ?_
  simp [addingCalls, h m hm]

section Merge

variable {frold frnew : FlatRange MR} {old new : List (FlatRange MR)}

-- The range taken from the old view meets no equal range in what is left of the new one: it
-- starts before all of it, or with the first one and differs from it.
theorem not_equal_of_before (hnew : StartsIncrease (frnew :: new))
    (h : frold.addr.start < frnew.addr.start ∨
      (frold.addr.start = frnew.addr.start ∧ flatrange_equal frold frnew = false)) :
    ∀ m ∈ frnew :: new, flatrange_equal frold m = false := by
  intro m hm
  rcases List.mem_cons.mp hm with rfl | hm
  · rcases h with h | ⟨-, h⟩
    · exact flatrange_equal_of_start_ne (Nat.ne_of_lt h)
    · exact h
  · have := (List.pairwise_cons.mp hnew).1 m hm
    exact flatrange_equal_of_start_ne (by omega)

-- A range of the new view that starts before the old view's first range has no equal in it.
theorem not_equal_of_after (hold : StartsIncrease (frold :: old))
    (h : frnew.addr.start < frold.addr.start) :
    ∀ g ∈ frold :: old, flatrange_equal g frnew = false := by
  intro g hg
  rcases List.mem_cons.mp hg with rfl | hg
  · exact flatrange_equal_of_start_ne (by omega)
  · have := (List.pairwise_cons.mp hold).1 g hg
    exact flatrange_equal_of_start_ne (by omega)

-- The loop's third branch is taken when the new range starts first.
theorem start_lt_of_not_before
    (h1 : ¬(frold.addr.start < frnew.addr.start ∨
      (frold.addr.start = frnew.addr.start ∧ flatrange_equal frold frnew = false)))
    (h2 : ¬flatrange_equal frold frnew = true) : frnew.addr.start < frold.addr.start := by
  simp only [Bool.not_eq_true] at h2
  rcases Nat.lt_or_ge frnew.addr.start frold.addr.start with h | h
  · exact h
  · exact absurd (Or.inr ⟨by omega, h2⟩) h1

end Merge

-- The deleting pass calls `region_del` once for each old range with no equal new range, in
-- order, and nothing else.
theorem update_topology_pass_deleting {old new : List (FlatRange MR)}
    (hold : StartsIncrease old) (hnew : StartsIncrease new) :
    address_space_update_topology_pass false old new = (onlyIn old new).map .region_del := by
  fun_induction address_space_update_topology_pass false old new with
  | case1 => rfl
  | case2 frold old ih =>
      rw [ih hold.of_cons hnew]
      simp [onlyIn]
  | case3 frnew new ih =>
      rw [ih hold hnew.of_cons]
      simp [onlyIn]
  | case4 frold old frnew new hbefore ih =>
      -- `frold` is in old only
      rw [ih hold.of_cons hnew, onlyIn_cons_of_none (not_equal_of_before hnew hbefore)]
      rfl
  | case5 frold old frnew new hbefore hequal ih =>
      -- `frold` stays; no later old range is equal to `frnew`
      have hstart := (flatrange_equal_iff.mp hequal).2.1
      have hlater : ∀ g ∈ old, flatrange_equal g frnew = false := fun g hg => by
        have := (List.pairwise_cons.mp hold).1 g hg
        exact flatrange_equal_of_start_ne (by omega)
      rw [ih hold.of_cons hnew.of_cons, onlyIn_cons_of_equal List.mem_cons_self hequal,
        onlyIn_cons_other hlater]
      rfl
  | case6 frold old frnew new hbefore hequal ih =>
      -- `frnew` is in new only
      have hlt := start_lt_of_not_before hbefore hequal
      rw [ih hold hnew.of_cons, onlyIn_cons_other (not_equal_of_after hold hlt)]
      simp

-- The adding pass calls, for each new range in order, `region_nop` (and the logging change) when
-- the old view has an equal range and `region_add` when it has none, and nothing else.
theorem update_topology_pass_adding {old new : List (FlatRange MR)}
    (hold : StartsIncrease old) (hnew : StartsIncrease new) :
    address_space_update_topology_pass true old new = new.flatMap (addingCalls old) := by
  fun_induction address_space_update_topology_pass true old new with
  | case1 => rfl
  | case2 frold old ih =>
      rw [ih hold.of_cons hnew]
      simp
  | case3 frnew new ih =>
      rw [ih hold hnew.of_cons]
      simp [addingCalls]
  | case4 frold old frnew new hbefore ih =>
      rw [ih hold.of_cons hnew, flatMap_addingCalls_cons (not_equal_of_before hnew hbefore)]
      simp
  | case5 frold old frnew new hbefore hequal ih =>
      -- `frnew` finds `frold`; no later new range is equal to `frold`
      have hstart := (flatrange_equal_iff.mp hequal).2.1
      have hlater : ∀ m ∈ new, flatrange_equal frold m = false := fun m hm => by
        have := (List.pairwise_cons.mp hnew).1 m hm
        exact flatrange_equal_of_start_ne (by omega)
      rw [ih hold.of_cons hnew.of_cons, List.flatMap_cons, flatMap_addingCalls_cons hlater]
      simp [addingCalls, hequal]
  | case6 frold old frnew new hbefore hequal ih =>
      have hlt := start_lt_of_not_before hbefore hequal
      have hnone := not_equal_of_after hold hlt
      have hfind : (frold :: old).find? (flatrange_equal · frnew) = none :=
        List.find?_eq_none.mpr fun g hg => by simp [hnone g hg]
      rw [ih hold hnew.of_cons, List.flatMap_cons, addingCalls, hfind]
      rfl

/-! ### Ioeventfds -/

-- `struct MemoryRegionIoeventfd`; the `EventNotifier` is compared by its address.
structure MemoryRegionIoeventfd where
  addr : AddrRange
  match_data : Bool
  data : UInt64
  e : Nat
deriving DecidableEq, Repr

-- `static bool memory_region_ioeventfd_before(MemoryRegionIoeventfd a,
-- MemoryRegionIoeventfd b)`.
def memory_region_ioeventfd_before (a b : MemoryRegionIoeventfd) : Bool :=
  if a.addr.start < b.addr.start then true
  else if a.addr.start > b.addr.start then false
  else if a.addr.size < b.addr.size then true
  else if a.addr.size > b.addr.size then false
  else if a.match_data.toNat < b.match_data.toNat then true
  else if a.match_data.toNat > b.match_data.toNat then false
  else
    -- `if (a.match_data)`: the data decide unless they are equal
    let byData : Option Bool :=
      if a.match_data then
        if a.data < b.data then some true else if a.data > b.data then some false else none
      else none
    match byData with
    | some r => r
    | none => if a.e < b.e then true else if a.e > b.e then false else false

def memory_region_ioeventfd_equal (a b : MemoryRegionIoeventfd) : Bool :=
  !memory_region_ioeventfd_before a b && !memory_region_ioeventfd_before b a

inductive EventfdCall
  | eventfd_del (fd : MemoryRegionIoeventfd)
  | eventfd_add (fd : MemoryRegionIoeventfd)
deriving DecidableEq, Repr

-- The loop of `address_space_add_del_ioeventfds` from `fds_old[iold]` and `fds_new[inew]` on.
def addDelLoop : List MemoryRegionIoeventfd → List MemoryRegionIoeventfd → List EventfdCall
  | [], [] => []
  | fdold :: old, [] => .eventfd_del fdold :: addDelLoop old []
  | [], fdnew :: new => .eventfd_add fdnew :: addDelLoop [] new
  | fdold :: old, fdnew :: new =>
      if memory_region_ioeventfd_before fdold fdnew then
        .eventfd_del fdold :: addDelLoop old (fdnew :: new)
      else if memory_region_ioeventfd_before fdnew fdold then
        .eventfd_add fdnew :: addDelLoop (fdold :: old) new
      else addDelLoop old new
termination_by old new => old.length + new.length

-- `static void address_space_add_del_ioeventfds(AddressSpace *as,
-- MemoryRegionIoeventfd *fds_new, unsigned fds_new_nb, MemoryRegionIoeventfd *fds_old,
-- unsigned fds_old_nb)`.
def address_space_add_del_ioeventfds (fds_new fds_old : List MemoryRegionIoeventfd) :
    List EventfdCall :=
  addDelLoop fds_old fds_new

def EventfdCall.deleted : EventfdCall → Option MemoryRegionIoeventfd
  | .eventfd_del fd => some fd
  | .eventfd_add _ => none

def EventfdCall.added : EventfdCall → Option MemoryRegionIoeventfd
  | .eventfd_del _ => none
  | .eventfd_add fd => some fd

/-! ### The order of ioeventfds -/

-- `before` compares these keys lexicographically.
def ioeventfdKey (a : MemoryRegionIoeventfd) : List Nat :=
  [a.addr.start, a.addr.size, a.match_data.toNat, if a.match_data then a.data.toNat else 0, a.e]

theorem ite_lt_gt (x y : Nat) (r : Bool) :
    (if x < y then true else if x > y then false else r) =
      (decide (x < y) || (decide (x = y) && r)) := by
  by_cases h1 : x < y
  · simp [h1]
  · by_cases h2 : x > y
    · simp [h1, h2]
      omega
    · simp [h1, h2]
      omega

theorem before_iff_key_lt (a b : MemoryRegionIoeventfd) :
    memory_region_ioeventfd_before a b = true ↔ ioeventfdKey a < ioeventfdKey b := by
  unfold memory_region_ioeventfd_before ioeventfdKey
  simp only [ite_lt_gt, List.cons_lt_cons_iff, List.not_lt_nil]
  cases ha : a.match_data <;> cases hb : b.match_data
  all_goals simp [UInt64.lt_iff_toNat_lt]
  -- with data matched, the data decide before the notifier
  split_ifs <;> simp <;> omega

theorem equal_iff_key_eq (a b : MemoryRegionIoeventfd) :
    memory_region_ioeventfd_equal a b = true ↔ ioeventfdKey a = ioeventfdKey b := by
  simp only [memory_region_ioeventfd_equal, Bool.and_eq_true, Bool.not_eq_true',
    ← Bool.not_eq_true, before_iff_key_lt]
  constructor
  · rintro ⟨h1, h2⟩
    exact le_antisymm (not_lt.mp h2) (not_lt.mp h1)
  · intro h
    simp [h]

theorem memory_region_ioeventfd_equal_comm (a b : MemoryRegionIoeventfd) :
    memory_region_ioeventfd_equal a b = memory_region_ioeventfd_equal b a := by
  simp only [memory_region_ioeventfd_equal, Bool.and_comm]

-- Sorted by `before`: each entry comes before every later one.
def IoeventfdsSorted (fds : List MemoryRegionIoeventfd) : Prop :=
  fds.Pairwise fun a b => memory_region_ioeventfd_before a b = true

instance (fds : List MemoryRegionIoeventfd) : Decidable (IoeventfdsSorted fds) :=
  inferInstanceAs (Decidable (List.Pairwise _ fds))

-- The entries of `fds` with no equal entry in `other`.
def fdsOnlyIn (fds other : List MemoryRegionIoeventfd) : List MemoryRegionIoeventfd :=
  fds.filter fun fd => !other.any (memory_region_ioeventfd_equal fd)

theorem fdsOnlyIn_cons_other {fds other : List MemoryRegionIoeventfd} {x : MemoryRegionIoeventfd}
    (h : ∀ g ∈ fds, memory_region_ioeventfd_equal g x = false) :
    fdsOnlyIn fds (x :: other) = fdsOnlyIn fds other := by
  unfold fdsOnlyIn
  refine List.filter_congr fun g hg => ?_
  simp [h g hg]

theorem fdsOnlyIn_cons_of_none {fds other : List MemoryRegionIoeventfd} {fd : MemoryRegionIoeventfd}
    (h : ∀ m ∈ other, memory_region_ioeventfd_equal m fd = false) :
    fdsOnlyIn (fd :: fds) other = fd :: fdsOnlyIn fds other := by
  have hany : other.any (memory_region_ioeventfd_equal fd) = false :=
    List.any_eq_false.mpr fun m hm => by
      rw [memory_region_ioeventfd_equal_comm, h m hm]
      decide
  simp [fdsOnlyIn, hany]

theorem fdsOnlyIn_cons_of_equal {fds other : List MemoryRegionIoeventfd}
    {fd m : MemoryRegionIoeventfd} (hm : m ∈ other) (h : memory_region_ioeventfd_equal fd m = true) :
    fdsOnlyIn (fd :: fds) other = fdsOnlyIn fds other := by
  have hany : other.any (memory_region_ioeventfd_equal fd) = true := List.any_eq_true.mpr ⟨m, hm, h⟩
  simp [fdsOnlyIn, hany]

theorem equal_eq_false_of_key_lt {g x : MemoryRegionIoeventfd}
    (h : ioeventfdKey x < ioeventfdKey g) : memory_region_ioeventfd_equal g x = false := by
  rw [← Bool.not_eq_true, equal_iff_key_eq]
  exact ne_of_gt h

-- An entry before the head of a sorted array has no equal in it.
theorem not_equal_of_key_lt {x : MemoryRegionIoeventfd} {fd : MemoryRegionIoeventfd}
    {fds : List MemoryRegionIoeventfd} (hs : IoeventfdsSorted (fd :: fds))
    (h : ioeventfdKey x < ioeventfdKey fd) :
    ∀ g ∈ fd :: fds, memory_region_ioeventfd_equal g x = false := by
  intro g hg
  have hle : ioeventfdKey fd ≤ ioeventfdKey g := by
    rcases List.mem_cons.mp hg with rfl | hg
    · exact le_refl _
    · exact le_of_lt ((before_iff_key_lt _ _).mp ((List.pairwise_cons.mp hs).1 g hg))
  exact equal_eq_false_of_key_lt (lt_of_lt_of_le h hle)

-- With both arrays sorted, the merge deletes exactly the old-only entries and adds exactly the
-- new-only ones, each once and in order.
theorem addDelLoop_spec {old new : List MemoryRegionIoeventfd} (hold : IoeventfdsSorted old)
    (hnew : IoeventfdsSorted new) :
    (addDelLoop old new).filterMap EventfdCall.deleted = fdsOnlyIn old new ∧
      (addDelLoop old new).filterMap EventfdCall.added = fdsOnlyIn new old := by
  fun_induction addDelLoop old new with
  | case1 => exact ⟨rfl, rfl⟩
  | case2 fdold old ih =>
      obtain ⟨h1, h2⟩ := ih hold.of_cons hnew
      refine ⟨?_, ?_⟩
      · rw [List.filterMap_cons, EventfdCall.deleted, h1, fdsOnlyIn_cons_of_none (by simp)]
      · rw [List.filterMap_cons, EventfdCall.added, h2]
        rfl
  | case3 fdnew new ih =>
      obtain ⟨h1, h2⟩ := ih hold hnew.of_cons
      refine ⟨?_, ?_⟩
      · rw [List.filterMap_cons, EventfdCall.deleted, h1]
        rfl
      · rw [List.filterMap_cons, EventfdCall.added, h2, fdsOnlyIn_cons_of_none (by simp)]
  | case4 fdold old fdnew new hbefore ih =>
      -- `fdold` comes first: it has no equal in the new array
      have hno := not_equal_of_key_lt hnew ((before_iff_key_lt _ _).mp hbefore)
      obtain ⟨h1, h2⟩ := ih hold.of_cons hnew
      refine ⟨?_, ?_⟩
      · rw [List.filterMap_cons, EventfdCall.deleted, h1, fdsOnlyIn_cons_of_none hno]
      · rw [List.filterMap_cons, EventfdCall.added, h2, fdsOnlyIn_cons_other hno]
  | case5 fdold old fdnew new hbefore hafter ih =>
      -- `fdnew` comes first: it has no equal in the old array
      have hno := not_equal_of_key_lt hold ((before_iff_key_lt _ _).mp hafter)
      obtain ⟨h1, h2⟩ := ih hold hnew.of_cons
      refine ⟨?_, ?_⟩
      · rw [List.filterMap_cons, EventfdCall.deleted, h1, fdsOnlyIn_cons_other hno]
      · rw [List.filterMap_cons, EventfdCall.added, h2, fdsOnlyIn_cons_of_none hno]
  | case6 fdold old fdnew new hbefore hafter ih =>
      -- neither comes first: they are equal, and neither is equal to a later entry
      have hsame : memory_region_ioeventfd_equal fdold fdnew = true := by
        simp [memory_region_ioeventfd_equal, hbefore, hafter]
      have heq := (equal_iff_key_eq _ _).mp hsame
      have hold_later : ∀ g ∈ old, memory_region_ioeventfd_equal g fdnew = false := fun g hg => by
        have := (before_iff_key_lt _ _).mp ((List.pairwise_cons.mp hold).1 g hg)
        rw [heq] at this
        exact equal_eq_false_of_key_lt this
      have hnew_later : ∀ m ∈ new, memory_region_ioeventfd_equal m fdold = false := fun m hm => by
        have := (before_iff_key_lt _ _).mp ((List.pairwise_cons.mp hnew).1 m hm)
        rw [← heq] at this
        exact equal_eq_false_of_key_lt this
      obtain ⟨h1, h2⟩ := ih hold.of_cons hnew.of_cons
      refine ⟨?_, ?_⟩
      · rw [h1, fdsOnlyIn_cons_of_equal List.mem_cons_self hsame, fdsOnlyIn_cons_other hold_later]
      · rw [h2, fdsOnlyIn_cons_of_equal List.mem_cons_self
          (by rw [memory_region_ioeventfd_equal_comm]; exact hsame), fdsOnlyIn_cons_other hnew_later]

/-! ### The arrays the update compares -/

-- `void memory_region_add_eventfd(MemoryRegion *mr, hwaddr addr, unsigned size, bool match_data,
-- uint64_t data, EventNotifier *e)` on the region's array: the new entry goes before the first
-- one it comes before. `data` is the value after `adjust_endianness`.
def addEventfd (mrfd : MemoryRegionIoeventfd) :
    List MemoryRegionIoeventfd → List MemoryRegionIoeventfd
  | [] => [mrfd]
  | fd :: fds =>
      if memory_region_ioeventfd_before mrfd fd then mrfd :: fd :: fds
      else fd :: addEventfd mrfd fds

def memory_region_add_eventfd (ioeventfds : List MemoryRegionIoeventfd) (addr : UInt64)
    (size : UInt32) (match_data : Bool) (data : UInt64) (e : Nat) : List MemoryRegionIoeventfd :=
  addEventfd ⟨⟨addr.toNat, size.toNat⟩, match_data, data, e⟩ ioeventfds

-- The array without its first entry equal to `mrfd`, `none` where there is none and
-- `assert(i != mr->ioeventfd_nb)` fails.
def delEventfd (mrfd : MemoryRegionIoeventfd) :
    List MemoryRegionIoeventfd → Option (List MemoryRegionIoeventfd)
  | [] => none
  | fd :: fds =>
      if memory_region_ioeventfd_equal mrfd fd then some fds
      else (delEventfd mrfd fds).map (fd :: ·)

def memory_region_del_eventfd (ioeventfds : List MemoryRegionIoeventfd) (addr : UInt64)
    (size : UInt32) (match_data : Bool) (data : UInt64) (e : Nat) :
    Option (List MemoryRegionIoeventfd) :=
  delEventfd ⟨⟨addr.toNat, size.toNat⟩, match_data, data, e⟩ ioeventfds

-- `addrrange_shift(fd.addr, fr->addr.start - fr->offset_in_region)`: the ioeventfd at its
-- address in the address space. The shift is the region's base address, which
-- `render_memory_region` never makes negative.
def ioeventfdAt (fr : FlatRange MR) (fd : MemoryRegionIoeventfd) : MemoryRegionIoeventfd :=
  { fd with addr := ⟨fd.addr.start + (fr.addr.start - fr.offset_in_region.toNat), fd.addr.size⟩ }

-- The ioeventfds of `fr`'s region (`ioeventfds fr.mr`) that show in `fr`, at their addresses.
def flatRangeIoeventfds (ioeventfds : MR → List MemoryRegionIoeventfd) (fr : FlatRange MR) :
    List MemoryRegionIoeventfd :=
  ((ioeventfds fr.mr).map (ioeventfdAt fr)).filter fun fd => addrrange_intersects fr.addr fd.addr

-- `static void address_space_update_ioeventfds(AddressSpace *as)` on the view `view`, with the
-- array `as_ioeventfds` the last update kept: the calls it makes and the array it keeps.
def address_space_update_ioeventfds (ioeventfds : MR → List MemoryRegionIoeventfd)
    (view : List (FlatRange MR)) (as_ioeventfds : List MemoryRegionIoeventfd) :
    List EventfdCall × List MemoryRegionIoeventfd :=
  let fds := view.flatMap (flatRangeIoeventfds ioeventfds)
  (address_space_add_del_ioeventfds fds as_ioeventfds, fds)

theorem before_trans {a b c : MemoryRegionIoeventfd} (hab : memory_region_ioeventfd_before a b = true)
    (hbc : memory_region_ioeventfd_before b c = true) : memory_region_ioeventfd_before a c = true := by
  rw [before_iff_key_lt] at hab hbc ⊢
  exact lt_trans hab hbc

theorem mem_addEventfd {mrfd x : MemoryRegionIoeventfd} {fds : List MemoryRegionIoeventfd} :
    x ∈ addEventfd mrfd fds ↔ x = mrfd ∨ x ∈ fds := by
  induction fds with
  | nil => simp [addEventfd]
  | cons fd fds ih =>
      unfold addEventfd
      split
      · exact List.mem_cons
      · rw [List.mem_cons, ih, List.mem_cons]
        tauto

-- Adding an entry with no equal in the array keeps it sorted.
theorem addEventfd_sorted {mrfd : MemoryRegionIoeventfd} {fds : List MemoryRegionIoeventfd}
    (hs : IoeventfdsSorted fds) (hnew : ∀ fd ∈ fds, memory_region_ioeventfd_equal mrfd fd = false) :
    IoeventfdsSorted (addEventfd mrfd fds) := by
  induction fds with
  | nil => exact List.pairwise_singleton _ _
  | cons fd fds ih =>
      obtain ⟨hfd, hfds⟩ := List.pairwise_cons.mp hs
      unfold addEventfd
      split
      · next hbefore =>
        -- `mrfd` goes first: it comes before `fd` and so before every later entry
        refine List.pairwise_cons.mpr ⟨fun g hg => ?_, hs⟩
        rcases List.mem_cons.mp hg with rfl | hg
        · exact hbefore
        · exact before_trans hbefore (hfd g hg)
      · next hbefore =>
        -- `fd` neither follows `mrfd` nor equals it, so it comes before
        have hfd_mrfd : memory_region_ioeventfd_before fd mrfd = true := by
          have := hnew fd List.mem_cons_self
          simp_all [memory_region_ioeventfd_equal]
        refine List.pairwise_cons.mpr ⟨fun g hg => ?_,
          ih hfds fun g hg => hnew g (List.mem_cons_of_mem _ hg)⟩
        rcases mem_addEventfd.mp hg with rfl | hg
        · exact hfd_mrfd
        · exact hfd g hg

theorem delEventfd_sublist {mrfd : MemoryRegionIoeventfd} {fds fds' : List MemoryRegionIoeventfd}
    (h : delEventfd mrfd fds = some fds') : fds'.Sublist fds := by
  induction fds generalizing fds' with
  | nil => cases h
  | cons fd fds ih =>
      unfold delEventfd at h
      split at h
      · cases h
        exact List.sublist_cons_self _ _
      · obtain ⟨rest, hrest, rfl⟩ := Option.map_eq_some_iff.mp h
        exact (ih hrest).cons_cons fd

-- A region's array stays sorted: `memory_region_add_eventfd` of an entry with no equal in it, and
-- `memory_region_del_eventfd`, which only takes an entry out.
theorem memory_region_eventfd_sorted {fds : List MemoryRegionIoeventfd} (hs : IoeventfdsSorted fds)
    (addr : UInt64) (size : UInt32) (match_data : Bool) (data : UInt64) (e : Nat) :
    ((∀ fd ∈ fds, memory_region_ioeventfd_equal ⟨⟨addr.toNat, size.toNat⟩, match_data, data, e⟩ fd =
        false) → IoeventfdsSorted (memory_region_add_eventfd fds addr size match_data data e)) ∧
      ∀ fds', memory_region_del_eventfd fds addr size match_data data e = some fds' →
        IoeventfdsSorted fds' :=
  ⟨addEventfd_sorted hs, fun _ h => hs.sublist (delEventfd_sublist h)⟩

-- The shift to the address space keeps the order of two ioeventfds of one region.
omit [DecidableEq MR] in
theorem before_ioeventfdAt (fr : FlatRange MR) (a b : MemoryRegionIoeventfd) :
    memory_region_ioeventfd_before (ioeventfdAt fr a) (ioeventfdAt fr b) =
      memory_region_ioeventfd_before a b := by
  simp [memory_region_ioeventfd_before, ioeventfdAt]

omit [DecidableEq MR] in
theorem flatRangeIoeventfds_sorted {ioeventfds : MR → List MemoryRegionIoeventfd} {fr : FlatRange MR}
    (hs : IoeventfdsSorted (ioeventfds fr.mr)) :
    IoeventfdsSorted (flatRangeIoeventfds ioeventfds fr) := by
  unfold flatRangeIoeventfds IoeventfdsSorted
  apply List.Pairwise.filter
  rw [List.pairwise_map]
  exact hs.imp fun h => (before_ioeventfdAt fr _ _).trans h

-- An ioeventfd that shows in a range of at least one address starts before the range's end.
omit [DecidableEq MR] in
theorem start_lt_end_of_mem {ioeventfds : MR → List MemoryRegionIoeventfd} {fr : FlatRange MR}
    {fd : MemoryRegionIoeventfd} (hne : 0 < fr.addr.size) (hfd : fd ∈ flatRangeIoeventfds ioeventfds fr) :
    fd.addr.start < addrrange_end fr.addr := by
  have hint := (List.mem_filter.mp hfd).2
  simp only [addrrange_intersects, addrrange_contains, Bool.or_eq_true, Bool.and_eq_true,
    decide_eq_true_eq] at hint
  simp only [addrrange_end] at hint ⊢
  omega

-- Every ioeventfd the update takes starts inside the range it shows in: none is cut at its start
-- by the end of the range, where another region covers it.
def StartsInRanges (ioeventfds : MR → List MemoryRegionIoeventfd) (view : List (FlatRange MR)) :
    Prop :=
  ∀ fr ∈ view, ∀ fd ∈ flatRangeIoeventfds ioeventfds fr, fr.addr.start ≤ fd.addr.start

section Update

omit [DecidableEq MR]

variable {ioeventfds : MR → List MemoryRegionIoeventfd} {view : List (FlatRange MR)}

-- On a sorted view, with every region's array sorted and every ioeventfd shown from its start,
-- the array `address_space_update_ioeventfds` builds is sorted: the ranges' blocks follow each
-- other in address order. An ioeventfd cut at its start could come after one of an earlier range.
theorem update_ioeventfds_sorted (hview : Sorted view) (hne : ∀ fr ∈ view, 0 < fr.addr.size)
    (hregions : ∀ fr ∈ view, IoeventfdsSorted (ioeventfds fr.mr))
    (hstart : StartsInRanges ioeventfds view) :
    IoeventfdsSorted (view.flatMap (flatRangeIoeventfds ioeventfds)) := by
  unfold IoeventfdsSorted
  rw [List.pairwise_flatMap]
  refine ⟨fun fr hfr => flatRangeIoeventfds_sorted (hregions fr hfr), ?_⟩
  refine hview.imp_of_mem fun {fr1 fr2} hfr1 hfr2 hle x hx y hy => ?_
  -- `x` starts before its range ends, which is where or before `y`'s range starts
  have hx_end := start_lt_end_of_mem (hne fr1 hfr1) hx
  have hy_start := hstart fr2 hfr2 y hy
  have hlt : x.addr.start < y.addr.start := by omega
  unfold memory_region_ioeventfd_before
  rw [if_pos hlt]

-- One update from a sorted array, on such a view: it deletes exactly the entries of the last
-- array with no equal in the new one, adds exactly the new entries with no equal in the last, and
-- keeps a sorted array for the next update. An address space's array starts empty, so this
-- holds of every update along a run of such views.
theorem address_space_update_ioeventfds_spec {as_ioeventfds : List MemoryRegionIoeventfd}
    (hview : Sorted view) (hne : ∀ fr ∈ view, 0 < fr.addr.size)
    (hregions : ∀ fr ∈ view, IoeventfdsSorted (ioeventfds fr.mr))
    (hstart : StartsInRanges ioeventfds view) (hold : IoeventfdsSorted as_ioeventfds) :
    IoeventfdsSorted (address_space_update_ioeventfds ioeventfds view as_ioeventfds).2 ∧
      (address_space_update_ioeventfds ioeventfds view as_ioeventfds).1.filterMap
          EventfdCall.deleted =
        fdsOnlyIn as_ioeventfds (address_space_update_ioeventfds ioeventfds view as_ioeventfds).2 ∧
      (address_space_update_ioeventfds ioeventfds view as_ioeventfds).1.filterMap
          EventfdCall.added =
        fdsOnlyIn (address_space_update_ioeventfds ioeventfds view as_ioeventfds).2 as_ioeventfds := by
  have hnew := update_ioeventfds_sorted hview hne hregions hstart
  exact ⟨hnew, addDelLoop_spec hold hnew⟩

end Update

/-! ### Both updates -/

-- On views sorted by start and disjoint, of ranges of at least one address, the topology update
-- deletes the old-only ranges in order, then for each new range in order adds it or, when the
-- old view has it, reports it kept with the change of logging; on arrays sorted by `before` the
-- ioeventfd update deletes exactly the old-only entries and adds exactly the new-only ones.
theorem address_space_update_topology_calls (old new : List (FlatRange MR)) (hold : Sorted old)
    (hnew : Sorted new) (holdne : ∀ fr ∈ old, 0 < fr.addr.size)
    (hnewne : ∀ fr ∈ new, 0 < fr.addr.size) (fds_old fds_new : List MemoryRegionIoeventfd)
    (hfds_old : IoeventfdsSorted fds_old) (hfds_new : IoeventfdsSorted fds_new) :
    address_space_update_topology old new =
        (onlyIn old new).map .region_del ++ new.flatMap (addingCalls old) ∧
      (address_space_add_del_ioeventfds fds_new fds_old).filterMap EventfdCall.deleted =
        fdsOnlyIn fds_old fds_new ∧
      (address_space_add_del_ioeventfds fds_new fds_old).filterMap EventfdCall.added =
        fdsOnlyIn fds_new fds_old := by
  have hinc_old := hold.startsIncrease holdne
  have hinc_new := hnew.startsIncrease hnewne
  refine ⟨?_, addDelLoop_spec hfds_old hfds_new⟩
  rw [address_space_update_topology, update_topology_pass_deleting hinc_old hinc_new,
    update_topology_pass_adding hinc_old hinc_new]

-- Region 1 at `[0, 0x1000)` and region 2 at `[0x1000, 0x2000)`; then region 1 with dirty
-- logging on and region 3 at `[0x2000, 0x3000)`.
def viewBefore : List (FlatRange Nat) :=
  [⟨1, 0, ⟨0, 0x1000⟩, 0, true, false⟩, ⟨2, 0, ⟨0x1000, 0x1000⟩, 0, true, false⟩]

def viewAfter : List (FlatRange Nat) :=
  [⟨1, 0, ⟨0, 0x1000⟩, 1, true, false⟩, ⟨3, 0, ⟨0x2000, 0x1000⟩, 0, true, false⟩]

def ioeventfdsBefore : List MemoryRegionIoeventfd := [⟨⟨0x10, 4⟩, false, 0, 1⟩]

def ioeventfdsAfter : List MemoryRegionIoeventfd := [⟨⟨0x10, 4⟩, true, 7, 1⟩, ⟨⟨0x20, 4⟩, false, 0, 2⟩]

theorem address_space_update_topology_two_views :
    Sorted viewBefore ∧ Sorted viewAfter ∧ (∀ fr ∈ viewBefore, 0 < fr.addr.size) ∧
      (∀ fr ∈ viewAfter, 0 < fr.addr.size) ∧ IoeventfdsSorted ioeventfdsBefore ∧
      IoeventfdsSorted ioeventfdsAfter ∧
      (address_space_update_topology viewBefore viewAfter =
          (onlyIn viewBefore viewAfter).map .region_del ++ viewAfter.flatMap (addingCalls viewBefore) ∧
        (address_space_add_del_ioeventfds ioeventfdsAfter ioeventfdsBefore).filterMap
            EventfdCall.deleted = fdsOnlyIn ioeventfdsBefore ioeventfdsAfter ∧
        (address_space_add_del_ioeventfds ioeventfdsAfter ioeventfdsBefore).filterMap
            EventfdCall.added = fdsOnlyIn ioeventfdsAfter ioeventfdsBefore) := by
  have h1 : Sorted viewBefore := by decide
  have h2 : Sorted viewAfter := by decide
  have h3 : ∀ fr ∈ viewBefore, 0 < fr.addr.size := by decide
  have h4 : ∀ fr ∈ viewAfter, 0 < fr.addr.size := by decide
  have h5 : IoeventfdsSorted ioeventfdsBefore := by decide
  have h6 : IoeventfdsSorted ioeventfdsAfter := by decide
  exact ⟨h1, h2, h3, h4, h5, h6, address_space_update_topology_calls viewBefore viewAfter h1 h2 h3 h4
    ioeventfdsBefore ioeventfdsAfter h5 h6⟩

end Qemu.Memory

import Mathlib.Data.Nat.Bitwise
import Mathlib.Tactic.Ring

/-!
The physical page map of an address space (`exec.c`): a radix tree over page numbers, `L2_BITS`
bits of the page number per level and `P_L2_LEVELS` levels, that gives each page the index of its
`MemoryRegionSection`. Its nodes live in one pool, `phys_map_nodes`, and are named by their index
there; the root entry is the dispatch's `phys_map`. `phys_page_set` maps `nb` pages from `index`
to a section, making a whole-subtree leaf wherever an aligned run covers a subtree and allocating
nodes on the way down; `phys_page_find` walks the tree.

A `PhysPageEntry` is the 16-bit pair of the 1-bit `is_leaf` and the 15-bit `ptr`. The pool's
contents are a function of the node and the slot, so growing the pool changes nothing here; the
pool's size, `phys_map_node_reserve` and the assertion against that size are in
`Qemu.Exec.PhysPageReserve`. Page numbers (`hwaddr`) are
natural numbers: the requests below stay under `2 ^ (P_L2_LEVELS * L2_BITS)`, at most `2 ^ 64`
for every target.
-/

namespace Qemu.Exec

def L2_BITS : Nat := 10

def L2_SIZE : Nat := 1 <<< L2_BITS

-- `#define PHYS_MAP_NODE_NIL (((uint16_t)~0) >> 1)`
def PHYS_MAP_NODE_NIL : Nat := 0xffff >>> 1

-- The two constants of a target that fix the depth of the tree.
structure Target where
  TARGET_PHYS_ADDR_SPACE_BITS : Nat
  TARGET_PAGE_BITS : Nat

-- `#define P_L2_LEVELS (((TARGET_PHYS_ADDR_SPACE_BITS - TARGET_PAGE_BITS - 1) / L2_BITS) + 1)`
def Target.P_L2_LEVELS (t : Target) : Nat :=
  (t.TARGET_PHYS_ADDR_SPACE_BITS - t.TARGET_PAGE_BITS - 1) / L2_BITS + 1

structure PhysPageEntry where
  is_leaf : Bool
  ptr : Nat
deriving DecidableEq, Repr

-- The root entry `d->phys_map` and the node pool `phys_map_nodes[0, phys_map_nodes_nb)`.
structure PhysMap where
  phys_map : PhysPageEntry
  phys_map_nodes : Nat → Nat → PhysPageEntry
  phys_map_nodes_nb : Nat

-- Where an entry lives: the root, or slot `i` of node `node`.
inductive EntryLoc
  | root
  | slot (node i : Nat)
deriving DecidableEq, Repr

namespace PhysMap

def get (s : PhysMap) : EntryLoc → PhysPageEntry
  | .root => s.phys_map
  | .slot n i => s.phys_map_nodes n i

def set (s : PhysMap) (lp : EntryLoc) (e : PhysPageEntry) : PhysMap :=
  match lp with
  | .root => { s with phys_map := e }
  | .slot n i => { s with phys_map_nodes := fun m j => if m = n ∧ j = i then e else s.phys_map_nodes m j }

-- `for (i = 0; i < L2_SIZE; i++) p[i] = e` on node `n`.
def fill (s : PhysMap) (n : Nat) (e : PhysPageEntry) : PhysMap :=
  { s with phys_map_nodes := fun m j => if m = n ∧ j < L2_SIZE then e else s.phys_map_nodes m j }

end PhysMap

-- After `mem_begin`: no node, and the root points nowhere.
def emptyPhysMap : PhysMap :=
  ⟨⟨false, PHYS_MAP_NODE_NIL⟩, fun _ _ => ⟨false, PHYS_MAP_NODE_NIL⟩, 0⟩

-- `static uint16_t phys_map_node_alloc(void)`; `none` where `assert(ret != PHYS_MAP_NODE_NIL)`
-- stops QEMU.
def phys_map_node_alloc (s : PhysMap) : Option (PhysMap × Nat) :=
  let ret := s.phys_map_nodes_nb
  if ret = PHYS_MAP_NODE_NIL then none
  else some ({ s with phys_map_nodes_nb := ret + 1 }.fill ret ⟨false, PHYS_MAP_NODE_NIL⟩, ret)

-- The node `lp` points to at `level`, allocated first when `lp` is neither a leaf nor a pointer
-- (a new bottom-level node is filled with unassigned leaves).
def nodeOf (phys_section_unassigned : Nat) (s : PhysMap) (lp : EntryLoc) (level : Nat) :
    Option (PhysMap × Nat) :=
  let e := s.get lp
  if e.is_leaf = false ∧ e.ptr = PHYS_MAP_NODE_NIL then
    match phys_map_node_alloc s with
    | none => none
    | some (s, ret) =>
        let s := s.set lp { e with ptr := ret }
        some ((if level = 0 then s.fill ret ⟨true, phys_section_unassigned⟩ else s), ret)
  else some (s, e.ptr)

-- The map and the two cursors `*index` and `*nb` that the levels share.
structure SetState where
  map : PhysMap
  index : Nat
  nb : Nat

-- `while (*nb && lp < &p[L2_SIZE])` over node `p` at `level` from slot `j`, with `rest` slots
-- left in the node; `descend` is the call one level down.
def setLoop (descend : EntryLoc → SetState → Option SetState) (leaf : UInt16) (level p : Nat) :
    (rest j : Nat) → SetState → Option SetState
  | 0, _, st => some st
  | rest + 1, j, st =>
      if st.nb = 0 then some st
      else
        let step := 1 <<< (level * L2_BITS)
        if st.index &&& (step - 1) = 0 ∧ st.nb ≥ step then
          -- `lp->ptr = leaf` stores the low 15 bits
          setLoop descend leaf level p rest (j + 1)
            ⟨st.map.set (.slot p j) ⟨true, leaf.toNat % 2 ^ 15⟩, st.index + step, st.nb - step⟩
        else
          match descend (.slot p j) st with
          | none => none
          | some st => setLoop descend leaf level p rest (j + 1) st

-- The body of `phys_page_set_level` at `level`.
def setLevelBody (phys_section_unassigned : Nat) (descend : EntryLoc → SetState → Option SetState)
    (leaf : UInt16) (level : Nat) (lp : EntryLoc) (st : SetState) : Option SetState :=
  match nodeOf phys_section_unassigned st.map lp level with
  | none => none
  | some (map, p) =>
      let i := (st.index >>> (level * L2_BITS)) &&& (L2_SIZE - 1)
      setLoop descend leaf level p (L2_SIZE - i) i { st with map }

-- `static void phys_page_set_level(PhysPageEntry *lp, hwaddr *index, hwaddr *nb,
-- uint16_t leaf, int level)`. At level 0 the step is one page and the loop never descends.
def phys_page_set_level (phys_section_unassigned : Nat) (leaf : UInt16) :
    Nat → EntryLoc → SetState → Option SetState
  | 0 => setLevelBody phys_section_unassigned (fun _ st => some st) leaf 0
  | level + 1 =>
      setLevelBody phys_section_unassigned (phys_page_set_level phys_section_unassigned leaf level)
        leaf (level + 1)

-- `static void phys_page_set(AddressSpaceDispatch *d, hwaddr index, hwaddr nb, uint16_t leaf)`.
def phys_page_set (t : Target) (phys_section_unassigned : Nat) (d : PhysMap) (index nb : Nat)
    (leaf : UInt16) : Option PhysMap :=
  (phys_page_set_level phys_section_unassigned leaf (t.P_L2_LEVELS - 1) .root ⟨d, index, nb⟩).map
    SetState.map

-- The loop `for (i = P_L2_LEVELS - 1; i >= 0 && !lp.is_leaf; i--)` of `phys_page_find`, with
-- `k = i + 1` levels left.
def findLoop (phys_section_unassigned : Nat) (d : PhysMap) (index : Nat) :
    Nat → PhysPageEntry → Nat
  | 0, lp => lp.ptr
  | k + 1, lp =>
      if lp.is_leaf then lp.ptr
      else if lp.ptr = PHYS_MAP_NODE_NIL then phys_section_unassigned
      else
        findLoop phys_section_unassigned d index k
          (d.phys_map_nodes lp.ptr ((index >>> (k * L2_BITS)) &&& (L2_SIZE - 1)))

-- `MemoryRegionSection *phys_page_find(AddressSpaceDispatch *d, hwaddr index)`: the index of
-- the section in `phys_sections`.
def phys_page_find (t : Target) (phys_section_unassigned : Nat) (d : PhysMap) (index : Nat) :
    Nat :=
  findLoop phys_section_unassigned d index t.P_L2_LEVELS d.phys_map

namespace PhysMap

variable {s : PhysMap} {lp loc : EntryLoc} {e : PhysPageEntry}

@[simp] theorem get_root (s : PhysMap) : s.get .root = s.phys_map := rfl

@[simp] theorem get_slot (s : PhysMap) (n i : Nat) : s.get (.slot n i) = s.phys_map_nodes n i := rfl

theorem get_set : (s.set lp e).get loc = if loc = lp then e else s.get loc := by
  cases lp <;> cases loc <;> simp [set, get]

@[simp] theorem get_set_self : (s.set lp e).get lp = e := by simp [get_set]

theorem nodes_set {n i : Nat} :
    (s.set lp e).phys_map_nodes n i = if lp = .slot n i then e else s.phys_map_nodes n i := by
  rw [← get_slot, get_set]
  simp [eq_comm]

@[simp] theorem nb_set : (s.set lp e).phys_map_nodes_nb = s.phys_map_nodes_nb := by
  cases lp <;> rfl

@[simp] theorem nb_fill {n : Nat} : (s.fill n e).phys_map_nodes_nb = s.phys_map_nodes_nb := rfl

@[simp] theorem root_fill {n : Nat} : (s.fill n e).phys_map = s.phys_map := rfl

theorem nodes_fill {n m j : Nat} :
    (s.fill n e).phys_map_nodes m j = if m = n ∧ j < L2_SIZE then e else s.phys_map_nodes m j := rfl

theorem nodes_fill_self {n j : Nat} (hj : j < L2_SIZE) : (s.fill n e).phys_map_nodes n j = e := by
  simp [nodes_fill, hj]

theorem get_fill_of_ne {n : Nat} (h : ∀ j, loc ≠ .slot n j) : (s.fill n e).get loc = s.get loc := by
  cases loc with
  | root => rfl
  | slot m j =>
      have : m ≠ n := fun hm => h j (by rw [hm])
      simp [nodes_fill, this]

@[simp] theorem get_with_nb {nb : Nat} : { s with phys_map_nodes_nb := nb }.get loc = s.get loc := by
  cases loc <;> rfl

end PhysMap

/-! ### Page numbers, levels and slots -/

-- The pages one slot covers at `level`, the `step` of `phys_page_set_level`.
def span (level : Nat) : Nat := 2 ^ (level * L2_BITS)

theorem L2_SIZE_eq : L2_SIZE = 2 ^ L2_BITS := Nat.one_shiftLeft _

theorem L2_SIZE_pos : 0 < L2_SIZE := by decide

theorem span_pos (l : Nat) : 0 < span l := Nat.two_pow_pos _

theorem span_zero : span 0 = 1 := rfl

theorem span_succ (l : Nat) : span (l + 1) = span l * L2_SIZE := by
  rw [span, span, L2_SIZE_eq, Nat.succ_mul, Nat.pow_add]

theorem step_eq (l : Nat) : 1 <<< (l * L2_BITS) = span l := Nat.one_shiftLeft _

theorem and_span_sub_one (x l : Nat) : x &&& (span l - 1) = x % span l :=
  Nat.and_two_pow_sub_one_eq_mod _ _

-- The slot of page `x` in a node at level `l`.
theorem slot_eq (x l : Nat) : (x >>> (l * L2_BITS)) &&& (L2_SIZE - 1) = x / span l % L2_SIZE := by
  rw [Nat.shiftRight_eq_div_pow, L2_SIZE_eq, Nat.and_two_pow_sub_one_eq_mod]
  rfl

theorem div_span_succ (x l : Nat) : x / span (l + 1) = x / span l / L2_SIZE := by
  rw [span_succ, Nat.div_div_eq_div_mul]

-- Two pages in one node at level `l` and in one slot of it are in one slot's run of pages.
theorem div_span_eq_of_slot {i x l : Nat} (hblock : i / span (l + 1) = x / span (l + 1))
    (hslot : i / span l % L2_SIZE = x / span l % L2_SIZE) : i / span l = x / span l := by
  rw [div_span_succ, div_span_succ] at hblock
  rw [← Nat.div_add_mod (i / span l) L2_SIZE, ← Nat.div_add_mod (x / span l) L2_SIZE, hblock, hslot]

-- A page in the slot's run of pages is in the slot and the node.
theorem div_span_succ_of_div_span {i x l : Nat} (h : i / span l = x / span l) :
    i / span (l + 1) = x / span (l + 1) := by
  rw [div_span_succ, div_span_succ, h]

-- A page's slot run at level `l` is its node's run at level `l + 1` and its slot there.
theorem div_span_eq (x l : Nat) : x / span l = x / span (l + 1) * L2_SIZE + x / span l % L2_SIZE := by
  rw [div_span_succ]
  exact (Nat.div_add_mod' _ _).symm

-- Pages from `x` up to the end of `x`'s slot run lie in that run.
theorem div_eq_of_le_of_lt {i x w : Nat} (h1 : x ≤ i) (h2 : i < (x / w + 1) * w) : i / w = x / w :=
  Nat.div_eq_of_lt_le (Nat.le_trans (Nat.div_mul_le_self x w) h1) h2

theorem lt_div_succ_mul (x : Nat) {w : Nat} (hw : 0 < w) : x < (x / w + 1) * w := by
  rw [Nat.succ_mul]
  exact Nat.lt_div_mul_add hw

theorem run_mod (B : Nat) {j : Nat} (hj : j < L2_SIZE) : (B * L2_SIZE + j) % L2_SIZE = j := by
  rw [Nat.add_comm, Nat.add_mul_mod_self_right, Nat.mod_eq_of_lt hj]

theorem run_div (B : Nat) {j : Nat} (hj : j < L2_SIZE) : (B * L2_SIZE + j) / L2_SIZE = B := by
  rw [Nat.add_comm, Nat.add_mul_div_right _ _ L2_SIZE_pos, Nat.div_eq_of_lt hj, Nat.zero_add]

-- The pages of slot run `q` are `[q * w, q * w + w)`.
theorem mem_run_of_div {i q w : Nat} (hw : 0 < w) (h : i / w = q) : q * w ≤ i ∧ i < q * w + w := by
  subst h
  exact ⟨Nat.div_mul_le_self i w, Nat.lt_div_mul_add hw⟩

/-! ### The walk of `phys_page_find` -/

section Find

variable {u : Nat} {d : PhysMap} {i k : Nat} {e : PhysPageEntry}

theorem findLoop_of_leaf (h : e.is_leaf = true) : findLoop u d i k e = e.ptr := by
  cases k <;> simp [findLoop, h]

theorem findLoop_succ_nil (hl : e.is_leaf = false) (hn : e.ptr = PHYS_MAP_NODE_NIL) :
    findLoop u d i (k + 1) e = u := by
  simp [findLoop, hl, hn]

theorem findLoop_succ_node (hl : e.is_leaf = false) (hn : e.ptr ≠ PHYS_MAP_NODE_NIL) :
    findLoop u d i (k + 1) e = findLoop u d i k (d.phys_map_nodes e.ptr (i / span k % L2_SIZE)) := by
  simp [findLoop, hl, hn, slot_eq]

end Find

/-! ### The nodes below an entry -/

-- Node `n` is on a walk from the entry `e` with `k` levels left.
def Owns (d : PhysMap) : Nat → PhysPageEntry → Nat → Prop
  | 0, _, _ => False
  | k + 1, e, n => e.is_leaf = false ∧ e.ptr ≠ PHYS_MAP_NODE_NIL ∧
      (n = e.ptr ∨ ∃ j < L2_SIZE, Owns d k (d.phys_map_nodes e.ptr j) n)

-- `d'` holds the nodes below `e` as `d` does.
def Agree (d d' : PhysMap) (k : Nat) (e : PhysPageEntry) : Prop :=
  ∀ n, Owns d k e n → ∀ j < L2_SIZE, d'.phys_map_nodes n j = d.phys_map_nodes n j

section Owns

variable {d d' : PhysMap} {k n j : Nat} {e : PhysPageEntry}

theorem not_owns_zero : ¬Owns d 0 e n := fun h => h

theorem owns_self (hl : e.is_leaf = false) (hn : e.ptr ≠ PHYS_MAP_NODE_NIL) :
    Owns d (k + 1) e e.ptr :=
  ⟨hl, hn, .inl rfl⟩

theorem owns_of_child (hl : e.is_leaf = false) (hn : e.ptr ≠ PHYS_MAP_NODE_NIL) (hj : j < L2_SIZE)
    (h : Owns d k (d.phys_map_nodes e.ptr j) n) : Owns d (k + 1) e n :=
  ⟨hl, hn, .inr ⟨j, hj, h⟩⟩

theorem owns_of_leaf (h : e.is_leaf = true) : ¬Owns d k e n := by
  cases k <;> simp [Owns, h]

theorem owns_of_nil (h : e.ptr = PHYS_MAP_NODE_NIL) : ¬Owns d k e n := by
  cases k <;> simp [Owns, h]

theorem owns_succ_iff (hl : e.is_leaf = false) (hn : e.ptr ≠ PHYS_MAP_NODE_NIL) :
    Owns d (k + 1) e n ↔ n = e.ptr ∨ ∃ j < L2_SIZE, Owns d k (d.phys_map_nodes e.ptr j) n := by
  simp [Owns, hl, hn]

theorem Agree.node (h : Agree d d' (k + 1) e) (hl : e.is_leaf = false)
    (hn : e.ptr ≠ PHYS_MAP_NODE_NIL) (hj : j < L2_SIZE) :
    d'.phys_map_nodes e.ptr j = d.phys_map_nodes e.ptr j :=
  h _ (owns_self hl hn) j hj

theorem Agree.child (h : Agree d d' (k + 1) e) (hl : e.is_leaf = false)
    (hn : e.ptr ≠ PHYS_MAP_NODE_NIL) (hj : j < L2_SIZE) :
    Agree d d' k (d.phys_map_nodes e.ptr j) :=
  fun n hown => h n (owns_of_child hl hn hj hown)

-- What a walk reads is the same in two maps that agree below the entry.
theorem owns_congr (h : Agree d d' k e) : Owns d' k e n ↔ Owns d k e n := by
  induction k generalizing e with
  | zero => exact Iff.rfl
  | succ k ih =>
      simp only [Owns]
      refine and_congr_right fun hl => and_congr_right fun hn => or_congr_right ?_
      constructor
      · rintro ⟨j, hj, hown⟩
        rw [h.node hl hn hj] at hown
        exact ⟨j, hj, (ih (h.child hl hn hj)).mp hown⟩
      · rintro ⟨j, hj, hown⟩
        refine ⟨j, hj, ?_⟩
        rw [h.node hl hn hj]
        exact (ih (h.child hl hn hj)).mpr hown

theorem findLoop_congr {u i : Nat} (h : Agree d d' k e) : findLoop u d' i k e = findLoop u d i k e := by
  induction k generalizing e with
  | zero => rfl
  | succ k ih =>
      by_cases hl : e.is_leaf = false
      · by_cases hn : e.ptr = PHYS_MAP_NODE_NIL
        · rw [findLoop_succ_nil hl hn, findLoop_succ_nil hl hn]
        · have hj : i / span k % L2_SIZE < L2_SIZE := Nat.mod_lt _ L2_SIZE_pos
          rw [findLoop_succ_node hl hn, findLoop_succ_node hl hn, h.node hl hn hj]
          exact ih (h.child hl hn hj)
      · simp only [Bool.not_eq_false] at hl
        rw [findLoop_of_leaf hl, findLoop_of_leaf hl]

-- Writing a slot of a node that no walk from `c` reads leaves `c`'s tree alone.
theorem agree_set_slot {p j : Nat} {e' : PhysPageEntry} (h : ¬Owns d k e p) :
    Agree d (d.set (.slot p j) e') k e := by
  intro n hown t _
  rw [PhysMap.nodes_set, if_neg]
  rintro ⟨⟩
  exact h hown

theorem Agree.trans {d'' : PhysMap} (h : Agree d d' k e) (h' : Agree d' d'' k e) : Agree d d'' k e :=
  fun n hown j hj => (h' n ((owns_congr h).mpr hown) j hj).trans (h n hown j hj)

end Owns

/-! ### Well-formed trees -/

-- The tree below `e`, with `k` levels left: every pointer names an allocated node, the subtrees of
-- a node's slots share no node and do not reach back to it, and no leaf above the bottom level
-- holds `u`, the unassigned section.
def WF (u : Nat) (d : PhysMap) : Nat → PhysPageEntry → Prop
  | 0, _ => True
  | k + 1, e =>
      (e.is_leaf = true → e.ptr ≠ u) ∧
      (e.is_leaf = false → e.ptr ≠ PHYS_MAP_NODE_NIL →
        e.ptr < d.phys_map_nodes_nb ∧
        ∀ j < L2_SIZE, WF u d k (d.phys_map_nodes e.ptr j) ∧
          ¬Owns d k (d.phys_map_nodes e.ptr j) e.ptr ∧
          ∀ j' < L2_SIZE, j' ≠ j → ∀ n, Owns d k (d.phys_map_nodes e.ptr j) n →
            ¬Owns d k (d.phys_map_nodes e.ptr j') n)

-- Node `p`, whose slots have `k` levels left, heads a well-formed tree.
structure NodeWF (u : Nat) (d : PhysMap) (k p : Nat) : Prop where
  alloc : p < d.phys_map_nodes_nb
  child : ∀ j < L2_SIZE, WF u d k (d.phys_map_nodes p j)
  acyclic : ∀ j < L2_SIZE, ¬Owns d k (d.phys_map_nodes p j) p
  disjoint : ∀ j < L2_SIZE, ∀ j' < L2_SIZE, j' ≠ j → ∀ n,
    Owns d k (d.phys_map_nodes p j) n → ¬Owns d k (d.phys_map_nodes p j') n

section WF

variable {u : Nat} {d d' : PhysMap} {k n : Nat} {e : PhysPageEntry}

theorem wf_succ_node_iff (hl : e.is_leaf = false) (hn : e.ptr ≠ PHYS_MAP_NODE_NIL) :
    WF u d (k + 1) e ↔ NodeWF u d k e.ptr := by
  constructor
  · rintro ⟨-, h⟩
    obtain ⟨halloc, h⟩ := h hl hn
    exact ⟨halloc, fun j hj => (h j hj).1, fun j hj => (h j hj).2.1, fun j hj => (h j hj).2.2⟩
  · rintro ⟨halloc, hchild, hacyclic, hdisjoint⟩
    refine ⟨fun h => absurd hl (by simp [h]), fun _ _ => ?_⟩
    exact ⟨halloc, fun j hj => ⟨hchild j hj, hacyclic j hj, hdisjoint j hj⟩⟩

theorem WF.ptr_ne (h : WF u d (k + 1) e) (hl : e.is_leaf = true) : e.ptr ≠ u := h.1 hl

theorem wf_succ_of_leaf (hl : e.is_leaf = true) (hu : e.ptr ≠ u) : WF u d (k + 1) e :=
  ⟨fun _ => hu, fun h => absurd hl (by simp [h])⟩

theorem wf_succ_of_nil (hl : e.is_leaf = false) (hn : e.ptr = PHYS_MAP_NODE_NIL) :
    WF u d (k + 1) e :=
  ⟨fun h => absurd hl (by simp [h]), fun _ h => absurd hn h⟩

-- Every node below a well-formed entry is allocated.
theorem WF.owns_lt (h : WF u d k e) (hown : Owns d k e n) : n < d.phys_map_nodes_nb := by
  induction k generalizing e with
  | zero => exact absurd hown not_owns_zero
  | succ k ih =>
      obtain ⟨hl, hn, hwhich⟩ := hown
      have hnode := (wf_succ_node_iff hl hn).mp h
      rcases hwhich with rfl | ⟨j, hj, hchild⟩
      · exact hnode.alloc
      · exact ih (hnode.child j hj) hchild

-- A well-formed tree stays so in a map that agrees below it and has no fewer nodes.
theorem WF.congr (h : WF u d k e) (hagree : Agree d d' k e)
    (hnb : d.phys_map_nodes_nb ≤ d'.phys_map_nodes_nb) : WF u d' k e := by
  induction k generalizing e with
  | zero => trivial
  | succ k ih =>
      by_cases hl : e.is_leaf = false
      · by_cases hn : e.ptr = PHYS_MAP_NODE_NIL
        · exact wf_succ_of_nil hl hn
        · have hnode := (wf_succ_node_iff hl hn).mp h
          have hsame : ∀ j < L2_SIZE, d'.phys_map_nodes e.ptr j = d.phys_map_nodes e.ptr j :=
            fun j hj => hagree.node hl hn hj
          refine (wf_succ_node_iff hl hn).mpr ⟨Nat.lt_of_lt_of_le hnode.alloc hnb, ?_, ?_, ?_⟩
          · intro j hj
            rw [hsame j hj]
            exact ih (hnode.child j hj) (hagree.child hl hn hj)
          · intro j hj
            rw [hsame j hj, owns_congr (hagree.child hl hn hj)]
            exact hnode.acyclic j hj
          · intro j hj j' hj' hne m hown
            rw [hsame j hj, owns_congr (hagree.child hl hn hj)] at hown
            rw [hsame j' hj', owns_congr (hagree.child hl hn hj')]
            exact hnode.disjoint j hj j' hj' hne m hown
      · simp only [Bool.not_eq_false] at hl
        exact wf_succ_of_leaf hl (h.ptr_ne hl)

-- A node stays well formed when one slot takes a well-formed tree of its own and the others keep
-- theirs.
theorem NodeWF.replace {p j : Nat} {c : PhysPageEntry} (h : NodeWF u d k p)
    (hnb : d.phys_map_nodes_nb ≤ d'.phys_map_nodes_nb) (hslot : d'.phys_map_nodes p j = c)
    (hwf : WF u d' k c) (hacyclic : ¬Owns d' k c p)
    (hother : ∀ j' < L2_SIZE, j' ≠ j →
      d'.phys_map_nodes p j' = d.phys_map_nodes p j' ∧ Agree d d' k (d.phys_map_nodes p j'))
    (hsep : ∀ n, Owns d' k c n → ∀ j' < L2_SIZE, j' ≠ j → ¬Owns d k (d.phys_map_nodes p j') n) :
    NodeWF u d' k p := by
  refine ⟨Nat.lt_of_lt_of_le h.alloc hnb, fun j' hj' => ?_, fun j' hj' => ?_, ?_⟩
  · by_cases hjj : j' = j
    · rw [hjj, hslot]
      exact hwf
    · obtain ⟨hsame, hagree⟩ := hother j' hj' hjj
      rw [hsame]
      exact (h.child j' hj').congr hagree hnb
  · by_cases hjj : j' = j
    · rw [hjj, hslot]
      exact hacyclic
    · obtain ⟨hsame, hagree⟩ := hother j' hj' hjj
      rw [hsame, owns_congr hagree]
      exact h.acyclic j' hj'
  · intro j1 hj1 j2 hj2 hne n hown1 hown2
    by_cases h1 : j1 = j
    · rw [h1, hslot] at hown1
      obtain ⟨hsame, hagree⟩ := hother j2 hj2 (by omega)
      rw [hsame, owns_congr hagree] at hown2
      exact hsep n hown1 j2 hj2 (by omega) hown2
    · obtain ⟨hsame1, hagree1⟩ := hother j1 hj1 h1
      rw [hsame1, owns_congr hagree1] at hown1
      by_cases h2 : j2 = j
      · rw [h2, hslot] at hown2
        exact hsep n hown2 j1 hj1 h1 hown1
      · obtain ⟨hsame2, hagree2⟩ := hother j2 hj2 h2
        rw [hsame2, owns_congr hagree2] at hown2
        exact h.disjoint j1 hj1 j2 hj2 hne n hown1 hown2

end WF

/-! ### What one level of `phys_page_set_level` does -/

-- `loc` is not `lp`, and is the root or a slot of an allocated node that no walk from `e` reads.
def Outside (d : PhysMap) (k : Nat) (e : PhysPageEntry) (lp loc : EntryLoc) : Prop :=
  loc ≠ lp ∧ ∀ n j, loc = .slot n j → n < d.phys_map_nodes_nb ∧ ¬Owns d k e n

-- The call at `level` on `lp` may run: its tree is well formed, `lp` lies outside it, pages are
-- left to map, those of them under `lp` are unassigned, and the section `v` stored in the leaves
-- is not the unassigned one.
structure SetPre (u v level : Nat) (lp : EntryLoc) (st : SetState) : Prop where
  wf : WF u st.map (level + 1) (st.map.get lp)
  loc : ∀ q j, lp = .slot q j →
    q < st.map.phys_map_nodes_nb ∧ ¬Owns st.map (level + 1) (st.map.get lp) q
  nb : st.nb ≠ 0
  unassigned : ∀ i, st.index ≤ i → i < st.index + st.nb →
    i / span (level + 1) = st.index / span (level + 1) →
    findLoop u st.map i (level + 1) (st.map.get lp) = u
  leaf : v ≠ u

-- What the call at `level` on `lp` achieves: the cursor moves to the end of the run of pages
-- under `lp` or of the request, those pages now map to `v` and the others under `lp` as before,
-- the tree stays well formed with fewer than `2 ^ (level + 1)` new nodes, and nothing outside it
-- changes.
structure SetSpec (u v level : Nat) (lp : EntryLoc) (st st' : SetState) : Prop where
  index : st'.index =
    min (st.index + st.nb) ((st.index / span (level + 1) + 1) * span (level + 1))
  index_nb : st'.index + st'.nb = st.index + st.nb
  find : ∀ i, i / span (level + 1) = st.index / span (level + 1) →
    findLoop u st'.map i (level + 1) (st'.map.get lp) =
      if st.index ≤ i ∧ i < st'.index then v else findLoop u st.map i (level + 1) (st.map.get lp)
  wf : WF u st'.map (level + 1) (st'.map.get lp)
  nb_le : st.map.phys_map_nodes_nb ≤ st'.map.phys_map_nodes_nb
  nb_lt : st'.map.phys_map_nodes_nb < st.map.phys_map_nodes_nb + 2 ^ (level + 1)
  owns : ∀ n, Owns st'.map (level + 1) (st'.map.get lp) n →
    Owns st.map (level + 1) (st.map.get lp) n ∨ st.map.phys_map_nodes_nb ≤ n
  frame : ∀ loc, Outside st.map (level + 1) (st.map.get lp) lp loc → st'.map.get loc = st.map.get loc

-- The call stops QEMU only when the pool runs out of node numbers.
def SetOutcome (u v level : Nat) (lp : EntryLoc) (st : SetState) : Option SetState → Prop
  | none => PHYS_MAP_NODE_NIL < st.map.phys_map_nodes_nb + 2 ^ (level + 1)
  | some st' => SetSpec u v level lp st st'

-- The entry a call starts from is no leaf: the first page it maps is unassigned.
theorem SetPre.not_leaf {u v l : Nat} {lp : EntryLoc} {st : SetState} (pre : SetPre u v l lp st) :
    (st.map.get lp).is_leaf = false := by
  cases hl : (st.map.get lp).is_leaf
  · rfl
  · have hfirst := pre.unassigned st.index (Nat.le_refl _) (by have := pre.nb; omega) rfl
    rw [findLoop_of_leaf hl] at hfirst
    exact absurd hfirst (pre.wf.ptr_ne hl)

/-! ### Finding the node to fill -/

-- What `nodeOf` leaves: `lp` points to node `p`, which heads a well-formed tree that reads as the
-- old entry did, and only a new node and `lp` changed.
structure NodeOfSpec (u l : Nat) (lp : EntryLoc) (d d0 : PhysMap) (p : Nat) : Prop where
  leaf : (d0.get lp).is_leaf = false
  ptr : (d0.get lp).ptr = p
  ne_nil : p ≠ PHYS_MAP_NODE_NIL
  node : NodeWF u d0 l p
  find : ∀ i, findLoop u d0 i (l + 1) (d0.get lp) = findLoop u d i (l + 1) (d.get lp)
  nb_le : d.phys_map_nodes_nb ≤ d0.phys_map_nodes_nb
  nb_le_succ : d0.phys_map_nodes_nb ≤ d.phys_map_nodes_nb + 1
  owns : ∀ n, Owns d0 (l + 1) (d0.get lp) n → Owns d (l + 1) (d.get lp) n ∨ d.phys_map_nodes_nb ≤ n
  frame : ∀ loc, Outside d (l + 1) (d.get lp) lp loc → d0.get loc = d.get loc
  loc : ∀ q j, lp = .slot q j → q < d0.phys_map_nodes_nb ∧ ¬Owns d0 (l + 1) (d0.get lp) q

section NodeOf

variable {u l : Nat} {lp : EntryLoc} {d : PhysMap}

-- An entry that already points to a node keeps it.
theorem nodeOf_spec_of_node (hwf : WF u d (l + 1) (d.get lp)) (hl : (d.get lp).is_leaf = false)
    (hn : (d.get lp).ptr ≠ PHYS_MAP_NODE_NIL)
    (hloc : ∀ q j, lp = .slot q j → q < d.phys_map_nodes_nb ∧ ¬Owns d (l + 1) (d.get lp) q) :
    NodeOfSpec u l lp d d (d.get lp).ptr :=
  ⟨hl, rfl, hn, (wf_succ_node_iff hl hn).mp hwf, fun _ => rfl, Nat.le_refl _, Nat.le_succ _,
    fun _ h => .inl h, fun _ _ => rfl, hloc⟩

-- An entry with no node gets the new node `d.phys_map_nodes_nb`, its slots filled with `fresh`.
theorem nodeOf_spec_of_new {d0 : PhysMap} (fresh : PhysPageEntry) (hl : (d.get lp).is_leaf = false)
    (hn : (d.get lp).ptr = PHYS_MAP_NODE_NIL) (hfree : d.phys_map_nodes_nb ≠ PHYS_MAP_NODE_NIL)
    (hloc : ∀ q j, lp = .slot q j → q < d.phys_map_nodes_nb)
    (hfresh : WF u d0 l fresh ∧ (∀ n, ¬Owns d0 l fresh n) ∧ ∀ i, findLoop u d0 i l fresh = u)
    (hlp : d0.get lp = ⟨false, d.phys_map_nodes_nb⟩)
    (hslots : ∀ j < L2_SIZE, d0.phys_map_nodes d.phys_map_nodes_nb j = fresh)
    (hrest : ∀ loc, loc ≠ lp → (∀ j, loc ≠ .slot d.phys_map_nodes_nb j) → d0.get loc = d.get loc)
    (hnb : d0.phys_map_nodes_nb = d.phys_map_nodes_nb + 1) :
    NodeOfSpec u l lp d d0 d.phys_map_nodes_nb := by
  obtain ⟨hwf, hown, hfind⟩ := hfresh
  have hl0 : (d0.get lp).is_leaf = false := by rw [hlp]
  have hn0 : (d0.get lp).ptr ≠ PHYS_MAP_NODE_NIL := by rw [hlp]; exact hfree
  -- the new node owns itself only
  have howns : ∀ n, Owns d0 (l + 1) (d0.get lp) n → n = d.phys_map_nodes_nb := by
    intro n ⟨_, _, hwhich⟩
    rcases hwhich with h | ⟨j, hj, h⟩
    · rw [h, hlp]
    · rw [hlp, hslots j hj] at h
      exact absurd h (hown n)
  refine ⟨hl0, by rw [hlp], hfree, ⟨by omega, ?_, ?_, ?_⟩, ?_, by omega, by omega, ?_, ?_, ?_⟩
  · intro j hj
    rw [hslots j hj]
    exact hwf
  · intro j hj
    rw [hslots j hj]
    exact hown _
  · intro j hj _ _ _ n h
    rw [hslots j hj] at h
    exact absurd h (hown n)
  · intro i
    rw [findLoop_succ_node hl0 hn0, findLoop_succ_nil hl hn, hlp, hslots _ (Nat.mod_lt _ L2_SIZE_pos)]
    exact hfind i
  · intro n h
    exact .inr (Nat.le_of_eq (howns n h).symm)
  · rintro loc ⟨hne, hslot⟩
    refine hrest loc hne fun j h => ?_
    have := (hslot _ j h).1
    omega
  · intro q j h
    refine ⟨by have := hloc q j h; omega, fun hq => ?_⟩
    have := howns q hq
    have := hloc q j h
    omega

theorem nodeOf_spec (hwf : WF u d (l + 1) (d.get lp)) (hl : (d.get lp).is_leaf = false)
    (hloc : ∀ q j, lp = .slot q j → q < d.phys_map_nodes_nb ∧ ¬Owns d (l + 1) (d.get lp) q)
    {d0 : PhysMap} {p : Nat} (h : nodeOf u d lp l = some (d0, p)) : NodeOfSpec u l lp d d0 p := by
  unfold nodeOf at h
  by_cases hn : (d.get lp).ptr = PHYS_MAP_NODE_NIL
  · -- a new node, filled with unassigned leaves at the bottom level and with nothing above it
    have hfree : d.phys_map_nodes_nb ≠ PHYS_MAP_NODE_NIL := fun hnil => by
      simp [hl, hn, phys_map_node_alloc, hnil] at h
    simp only [hl, hn, and_self, if_true, phys_map_node_alloc, hfree, if_false] at h
    obtain ⟨rfl, rfl⟩ := Prod.mk.inj (Option.some.inj h)
    have hlp : ∀ j, lp ≠ .slot d.phys_map_nodes_nb j := fun j hj => by
      have := (hloc _ _ hj).1
      omega
    refine nodeOf_spec_of_new (if l = 0 then ⟨true, u⟩ else ⟨false, PHYS_MAP_NODE_NIL⟩) hl hn hfree
      (fun q j h => (hloc q j h).1) ?_ ?_ ?_ ?_ ?_
    · cases l with
      | zero => exact ⟨trivial, fun _ h => h, fun _ => rfl⟩
      | succ l =>
          refine ⟨wf_succ_of_nil rfl rfl, fun _ => owns_of_nil rfl, fun _ => findLoop_succ_nil rfl rfl⟩
    · split_ifs
      · rw [PhysMap.get_fill_of_ne hlp, PhysMap.get_set_self]
      · rw [PhysMap.get_set_self]
    · intro j hj
      split_ifs
      · exact PhysMap.nodes_fill_self hj
      · rw [PhysMap.nodes_set, if_neg (hlp j), PhysMap.nodes_fill_self hj]
    · intro loc hne hslot
      have hfill : ∀ (s : PhysMap) e, (s.fill d.phys_map_nodes_nb e).get loc = s.get loc :=
        fun s e => PhysMap.get_fill_of_ne hslot
      split_ifs <;> simp [hfill, PhysMap.get_set, hne]
    · split_ifs <;> simp
  · rw [if_neg (by simp [hn])] at h
    obtain ⟨rfl, rfl⟩ := Prod.mk.inj (Option.some.inj h)
    exact nodeOf_spec_of_node hwf hl hn hloc

theorem nodeOf_eq_none (h : nodeOf u d lp l = none) : d.phys_map_nodes_nb = PHYS_MAP_NODE_NIL := by
  by_contra hfree
  unfold nodeOf phys_map_node_alloc at h
  simp only [hfree, if_false] at h
  split_ifs at h

end NodeOf

/-! ### The loop over one node -/

-- The loop over node `p` at level `l`, started from `st0` with `lp` pointing to `p`.
structure LoopCtx (u v l p : Nat) (lp : EntryLoc) (st0 : SetState) : Prop where
  leaf : (st0.map.get lp).is_leaf = false
  ptr : (st0.map.get lp).ptr = p
  ne_nil : p ≠ PHYS_MAP_NODE_NIL
  loc : ∀ q j, lp = .slot q j →
    q < st0.map.phys_map_nodes_nb ∧ ¬Owns st0.map (l + 1) (st0.map.get lp) q
  unassigned : ∀ i, st0.index ≤ i → i < st0.index + st0.nb →
    i / span (l + 1) = st0.index / span (l + 1) →
    findLoop u st0.map i (l + 1) (st0.map.get lp) = u
  v_ne : v ≠ u

-- What holds at slot `j`: the pages from `st0.index` to the cursor map to `v`, the cursor is at
-- the start of slot `j` (or still where it began), the slots from `j` on are untouched, at most
-- one call below has allocated nodes unless the first slot is still to come, and nothing outside
-- the tree below `lp` has changed.
structure LoopInv (u v l p : Nat) (lp : EntryLoc) (st0 : SetState) (j : Nat) (st : SetState) :
    Prop where
  entry : st.map.get lp = st0.map.get lp
  slot_le : st0.index / span l % L2_SIZE ≤ j
  le_size : j ≤ L2_SIZE
  index_ge : st0.index ≤ st.index
  index_nb : st.index + st.nb = st0.index + st0.nb
  index_le : st.index ≤ (st0.index / span (l + 1) * L2_SIZE + L2_SIZE) * span l
  cursor : st.nb ≠ 0 → (j = st0.index / span l % L2_SIZE ∧ st.index = st0.index) ∨
    st.index = (st0.index / span (l + 1) * L2_SIZE + j) * span l
  find : ∀ i, i / span (l + 1) = st0.index / span (l + 1) →
    findLoop u st.map i (l + 1) (st.map.get lp) =
      if st0.index ≤ i ∧ i < st.index then v else findLoop u st0.map i (l + 1) (st0.map.get lp)
  node : NodeWF u st.map l p
  untouched : ∀ j', j ≤ j' → j' < L2_SIZE →
    st.map.phys_map_nodes p j' = st0.map.phys_map_nodes p j' ∧
      Agree st0.map st.map l (st0.map.phys_map_nodes p j')
  nb_le : st0.map.phys_map_nodes_nb ≤ st.map.phys_map_nodes_nb
  alloc : st.map.phys_map_nodes_nb + (if st.nb = 0 then 0 else 2 ^ l - 1) +
      (if st0.index / span l % L2_SIZE < j then 0 else 2 ^ l - 1) ≤
    st0.map.phys_map_nodes_nb + 2 * (2 ^ l - 1)
  owns : ∀ n, Owns st.map (l + 1) (st.map.get lp) n →
    Owns st0.map (l + 1) (st0.map.get lp) n ∨ st0.map.phys_map_nodes_nb ≤ n
  frame : ∀ loc, Outside st0.map (l + 1) (st0.map.get lp) lp loc → st.map.get loc = st0.map.get loc

section Loop

variable {u v l p j : Nat} {lp : EntryLoc} {st0 st : SetState}

-- The cursor's slot run, while pages are left.
theorem LoopInv.div_span (inv : LoopInv u v l p lp st0 j st) (hnb : st.nb ≠ 0) :
    st.index / span l = st0.index / span (l + 1) * L2_SIZE + j := by
  rcases inv.cursor hnb with ⟨hj, hx⟩ | hx
  · rw [hx, hj]
    exact div_span_eq _ _
  · rw [hx, Nat.mul_div_cancel _ (span_pos l)]

-- A page of the node in slot `j'` lies in the slot run `B * L2_SIZE + j'`.
theorem div_span_of_block {i x : Nat} (h : i / span (l + 1) = x / span (l + 1)) :
    i / span l = x / span (l + 1) * L2_SIZE + i / span l % L2_SIZE := by
  rw [← h]
  exact div_span_eq _ _

-- `p` is a node below `lp`, so neither `lp` nor anything outside the tree is a slot of `p`.
theorem LoopCtx.owns_p (ctx : LoopCtx u v l p lp st0) :
    Owns st0.map (l + 1) (st0.map.get lp) p := by
  rw [← ctx.ptr]
  exact owns_self ctx.leaf (by rw [ctx.ptr]; exact ctx.ne_nil)

theorem LoopCtx.lp_ne (ctx : LoopCtx u v l p lp st0) (j : Nat) : lp ≠ .slot p j := fun h =>
  (ctx.loc p j h).2 ctx.owns_p

theorem LoopCtx.outside_ne (ctx : LoopCtx u v l p lp st0) {loc : EntryLoc}
    (h : Outside st0.map (l + 1) (st0.map.get lp) lp loc) (j : Nat) : loc ≠ .slot p j := fun heq =>
  (h.2 p j heq).2 ctx.owns_p

-- The walk from `lp` in the loop's map goes through the slot of the page.
theorem LoopInv.findLoop_eq (ctx : LoopCtx u v l p lp st0) (inv : LoopInv u v l p lp st0 j st)
    (i : Nat) :
    findLoop u st.map i (l + 1) (st.map.get lp) =
      findLoop u st.map i l (st.map.phys_map_nodes p (i / span l % L2_SIZE)) := by
  rw [inv.entry, findLoop_succ_node ctx.leaf (by rw [ctx.ptr]; exact ctx.ne_nil), ctx.ptr]

-- A node below one of `p`'s slots is below `lp`.
theorem LoopInv.owns_of_slot (ctx : LoopCtx u v l p lp st0) (inv : LoopInv u v l p lp st0 j st)
    {j' n : Nat} (hj' : j' < L2_SIZE) (h : Owns st.map l (st.map.phys_map_nodes p j') n) :
    Owns st.map (l + 1) (st.map.get lp) n := by
  rw [inv.entry]
  refine owns_of_child ctx.leaf (by rw [ctx.ptr]; exact ctx.ne_nil) hj' ?_
  rwa [ctx.ptr]

-- Slot `j` at the cursor becomes a leaf: its run of pages maps to `v`.
theorem LoopInv.leaf_step (ctx : LoopCtx u v l p lp st0) (inv : LoopInv u v l p lp st0 j st)
    (hnb : st.nb ≠ 0) (hj : j < L2_SIZE) (halign : st.index % span l = 0) (hstep : span l ≤ st.nb) :
    LoopInv u v l p lp st0 (j + 1)
      ⟨st.map.set (.slot p j) ⟨true, v⟩, st.index + span l, st.nb - span l⟩ := by
  set d' := st.map.set (.slot p j) ⟨true, v⟩ with hd'
  have hw := span_pos l
  -- the cursor is at the start of slot `j`
  have hx : st.index = (st0.index / span (l + 1) * L2_SIZE + j) * span l := by
    rw [← inv.div_span hnb]
    exact (Nat.div_mul_cancel (Nat.dvd_of_mod_eq_zero halign)).symm
  have hnext : (st0.index / span (l + 1) * L2_SIZE + (j + 1)) * span l = (st0.index / span (l + 1) * L2_SIZE + j) * span l + span l := by
    rw [← Nat.add_assoc, Nat.succ_mul]
  have hend : (st0.index / span (l + 1) * L2_SIZE + (j + 1)) * span l ≤ (st0.index / span (l + 1) * L2_SIZE + L2_SIZE) * span l :=
    Nat.mul_le_mul_right _ (by omega)
  have hentry : d'.get lp = st0.map.get lp := by
    rw [hd', PhysMap.get_set, if_neg (ctx.lp_ne j), inv.entry]
  have hnotp : ∀ j' < L2_SIZE, ¬Owns st.map l (st.map.phys_map_nodes p j') p :=
    inv.node.acyclic
  -- the other slots keep their trees
  have hother : ∀ j' < L2_SIZE, j' ≠ j → d'.phys_map_nodes p j' = st.map.phys_map_nodes p j' ∧
      Agree st.map d' l (st.map.phys_map_nodes p j') := fun j' hj' hne =>
    ⟨by rw [hd', PhysMap.nodes_set, if_neg (by simp [Ne.symm hne])], agree_set_slot (hnotp j' hj')⟩
  have hleaf : d'.phys_map_nodes p j = ⟨true, v⟩ := by rw [hd', PhysMap.nodes_set, if_pos rfl]
  refine ⟨hentry, by have := inv.slot_le; omega, hj, by have := inv.index_ge; dsimp only; omega,
    by have := inv.index_nb; dsimp only; omega, by dsimp only; omega,
    fun _ => .inr (by dsimp only; omega), ?_, ?_, ?_, inv.nb_le, ?_, ?_, ?_⟩
  · -- pages of slot `j` now map to `v`, the others as before
    intro i hi
    dsimp only
    have hrun := div_span_of_block hi
    rw [hentry, findLoop_succ_node ctx.leaf (by rw [ctx.ptr]; exact ctx.ne_nil), ctx.ptr]
    by_cases hs : i / span l % L2_SIZE = j
    · rw [hs, hleaf, findLoop_of_leaf rfl]
      have := mem_run_of_div hw (hrun.trans (by rw [hs]))
      have := inv.index_ge
      rw [if_pos (by omega)]
    · obtain ⟨hsame, hagree⟩ := hother _ (Nat.mod_lt _ L2_SIZE_pos) hs
      have hprev := inv.find i hi
      rw [inv.entry] at hprev
      rw [hsame, findLoop_congr hagree, ← ctx.ptr, ← findLoop_succ_node ctx.leaf
        (by rw [ctx.ptr]; exact ctx.ne_nil), hprev]
      -- the page is outside slot `j`, so outside the pages just mapped
      have hout : ¬(st.index ≤ i ∧ i < st.index + span l) := fun ⟨h1, h2⟩ => by
        have hq : i / span l = st0.index / span (l + 1) * L2_SIZE + j :=
          Nat.div_eq_of_lt_le (by omega) (by rw [Nat.succ_mul]; omega)
        apply hs
        rw [hq, Nat.add_comm, Nat.add_mul_mod_self_right, Nat.mod_eq_of_lt hj]
      by_cases hin : st0.index ≤ i ∧ i < st.index
      · rw [if_pos hin, if_pos (by omega)]
      · rw [if_neg hin, if_neg (by omega)]
  · -- the new leaf owns no node
    refine inv.node.replace (by simp [hd']) hleaf ?_ (owns_of_leaf rfl) hother
      (fun n h => absurd h (owns_of_leaf rfl))
    cases l with
    | zero => trivial
    | succ l => exact wf_succ_of_leaf rfl ctx.v_ne
  · intro j' hj' hj''
    obtain ⟨hsame0, hagree0⟩ := inv.untouched j' (by omega) hj''
    obtain ⟨hsame, hagree⟩ := hother j' hj'' (by omega)
    refine ⟨hsame.trans hsame0, hagree0.trans ?_⟩
    rw [← hsame0]
    exact hagree
  · have := inv.alloc
    have := inv.slot_le
    simp only [hd', PhysMap.nb_set]
    split_ifs at * <;> omega
  · intro n hown
    rw [hentry, owns_succ_iff ctx.leaf (by rw [ctx.ptr]; exact ctx.ne_nil), ctx.ptr] at hown
    rcases hown with rfl | ⟨j', hj', hown⟩
    · exact .inl ctx.owns_p
    · by_cases hjj : j' = j
      · rw [hjj, hleaf] at hown
        exact absurd hown (owns_of_leaf rfl)
      · obtain ⟨hsame, hagree⟩ := hother j' hj' hjj
        rw [hsame, owns_congr hagree] at hown
        exact inv.owns n (inv.owns_of_slot ctx hj' hown)
  · intro loc hloc
    rw [hd', PhysMap.get_set, if_neg (ctx.outside_ne hloc j)]
    exact inv.frame loc hloc

-- While pages are left at slot `j`, the cursor is in the loop's node.
theorem LoopInv.block (inv : LoopInv u v l p lp st0 j st) (hnb : st.nb ≠ 0) (hj : j < L2_SIZE) :
    st.index / span (l + 1) = st0.index / span (l + 1) := by
  rw [div_span_succ, inv.div_span hnb, run_div _ hj]

-- A page in the cursor's slot run is in slot `j` of the node.
theorem LoopInv.slot_of_run (inv : LoopInv u v l p lp st0 j st) (hnb : st.nb ≠ 0) (hj : j < L2_SIZE)
    {i : Nat} (hi : i / span l = st.index / span l) : i / span l % L2_SIZE = j := by
  rw [hi, inv.div_span hnb, run_mod _ hj]

-- A slot that the loop does not fill itself is handed to the level below, which may run on it.
theorem LoopInv.pre (ctx : LoopCtx u v l p lp st0) (inv : LoopInv u v l p lp st0 j st)
    (hnb : st.nb ≠ 0) (hj : j < L2_SIZE) {l' : Nat} (hl : l = l' + 1) :
    SetPre u v l' (.slot p j) st := by
  subst hl
  refine ⟨inv.node.child j hj, ?_, hnb, ?_, ctx.v_ne⟩
  · rintro q t ⟨⟩
    exact ⟨inv.node.alloc, inv.node.acyclic j hj⟩
  · intro i hi1 hi2 hrun
    have hblock : i / span (l' + 1 + 1) = st0.index / span (l' + 1 + 1) :=
      (div_span_succ_of_div_span hrun).trans (inv.block hnb hj)
    have hprev := inv.find i hblock
    rw [inv.findLoop_eq ctx, inv.slot_of_run hnb hj hrun, if_neg (by omega)] at hprev
    rw [PhysMap.get_slot, hprev]
    have := inv.index_nb
    have := inv.index_ge
    exact ctx.unassigned i (by omega) (by omega) hblock

-- Where the level below may write: not `lp`, nothing outside the tree below `lp`, and no other
-- slot of the node or node below one.
theorem LoopInv.outside_child (ctx : LoopCtx u v l p lp st0) (inv : LoopInv u v l p lp st0 j st)
    (hj : j < L2_SIZE) {loc : EntryLoc}
    (h : loc = lp ∨ Outside st0.map (l + 1) (st0.map.get lp) lp loc) :
    Outside st.map l (st.map.phys_map_nodes p j) (.slot p j) loc := by
  refine ⟨?_, fun n t heq => ?_⟩
  · rcases h with rfl | h
    · exact ctx.lp_ne j
    · exact ctx.outside_ne h j
  · have hn : n < st0.map.phys_map_nodes_nb ∧ ¬Owns st0.map (l + 1) (st0.map.get lp) n := by
      rcases h with rfl | h
      · exact ctx.loc n t heq
      · exact h.2 n t heq
    refine ⟨Nat.lt_of_lt_of_le hn.1 inv.nb_le, fun hown => ?_⟩
    rcases inv.owns n (inv.owns_of_slot ctx hj hown) with h0 | h0
    · exact hn.2 h0
    · omega

theorem LoopInv.outside_sibling (inv : LoopInv u v l p lp st0 j st) (hj : j < L2_SIZE) {j' : Nat}
    (hj' : j' < L2_SIZE) (hne : j' ≠ j) :
    Outside st.map l (st.map.phys_map_nodes p j) (.slot p j) (.slot p j') ∧
      ∀ n, Owns st.map l (st.map.phys_map_nodes p j') n → ∀ t,
        Outside st.map l (st.map.phys_map_nodes p j) (.slot p j) (.slot n t) := by
  refine ⟨⟨by simp [hne], fun n t heq => ?_⟩, fun n hown t => ⟨?_, fun n' t' heq => ?_⟩⟩
  · cases heq
    exact ⟨inv.node.alloc, inv.node.acyclic j hj⟩
  · rintro ⟨⟩
    exact inv.node.acyclic j' hj' hown
  · cases heq
    exact ⟨(inv.node.child j' hj').owns_lt hown, inv.node.disjoint j' hj' j hj (Ne.symm hne) n hown⟩

-- The level below has run on slot `j`: its pages from the cursor map to `v`, and the cursor
-- moved to the end of the slot or of the request.
theorem LoopInv.descend_step (ctx : LoopCtx u v l p lp st0) (inv : LoopInv u v l p lp st0 j st)
    (hnb : st.nb ≠ 0) (hj : j < L2_SIZE) (hbranch : ¬(st.index % span l = 0 ∧ span l ≤ st.nb))
    {l' : Nat} (hl : l = l' + 1) {st' : SetState} (spec : SetSpec u v l' (.slot p j) st st') :
    LoopInv u v l p lp st0 (j + 1) st' := by
  subst hl
  have hw := span_pos (l' + 1)
  have hdiv := inv.div_span hnb
  have hrun_end : (st.index / span (l' + 1) + 1) * span (l' + 1) =
      (st0.index / span (l' + 1 + 1) * L2_SIZE + j) * span (l' + 1) + span (l' + 1) := by
    rw [hdiv, Nat.succ_mul]
  have hnext : (st0.index / span (l' + 1 + 1) * L2_SIZE + (j + 1)) * span (l' + 1) =
      (st0.index / span (l' + 1 + 1) * L2_SIZE + j) * span (l' + 1) + span (l' + 1) := by
    rw [← Nat.add_assoc, Nat.succ_mul]
  have hend : (st0.index / span (l' + 1 + 1) * L2_SIZE + (j + 1)) * span (l' + 1) ≤
      (st0.index / span (l' + 1 + 1) * L2_SIZE + L2_SIZE) * span (l' + 1) :=
    Nat.mul_le_mul_right _ (by omega)
  have hstart : (st0.index / span (l' + 1 + 1) * L2_SIZE + j) * span (l' + 1) ≤ st.index := by
    rw [← hdiv]
    exact Nat.div_mul_le_self _ _
  have hlt := lt_div_succ_mul st.index hw
  have hidx := spec.index
  have hidx_nb := spec.index_nb
  have hentry : st'.map.get lp = st0.map.get lp := by
    rw [spec.frame lp (inv.outside_child ctx hj (.inl rfl)), inv.entry]
  have hn0 : (st0.map.get lp).ptr ≠ PHYS_MAP_NODE_NIL := by rw [ctx.ptr]; exact ctx.ne_nil
  -- the other slots keep their trees
  have hother : ∀ j' < L2_SIZE, j' ≠ j →
      st'.map.phys_map_nodes p j' = st.map.phys_map_nodes p j' ∧
        Agree st.map st'.map (l' + 1) (st.map.phys_map_nodes p j') := fun j' hj' hne =>
    ⟨spec.frame _ (inv.outside_sibling hj hj' hne).1,
      fun n hown t _ => spec.frame _ ((inv.outside_sibling hj hj' hne).2 n hown t)⟩
  have hslot : st'.map.get (.slot p j) = st'.map.phys_map_nodes p j := rfl
  refine ⟨hentry, by have := inv.slot_le; omega, hj, by have := inv.index_ge; omega,
    by have := inv.index_nb; omega, by omega, fun hnb' => .inr (by omega), ?_, ?_, ?_,
    Nat.le_trans inv.nb_le spec.nb_le, ?_, ?_, ?_⟩
  · -- pages of slot `j` are as the level below left them, the others as before
    intro i hi
    have hprev := inv.find i hi
    rw [inv.findLoop_eq ctx] at hprev
    rw [hentry, findLoop_succ_node ctx.leaf hn0, ctx.ptr]
    by_cases hs : i / span (l' + 1) % L2_SIZE = j
    · have hsame : i / span (l' + 1) = st.index / span (l' + 1) := by
        rw [div_span_of_block hi, hs, hdiv]
      have hbelow := spec.find i hsame
      rw [hs] at hprev
      rw [hs, ← hslot, hbelow, PhysMap.get_slot, hprev]
      have := inv.index_ge
      by_cases h1 : st.index ≤ i ∧ i < st'.index
      · rw [if_pos h1, if_pos (by omega)]
      · rw [if_neg h1]
        by_cases h2 : st0.index ≤ i ∧ i < st.index
        · rw [if_pos h2, if_pos (by omega)]
        · rw [if_neg h2, if_neg (by omega)]
    · obtain ⟨hsame, hagree⟩ := hother _ (Nat.mod_lt _ L2_SIZE_pos) hs
      rw [hsame, findLoop_congr hagree, hprev]
      -- the page is outside slot `j`, so outside the pages just mapped
      have hout : ¬(st.index ≤ i ∧ i < st'.index) := fun ⟨h1, h2⟩ =>
        hs (inv.slot_of_run hnb hj (div_eq_of_le_of_lt h1 (by omega)))
      have := inv.index_ge
      by_cases hin : st0.index ≤ i ∧ i < st.index
      · rw [if_pos hin, if_pos (by omega)]
      · rw [if_neg hin, if_neg (by omega)]
  · refine inv.node.replace spec.nb_le rfl spec.wf ?_ hother ?_
    · intro hown
      rcases spec.owns p hown with h | h
      · exact inv.node.acyclic j hj h
      · have := inv.node.alloc
        omega
    · intro n hown j' hj' hne hown'
      rcases spec.owns n hown with h | h
      · exact inv.node.disjoint j hj j' hj' hne n h hown'
      · have := (inv.node.child j' hj').owns_lt hown'
        omega
  · intro j' hj' hj''
    obtain ⟨hsame0, hagree0⟩ := inv.untouched j' (by omega) hj''
    obtain ⟨hsame, hagree⟩ := hother j' hj'' (by omega)
    refine ⟨hsame.trans hsame0, hagree0.trans ?_⟩
    rw [← hsame0]
    exact hagree
  · -- a second call below happens only on the last slot, which it finishes
    have halloc := inv.alloc
    have hbelow := spec.nb_lt
    have hpow : 1 ≤ 2 ^ (l' + 1) := Nat.one_le_two_pow
    rw [if_neg hnb] at halloc
    rw [if_pos (Nat.lt_succ_of_le inv.slot_le)]
    rcases Nat.lt_or_eq_of_le inv.slot_le with hfirst | hfirst
    · -- past the first slot the cursor is at the slot's start, so the call below took the rest
      rw [if_pos hfirst] at halloc
      have hx : st.index = (st0.index / span (l' + 1 + 1) * L2_SIZE + j) * span (l' + 1) :=
        (inv.cursor hnb).resolve_left fun ⟨h, _⟩ => by omega
      have hsmall : st.nb < span (l' + 1) := by
        refine Nat.lt_of_not_le fun hge => hbranch ⟨?_, hge⟩
        rw [hx]
        exact Nat.mul_mod_left _ _
      have hdone : st'.nb = 0 := by omega
      rw [if_pos hdone]
      omega
    · rw [if_neg (by omega)] at halloc
      split_ifs <;> omega
  · intro n hown
    rw [hentry, owns_succ_iff ctx.leaf hn0, ctx.ptr] at hown
    rcases hown with rfl | ⟨j', hj', hown⟩
    · exact .inl ctx.owns_p
    · by_cases hjj : j' = j
      · rw [hjj, ← hslot] at hown
        rcases spec.owns n hown with h | h
        · exact inv.owns n (inv.owns_of_slot ctx hj h)
        · exact .inr (Nat.le_trans inv.nb_le h)
      · obtain ⟨hsame, hagree⟩ := hother j' hj' hjj
        rw [hsame, owns_congr hagree] at hown
        exact inv.owns n (inv.owns_of_slot ctx hj' hown)
  · intro loc hloc
    rw [spec.frame loc (inv.outside_child ctx hj (.inr hloc))]
    exact inv.frame loc hloc

-- The loop starts at the cursor's slot with nothing done.
theorem LoopInv.init (hnode : NodeWF u st0.map l p) :
    LoopInv u v l p lp st0 (st0.index / span l % L2_SIZE) st0 := by
  have hj0 := Nat.mod_lt (st0.index / span l) L2_SIZE_pos
  have hrun : (st0.index / span l + 1) * span l ≤
      (st0.index / span (l + 1) * L2_SIZE + L2_SIZE) * span l :=
    Nat.mul_le_mul_right _ (by rw [div_span_eq st0.index l]; omega)
  have := lt_div_succ_mul st0.index (span_pos l)
  refine ⟨rfl, Nat.le_refl _, Nat.le_of_lt hj0, Nat.le_refl _, rfl, by omega,
    fun _ => .inl ⟨rfl, rfl⟩, fun i _ => by rw [if_neg (by omega)], hnode,
    fun _ _ _ => ⟨rfl, fun _ _ _ _ => rfl⟩, Nat.le_refl _, ?_, fun _ h => .inl h, fun _ _ => rfl⟩
  rw [if_neg (Nat.lt_irrefl _)]
  split_ifs <;> omega

-- What the loop ends with: it stops QEMU only once the pool runs out, and otherwise at the end of
-- the node or of the request.
def LoopOutcome (u v l p : Nat) (lp : EntryLoc) (st0 : SetState) : Option SetState → Prop
  | none => PHYS_MAP_NODE_NIL ≤ st0.map.phys_map_nodes_nb + 2 * (2 ^ l - 1)
  | some st => ∃ j, LoopInv u v l p lp st0 j st ∧ (st.nb = 0 ∨ j = L2_SIZE)

-- The loop, one slot at a time: each slot is filled or handed down, and the invariant holds at
-- the next one.
theorem setLoop_outcome {descend : EntryLoc → SetState → Option SetState} {leaf : UInt16}
    (ctx : LoopCtx u (leaf.toNat % 2 ^ 15) l p lp st0)
    (hdesc : ∀ l', l = l' + 1 → ∀ lp' st', SetPre u (leaf.toNat % 2 ^ 15) l' lp' st' →
      SetOutcome u (leaf.toNat % 2 ^ 15) l' lp' st' (descend lp' st'))
    (rest : Nat) : ∀ j st, j + rest = L2_SIZE → LoopInv u (leaf.toNat % 2 ^ 15) l p lp st0 j st →
      LoopOutcome u (leaf.toNat % 2 ^ 15) l p lp st0 (setLoop descend leaf l p rest j st) := by
  induction rest with
  | zero => exact fun j st hrest inv => ⟨j, inv, .inr (by omega)⟩
  | succ rest ih =>
      intro j st hrest inv
      have hj : j < L2_SIZE := by omega
      simp only [setLoop, step_eq, and_span_sub_one]
      by_cases hnb : st.nb = 0
      · rw [if_pos hnb]
        exact ⟨j, inv, .inl hnb⟩
      rw [if_neg hnb]
      by_cases hbranch : st.index % span l = 0 ∧ st.nb ≥ span l
      · rw [if_pos hbranch]
        exact ih (j + 1) _ (by omega) (inv.leaf_step ctx hnb hj hbranch.1 hbranch.2)
      rw [if_neg hbranch]
      -- at level 0 a slot is one page, so it is always filled directly
      obtain ⟨l', rfl⟩ : ∃ l', l = l' + 1 := by
        cases l with
        | zero => exact absurd ⟨Nat.mod_one _, by rw [span_zero]; omega⟩ hbranch
        | succ l' => exact ⟨l', rfl⟩
      have hout := hdesc l' rfl (.slot p j) st (inv.pre ctx hnb hj rfl)
      cases hd : descend (.slot p j) st with
      | none =>
          rw [hd] at hout
          have halloc := inv.alloc
          rw [if_neg hnb] at halloc
          have : 1 ≤ 2 ^ (l' + 1) := Nat.one_le_two_pow
          exact (show PHYS_MAP_NODE_NIL ≤ _ by simp only [SetOutcome] at hout; omega)
      | some st' =>
          rw [hd] at hout
          exact ih (j + 1) st' (by omega) (inv.descend_step ctx hnb hj hbranch rfl hout)

-- At the end of the loop, the call at level `l` has done what `SetSpec` says, measured from before
-- `nodeOf`.
theorem LoopInv.setSpec {st st' : SetState} {d0 : PhysMap} (spec0 : NodeOfSpec u l lp st.map d0 p)
    (inv : LoopInv u v l p lp { st with map := d0 } j st') (hexit : st'.nb = 0 ∨ j = L2_SIZE) :
    SetSpec u v l lp st st' := by
  have hblock_end : (st.index / span (l + 1) + 1) * span (l + 1) =
      (st.index / span (l + 1) * L2_SIZE + L2_SIZE) * span l := by
    rw [span_succ]
    ring
  have hidx := inv.index_nb
  have hle := inv.index_le
  have hnb0 := spec0.nb_le_succ
  have hpow : 2 ^ (l + 1) = 2 * 2 ^ l := Nat.pow_succ'
  have : 1 ≤ 2 ^ l := Nat.one_le_two_pow
  dsimp only at hidx hle
  refine ⟨?_, hidx, fun i hi => ?_, ?_, Nat.le_trans spec0.nb_le inv.nb_le, ?_, ?_, ?_⟩
  · rcases hexit with hdone | hend
    · rw [hblock_end]
      omega
    · by_cases hdone : st'.nb = 0
      · rw [hblock_end]
        omega
      · rcases inv.cursor hdone with ⟨hj, _⟩ | hx
        · have := Nat.mod_lt (st.index / span l) L2_SIZE_pos
          dsimp only at hj
          omega
        · dsimp only at hx
          rw [hend] at hx
          rw [hblock_end, ← hx]
          omega
  · rw [inv.find i hi]
    dsimp only
    rw [spec0.find]
  · rw [inv.entry]
    exact (wf_succ_node_iff spec0.leaf (by rw [spec0.ptr]; exact spec0.ne_nil)).mpr
      (by rw [spec0.ptr]; exact inv.node)
  · have := inv.alloc
    dsimp only at this
    omega
  · intro n hown
    rcases inv.owns n hown with h | h
    · exact spec0.owns n h
    · exact .inr (Nat.le_trans spec0.nb_le h)
  · intro loc hloc
    have hout : Outside d0 (l + 1) (d0.get lp) lp loc := by
      refine ⟨hloc.1, fun n t heq => ?_⟩
      obtain ⟨hn, hnot⟩ := hloc.2 n t heq
      refine ⟨Nat.lt_of_lt_of_le hn spec0.nb_le, fun hown => ?_⟩
      rcases spec0.owns n hown with h | h
      · exact hnot h
      · omega
    rw [inv.frame loc hout]
    exact spec0.frame loc hloc

end Loop

/-! ### `phys_page_set_level` -/

section SetLevel

variable {u l : Nat} {leaf : UInt16}

-- One level: find or make the node, then run the loop over it.
theorem setLevelBody_outcome {descend : EntryLoc → SetState → Option SetState} {lp : EntryLoc}
    {st : SetState}
    (hdesc : ∀ l', l = l' + 1 → ∀ lp' st', SetPre u (leaf.toNat % 2 ^ 15) l' lp' st' →
      SetOutcome u (leaf.toNat % 2 ^ 15) l' lp' st' (descend lp' st'))
    (pre : SetPre u (leaf.toNat % 2 ^ 15) l lp st) :
    SetOutcome u (leaf.toNat % 2 ^ 15) l lp st (setLevelBody u descend leaf l lp st) := by
  have : 1 ≤ 2 ^ l := Nat.one_le_two_pow
  have hpow : 2 ^ (l + 1) = 2 * 2 ^ l := Nat.pow_succ'
  unfold setLevelBody
  cases hnode : nodeOf u st.map lp l with
  | none =>
      show PHYS_MAP_NODE_NIL < st.map.phys_map_nodes_nb + 2 ^ (l + 1)
      rw [nodeOf_eq_none hnode]
      omega
  | some r =>
      obtain ⟨d0, p⟩ := r
      have spec0 := nodeOf_spec pre.wf pre.not_leaf pre.loc hnode
      have ctx : LoopCtx u (leaf.toNat % 2 ^ 15) l p lp { st with map := d0 } :=
        ⟨spec0.leaf, spec0.ptr, spec0.ne_nil, spec0.loc,
          fun i h1 h2 h3 => by rw [spec0.find]; exact pre.unassigned i h1 h2 h3, pre.leaf⟩
      have hj0 := Nat.mod_lt (st.index / span l) L2_SIZE_pos
      dsimp only
      rw [slot_eq]
      have hout := setLoop_outcome ctx hdesc (L2_SIZE - st.index / span l % L2_SIZE)
        (st.index / span l % L2_SIZE) { st with map := d0 } (by omega) (LoopInv.init spec0.node)
      cases hres : setLoop descend leaf l p (L2_SIZE - st.index / span l % L2_SIZE)
          (st.index / span l % L2_SIZE) { st with map := d0 } with
      | none =>
          rw [hres] at hout
          have := spec0.nb_le_succ
          exact (show PHYS_MAP_NODE_NIL < _ by simp only [LoopOutcome] at hout; omega)
      | some st' =>
          rw [hres] at hout
          obtain ⟨j, inv, hexit⟩ := hout
          exact inv.setSpec spec0 hexit

-- Every level of `phys_page_set_level`, by induction on the level.
theorem phys_page_set_level_outcome (l : Nat) :
    ∀ lp st, SetPre u (leaf.toNat % 2 ^ 15) l lp st →
      SetOutcome u (leaf.toNat % 2 ^ 15) l lp st (phys_page_set_level u leaf l lp st) := by
  induction l with
  | zero =>
      intro lp st pre
      exact setLevelBody_outcome (fun l' h => absurd h (Nat.zero_ne_add_one l')) pre
  | succ l ih =>
      intro lp st pre
      refine setLevelBody_outcome (fun l' h => ?_) pre
      cases Nat.succ.inj h
      exact ih

end SetLevel

/-! ### Whole calls -/

section Calls

variable {t : Target} {u : Nat}

-- `phys_page_find` reads only the page number's low `k * L2_BITS` bits.
theorem findLoop_mod {d : PhysMap} (k : Nat) :
    ∀ e i, findLoop u d i k e = findLoop u d (i % span k) k e := by
  induction k with
  | zero => exact fun _ _ => rfl
  | succ k ih =>
      intro e i
      by_cases hl : e.is_leaf = false
      · by_cases hn : e.ptr = PHYS_MAP_NODE_NIL
        · rw [findLoop_succ_nil hl hn, findLoop_succ_nil hl hn]
        · have hslot : i % span (k + 1) / span k % L2_SIZE = i / span k % L2_SIZE := by
            rw [span_succ, Nat.mod_mul_right_div_self, Nat.mod_mod]
          have hlow : i % span (k + 1) % span k = i % span k :=
            Nat.mod_mod_of_dvd _ ⟨L2_SIZE, span_succ k⟩
          rw [findLoop_succ_node hl hn, findLoop_succ_node hl hn, hslot, ih, ih _ (i % span (k + 1)),
            hlow]
      · simp only [Bool.not_eq_false] at hl
        rw [findLoop_of_leaf hl, findLoop_of_leaf hl]

theorem P_L2_LEVELS_pos (t : Target) : 0 < t.P_L2_LEVELS := Nat.succ_pos _

-- A whole call from the root, on unassigned pages of the address space.
theorem phys_page_set_outcome {d : PhysMap} {index nb : Nat} {leaf : UInt16}
    (hwf : WF u d t.P_L2_LEVELS d.phys_map) (hnb : 0 < nb) (hleaf : leaf.toNat % 2 ^ 15 ≠ u)
    (hpre : ∀ i, index ≤ i → i < index + nb → phys_page_find t u d i = u) :
    SetOutcome u (leaf.toNat % 2 ^ 15) (t.P_L2_LEVELS - 1) .root ⟨d, index, nb⟩
      (phys_page_set_level u leaf (t.P_L2_LEVELS - 1) .root ⟨d, index, nb⟩) := by
  have hP : t.P_L2_LEVELS - 1 + 1 = t.P_L2_LEVELS := Nat.sub_add_cancel (P_L2_LEVELS_pos t)
  refine phys_page_set_level_outcome _ _ _ ⟨?_, (fun _ _ h => nomatch h), Nat.pos_iff_ne_zero.mp hnb, ?_, hleaf⟩
  · rw [hP]
    exact hwf
  · intro i h1 h2 _
    rw [hP]
    exact hpre i h1 h2

-- After a call, the pages asked for map to the stored section and the others as before; a page
-- number beyond the address space reads as the one it has in its low bits.
theorem phys_page_set_find {d d' : PhysMap} {index nb : Nat} {leaf : UInt16}
    (hwf : WF u d t.P_L2_LEVELS d.phys_map) (hnb : 0 < nb)
    (hbound : index + nb ≤ span t.P_L2_LEVELS) (hleaf : leaf.toNat % 2 ^ 15 ≠ u)
    (hpre : ∀ i, index ≤ i → i < index + nb → phys_page_find t u d i = u)
    (hset : phys_page_set t u d index nb leaf = some d') :
    WF u d' t.P_L2_LEVELS d'.phys_map ∧
      ∀ i, phys_page_find t u d' i =
        if index ≤ i % span t.P_L2_LEVELS ∧ i % span t.P_L2_LEVELS < index + nb
        then leaf.toNat % 2 ^ 15 else phys_page_find t u d i := by
  have hout := phys_page_set_outcome hwf hnb hleaf hpre
  -- the top level is `q`, with `q + 1` levels below the root
  obtain ⟨q, hq, hP⟩ : ∃ q, t.P_L2_LEVELS - 1 = q ∧ t.P_L2_LEVELS = q + 1 := ⟨_, rfl, rfl⟩
  unfold phys_page_set at hset
  cases hres : phys_page_set_level u leaf (t.P_L2_LEVELS - 1) .root ⟨d, index, nb⟩ with
  | none => simp [hres] at hset
  | some st' =>
      rw [hres] at hout hset
      obtain rfl : st'.map = d' := Option.some.inj hset
      have spec : SetSpec u (leaf.toNat % 2 ^ 15) (t.P_L2_LEVELS - 1) .root ⟨d, index, nb⟩ st' := hout
      rw [hq] at spec
      rw [hP] at hbound ⊢
      -- the request lies in the address space, so its run at the top is the whole space
      have htop : index / span (q + 1) = 0 := Nat.div_eq_of_lt (by omega)
      have hend : st'.index = index + nb := by
        rw [spec.index]
        dsimp only
        rw [htop, Nat.zero_add, Nat.one_mul]
        omega
      refine ⟨spec.wf, fun i => ?_⟩
      have hi : i % span (q + 1) / span (q + 1) = index / span (q + 1) := by
        rw [htop]
        exact Nat.div_eq_of_lt (Nat.mod_lt _ (span_pos _))
      unfold phys_page_find
      rw [hP, findLoop_mod, ← PhysMap.get_root, spec.find _ hi, hend]
      dsimp only
      rw [PhysMap.get_root, ← findLoop_mod]

-- The maps that `phys_page_set` builds from the empty one, each call on unassigned pages of the
-- address space and with a section whose stored 15 bits are not the unassigned one.
inductive Reachable (t : Target) (u : Nat) : PhysMap → Prop
  | empty : Reachable t u emptyPhysMap
  | set {d d' : PhysMap} {index nb : Nat} {leaf : UInt16} : Reachable t u d → 0 < nb →
      index + nb ≤ 2 ^ (t.P_L2_LEVELS * L2_BITS) → leaf.toNat % 2 ^ 15 ≠ u →
      (∀ i, index ≤ i → i < index + nb → phys_page_find t u d i = u) →
      phys_page_set t u d index nb leaf = some d' → Reachable t u d'

-- Every reachable map is a well-formed tree.
theorem Reachable.wf {d : PhysMap} (h : Reachable t u d) : WF u d t.P_L2_LEVELS d.phys_map := by
  induction h with
  | empty =>
      rw [← Nat.sub_add_cancel (P_L2_LEVELS_pos t)]
      exact wf_succ_of_nil rfl rfl
  | set _ hnb hbound hleaf hpre hset ih => exact (phys_page_set_find ih hnb hbound hleaf hpre hset).1

end Calls

end Qemu.Exec

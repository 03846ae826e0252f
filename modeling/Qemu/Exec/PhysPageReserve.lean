import Qemu.Exec.PhysPage

/-!
The node reservation of `phys_page_set` (`exec.c`). Before each call the pool is grown by
`phys_map_node_reserve(3 * P_L2_LEVELS)`, and `phys_map_node_alloc` asserts that the node
`ret = phys_map_nodes_nb++` it hands out is below `phys_map_nodes_nb_alloc`. The pool counter
moves only there, so the nodes a call allocates are the numbers from the counter before the
call up to the counter after it.

Whatever the tree holds, the cursor `(*index, *nb)` decides where a call goes down: a slot that
the run of pages covers whole becomes a leaf, so only the slot holding the first page and the
slot holding the last one are handed to the level below. A call whose run starts on its node's
first page, or reaches its node's last page, goes down one path; any other call goes down two.
So a call at the top allocates at most `2 * P_L2_LEVELS - 1` nodes, which the reservation covers.
-/

namespace Qemu.Exec

-- `static void phys_map_node_reserve(unsigned nodes)`: the new `phys_map_nodes_nb_alloc`. The pool
-- stays below `PHYS_MAP_NODE_NIL` nodes, so the `unsigned` arithmetic does not wrap.
def phys_map_node_reserve (phys_map_nodes_nb phys_map_nodes_nb_alloc nodes : Nat) : Nat :=
  if phys_map_nodes_nb + nodes > phys_map_nodes_nb_alloc then
    max (max (phys_map_nodes_nb_alloc * 2) 16) (phys_map_nodes_nb + nodes)
  else phys_map_nodes_nb_alloc

theorem le_phys_map_node_reserve (nb nb_alloc nodes : Nat) :
    nb + nodes ≤ phys_map_node_reserve nb nb_alloc nodes := by
  unfold phys_map_node_reserve
  split_ifs <;> omega

/-! ### Runs of pages and what a call may allocate -/

-- The run of `n` pages from `a` starts on a boundary of blocks of `w` pages, or reaches the end of
-- the block `a` is in.
def Boundary (w a n : Nat) : Prop := a % w = 0 ∨ (a / w + 1) * w ≤ a + n

instance (w a n : Nat) : Decidable (Boundary w a n) := inferInstanceAs (Decidable (_ ∨ _))

-- The most nodes a call at `level` allocates for the run of `n` pages from `a`: one per level on
-- one path down, or on two.
def allocBound (level a n : Nat) : Nat :=
  if Boundary (span (level + 1)) a n then level + 1 else 2 * level + 1

-- A call or a loop that stops at page `e` or when no page is left: the cursor moves to
-- `min (index + nb) e`, and the pool grows by at most `cost` nodes.
structure Moved (e cost : Nat) (st st' : SetState) : Prop where
  index : st'.index = min (st.index + st.nb) e
  index_nb : st'.index + st'.nb = st.index + st.nb
  nb_le : st.map.phys_map_nodes_nb ≤ st'.map.phys_map_nodes_nb
  nb_bound : st'.map.phys_map_nodes_nb ≤ st.map.phys_map_nodes_nb + cost

-- It stops QEMU only at a node number within those `cost`.
def Reaches (e cost : Nat) (st : SetState) : Option SetState → Prop
  | none => PHYS_MAP_NODE_NIL < st.map.phys_map_nodes_nb + cost
  | some st' => Moved e cost st st'

section Reaches

variable {e c c' : Nat} {st st1 : SetState} {r : Option SetState}

theorem Reaches.mono (h : Reaches e c st r) (hc : c ≤ c') : Reaches e c' st r := by
  cases r with
  | none =>
      have hnil : PHYS_MAP_NODE_NIL < st.map.phys_map_nodes_nb + c := h
      show PHYS_MAP_NODE_NIL < _
      omega
  | some st' =>
      obtain ⟨hi, hn, hl, hb⟩ := h
      exact ⟨hi, hn, hl, by omega⟩

-- A first stretch to `st1` that keeps the end of the run and takes at most `c` nodes, then the
-- rest from `st1`.
theorem Reaches.after {c'' : Nat} (h : Reaches e c' st1 r)
    (hend : st1.index + st1.nb = st.index + st.nb)
    (hle : st.map.phys_map_nodes_nb ≤ st1.map.phys_map_nodes_nb)
    (hbound : st1.map.phys_map_nodes_nb ≤ st.map.phys_map_nodes_nb + c) (hc : c + c' ≤ c'') :
    Reaches e c'' st r := by
  cases r with
  | none =>
      have hnil : PHYS_MAP_NODE_NIL < st1.map.phys_map_nodes_nb + c' := h
      show PHYS_MAP_NODE_NIL < _
      omega
  | some st' =>
      obtain ⟨hi, hn, hl, hb⟩ := h
      exact ⟨by rw [hi, hend], by rw [hn, hend], by omega, by omega⟩

-- Nothing more to do: the cursor is already where it stops.
theorem Reaches.refl (hindex : st.index = min (st.index + st.nb) e) : Reaches e c st (some st) :=
  ⟨hindex, rfl, Nat.le_refl _, Nat.le_add_right _ _⟩

end Reaches

-- Finding or making the node takes at most one node from the pool, whatever the tree.
theorem nodeOf_nb {u l : Nat} {lp : EntryLoc} {d d0 : PhysMap} {p : Nat}
    (h : nodeOf u d lp l = some (d0, p)) :
    d.phys_map_nodes_nb ≤ d0.phys_map_nodes_nb ∧ d0.phys_map_nodes_nb ≤ d.phys_map_nodes_nb + 1 := by
  unfold nodeOf phys_map_node_alloc at h
  by_cases hnew : (d.get lp).is_leaf = false ∧ (d.get lp).ptr = PHYS_MAP_NODE_NIL
  · by_cases hfull : d.phys_map_nodes_nb = PHYS_MAP_NODE_NIL
    · simp [hnew, hfull] at h
    · simp only [hnew, and_self, if_true, hfull, if_false] at h
      obtain ⟨rfl, -⟩ := Prod.mk.inj (Option.some.inj h)
      split_ifs <;> simp
  · rw [if_neg hnew] at h
    obtain ⟨rfl, -⟩ := Prod.mk.inj (Option.some.inj h)
    omega

/-! ### The loop over one node -/

-- What the call one level down does for the loop at `level`: from a slot it cannot fill whole,
-- it moves the cursor to the end of that slot's pages, with one path down if the run starts on
-- the slot's first page or reaches its last.
def DescendOk (level : Nat) (descend : EntryLoc → SetState → Option SetState) : Prop :=
  ∀ lp st, st.nb ≠ 0 → ¬(st.index % span level = 0 ∧ st.nb ≥ span level) →
    Reaches ((st.index / span level + 1) * span level)
      (if Boundary (span level) st.index st.nb then level else 2 * level) st (descend lp st)

-- At level 0 a slot is one page: the loop fills every slot itself.
theorem descendOk_zero (descend : EntryLoc → SetState → Option SetState) : DescendOk 0 descend :=
  fun _ st hnb hpart => absurd ⟨Nat.mod_one _, by rw [span_zero]; omega⟩ hpart

section Loop

variable {descend : EntryLoc → SetState → Option SetState} {leaf : UInt16} {L p : Nat}

-- From the start of slot `j` of the node whose slots run from `B`, the loop fills whole slots and
-- hands down at most the last one, whose run starts on its first page.
theorem setLoop_aligned (hdesc : DescendOk L descend) (B rest : Nat) :
    ∀ j st, rest + j = L2_SIZE → (st.nb = 0 ∨ st.index = (B + j) * span L) →
      st.index ≤ (B + L2_SIZE) * span L →
      Reaches ((B + L2_SIZE) * span L)
        (if st.nb = 0 ∨ (B + L2_SIZE) * span L ≤ st.index + st.nb then 0 else L) st
        (setLoop descend leaf L p rest j st) := by
  induction rest with
  | zero =>
      intro j st hrest hcur hle
      obtain rfl : j = L2_SIZE := by omega
      -- past the last slot: the cursor is at the node's end, or nothing is left
      exact Reaches.refl (by omega)
  | succ rest ih =>
      intro j st hrest hcur hle
      have hw := span_pos L
      have hnext : (B + (j + 1)) * span L = (B + j) * span L + span L := by
        rw [← Nat.add_assoc, Nat.succ_mul]
      have hend : (B + (j + 1)) * span L ≤ (B + L2_SIZE) * span L :=
        Nat.mul_le_mul_right _ (by omega)
      simp only [setLoop, step_eq, and_span_sub_one]
      by_cases hnb : st.nb = 0
      · rw [if_pos hnb]
        exact Reaches.refl (by omega)
      rw [if_neg hnb]
      have hx : st.index = (B + j) * span L := hcur.resolve_left hnb
      have halign : st.index % span L = 0 := by rw [hx]; exact Nat.mul_mod_left _ _
      by_cases hstep : st.nb ≥ span L
      · -- slot `j` is covered whole and becomes a leaf
        rw [if_pos (And.intro halign hstep)]
        have h := ih (j + 1) ⟨st.map.set (.slot p j) ⟨true, leaf.toNat % 2 ^ 15⟩, st.index + span L,
          st.nb - span L⟩ (by omega) (.inr (by dsimp only; omega)) (by dsimp only; omega)
        exact h.after (c := 0) (by dsimp only; omega) (by simp) (by simp)
          (by dsimp only; split_ifs <;> omega)
      · -- the run ends inside slot `j`, and the level below maps the rest of it
        have hpart : ¬(st.index % span L = 0 ∧ st.nb ≥ span L) := fun h => hstep h.2
        rw [if_neg hpart]
        have hd := hdesc (.slot p j) st hnb hpart
        rw [if_pos (show Boundary (span L) st.index st.nb from .inl halign)] at hd
        have hdiv : st.index / span L = B + j := by rw [hx]; exact Nat.mul_div_cancel _ hw
        rw [if_neg (by omega)]
        cases hres : descend (.slot p j) st with
        | none =>
            rw [hres] at hd
            exact hd
        | some st1 =>
            rw [hres] at hd
            -- the level below maps every page that is left
            have hT : st.index + st.nb < (B + j + 1) * span L := by
              rw [Nat.add_assoc]
              omega
            have hi1 : st1.index = st.index + st.nb := by
              rw [hd.index, hdiv]
              exact Nat.min_eq_left hT.le
            have hnb1 : st1.nb = 0 := by
              have := hd.index_nb
              omega
            have h := ih (j + 1) st1 (by omega) (.inl hnb1) (by omega)
            exact h.after hd.index_nb hd.nb_le hd.nb_bound (by simp [hnb1])

-- The costs of the first slot and of the rest of the loop add up to the loop's bound: two paths
-- down only for a run that neither starts on the node's first page nor reaches its last. The
-- first slot's pages are `[N, M)`, the node's end is `E`, and `m` pages are left after the slot.
theorem first_slot_cost {a n w N M E S m L c r : Nat} (hS : a % S = 0 → a % w = 0)
    (hN : a % w = 0 → a = N) (hM : M = N + w) (hME : M ≤ E)
    (hpart : ¬(a % w = 0 ∧ n ≥ w)) (hm : m + min (a + n) M = a + n)
    (hc : c = if a % w = 0 ∨ M ≤ a + n then L else 2 * L)
    (hr : r = if m = 0 ∨ E ≤ a + n then 0 else L) :
    c + r ≤ if a % S = 0 ∨ E ≤ a + n then L else 2 * L := by
  subst hc hr
  rcases Nat.le_total (a + n) M with hle | hle
  · rw [Nat.min_eq_left hle] at hm
    split_ifs <;> omega
  · rw [Nat.min_eq_right hle] at hm
    split_ifs <;> omega

-- The whole loop over a node at level `L`, from the slot of the first page: at most `L` nodes
-- for a run that starts on the node's first page or reaches its last, `2 * L` otherwise.
theorem setLoop_reaches (hdesc : DescendOk L descend) (st : SetState) :
    Reaches ((st.index / span (L + 1) + 1) * span (L + 1))
      (if Boundary (span (L + 1)) st.index st.nb then L else 2 * L) st
      (setLoop descend leaf L p (L2_SIZE - st.index / span L % L2_SIZE)
        (st.index / span L % L2_SIZE) st) := by
  have hw := span_pos L
  have hj0 := Nat.mod_lt (st.index / span L) L2_SIZE_pos
  have hdiv := div_span_eq st.index L
  generalize st.index / span L % L2_SIZE = j0 at hdiv hj0 ⊢
  generalize hB : st.index / span (L + 1) * L2_SIZE = B at hdiv
  -- the node's pages end where its slot run `B + L2_SIZE` starts
  have hE : (st.index / span (L + 1) + 1) * span (L + 1) = (B + L2_SIZE) * span L := by
    rw [← hB, span_succ]
    ring
  have hrun := mem_run_of_div hw hdiv
  have hnext : (B + (j0 + 1)) * span L = (B + j0) * span L + span L := by
    rw [← Nat.add_assoc, Nat.succ_mul]
  have hend : (B + (j0 + 1)) * span L ≤ (B + L2_SIZE) * span L :=
    Nat.mul_le_mul_right _ (by omega)
  have hS : st.index % span (L + 1) = 0 → st.index % span L = 0 := fun h =>
    Nat.mod_eq_zero_of_dvd (Nat.dvd_trans ⟨L2_SIZE, span_succ L⟩ (Nat.dvd_of_mod_eq_zero h))
  have hN : st.index % span L = 0 → st.index = (B + j0) * span L := fun h => by
    rw [← hdiv]
    exact (Nat.div_mul_cancel (Nat.dvd_of_mod_eq_zero h)).symm
  have hbd : Boundary (span (L + 1)) st.index st.nb ↔
      st.index % span (L + 1) = 0 ∨ (B + L2_SIZE) * span L ≤ st.index + st.nb := by
    rw [Boundary, hE]
  rw [hE]
  simp only [hbd]
  obtain ⟨rest, hrest⟩ : ∃ rest, L2_SIZE - j0 = rest + 1 := ⟨L2_SIZE - j0 - 1, by omega⟩
  rw [hrest]
  simp only [setLoop, step_eq, and_span_sub_one]
  by_cases hnb : st.nb = 0
  · rw [if_pos hnb]
    exact Reaches.refl (by omega)
  rw [if_neg hnb]
  by_cases hbranch : st.index % span L = 0 ∧ st.nb ≥ span L
  · -- the first slot is covered whole: the rest of the loop starts on a slot boundary
    rw [if_pos hbranch]
    have hx := hN hbranch.1
    exact (setLoop_aligned hdesc B rest (j0 + 1)
      ⟨st.map.set (.slot p j0) ⟨true, leaf.toNat % 2 ^ 15⟩, st.index + span L, st.nb - span L⟩
      (by omega) (.inr (by dsimp only; omega)) (by dsimp only; omega)).after (c := 0)
      (by dsimp only; omega) (by simp) (by simp) (by dsimp only; split_ifs <;> omega)
  · -- the first slot goes to the level below, which stops at the slot's end
    rw [if_neg hbranch]
    have hd := hdesc (.slot p j0) st hnb hbranch
    simp only [Boundary, hdiv] at hd
    cases hres : descend (.slot p j0) st with
    | none =>
        rw [hres] at hd
        refine hd.mono (Nat.le_trans (Nat.le_add_right _ _) (first_slot_cost
          (N := (B + j0) * span L) (M := (B + j0 + 1) * span L) hS hN (Nat.succ_mul _ _) ?_ hbranch
          (Nat.sub_add_cancel (Nat.min_le_left _ _)) rfl rfl))
        rw [Nat.add_assoc]
        exact hend
    | some st1 =>
        rw [hres] at hd
        have hn1 := hd.index_nb
        have hi1 := hd.index
        have hnext' : (B + j0 + 1) * span L = (B + (j0 + 1)) * span L := by rw [Nat.add_assoc]
        -- the level below stops at the end of the run or of the first slot
        have hcur : st1.nb = 0 ∨ st1.index = (B + (j0 + 1)) * span L := by
          rcases Nat.le_total (st.index + st.nb) ((B + j0 + 1) * span L) with hle | hle
          · rw [Nat.min_eq_left hle] at hi1
            omega
          · rw [Nat.min_eq_right hle] at hi1
            omega
        have hle1 : st1.index ≤ (B + L2_SIZE) * span L := by
          rw [hi1, hnext']
          exact Nat.le_trans (Nat.min_le_right _ _) hend
        exact (setLoop_aligned hdesc B rest (j0 + 1) st1 (by omega) hcur hle1).after hn1 hd.nb_le
          hd.nb_bound (first_slot_cost (N := (B + j0) * span L) (M := (B + j0 + 1) * span L)
            (m := st1.nb) hS hN (Nat.succ_mul _ _) (by rw [hnext']; exact hend) hbranch
            (by rw [← hi1]; omega) rfl (by rw [hn1]))

end Loop

/-! ### Every level -/

section SetLevel

variable {u : Nat} {leaf : UInt16}

-- One level: finding or making the node takes one node, the loop over it the rest.
theorem setLevelBody_reaches {descend : EntryLoc → SetState → Option SetState} {L : Nat}
    (hdesc : DescendOk L descend) (lp : EntryLoc) (st : SetState) :
    Reaches ((st.index / span (L + 1) + 1) * span (L + 1)) (allocBound L st.index st.nb) st
      (setLevelBody u descend leaf L lp st) := by
  unfold setLevelBody
  cases hnode : nodeOf u st.map lp L with
  | none =>
      show PHYS_MAP_NODE_NIL < _
      rw [nodeOf_eq_none hnode]
      unfold allocBound
      split_ifs <;> omega
  | some r =>
      obtain ⟨d0, p⟩ := r
      have hnb0 := nodeOf_nb hnode
      dsimp only
      rw [slot_eq]
      exact (setLoop_reaches hdesc { st with map := d0 }).after (c := 1) rfl hnb0.1 hnb0.2
        (by unfold allocBound; split_ifs <;> omega)

-- Every level, by induction on the level: the level below is what the loop hands slots to.
theorem phys_page_set_level_reaches (l : Nat) :
    ∀ lp st, Reaches ((st.index / span (l + 1) + 1) * span (l + 1)) (allocBound l st.index st.nb)
      st (phys_page_set_level u leaf l lp st) := by
  induction l with
  | zero => exact setLevelBody_reaches (descendOk_zero _)
  | succ l ih =>
      refine setLevelBody_reaches fun lp st _ _ => (ih lp st).mono ?_
      unfold allocBound
      split_ifs <;> omega

end SetLevel

-- A call at the top allocates at most `2 * P_L2_LEVELS - 1` nodes, whatever the tree and the
-- run; it stops QEMU only if the pool's counter reaches `PHYS_MAP_NODE_NIL` within them.
theorem phys_page_set_nodes_nb (t : Target) (u : Nat) (d : PhysMap) (index nb : Nat)
    (leaf : UInt16) :
    Reaches ((index / span t.P_L2_LEVELS + 1) * span t.P_L2_LEVELS) (2 * t.P_L2_LEVELS - 1)
      ⟨d, index, nb⟩ (phys_page_set_level u leaf (t.P_L2_LEVELS - 1) .root ⟨d, index, nb⟩) := by
  have hP : t.P_L2_LEVELS - 1 + 1 = t.P_L2_LEVELS := Nat.sub_add_cancel (P_L2_LEVELS_pos t)
  have h := @phys_page_set_level_reaches u leaf (t.P_L2_LEVELS - 1) .root ⟨d, index, nb⟩
  rw [hP] at h
  refine h.mono ?_
  unfold allocBound
  split_ifs <;> omega

-- A call of `phys_page_set` on any tree and any run of pages takes at most
-- `3 * P_L2_LEVELS` nodes from the pool; the nodes `phys_map_node_alloc` hands out, the numbers
-- from the counter before the call up to the one after it, are all below the size
-- `phys_map_node_reserve(3 * P_L2_LEVELS)` leaves; and with `3 * P_L2_LEVELS` node numbers left
-- below `PHYS_MAP_NODE_NIL` the call returns.
theorem phys_page_set_reserve_suffices (t : Target) (u : Nat) (d : PhysMap)
    (phys_map_nodes_nb_alloc index nb : Nat) (leaf : UInt16) :
    (∀ d', phys_page_set t u d index nb leaf = some d' →
      d'.phys_map_nodes_nb ≤ d.phys_map_nodes_nb + 3 * t.P_L2_LEVELS ∧
        ∀ ret, d.phys_map_nodes_nb ≤ ret → ret < d'.phys_map_nodes_nb →
          ret ≠ phys_map_node_reserve d.phys_map_nodes_nb phys_map_nodes_nb_alloc
            (3 * t.P_L2_LEVELS)) ∧
      (d.phys_map_nodes_nb + 3 * t.P_L2_LEVELS ≤ PHYS_MAP_NODE_NIL →
        (phys_page_set t u d index nb leaf).isSome) := by
  have hres := le_phys_map_node_reserve d.phys_map_nodes_nb phys_map_nodes_nb_alloc
    (3 * t.P_L2_LEVELS)
  have hcall := phys_page_set_nodes_nb t u d index nb leaf
  unfold phys_page_set
  cases hset : phys_page_set_level u leaf (t.P_L2_LEVELS - 1) .root ⟨d, index, nb⟩ with
  | none =>
      rw [hset] at hcall
      have hnil : PHYS_MAP_NODE_NIL < d.phys_map_nodes_nb + (2 * t.P_L2_LEVELS - 1) := hcall
      refine ⟨fun d' h => ?_, fun hroom => ?_⟩
      · simp at h
      · omega
  | some st' =>
      rw [hset] at hcall
      have hbound := hcall.nb_bound
      refine ⟨fun d' h => ?_, fun _ => rfl⟩
      obtain rfl : st'.map = d' := Option.some.inj h
      refine ⟨by dsimp only at hbound; omega, fun ret _ hret => ?_⟩
      dsimp only at hbound
      omega

end Qemu.Exec

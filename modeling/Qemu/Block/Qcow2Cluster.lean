import Qemu.Lib.BitArith

/-!
Looking up a guest offset in a qcow2 image (`block/qcow2-cluster.c`, `block/qcow2.h`). The
guest disk is cut into clusters of `2^cluster_bits` bytes; an L2 table, one cluster of 64-bit
entries, maps `2^l2_bits` guest clusters, and the L1 table maps L2 tables. An entry's flags say
whether the cluster is compressed, reads as zeros, or is unallocated; otherwise its offset bits
give the cluster's place in the image file. `qcow2_get_cluster_offset` returns the type of the
cluster at a guest offset and how many sectors from there are mapped the same way.

An L2 table comes from `l2_load`, through the table cache: it is given here as a function of
the table's offset that can fail with `-errno`. Its entries are the values after
`be64_to_cpu`. The sector counts of the lookup are non-negative `int`s, kept as `Nat`.
-/

namespace Qemu.Qcow2

def MIN_CLUSTER_BITS : Nat := 9

def MAX_CLUSTER_BITS : Nat := 21

def QCOW_OFLAG_COMPRESSED : BitVec 64 := 1 <<< 62

def QCOW_OFLAG_ZERO : BitVec 64 := 1 <<< 0

def L1E_OFFSET_MASK : BitVec 64 := 0x00ffffffffffff00

def L2E_OFFSET_MASK : BitVec 64 := 0x00ffffffffffff00

def L2E_COMPRESSED_OFFSET_SIZE_MASK : BitVec 64 := 0x3fffffffffffffff

inductive QCow2ClusterType where
  | QCOW2_CLUSTER_UNALLOCATED
  | QCOW2_CLUSTER_NORMAL
  | QCOW2_CLUSTER_COMPRESSED
  | QCOW2_CLUSTER_ZERO
deriving DecidableEq, Repr

open QCow2ClusterType

-- `static inline int qcow2_get_cluster_type(uint64_t l2_entry)`
def qcow2_get_cluster_type (l2_entry : BitVec 64) : QCow2ClusterType :=
  if l2_entry &&& QCOW_OFLAG_COMPRESSED ≠ 0 then QCOW2_CLUSTER_COMPRESSED
  else if l2_entry &&& QCOW_OFLAG_ZERO ≠ 0 then QCOW2_CLUSTER_ZERO
  else if l2_entry &&& L2E_OFFSET_MASK = 0 then QCOW2_CLUSTER_UNALLOCATED
  else QCOW2_CLUSTER_NORMAL

-- The fields of `BDRVQcowState` that the lookup reads, with the range of `cluster_bits` that
-- `qcow2_open` accepts.
structure BDRVQcowState where
  cluster_bits : Nat
  l1_size : Nat
  l1_table : Nat → BitVec 64
  cluster_bits_ge : MIN_CLUSTER_BITS ≤ cluster_bits
  cluster_bits_le : cluster_bits ≤ MAX_CLUSTER_BITS

namespace BDRVQcowState

-- What `qcow2_open` derives from `cluster_bits`; an L2 table is one cluster.
def cluster_size (s : BDRVQcowState) : Nat := 1 <<< s.cluster_bits

def cluster_sectors (s : BDRVQcowState) : Nat := 1 <<< (s.cluster_bits - 9)

def l2_bits (s : BDRVQcowState) : Nat := s.cluster_bits - 3

def l2_size (s : BDRVQcowState) : Nat := 1 <<< s.l2_bits

end BDRVQcowState

-- `static inline int size_to_clusters(BDRVQcowState *s, int64_t size)`
def size_to_clusters (s : BDRVQcowState) (size : Nat) : Nat :=
  (size + (s.cluster_size - 1)) >>> s.cluster_bits

-- The loop of `count_contiguous_clusters`: the first `i` below `stop` whose entry, under the
-- mask, is not the first entry's offset plus `i` clusters.
def contiguousLoop (l2_table : Nat → BitVec 64) (mask offset : BitVec 64) (cluster_size : Nat)
    (i stop : Nat) : Nat :=
  if i < stop then
    if offset + BitVec.ofNat 64 i * BitVec.ofNat 64 cluster_size ≠ l2_table i &&& mask then i
    else contiguousLoop l2_table mask offset cluster_size (i + 1) stop
  else i
termination_by stop - i

-- `static int count_contiguous_clusters(uint64_t nb_clusters, int cluster_size,
-- uint64_t *l2_table, uint64_t start, uint64_t stop_flags)`
def count_contiguous_clusters (nb_clusters cluster_size : Nat) (l2_table : Nat → BitVec 64)
    (start : Nat) (stop_flags : BitVec 64) : Nat :=
  let mask := stop_flags ||| L2E_OFFSET_MASK
  let offset := l2_table 0 &&& mask
  if offset = 0 then 0
  else contiguousLoop l2_table mask offset cluster_size start (start + nb_clusters) - start

-- The loop of `count_contiguous_free_clusters`: the first `i` below `stop` that is allocated.
def freeLoop (l2_table : Nat → BitVec 64) (i stop : Nat) : Nat :=
  if i < stop then
    if qcow2_get_cluster_type (l2_table i) ≠ QCOW2_CLUSTER_UNALLOCATED then i
    else freeLoop l2_table (i + 1) stop
  else i
termination_by stop - i

-- `static int count_contiguous_free_clusters(uint64_t nb_clusters, uint64_t *l2_table)`
def count_contiguous_free_clusters (nb_clusters : Nat) (l2_table : Nat → BitVec 64) : Nat :=
  freeLoop l2_table 0 nb_clusters

-- The `out:` label of `qcow2_get_cluster_offset`: the sectors available, at most those needed,
-- counted from the offset's sector.
def out_num (nb_available nb_needed index_in_cluster : Nat) : Nat :=
  (if nb_available > nb_needed then nb_needed else nb_available) - index_in_cluster

-- The type of the offset's cluster, the number `c` of clusters from it mapped the same way
-- (the `switch` of `qcow2_get_cluster_offset`), and the cluster offset it returns.
def clusterSwitch (s : BDRVQcowState) (nb_clusters : Nat) (l2_table : Nat → BitVec 64) :
    QCow2ClusterType × Nat × BitVec 64 :=
  let cluster_offset := l2_table 0
  match qcow2_get_cluster_type cluster_offset with
  | QCOW2_CLUSTER_COMPRESSED =>
      -- Compressed clusters can only be processed one by one
      (QCOW2_CLUSTER_COMPRESSED, 1, cluster_offset &&& L2E_COMPRESSED_OFFSET_SIZE_MASK)
  | QCOW2_CLUSTER_ZERO =>
      (QCOW2_CLUSTER_ZERO, count_contiguous_clusters nb_clusters s.cluster_size l2_table 0
        (QCOW_OFLAG_COMPRESSED ||| QCOW_OFLAG_ZERO), 0)
  | QCOW2_CLUSTER_UNALLOCATED =>
      -- how many empty clusters ?
      (QCOW2_CLUSTER_UNALLOCATED, count_contiguous_free_clusters nb_clusters l2_table, 0)
  | QCOW2_CLUSTER_NORMAL =>
      -- how many allocated clusters ?
      (QCOW2_CLUSTER_NORMAL, count_contiguous_clusters nb_clusters s.cluster_size l2_table 0
        (QCOW_OFLAG_COMPRESSED ||| QCOW_OFLAG_ZERO), cluster_offset &&& L2E_OFFSET_MASK)

-- `int qcow2_get_cluster_offset(BlockDriverState *bs, uint64_t offset, int *num,
-- uint64_t *cluster_offset)`: the cluster type, the new `*num` and `*cluster_offset`, or the
-- error of `l2_load`.
def qcow2_get_cluster_offset (s : BDRVQcowState) (l2_load : BitVec 64 → Except Int (Nat → BitVec 64))
    (offset : BitVec 64) (num : Nat) : Except Int (QCow2ClusterType × Nat × BitVec 64) :=
  let index_in_cluster := (offset.toNat >>> 9) &&& (s.cluster_sectors - 1)
  -- `*num + index_in_cluster` is an `unsigned int` sum
  let nb_needed := (num + index_in_cluster) % 2 ^ 32
  let l1_bits := s.l2_bits + s.cluster_bits
  -- compute how many bytes there are between the offset and the end of the l1 entry
  let nb_available := (1 <<< l1_bits) - (offset.toNat &&& ((1 <<< l1_bits) - 1))
  -- compute the number of available sectors
  let nb_available := (nb_available >>> 9) + index_in_cluster
  let nb_needed := if nb_needed > nb_available then nb_available else nb_needed
  -- seek the the l2 offset in the l1 table; `l1_index` is an `unsigned int`
  let l1_index := (offset.toNat >>> l1_bits) % 2 ^ 32
  if l1_index ≥ s.l1_size then
    .ok (QCOW2_CLUSTER_UNALLOCATED, out_num nb_available nb_needed index_in_cluster, 0)
  else
    let l2_offset := s.l1_table l1_index &&& L1E_OFFSET_MASK
    if l2_offset = 0 then
      .ok (QCOW2_CLUSTER_UNALLOCATED, out_num nb_available nb_needed index_in_cluster, 0)
    else
      match l2_load l2_offset with
      | .error ret => .error ret
      | .ok l2_table =>
          -- find the cluster offset for the given disk offset
          let l2_index := (offset.toNat >>> s.cluster_bits) &&& (s.l2_size - 1)
          let nb_clusters := size_to_clusters s (nb_needed <<< 9)
          let (ret, c, cluster_offset) :=
            clusterSwitch s nb_clusters fun i => l2_table (l2_index + i)
          .ok (ret, out_num (c * s.cluster_sectors) nb_needed index_in_cluster, cluster_offset)

/-! ### The fields of an entry -/

open BitArith

-- The mask `count_contiguous_clusters` compares entries under.
def stopMask : BitVec 64 := QCOW_OFLAG_COMPRESSED ||| QCOW_OFLAG_ZERO ||| L2E_OFFSET_MASK

theorem toNat_and_compressed (x : BitVec 64) :
    (x &&& QCOW_OFLAG_COMPRESSED).toNat = x.toNat / 2 ^ 62 % 2 * 2 ^ 62 :=
  toNat_and_field x (a := 62) (n := 1) (by decide)

theorem toNat_and_zero (x : BitVec 64) : (x &&& QCOW_OFLAG_ZERO).toNat = x.toNat % 2 := by
  have h := toNat_and_field x (a := 0) (n := 1) (by decide)
  simp only [pow_zero, Nat.div_one, Nat.mul_one] at h
  exact h

theorem toNat_and_l2e (x : BitVec 64) :
    (x &&& L2E_OFFSET_MASK).toNat = x.toNat / 2 ^ 8 % 2 ^ 48 * 2 ^ 8 :=
  toNat_and_field x (a := 8) (n := 48) (by decide)

theorem toNat_and_stopMask (x : BitVec 64) :
    (x &&& stopMask).toNat =
      x.toNat / 2 ^ 62 % 2 * 2 ^ 62 + x.toNat % 2 + x.toNat / 2 ^ 8 % 2 ^ 48 * 2 ^ 8 := by
  rw [stopMask, toNat_and_or_of_disjoint _ _ _ (by decide),
    toNat_and_or_of_disjoint _ _ _ (by decide), toNat_and_compressed, toNat_and_zero, toNat_and_l2e]

-- The type of an entry read from its bits: 62, then 0, then the offset bits 8 to 55.
theorem qcow2_get_cluster_type_eq (x : BitVec 64) :
    qcow2_get_cluster_type x =
      if x.toNat / 2 ^ 62 % 2 = 1 then QCOW2_CLUSTER_COMPRESSED
      else if x.toNat % 2 = 1 then QCOW2_CLUSTER_ZERO
      else if x.toNat / 2 ^ 8 % 2 ^ 48 = 0 then QCOW2_CLUSTER_UNALLOCATED
      else QCOW2_CLUSTER_NORMAL := by
  have hc : x &&& QCOW_OFLAG_COMPRESSED ≠ 0 ↔ x.toNat / 2 ^ 62 % 2 = 1 := by
    rw [Ne, ← BitVec.toNat_inj, toNat_and_compressed]
    simp
  have hz : x &&& QCOW_OFLAG_ZERO ≠ 0 ↔ x.toNat % 2 = 1 := by
    rw [Ne, ← BitVec.toNat_inj, toNat_and_zero]
    simp
  have hl : x &&& L2E_OFFSET_MASK = 0 ↔ x.toNat / 2 ^ 8 % 2 ^ 48 = 0 := by
    rw [← BitVec.toNat_inj, toNat_and_l2e]
    simp
  simp only [qcow2_get_cluster_type, hc, hz, hl]

-- The sum of two masked entries' fields, for an offset step `d` within the offset bits: the
-- flags agree and the offsets differ by `d`.
theorem fields_add {c0 z0 o0 c z o d : Nat} (hc0 : c0 < 2) (hz0 : z0 < 2) (ho0 : o0 < 2 ^ 48)
    (hz : z < 2) (ho : o < 2 ^ 48) (hd : d < 2 ^ 40) (hd512 : d % 512 = 0)
    (h : (c0 * 2 ^ 62 + z0 + o0 * 2 ^ 8 + d) % 2 ^ 64 = c * 2 ^ 62 + z + o * 2 ^ 8) :
    c = c0 ∧ z = z0 ∧ o * 2 ^ 8 = o0 * 2 ^ 8 + d := by
  have hlt : c0 * 2 ^ 62 + z0 + o0 * 2 ^ 8 + d < 2 ^ 64 := by omega
  rw [Nat.mod_eq_of_lt hlt] at h
  omega

-- An entry that `count_contiguous_clusters` counts for a zero or normal first entry: the same
-- flags under the mask, and its offset bits `d` bytes further. The sum cannot carry out of the
-- offset bits, whose top is bit 55, without leaving the mask.
theorem matched_entry {e0 e : BitVec 64} {d : Nat}
    (hty : qcow2_get_cluster_type e0 = QCOW2_CLUSTER_NORMAL ∨
      qcow2_get_cluster_type e0 = QCOW2_CLUSTER_ZERO)
    (hd : d < 2 ^ 40) (hd512 : d % 512 = 0)
    (h : (e0 &&& stopMask) + BitVec.ofNat 64 d = e &&& stopMask) :
    qcow2_get_cluster_type e = qcow2_get_cluster_type e0 ∧
      (e &&& L2E_OFFSET_MASK).toNat = (e0 &&& L2E_OFFSET_MASK).toNat + d := by
  have hsum := congrArg BitVec.toNat h
  rw [BitVec.toNat_add, BitVec.toNat_ofNat, Nat.mod_eq_of_lt (a := d) (by omega),
    toNat_and_stopMask, toNat_and_stopMask] at hsum
  obtain ⟨hc, hz, hl⟩ := fields_add (Nat.mod_lt _ (by decide)) (Nat.mod_lt _ (by decide))
    (Nat.mod_lt _ (by decide)) (Nat.mod_lt _ (by decide)) (Nat.mod_lt _ (by decide)) hd hd512 hsum
  refine ⟨?_, by rw [toNat_and_l2e, toNat_and_l2e, hl]⟩
  rw [qcow2_get_cluster_type_eq] at hty
  rw [qcow2_get_cluster_type_eq, qcow2_get_cluster_type_eq, hc, hz]
  by_cases h1 : e0.toNat / 2 ^ 62 % 2 = 1
  · simp only [if_pos h1]
  by_cases h2 : e0.toNat % 2 = 1
  · simp only [if_neg h1, if_pos h2]
  -- a normal first entry has offset bits, and `e`'s lie `d` bytes further
  have h3 : ¬e0.toNat / 2 ^ 8 % 2 ^ 48 = 0 := by
    intro h3
    simp only [if_neg h1, if_neg h2, if_pos h3, reduceCtorEq, or_self] at hty
  have h3' : ¬e.toNat / 2 ^ 8 % 2 ^ 48 = 0 := by
    intro h0
    rw [h0, Nat.zero_mul] at hl
    exact h3 ((Nat.mul_eq_zero.mp (Nat.add_eq_zero_iff.mp hl.symm).1).resolve_right (by decide))
  simp only [if_neg h1, if_neg h2, if_neg h3, if_neg h3']

/-! ### The two counting loops -/

-- The loop stops within `[i, stop]`, and every entry before the stop continues the run.
theorem contiguousLoop_spec (l2_table : Nat → BitVec 64) (mask offset : BitVec 64)
    (cluster_size i stop : Nat) (hi : i ≤ stop) :
    i ≤ contiguousLoop l2_table mask offset cluster_size i stop ∧
      contiguousLoop l2_table mask offset cluster_size i stop ≤ stop ∧
      ∀ j, i ≤ j → j < contiguousLoop l2_table mask offset cluster_size i stop →
        offset + BitVec.ofNat 64 j * BitVec.ofNat 64 cluster_size = l2_table j &&& mask := by
  fun_induction contiguousLoop l2_table mask offset cluster_size i stop with
  | case1 i hlt hne => exact ⟨le_refl i, hi, fun j hij hj => absurd hj (by omega)⟩
  | case2 i hlt heq ih =>
      obtain ⟨hlo, hhi, hrun⟩ := ih (by omega)
      refine ⟨by omega, hhi, fun j hij hj => ?_⟩
      by_cases hji : j = i
      · subst hji
        exact not_not.mp heq
      · exact hrun j (by omega) hj
  | case3 i hlt => exact ⟨le_refl i, by omega, fun j hij hj => absurd hj (by omega)⟩

theorem freeLoop_spec (l2_table : Nat → BitVec 64) (i stop : Nat) (hi : i ≤ stop) :
    i ≤ freeLoop l2_table i stop ∧ freeLoop l2_table i stop ≤ stop ∧
      ∀ j, i ≤ j → j < freeLoop l2_table i stop →
        qcow2_get_cluster_type (l2_table j) = QCOW2_CLUSTER_UNALLOCATED := by
  fun_induction freeLoop l2_table i stop with
  | case1 i hlt hne => exact ⟨le_refl i, hi, fun j hij hj => absurd hj (by omega)⟩
  | case2 i hlt heq ih =>
      obtain ⟨hlo, hhi, hrun⟩ := ih (by omega)
      refine ⟨by omega, hhi, fun j hij hj => ?_⟩
      by_cases hji : j = i
      · subst hji
        exact not_not.mp heq
      · exact hrun j (by omega) hj
  | case3 i hlt => exact ⟨le_refl i, by omega, fun j hij hj => absurd hj (by omega)⟩

-- From a zero or normal first entry, `count_contiguous_clusters` counts at least that entry,
-- at most `nb_clusters`, and each entry it counts lies `j` clusters after the first.
theorem count_contiguous_clusters_spec (nb_clusters cluster_size : Nat)
    (l2_table : Nat → BitVec 64) (hnb : 1 ≤ nb_clusters)
    (hfirst : l2_table 0 &&& stopMask ≠ 0) :
    1 ≤ count_contiguous_clusters nb_clusters cluster_size l2_table 0
        (QCOW_OFLAG_COMPRESSED ||| QCOW_OFLAG_ZERO) ∧
      count_contiguous_clusters nb_clusters cluster_size l2_table 0
        (QCOW_OFLAG_COMPRESSED ||| QCOW_OFLAG_ZERO) ≤ nb_clusters ∧
      ∀ j < count_contiguous_clusters nb_clusters cluster_size l2_table 0
          (QCOW_OFLAG_COMPRESSED ||| QCOW_OFLAG_ZERO),
        (l2_table 0 &&& stopMask) + BitVec.ofNat 64 (j * cluster_size) = l2_table j &&& stopMask := by
  have hmask : (QCOW_OFLAG_COMPRESSED ||| QCOW_OFLAG_ZERO ||| L2E_OFFSET_MASK) = stopMask := rfl
  unfold count_contiguous_clusters
  simp only [hmask, if_neg hfirst, Nat.zero_add, Nat.sub_zero]
  -- the first entry matches itself, so the loop passes it
  have hstep : contiguousLoop l2_table stopMask (l2_table 0 &&& stopMask) cluster_size 0 nb_clusters =
      contiguousLoop l2_table stopMask (l2_table 0 &&& stopMask) cluster_size 1 nb_clusters := by
    rw [contiguousLoop, if_pos (by omega), if_neg (by simp)]
  obtain ⟨hlo, hhi, hrun⟩ := contiguousLoop_spec l2_table stopMask (l2_table 0 &&& stopMask)
    cluster_size 0 nb_clusters (Nat.zero_le _)
  obtain ⟨hlo1, -, -⟩ := contiguousLoop_spec l2_table stopMask (l2_table 0 &&& stopMask)
    cluster_size 1 nb_clusters hnb
  refine ⟨by rw [hstep]; exact hlo1, hhi, fun j hj => ?_⟩
  rw [← hrun j (Nat.zero_le j) hj, BitVec.ofNat_mul]

theorem count_contiguous_free_clusters_spec (nb_clusters : Nat) (l2_table : Nat → BitVec 64)
    (hnb : 1 ≤ nb_clusters)
    (hfirst : qcow2_get_cluster_type (l2_table 0) = QCOW2_CLUSTER_UNALLOCATED) :
    1 ≤ count_contiguous_free_clusters nb_clusters l2_table ∧
      count_contiguous_free_clusters nb_clusters l2_table ≤ nb_clusters ∧
      ∀ j < count_contiguous_free_clusters nb_clusters l2_table,
        qcow2_get_cluster_type (l2_table j) = QCOW2_CLUSTER_UNALLOCATED := by
  unfold count_contiguous_free_clusters
  have hstep : freeLoop l2_table 0 nb_clusters = freeLoop l2_table 1 nb_clusters := by
    rw [freeLoop, if_pos (by omega), if_neg (by simp [hfirst])]
  obtain ⟨-, hhi, hrun⟩ := freeLoop_spec l2_table 0 nb_clusters (Nat.zero_le _)
  obtain ⟨hlo1, -, -⟩ := freeLoop_spec l2_table 1 nb_clusters hnb
  exact ⟨by rw [hstep]; exact hlo1, hhi, fun j hj => hrun j (Nat.zero_le j) hj⟩

/-! ### Sizes and indices -/

namespace BDRVQcowState

variable (s : BDRVQcowState)

theorem cluster_sectors_eq : s.cluster_sectors = 2 ^ (s.cluster_bits - 9) := Nat.one_shiftLeft _

theorem l2_size_eq : s.l2_size = 2 ^ (s.cluster_bits - 3) := Nat.one_shiftLeft _

theorem cluster_size_eq : s.cluster_size = 512 * s.cluster_sectors := by
  have h9 := s.cluster_bits_ge
  rw [cluster_size, cluster_sectors_eq, Nat.one_shiftLeft, show (512 : Nat) = 2 ^ 9 from rfl,
    ← Nat.pow_add]
  congr 1
  simp only [MIN_CLUSTER_BITS] at h9
  omega

-- The bytes an L2 table maps: `2^l1_bits`, `l1_bits = l2_bits + cluster_bits`.
theorem l1_span_eq :
    2 ^ (s.l2_bits + s.cluster_bits) = 512 * (s.cluster_sectors * s.l2_size) := by
  have h9 := s.cluster_bits_ge
  simp only [MIN_CLUSTER_BITS] at h9
  rw [cluster_sectors_eq, l2_size_eq, l2_bits, show (512 : Nat) = 2 ^ 9 from rfl, ← Nat.pow_add,
    ← Nat.pow_add]
  congr 1
  omega

theorem cluster_sectors_pos : 0 < s.cluster_sectors := by
  rw [cluster_sectors_eq]
  exact Nat.two_pow_pos _

theorem l2_size_pos : 0 < s.l2_size := by
  rw [l2_size_eq]
  exact Nat.two_pow_pos _

theorem cluster_sectors_le : s.cluster_sectors ≤ 2 ^ 12 := by
  have h21 := s.cluster_bits_le
  simp only [MAX_CLUSTER_BITS] at h21
  rw [cluster_sectors_eq]
  exact Nat.pow_le_pow_right (by decide) (by omega)

theorem l2_size_le : s.l2_size ≤ 2 ^ 18 := by
  have h21 := s.cluster_bits_le
  simp only [MAX_CLUSTER_BITS] at h21
  rw [l2_size_eq]
  exact Nat.pow_le_pow_right (by decide) (by omega)

-- `(offset >> 9) & (s->cluster_sectors - 1)`: the sector's place in its cluster.
theorem index_in_cluster_eq (o : Nat) :
    (o >>> 9) &&& (s.cluster_sectors - 1) = o / 512 % s.cluster_sectors := by
  rw [Nat.shiftRight_eq_div_pow, cluster_sectors_eq, Nat.and_two_pow_sub_one_eq_mod]

-- `(offset >> s->cluster_bits) & (s->l2_size - 1)`: the cluster's place in its L2 table.
theorem l2_index_eq (o : Nat) :
    (o >>> s.cluster_bits) &&& (s.l2_size - 1) = o / 512 / s.cluster_sectors % s.l2_size := by
  have hcs := cluster_size_eq s
  rw [cluster_size, Nat.one_shiftLeft] at hcs
  rw [Nat.shiftRight_eq_div_pow, l2_size_eq, Nat.and_two_pow_sub_one_eq_mod, ← l2_size_eq, hcs,
    Nat.div_div_eq_div_mul]

-- `offset >> l1_bits`: the L2 table's place in the L1 table.
theorem l1_index_eq (o : Nat) :
    o >>> (s.l2_bits + s.cluster_bits) = o / 512 / (s.cluster_sectors * s.l2_size) := by
  rw [Nat.shiftRight_eq_div_pow, l1_span_eq, Nat.div_div_eq_div_mul]

-- The sectors from an aligned offset to the end of its L1 entry.
theorem l1_rest_eq {o : Nat} (ho : o % 512 = 0) :
    ((1 <<< (s.l2_bits + s.cluster_bits)) - (o &&& ((1 <<< (s.l2_bits + s.cluster_bits)) - 1))) >>> 9 =
      s.cluster_sectors * s.l2_size - o / 512 % (s.cluster_sectors * s.l2_size) := by
  have hP : 0 < s.cluster_sectors * s.l2_size :=
    Nat.mul_pos (cluster_sectors_pos s) (l2_size_pos s)
  have hsplit : o = 512 * (o / 512) := by omega
  rw [Nat.one_shiftLeft, Nat.and_two_pow_sub_one_eq_mod, l1_span_eq, Nat.shiftRight_eq_div_pow]
  nth_rewrite 1 [hsplit]
  rw [Nat.mul_mod_mul_left, ← Nat.mul_sub, show 2 ^ 9 = 512 from rfl, Nat.mul_div_cancel_left _
    (by decide)]

end BDRVQcowState

-- Sectors `S + k` that stay in the L1 entry of sector `S` (of `Q * L` sectors, `L` clusters of
-- `Q`): the same L1 entry, and their cluster sits `(S % Q + k) / Q` after `S`'s in the table.
theorem sector_split {S k Q L : Nat} (hQ : 0 < Q) (hL : 0 < L) (hk : S % (Q * L) + k < Q * L) :
    (S + k) / Q / L = S / Q / L ∧ (S + k) / Q % L = S / Q % L + (S % Q + k) / Q := by
  have hmod : S % (Q * L) = S % Q + Q * (S / Q % L) := Nat.mod_mul
  have hdiv : (S + k) / Q = S / Q + (S % Q + k) / Q := by
    conv_lhs => rw [← Nat.div_add_mod S Q]
    rw [Nat.add_assoc, Nat.mul_add_div hQ]
  -- the cluster's place in the table stays below `L`
  have hin : S / Q % L + (S % Q + k) / Q < L := by
    have hq := Nat.div_mul_le_self (S % Q + k) Q
    have hlt : (S / Q % L + (S % Q + k) / Q) * Q < L * Q := by
      rw [Nat.add_mul]
      calc S / Q % L * Q + (S % Q + k) / Q * Q ≤ S / Q % L * Q + (S % Q + k) := by omega
        _ < L * Q := by rw [Nat.mul_comm L Q, Nat.mul_comm (S / Q % L) Q]; omega
    exact Nat.lt_of_mul_lt_mul_right hlt
  rw [hdiv]
  generalize S / Q = q at hin ⊢
  generalize (S % Q + k) / Q = r at hin ⊢
  have hq : q = L * (q / L) + q % L := (Nat.div_add_mod q L).symm
  have hdivL : (q + r) / L = q / L := by
    rw [hq, Nat.add_assoc, Nat.mul_add_div hL, Nat.mul_add_div hL, Nat.div_eq_of_lt hin,
      Nat.div_eq_of_lt (Nat.mod_lt _ hL)]
  refine ⟨hdivL, ?_⟩
  have hqr := Nat.div_add_mod (q + r) L
  rw [hdivL] at hqr
  omega

/-! ### The switch on the first entry -/

-- What the `switch` of `qcow2_get_cluster_offset` returns for a table read from the offset's
-- cluster on: at least one cluster, at most `nb_clusters`, all of the returned type, a
-- compressed cluster alone, and normal clusters one after the other in the image file.
structure SwitchResult (s : BDRVQcowState) (nb_clusters : Nat) (l2_table : Nat → BitVec 64)
    (r : QCow2ClusterType × Nat × BitVec 64) : Prop where
  count_pos : 1 ≤ r.2.1
  count_le : r.2.1 ≤ nb_clusters
  compressed_one : r.1 = QCOW2_CLUSTER_COMPRESSED → r.2.1 = 1
  same_type : ∀ j < r.2.1, qcow2_get_cluster_type (l2_table j) = r.1
  normal_offset : r.1 = QCOW2_CLUSTER_NORMAL → ∀ j < r.2.1,
    (l2_table j &&& L2E_OFFSET_MASK).toNat = r.2.2.toNat + j * s.cluster_size

-- A zero or normal entry has a bit under the mask: its zero flag or its offset.
theorem and_stopMask_ne_zero {e : BitVec 64}
    (hty : qcow2_get_cluster_type e = QCOW2_CLUSTER_NORMAL ∨
      qcow2_get_cluster_type e = QCOW2_CLUSTER_ZERO) :
    e &&& stopMask ≠ 0 := by
  intro h0
  have hbits : (e &&& stopMask).toNat = 0 := by rw [h0]; rfl
  rw [toNat_and_stopMask] at hbits
  have hz : e.toNat % 2 = 0 := by omega
  have ho : e.toNat / 2 ^ 8 % 2 ^ 48 = 0 := by
    have := Nat.mul_eq_zero.mp (Nat.add_eq_zero_iff.mp hbits).2
    exact this.resolve_right (by decide)
  rw [qcow2_get_cluster_type_eq, if_neg (by omega), if_neg (by omega), if_pos ho] at hty
  simp at hty

-- A counted run from a zero or normal first entry: `j` clusters on, the same type and the
-- offset `j` clusters further.
theorem counted_entry (s : BDRVQcowState) {nb_clusters : Nat} {l2_table : Nat → BitVec 64}
    (hty : qcow2_get_cluster_type (l2_table 0) = QCOW2_CLUSTER_NORMAL ∨
      qcow2_get_cluster_type (l2_table 0) = QCOW2_CLUSTER_ZERO)
    (hnb : 1 ≤ nb_clusters) (hnbL : nb_clusters ≤ 2 ^ 18) :
    1 ≤ count_contiguous_clusters nb_clusters s.cluster_size l2_table 0
        (QCOW_OFLAG_COMPRESSED ||| QCOW_OFLAG_ZERO) ∧
      count_contiguous_clusters nb_clusters s.cluster_size l2_table 0
        (QCOW_OFLAG_COMPRESSED ||| QCOW_OFLAG_ZERO) ≤ nb_clusters ∧
      ∀ j < count_contiguous_clusters nb_clusters s.cluster_size l2_table 0
          (QCOW_OFLAG_COMPRESSED ||| QCOW_OFLAG_ZERO),
        qcow2_get_cluster_type (l2_table j) = qcow2_get_cluster_type (l2_table 0) ∧
          (l2_table j &&& L2E_OFFSET_MASK).toNat =
            (l2_table 0 &&& L2E_OFFSET_MASK).toNat + j * s.cluster_size := by
  obtain ⟨hlo, hhi, hrun⟩ := count_contiguous_clusters_spec nb_clusters s.cluster_size l2_table
    hnb (and_stopMask_ne_zero hty)
  refine ⟨hlo, hhi, fun j hj => ?_⟩
  -- `j` clusters of at most `2^21` bytes stay below the offset bits' `2^40`
  have hcs : s.cluster_size = 512 * s.cluster_sectors := s.cluster_size_eq
  have hd : j * s.cluster_size < 2 ^ 40 := by
    have hQ := s.cluster_sectors_le
    calc j * s.cluster_size ≤ 2 ^ 18 * (512 * 2 ^ 12) := by
          rw [hcs]
          exact Nat.mul_le_mul (by omega) (Nat.mul_le_mul_left _ hQ)
      _ < 2 ^ 40 := by decide
  have hd512 : j * s.cluster_size % 512 = 0 := by
    rw [hcs, Nat.mul_left_comm, Nat.mul_mod_right]
  exact matched_entry hty hd hd512 (hrun j hj)

theorem clusterSwitch_spec (s : BDRVQcowState) {nb_clusters : Nat} (l2_table : Nat → BitVec 64)
    (hnb : 1 ≤ nb_clusters) (hnbL : nb_clusters ≤ 2 ^ 18) :
    SwitchResult s nb_clusters l2_table (clusterSwitch s nb_clusters l2_table) := by
  unfold clusterSwitch
  dsimp only
  cases hty : qcow2_get_cluster_type (l2_table 0) with
  | QCOW2_CLUSTER_COMPRESSED =>
      dsimp only
      refine ⟨le_refl 1, hnb, fun _ => rfl, fun j hj => ?_, nofun⟩
      rw [Nat.lt_one_iff.mp hj]
      exact hty
  | QCOW2_CLUSTER_ZERO =>
      dsimp only
      obtain ⟨hlo, hhi, hrun⟩ := counted_entry s (.inr hty) hnb hnbL
      exact ⟨hlo, hhi, nofun, fun j hj => (hrun j hj).1.trans hty, nofun⟩
  | QCOW2_CLUSTER_UNALLOCATED =>
      dsimp only
      obtain ⟨hlo, hhi, hrun⟩ := count_contiguous_free_clusters_spec nb_clusters l2_table hnb hty
      exact ⟨hlo, hhi, nofun, hrun, nofun⟩
  | QCOW2_CLUSTER_NORMAL =>
      dsimp only
      obtain ⟨hlo, hhi, hrun⟩ := counted_entry s (.inl hty) hnb hnbL
      exact ⟨hlo, hhi, nofun, fun j hj => (hrun j hj).1.trans hty, fun _ j hj => (hrun j hj).2⟩

/-! ### What the lookup describes -/

-- What the image maps guest cluster `g` to: the entry of its L2 table, `none` where the L1 table
-- holds no L2 table for it, or the error of loading that table.
def l2EntryOf (s : BDRVQcowState) (l2_load : BitVec 64 → Except Int (Nat → BitVec 64))
    (g : Nat) : Except Int (Option (BitVec 64)) :=
  let l1_index := g / s.l2_size
  if l1_index < s.l1_size ∧ s.l1_table l1_index &&& L1E_OFFSET_MASK ≠ 0 then
    (l2_load (s.l1_table l1_index &&& L1E_OFFSET_MASK)).map fun l2_table =>
      some (l2_table (g % s.l2_size))
  else .ok none

-- A cluster without an L2 table reads as unallocated.
def entryType : Option (BitVec 64) → QCow2ClusterType
  | none => QCOW2_CLUSTER_UNALLOCATED
  | some e => qcow2_get_cluster_type e

-- The run that a lookup's result `(type, *num, *cluster_offset)` describes from the sector of
-- `offset`: at least one sector and at most those asked for, all under one L1 entry and in
-- clusters of the returned type, a compressed run inside one cluster, and a normal run at
-- consecutive bytes of the image file.
structure ClusterRun (s : BDRVQcowState) (l2_load : BitVec 64 → Except Int (Nat → BitVec 64))
    (offset : BitVec 64) (num : Nat) (r : QCow2ClusterType × Nat × BitVec 64) : Prop where
  num_pos : 1 ≤ r.2.1
  num_le : r.2.1 ≤ num
  one_l1_entry : ∀ k < r.2.1, (offset.toNat / 512 + k) / s.cluster_sectors / s.l2_size =
    offset.toNat / 512 / s.cluster_sectors / s.l2_size
  same_type : ∀ k < r.2.1, ∃ e,
    l2EntryOf s l2_load ((offset.toNat / 512 + k) / s.cluster_sectors) = .ok e ∧ entryType e = r.1
  compressed_one : r.1 = QCOW2_CLUSTER_COMPRESSED →
    offset.toNat / 512 % s.cluster_sectors + r.2.1 ≤ s.cluster_sectors
  normal_host : r.1 = QCOW2_CLUSTER_NORMAL → ∀ k < r.2.1, ∃ e,
    l2EntryOf s l2_load ((offset.toNat / 512 + k) / s.cluster_sectors) = .ok (some e) ∧
      (e &&& L2E_OFFSET_MASK).toNat + (offset.toNat + 512 * k) % s.cluster_size =
        r.2.2.toNat + offset.toNat % s.cluster_size + 512 * k

section Lookup

variable {s : BDRVQcowState} {l2_load : BitVec 64 → Except Int (Nat → BitVec 64)}
  {offset : BitVec 64} {num : Nat}

-- The bytes into its cluster of the aligned guest sector `x`.
theorem sector_mod_cluster_size (s : BDRVQcowState) (x : Nat) :
    512 * x % s.cluster_size = 512 * (x % s.cluster_sectors) := by
  rw [s.cluster_size_eq, Nat.mul_mod_mul_left]

-- `size_to_clusters` of `n` sectors: the clusters they start to fill.
theorem size_to_clusters_sectors (s : BDRVQcowState) (n : Nat) :
    size_to_clusters s (n <<< 9) = (n + s.cluster_sectors - 1) / s.cluster_sectors := by
  have hQ := s.cluster_sectors_pos
  have hcs : s.cluster_size = 2 ^ s.cluster_bits := Nat.one_shiftLeft _
  have hcs' := s.cluster_size_eq
  rw [size_to_clusters, Nat.shiftLeft_eq, Nat.shiftRight_eq_div_pow, ← hcs, hcs',
    ← Nat.div_div_eq_div_mul]
  congr 1
  omega

-- Without an L2 table for the offset's L1 entry, the lookup stops at `out:` with the sectors
-- left in the request and the L1 entry.
theorem clusterRun_out (hnum : 1 ≤ num)
    (hno : ¬(offset.toNat / 512 / s.cluster_sectors / s.l2_size < s.l1_size ∧
      s.l1_table (offset.toNat / 512 / s.cluster_sectors / s.l2_size) &&& L1E_OFFSET_MASK ≠ 0)) :
    ClusterRun s l2_load offset num (QCOW2_CLUSTER_UNALLOCATED,
      min num (s.cluster_sectors * s.l2_size -
        offset.toNat / 512 % (s.cluster_sectors * s.l2_size)), 0) := by
  have hQ := s.cluster_sectors_pos
  have hL := s.l2_size_pos
  have hrest := Nat.mod_lt (offset.toNat / 512) (Nat.mul_pos hQ hL)
  have hsame : ∀ k < min num (s.cluster_sectors * s.l2_size -
      offset.toNat / 512 % (s.cluster_sectors * s.l2_size)),
      (offset.toNat / 512 + k) / s.cluster_sectors / s.l2_size =
        offset.toNat / 512 / s.cluster_sectors / s.l2_size :=
    fun k hk => (sector_split hQ hL (by omega)).1
  refine ⟨Nat.le_min.mpr ⟨hnum, by omega⟩, Nat.min_le_left _ _, hsame, fun k hk => ⟨none, ?_, rfl⟩,
    nofun, nofun⟩
  simp only [l2EntryOf, hsame k hk, if_neg hno]

-- `out:` after the switch: the sectors of the `c` clusters found, at most those needed, from the
-- offset's sector on.
theorem out_num_eq (c Q m i : Nat) : out_num (c * Q) (m + i) i = min (c * Q) (m + i) - i := by
  unfold out_num
  split <;> omega

-- With the offset's L2 table loaded, the run is the switch's, cut to the request; the switch
-- reads that table from the offset's cluster on, for the clusters the request needs.
theorem clusterRun_l2 (halign : offset.toNat % 512 = 0) (hnum : 1 ≤ num)
    {l2_table : Nat → BitVec 64}
    (hyes : offset.toNat / 512 / s.cluster_sectors / s.l2_size < s.l1_size ∧
      s.l1_table (offset.toNat / 512 / s.cluster_sectors / s.l2_size) &&& L1E_OFFSET_MASK ≠ 0)
    (hload : l2_load (s.l1_table (offset.toNat / 512 / s.cluster_sectors / s.l2_size) &&&
      L1E_OFFSET_MASK) = .ok l2_table)
    {m : Nat} (hm : min num (s.cluster_sectors * s.l2_size -
      offset.toNat / 512 % (s.cluster_sectors * s.l2_size)) = m)
    {r : QCow2ClusterType × Nat × BitVec 64}
    (hsw : SwitchResult s
      ((m + offset.toNat / 512 % s.cluster_sectors + s.cluster_sectors - 1) / s.cluster_sectors)
      (fun j => l2_table (offset.toNat / 512 / s.cluster_sectors % s.l2_size + j)) r) :
    ClusterRun s l2_load offset num
      (r.1, out_num (r.2.1 * s.cluster_sectors) (m + offset.toNat / 512 % s.cluster_sectors)
        (offset.toNat / 512 % s.cluster_sectors), r.2.2) := by
  have hQ := s.cluster_sectors_pos
  have hL := s.l2_size_pos
  have hcs := s.cluster_size_eq
  obtain ⟨S, hS⟩ : ∃ S, offset.toNat = 512 * S := ⟨offset.toNat / 512, by omega⟩
  have hS' : offset.toNat / 512 = S := by omega
  rw [hS'] at hyes hload hm hsw ⊢
  rw [out_num_eq]
  obtain ⟨ret, c, co⟩ := r
  dsimp only at hsw ⊢
  have hrest := Nat.mod_lt S (Nat.mul_pos hQ hL)
  have hi := Nat.mod_lt S hQ
  have hc1 : 1 ≤ c := hsw.count_pos
  have hcQ : s.cluster_sectors ≤ c * s.cluster_sectors := Nat.le_mul_of_pos_left _ hc1
  -- sector `S + k` of the run is in cluster `j = (S % Q + k) / Q` of the switch's table
  have hk : ∀ k < min (c * s.cluster_sectors) (m + S % s.cluster_sectors) - S % s.cluster_sectors,
      (S + k) / s.cluster_sectors / s.l2_size = S / s.cluster_sectors / s.l2_size ∧
        (S + k) / s.cluster_sectors % s.l2_size =
          S / s.cluster_sectors % s.l2_size + (S % s.cluster_sectors + k) / s.cluster_sectors ∧
        (S % s.cluster_sectors + k) / s.cluster_sectors < c :=
    fun k hk => ⟨(sector_split hQ hL (by omega)).1, (sector_split hQ hL (by omega)).2,
      (Nat.div_lt_iff_lt_mul hQ).mpr (by omega)⟩
  have hentry : ∀ k < min (c * s.cluster_sectors) (m + S % s.cluster_sectors) - S % s.cluster_sectors,
      l2EntryOf s l2_load ((S + k) / s.cluster_sectors) = .ok (some (l2_table
        (S / s.cluster_sectors % s.l2_size + (S % s.cluster_sectors + k) / s.cluster_sectors))) := by
    intro k hk'
    obtain ⟨hl1, hl2, -⟩ := hk k hk'
    simp only [l2EntryOf, hl1, if_pos hyes, hload, hl2]
    rfl
  constructor
  · dsimp only
    omega
  · dsimp only
    omega
  · intro k hk'
    rw [hS']
    exact (hk k hk').1
  · intro k hk'
    rw [hS']
    exact ⟨_, hentry k hk', hsw.same_type _ (hk k hk').2.2⟩
  · intro hC
    rw [hS']
    have hc : c = 1 := hsw.compressed_one hC
    subst hc
    dsimp only
    omega
  · intro hN k hk'
    rw [hS', hS]
    refine ⟨_, hentry k hk', ?_⟩
    dsimp only
    rw [hsw.normal_offset hN _ (hk k hk').2.2, ← Nat.mul_add, sector_mod_cluster_size,
      sector_mod_cluster_size, ← Nat.mod_add_mod]
    dsimp only
    -- `j` whole clusters and the rest of `S % Q + k` make up the `k` sectors from the offset's
    have hdm := Nat.div_add_mod (S % s.cluster_sectors + k) s.cluster_sectors
    have hj : (S % s.cluster_sectors + k) / s.cluster_sectors * s.cluster_size =
        512 * (s.cluster_sectors * ((S % s.cluster_sectors + k) / s.cluster_sectors)) := by
      rw [hcs]
      ring
    omega

-- The clamp of `nb_needed` to `nb_available`, both `index_in_cluster` past the sector.
theorem ite_gt_add (a b i : Nat) : (if a + i > b + i then b + i else a + i) = min a b + i := by
  split <;> omega

end Lookup

theorem qcow2_get_cluster_offset_run (s : BDRVQcowState)
    (l2_load : BitVec 64 → Except Int (Nat → BitVec 64)) (offset : BitVec 64) (num : Nat)
    (halign : offset.toNat % 512 = 0) (hnum : 1 ≤ num) (hint : num < 2 ^ 31)
    (hl1 : offset.toNat / 2 ^ (s.l2_bits + s.cluster_bits) < 2 ^ 32)
    (r : QCow2ClusterType × Nat × BitVec 64)
    (h : qcow2_get_cluster_offset s l2_load offset num = .ok r) :
    ClusterRun s l2_load offset num r := by
  have hQ := s.cluster_sectors_pos
  have hL := s.l2_size_pos
  -- the `unsigned int` L1 index and request do not wrap
  have hL1 : (offset.toNat >>> (s.l2_bits + s.cluster_bits)) % 2 ^ 32 =
      offset.toNat / 512 / s.cluster_sectors / s.l2_size := by
    rw [Nat.mod_eq_of_lt (by rwa [Nat.shiftRight_eq_div_pow]), s.l1_index_eq,
      Nat.div_div_eq_div_mul (offset.toNat / 512)]
  have hNN : (num + offset.toNat / 512 % s.cluster_sectors) % 2 ^ 32 =
      num + offset.toNat / 512 % s.cluster_sectors := by
    have := Nat.mod_lt (offset.toNat / 512) hQ
    have := s.cluster_sectors_le
    exact Nat.mod_eq_of_lt (by omega)
  unfold qcow2_get_cluster_offset at h
  simp only [s.index_in_cluster_eq, s.l1_rest_eq halign, s.l2_index_eq, hL1, hNN, ite_gt_add,
    size_to_clusters_sectors] at h
  generalize hm : min num (s.cluster_sectors * s.l2_size -
    offset.toNat / 512 % (s.cluster_sectors * s.l2_size)) = m at h
  -- the request and the rest of the L1 entry both hold the offset's sector
  have hm1 : 1 ≤ m := by
    have := Nat.mod_lt (offset.toNat / 512) (Nat.mul_pos hQ hL)
    omega
  have hout : out_num (s.cluster_sectors * s.l2_size -
      offset.toNat / 512 % (s.cluster_sectors * s.l2_size) +
        offset.toNat / 512 % s.cluster_sectors) (m + offset.toNat / 512 % s.cluster_sectors)
      (offset.toNat / 512 % s.cluster_sectors) = m := by
    unfold out_num
    split <;> omega
  split_ifs at h with hbeyond hzero
  · -- beyond the L1 table
    cases h
    rw [hout, ← hm]
    exact clusterRun_out hnum fun h => absurd h.1 (by omega)
  · -- no L2 table in the L1 entry
    cases h
    rw [hout, ← hm]
    exact clusterRun_out hnum fun h => h.2 hzero
  split at h
  · cases h
  rename_i l2_table hload
  cases h
  -- the clusters the request needs stay in the offset's L2 table
  have hnb1 : 1 ≤ (m + offset.toNat / 512 % s.cluster_sectors + s.cluster_sectors - 1) /
      s.cluster_sectors := (Nat.le_div_iff_mul_le hQ).mpr (by omega)
  have hnbL : (m + offset.toNat / 512 % s.cluster_sectors + s.cluster_sectors - 1) /
      s.cluster_sectors ≤ 2 ^ 18 := by
    have hmod : offset.toNat / 512 % (s.cluster_sectors * s.l2_size) =
        offset.toNat / 512 % s.cluster_sectors +
          s.cluster_sectors * (offset.toNat / 512 / s.cluster_sectors % s.l2_size) := Nat.mod_mul
    have hlt : (m + offset.toNat / 512 % s.cluster_sectors + s.cluster_sectors - 1) /
        s.cluster_sectors < s.l2_size + 1 := by
      rw [Nat.div_lt_iff_lt_mul hQ, Nat.add_mul, Nat.one_mul, Nat.mul_comm]
      omega
    have := s.l2_size_le
    omega
  exact clusterRun_l2 halign hnum ⟨by omega, hzero⟩ hload hm (clusterSwitch_spec s _ hnb1 hnbL)

-- An image of 64 KiB clusters whose one L2 table maps guest clusters 0 and 1 to consecutive
-- host clusters from 1 MiB on.
def twoClusterImage : BDRVQcowState := ⟨16, 1, fun _ => 0x10000, by decide, by decide⟩

def twoClusterL2 : BitVec 64 → Except Int (Nat → BitVec 64) :=
  fun _ => .ok fun i => if i < 2 then BitVec.ofNat 64 (0x100000 + i * 0x10000) else 0

theorem qcow2_get_cluster_offset_two_clusters :
    qcow2_get_cluster_offset twoClusterImage twoClusterL2 0x200 200 =
        .ok (QCOW2_CLUSTER_NORMAL, 200, 0x100000) ∧
      ClusterRun twoClusterImage twoClusterL2 0x200 200 (QCOW2_CLUSTER_NORMAL, 200, 0x100000) := by
  have h : qcow2_get_cluster_offset twoClusterImage twoClusterL2 0x200 200 =
      .ok (QCOW2_CLUSTER_NORMAL, 200, 0x100000) := by
    simp [qcow2_get_cluster_offset, twoClusterImage, twoClusterL2, clusterSwitch,
      count_contiguous_clusters, contiguousLoop, qcow2_get_cluster_type,
      BDRVQcowState.cluster_sectors, BDRVQcowState.l2_bits, BDRVQcowState.l2_size,
      BDRVQcowState.cluster_size, size_to_clusters, out_num, QCOW_OFLAG_COMPRESSED,
      QCOW_OFLAG_ZERO, L2E_OFFSET_MASK, L1E_OFFSET_MASK]
  exact ⟨h, qcow2_get_cluster_offset_run _ _ _ _ (by decide) (by decide) (by decide) (by decide)
    _ h⟩

end Qemu.Qcow2

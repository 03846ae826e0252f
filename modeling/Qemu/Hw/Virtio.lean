import Qemu.Lib.ErrorState

/-!
The device side of a virtqueue (`hw/virtio.c`): how `virtqueue_pop` and
`virtqueue_get_avail_bytes` walk the chains of descriptors that the guest has made available.
Guest memory is whatever the guest wrote: each read goes through `vring_desc`, which logs the
index it reads and the size of the table it reads it from, and each `error_report` before
`exit(1)` is an `Exit`.
-/

namespace Qemu.Virtio

open ErrorState

def VRING_DESC_F_NEXT : UInt16 := 1
def VRING_DESC_F_WRITE : UInt16 := 2
def VRING_DESC_F_INDIRECT : UInt16 := 4

-- `ARRAY_SIZE(elem->in_sg)` and `ARRAY_SIZE(elem->out_sg)`
def VIRTQUEUE_MAX_SIZE : Nat := 1024

structure VRingDesc where
  addr : UInt64
  len : UInt32
  flags : UInt16
  next : UInt16
deriving DecidableEq, Repr

-- `sizeof(VRingDesc)`
def VRING_DESC_SIZE : Nat := 16

-- Guest memory as the device reads it: the descriptor at each guest-physical address, and the
-- `idx` and `ring` of the avail ring.
structure GuestMem where
  desc : UInt64 → VRingDesc
  availIdx : UInt16
  availRing : Nat → UInt16

structure VirtQueue where
  num : Nat
  desc : UInt64
  last_avail_idx : UInt16
deriving DecidableEq, Repr

-- The `error_report` before each `exit(1)`, and the model's own end of fuel.
inductive Exit
  | usedIndex (idx avail : Nat)
  | headIndex (head : Nat)
  | descNext (next : Nat)
  | indirectSize
  | tooManyWrite
  | tooManyRead
  | looped
  | outOfFuel
deriving DecidableEq, Repr

-- A read of descriptor `index` of a table of `max` descriptors.
structure DescRead where
  index : Nat
  max : Nat
deriving DecidableEq, Repr

-- The walk either exits or goes on; every descriptor it reads is logged, latest first.
abbrev VirtM := EStateM Exit (List DescRead)

-- `vring_desc_addr`, `_len`, `_flags` and `_next` of descriptor `i` of the table at `desc_pa`,
-- whose size is `max`.
def vring_desc (mem : GuestMem) (desc_pa : UInt64) (i max : Nat) : VirtM VRingDesc := do
  modify (⟨i, max⟩ :: ·)
  return mem.desc (desc_pa + UInt64.ofNat (VRING_DESC_SIZE * i))

theorem vring_desc_apply (mem : GuestMem) (desc_pa : UInt64) (i max : Nat) (log : List DescRead) :
    vring_desc mem desc_pa i max log =
      .ok (mem.desc (desc_pa + UInt64.ofNat (VRING_DESC_SIZE * i))) (⟨i, max⟩ :: log) := rfl

def virtqueue_num_heads (mem : GuestMem) (vq : VirtQueue) (idx : Nat) : VirtM Nat :=
  let num_heads := (mem.availIdx - UInt16.ofNat idx).toNat
  if num_heads > vq.num then throw (.usedIndex idx mem.availIdx.toNat)
  else pure num_heads

theorem virtqueue_num_heads_spec (mem : GuestMem) (vq : VirtQueue) (idx : Nat)
    (log : List DescRead) :
    Holds (fun n s => s = log ∧ n ≤ vq.num ∧ n = (mem.availIdx - UInt16.ofNat idx).toNat)
      (fun e s => s = log ∧ e ≠ .outOfFuel) (virtqueue_num_heads mem vq idx log) := by
  unfold virtqueue_num_heads
  split
  · simp
  · simp only [pure_apply, holds_ok, true_and, and_true]
    omega

-- The count of heads the guest has made available drops by one with each head taken.
theorem num_heads_succ (a : UInt16) (idx : Nat) (h : (a - UInt16.ofNat idx).toNat ≠ 0) :
    (a - UInt16.ofNat (idx + 1)).toNat = (a - UInt16.ofNat idx).toNat - 1 := by
  have h1 : UInt16.ofNat (idx + 1) = UInt16.ofNat idx + 1 := by
    apply UInt16.toNat_inj.mp
    simp [UInt16.toNat_add, UInt16.toNat_ofNat]
  generalize hx : a - UInt16.ofNat idx = x at h
  have hsub : a - UInt16.ofNat (idx + 1) = x - 1 := by rw [h1, ← hx]; grind
  rw [hsub, UInt16.toNat_sub_of_le]
  · rfl
  · exact UInt16.le_iff_toNat_le.mpr (by simp; omega)

def virtqueue_get_head (mem : GuestMem) (vq : VirtQueue) (idx : Nat) : VirtM Nat :=
  let head := (mem.availRing (idx % vq.num)).toNat
  if head ≥ vq.num then throw (.headIndex head)
  else pure head

theorem virtqueue_get_head_spec (mem : GuestMem) (vq : VirtQueue) (idx : Nat)
    (log : List DescRead) :
    Holds (fun head s => s = log ∧ head < vq.num) (fun e s => s = log ∧ e ≠ .outOfFuel)
      (virtqueue_get_head mem vq idx log) := by
  unfold virtqueue_get_head
  split
  · simp
  · simp only [pure_apply, holds_ok, true_and]
    omega

def virtqueue_next_desc (mem : GuestMem) (desc_pa : UInt64) (i max : Nat) : VirtM Nat := do
  let d ← vring_desc mem desc_pa i max
  if d.flags &&& VRING_DESC_F_NEXT = 0 then pure max
  else if d.next.toNat ≥ max then throw (.descNext d.next.toNat)
  else pure d.next.toNat

-- `virtqueue_next_desc` reads descriptor `i` once, and returns `max` at the end of the chain or
-- a next index below `max`, or exits.
theorem virtqueue_next_desc_spec (mem : GuestMem) (desc_pa : UInt64) (i max : Nat)
    (log : List DescRead) :
    Holds (fun n s => s = ⟨i, max⟩ :: log ∧ n ≤ max) (fun e s => s = ⟨i, max⟩ :: log ∧ e ≠ .outOfFuel)
      (virtqueue_next_desc mem desc_pa i max log) := by
  unfold virtqueue_next_desc
  apply holds_bind
  rw [vring_desc_apply, holds_ok]
  split
  · simp
  · split
    · simp
    · simp only [pure_apply, holds_ok, true_and]
      omega

-- What `virtqueue_pop` fills in: `in_num` and `out_num` are the lengths of the lists, and each
-- entry is an `*_addr` with its `iov_len`.
structure VirtQueueElement where
  index : Nat
  in_sg : List (UInt64 × UInt32)
  out_sg : List (UInt64 × UInt32)
deriving DecidableEq, Repr

def count (elem : VirtQueueElement) : Nat := elem.in_sg.length + elem.out_sg.length

-- An element that fits both arrays and a table of `max` descriptors.
def Fits (max : Nat) (elem : VirtQueueElement) : Prop :=
  elem.in_sg.length ≤ VIRTQUEUE_MAX_SIZE ∧ elem.out_sg.length ≤ VIRTQUEUE_MAX_SIZE ∧
    count elem ≤ max

-- The descriptor goes to `in_sg` if the device may write its buffer and to `out_sg`
-- otherwise, each of which holds at most `VIRTQUEUE_MAX_SIZE` entries.
def addDesc (elem : VirtQueueElement) (d : VRingDesc) : VirtM VirtQueueElement :=
  if d.flags &&& VRING_DESC_F_WRITE ≠ 0 then
    if elem.in_sg.length ≥ VIRTQUEUE_MAX_SIZE then throw .tooManyWrite
    else pure { elem with in_sg := elem.in_sg ++ [(d.addr, d.len)] }
  else
    if elem.out_sg.length ≥ VIRTQUEUE_MAX_SIZE then throw .tooManyRead
    else pure { elem with out_sg := elem.out_sg ++ [(d.addr, d.len)] }

theorem addDesc_spec (elem : VirtQueueElement) (d : VRingDesc) (log : List DescRead)
    (hin : elem.in_sg.length ≤ VIRTQUEUE_MAX_SIZE) (hout : elem.out_sg.length ≤ VIRTQUEUE_MAX_SIZE) :
    Holds (fun elem' s => s = log ∧ elem'.in_sg.length ≤ VIRTQUEUE_MAX_SIZE ∧
        elem'.out_sg.length ≤ VIRTQUEUE_MAX_SIZE ∧ count elem' = count elem + 1 ∧
        elem'.index = elem.index)
      (fun e s => s = log ∧ e ≠ .outOfFuel) (addDesc elem d log) := by
  unfold addDesc count
  split
  · split
    · simp
    · simp
      omega
  · split
    · simp
    · simp
      omega

-- The do-while loop of `virtqueue_pop` from descriptor `i`.
def popLoop (mem : GuestMem) (desc_pa : UInt64) (max : Nat) :
    Nat → Nat → VirtQueueElement → VirtM VirtQueueElement
  | 0, _, _ => throw .outOfFuel
  | fuel + 1, i, elem => do
    let d ← vring_desc mem desc_pa i max
    let elem ← addDesc elem d
    if elem.in_sg.length + elem.out_sg.length > max then throw .looped
    else do
      let i ← virtqueue_next_desc mem desc_pa i max
      if i = max then pure elem else popLoop mem desc_pa max fuel i elem

-- `virtqueue_pop`: `none` when the guest has made nothing available. The loop is given one
-- round more than its count check lets it make.
def virtqueue_pop (mem : GuestMem) (vq : VirtQueue) :
    VirtM (Option (VirtQueue × VirtQueueElement)) := do
  let num_heads ← virtqueue_num_heads mem vq vq.last_avail_idx.toNat
  if num_heads = 0 then pure none
  else do
    let head ← virtqueue_get_head mem vq vq.last_avail_idx.toNat
    let vq' := { vq with last_avail_idx := vq.last_avail_idx + 1 }
    let d ← vring_desc mem vq.desc head vq.num
    let (desc_pa, max, i) ←
      if d.flags &&& VRING_DESC_F_INDIRECT ≠ 0 then
        if d.len.toNat % VRING_DESC_SIZE ≠ 0 then throw .indirectSize
        else pure (d.addr, d.len.toNat / VRING_DESC_SIZE, 0)
      else pure (vq.desc, vq.num, head)
    let elem ← popLoop mem desc_pa max (max + 1) i ⟨head, [], []⟩
    pure (some (vq', elem))

-- The do-while loop of `virtqueue_get_avail_bytes` over one chain. It returns `num_bufs`, the
-- two totals, and whether both totals have reached what the caller asked for (`goto done`).
def availLoop (mem : GuestMem) (desc_pa : UInt64) (max : Nat) (max_in_bytes max_out_bytes : UInt32) :
    Nat → Nat → Nat → UInt32 → UInt32 → VirtM (Nat × UInt32 × UInt32 × Bool)
  | 0, _, _, _, _ => throw .outOfFuel
  | fuel + 1, num_bufs, i, in_total, out_total =>
    if num_bufs + 1 > max then throw .looped
    else do
      let d ← vring_desc mem desc_pa i max
      let (in_total, out_total) :=
        if d.flags &&& VRING_DESC_F_WRITE ≠ 0 then (in_total + d.len, out_total)
        else (in_total, out_total + d.len)
      if in_total ≥ max_in_bytes ∧ out_total ≥ max_out_bytes then
        pure (num_bufs + 1, in_total, out_total, true)
      else do
        let i ← virtqueue_next_desc mem desc_pa i max
        if i = max then pure (num_bufs + 1, in_total, out_total, false)
        else
          availLoop mem desc_pa max max_in_bytes max_out_bytes fuel (num_bufs + 1) i
            in_total out_total

-- The while loop of `virtqueue_get_avail_bytes` over the heads from `idx`. `idx` starts below
-- `2 ^ 16` and grows by one a head, so the `unsigned int` never wraps.
def availHeads (mem : GuestMem) (vq : VirtQueue) (max_in_bytes max_out_bytes : UInt32) :
    Nat → Nat → Nat → UInt32 → UInt32 → VirtM (UInt32 × UInt32)
  | 0, _, _, _, _ => throw .outOfFuel
  | fuel + 1, idx, total_bufs, in_total, out_total => do
    let num_heads ← virtqueue_num_heads mem vq idx
    if num_heads = 0 then pure (in_total, out_total)
    else do
      let head ← virtqueue_get_head mem vq idx
      let d ← vring_desc mem vq.desc head vq.num
      let (indirect, desc_pa, max, num_bufs, i) ←
        if d.flags &&& VRING_DESC_F_INDIRECT ≠ 0 then
          if d.len.toNat % VRING_DESC_SIZE ≠ 0 then throw .indirectSize
          else if total_bufs ≥ vq.num then throw .looped
          else do
            -- `num_bufs = i = 0` comes first, so the table's address is read from descriptor 0
            let d0 ← vring_desc mem vq.desc 0 vq.num
            pure (true, d0.addr, d.len.toNat / VRING_DESC_SIZE, 0, 0)
        else pure (false, vq.desc, vq.num, total_bufs, head)
      let (num_bufs, in_total, out_total, done) ←
        availLoop mem desc_pa max max_in_bytes max_out_bytes (max + 1) num_bufs i in_total out_total
      if done then pure (in_total, out_total)
      else
        availHeads mem vq max_in_bytes max_out_bytes fuel (idx + 1)
          (if indirect then total_bufs + 1 else num_bufs) in_total out_total

-- `virtqueue_get_avail_bytes`: the bytes the device may write and read in what the guest has
-- made available. The loop over heads is given one round more than there can be heads.
def virtqueue_get_avail_bytes (mem : GuestMem) (vq : VirtQueue)
    (max_in_bytes max_out_bytes : UInt32) : VirtM (UInt32 × UInt32) :=
  availHeads mem vq max_in_bytes max_out_bytes (2 ^ 16) vq.last_avail_idx.toNat 0 0 0

end Qemu.Virtio

import Mathlib.Data.Nat.Bitwise
import Qemu.Lib.RingQueue
import Qemu.Lib.ByteMem

/-!
The memory ring-buffer character device (`qemu-char.c`). `prod` and `cons` are free-running
`size_t` counters, and a byte lives at `counter & (size - 1)` of `cbuf`. A write that overruns
the reader moves `cons` along, so the device holds the last `size` bytes written and not yet
read: the queue of `RingQueue` with capacity `size`.
-/

namespace Qemu.Char

open ByteMem RingQueue

structure RingBufCharDriver where
  size : UInt64
  prod : UInt64
  cons : UInt64
  cbuf : Nat → UInt8

def ringbuf_count (d : RingBufCharDriver) : UInt64 := d.prod - d.cons

-- d->cbuf[d->prod++ & (d->size - 1)] = buf[i], and cons pushed along on an overrun.
def ringbufPutByte (d : RingBufCharDriver) (b : UInt8) : RingBufCharDriver :=
  let prod := d.prod + 1
  { d with
    cbuf := Function.update d.cbuf (d.prod &&& (d.size - 1)).toNat b
    prod := prod
    cons := if prod - d.cons > d.size then prod - d.size else d.cons }

-- The caller's buffer is a memory, of which buf[0, len) is written.
def ringbuf_chr_write (d : RingBufCharDriver) (buf : Mem) (len : Int) : Int × RingBufCharDriver :=
  if len < 0 then (-1, d)
  else (0, ((List.range len.toNat).map buf).foldl ringbufPutByte d)

-- for (i = 0; i < len && d->cons != d->prod; i++) buf[i] = d->cbuf[d->cons++ & (d->size - 1)]
def readLoop : Nat → RingBufCharDriver → List UInt8 × RingBufCharDriver
  | 0, d => ([], d)
  | n + 1, d =>
      if d.cons ≠ d.prod then
        let (bs, d') := readLoop n { d with cons := d.cons + 1 }
        (d.cbuf (d.cons &&& (d.size - 1)).toNat :: bs, d')
      else ([], d)

-- Returns i and the bytes it stored at buf[0, i).
def ringbuf_chr_read (d : RingBufCharDriver) (len : Int) :
    Int × List UInt8 × RingBufCharDriver :=
  let (bs, d) := readLoop len.toNat d
  (bs.length, bs, d)

theorem ringbuf_chr_read_eq (d : RingBufCharDriver) (len : Int) :
    ringbuf_chr_read d len =
      (((readLoop len.toNat d).1.length : Int), (readLoop len.toNat d).1, (readLoop len.toNat d).2) :=
  rfl

def qemu_chr_open_ringbuf (size : UInt64) : Option RingBufCharDriver :=
  let size := if size = 0 then 65536 else size
  if size &&& (size - 1) ≠ 0 then none  -- "size of ringbuf device must be power of two"
  else some ⟨size, 0, 0, fun _ => 0⟩

@[simp] theorem ringbufPutByte_size (d : RingBufCharDriver) (b : UInt8) :
    (ringbufPutByte d b).size = d.size := rfl

@[simp] theorem ringbufPutByte_prod (d : RingBufCharDriver) (b : UInt8) :
    (ringbufPutByte d b).prod = d.prod + 1 := rfl

@[simp] theorem ringbufPutByte_cons (d : RingBufCharDriver) (b : UInt8) :
    (ringbufPutByte d b).cons =
      if d.prod + 1 - d.cons > d.size then d.prod + 1 - d.size else d.cons := rfl

@[simp] theorem ringbufPutByte_cbuf (d : RingBufCharDriver) (b : UInt8) :
    (ringbufPutByte d b).cbuf = Function.update d.cbuf (d.prod &&& (d.size - 1)).toNat b := rfl

/-! ### The slots of a power-of-two ring -/

section Slots

variable {size : UInt64} (hpow : size.toNat.isPowerOfTwo)
include hpow

theorem size_pos : 0 < size.toNat := by
  obtain ⟨k, hk⟩ := hpow
  rw [hk]
  exact Nat.two_pow_pos k

theorem size_exponent_lt : ∃ k, size.toNat = 2 ^ k ∧ k < 64 := by
  obtain ⟨k, hk⟩ := hpow
  refine ⟨k, hk, ?_⟩
  have hlt := UInt64.toNat_lt size
  rw [hk] at hlt
  exact (Nat.pow_lt_pow_iff_right (by omega)).mp hlt

theorem size_dvd : size.toNat ∣ 2 ^ 64 := by
  obtain ⟨k, hk, hlt⟩ := size_exponent_lt hpow
  rw [hk]
  exact Nat.pow_dvd_pow 2 hlt.le

theorem size_le : size.toNat ≤ 2 ^ 63 := by
  obtain ⟨k, hk, hlt⟩ := size_exponent_lt hpow
  rw [hk]
  exact Nat.pow_le_pow_right (by omega) (by omega)

-- The mask picks the counter's slot.
theorem toNat_and_size_sub_one (x : UInt64) :
    (x &&& (size - 1)).toNat = x.toNat % size.toNat := by
  obtain ⟨k, hk⟩ := hpow
  have hone : (1 : UInt64) ≤ size := by
    rw [UInt64.le_iff_toNat_le, UInt64.toNat_one, hk]
    exact Nat.one_le_two_pow
  rw [UInt64.toNat_and, UInt64.toNat_sub_of_le _ _ hone, UInt64.toNat_one, hk,
    Nat.and_two_pow_sub_one_eq_mod]

end Slots

/-! ### The device holds a queue -/

-- The device holds the queue `q`: the counters are `q.length` apart and the bytes of `q` sit
-- at the slots from `cons` on.
structure Refines (d : RingBufCharDriver) (q : List UInt8) : Prop where
  pow : d.size.toNat.isPowerOfTwo
  count : (d.prod - d.cons).toNat = q.length
  le_size : q.length ≤ d.size.toNat
  data : ∀ k (hk : k < q.length), d.cbuf ((d.cons.toNat + k) % d.size.toNat) = q[k]

variable {d : RingBufCharDriver} {q : List UInt8}

theorem Refines.prod_toNat (h : Refines d q) :
    d.prod.toNat = (d.cons.toNat + q.length) % 2 ^ 64 := by
  have hc := UInt64.toNat_lt d.cons
  have hp := UInt64.toNat_lt d.prod
  have hcount := h.count
  rw [UInt64.toNat_sub] at hcount
  omega

theorem Refines.cons_eq_prod_iff (h : Refines d q) : d.cons = d.prod ↔ q = [] := by
  rw [← List.length_eq_zero_iff, ← h.count, ← UInt64.toNat_inj, UInt64.toNat_sub]
  have hc := UInt64.toNat_lt d.cons
  have hp := UInt64.toNat_lt d.prod
  omega

-- The write loop's step: the byte goes to `prod`'s slot, and on an overrun the oldest byte
-- of the queue is dropped with `cons`.
theorem Refines.putByte (h : Refines d q) (b : UInt8) :
    Refines (ringbufPutByte d b) (push d.size.toNat q b) := by
  have hS := size_pos h.pow
  have hdvd := size_dvd h.pow
  have hSle := size_le h.pow
  have hp := h.prod_toNat
  have hn := h.le_size
  have hc := UInt64.toNat_lt d.cons
  have hcount : (d.prod + 1 - d.cons).toNat = q.length + 1 := by
    rw [UInt64.toNat_sub, UInt64.toNat_add, UInt64.toNat_one]
    omega
  have hslot : (d.prod &&& (d.size - 1)).toNat = (d.cons.toNat + q.length) % d.size.toNat := by
    rw [toNat_and_size_sub_one h.pow, hp, Nat.mod_mod_of_dvd _ hdvd]
  by_cases hfull : q.length = d.size.toNat
  · -- Overrun: cons moves on by one and the oldest byte leaves the queue.
    have hgt : d.prod + 1 - d.cons > d.size := by
      rw [GT.gt, UInt64.lt_iff_toNat_lt, hcount]
      omega
    have hcons : (d.prod + 1 - d.size).toNat = (d.cons.toNat + 1) % 2 ^ 64 := by
      rw [UInt64.toNat_sub, UInt64.toNat_add, UInt64.toNat_one]
      omega
    rw [push_of_eq b hfull hS]
    refine ⟨h.pow, ?_, ?_, ?_⟩
    · rw [ringbufPutByte_prod, ringbufPutByte_cons, if_pos hgt, UInt64.toNat_sub, hcons,
        UInt64.toNat_add, UInt64.toNat_one]
      simp only [List.length_append, List.length_tail, List.length_singleton]
      omega
    · simp
      omega
    · intro k hk
      have hlen : (q.tail ++ [b]).length = d.size.toNat := by simp; omega
      rw [ringbufPutByte_cbuf, ringbufPutByte_cons, if_pos hgt, hcons, ringbufPutByte_size,
        mod_add_mod_of_dvd _ _ hdvd, hslot, hfull, Nat.add_mod_right,
        show d.cons.toNat % d.size.toNat = (d.cons.toNat + 0) % d.size.toNat by rw [Nat.add_zero]]
      by_cases hlast : k + 1 < d.size.toNat
      · -- An older byte, one slot further on than before.
        have hne : (d.cons.toNat + (k + 1)) % d.size.toNat ≠ (d.cons.toNat + 0) % d.size.toNat :=
          fun heq => absurd (add_mod_inj hlast hS heq) (Nat.succ_ne_zero k)
        rw [Nat.add_assoc, Nat.add_comm 1 k, Function.update_of_ne hne,
          h.data (k + 1) (by omega), List.getElem_append_left (by simp; omega), List.getElem_tail]
      · -- The byte just written, in the slot the dropped byte left.
        have hk' : k = d.size.toNat - 1 := by rw [hlen] at hk; omega
        rw [show d.cons.toNat + 1 + k = d.cons.toNat + 0 + d.size.toNat by omega,
          Nat.add_mod_right, Function.update_self, List.getElem_append_right (by simp; omega)]
        simp
  · -- Room left: cons stays and the byte joins the end of the queue.
    have hlt : q.length < d.size.toNat := by omega
    have hngt : ¬ d.prod + 1 - d.cons > d.size := by
      rw [GT.gt, UInt64.lt_iff_toNat_lt, hcount]
      omega
    rw [push_of_lt b hlt]
    refine ⟨h.pow, ?_, ?_, ?_⟩
    · rw [ringbufPutByte_prod, ringbufPutByte_cons, if_neg hngt, hcount, List.length_append,
        List.length_singleton]
    · simp
      omega
    · intro k hk
      rw [List.length_append, List.length_singleton] at hk
      rw [ringbufPutByte_cbuf, ringbufPutByte_cons, if_neg hngt, ringbufPutByte_size, hslot]
      by_cases hold : k < q.length
      · have hne : (d.cons.toNat + k) % d.size.toNat ≠ (d.cons.toNat + q.length) % d.size.toNat :=
          fun heq => absurd (add_mod_inj (by omega) hlt heq) (by omega)
        rw [Function.update_of_ne hne, h.data k hold, List.getElem_append_left hold]
      · have hk' : k = q.length := by omega
        subst hk'
        rw [Function.update_self, List.getElem_append_right (le_refl _)]
        simp

theorem Refines.putBytes (h : Refines d q) (bs : List UInt8) :
    Refines (bs.foldl ringbufPutByte d) (pushAll d.size.toNat q bs) := by
  induction bs generalizing d q with
  | nil => exact h
  | cons b bs ih =>
      rw [List.foldl_cons, pushAll, List.foldl_cons, ← pushAll]
      have := ih (h.putByte b)
      rwa [ringbufPutByte_size] at this

-- The read loop's step: the byte at `cons`'s slot is the oldest of the queue.
theorem Refines.getByte (h : Refines d q) {a : UInt8} {q' : List UInt8} (hq : q = a :: q') :
    d.cons ≠ d.prod ∧ d.cbuf (d.cons &&& (d.size - 1)).toNat = a ∧
      Refines { d with cons := d.cons + 1 } q' := by
  subst hq
  have hdvd := size_dvd h.pow
  have hc := UInt64.toNat_lt d.cons
  have hp := UInt64.toNat_lt d.prod
  refine ⟨fun heq => List.cons_ne_nil a q' (h.cons_eq_prod_iff.mp heq), ?_, ⟨h.pow, ?_, ?_, ?_⟩⟩
  · rw [toNat_and_size_sub_one h.pow, ← Nat.add_zero d.cons.toNat, h.data 0 (by simp)]
    rfl
  · have hcount := h.count
    rw [UInt64.toNat_sub] at hcount ⊢
    rw [UInt64.toNat_add, UInt64.toNat_one]
    simp only [List.length_cons] at hcount ⊢
    omega
  · have := h.le_size
    simp only [List.length_cons] at this
    exact Nat.le_of_succ_le this
  · intro k hk
    dsimp only
    rw [UInt64.toNat_add, UInt64.toNat_one, mod_add_mod_of_dvd _ _ hdvd,
      show d.cons.toNat + 1 + k = d.cons.toNat + (k + 1) by omega, h.data (k + 1) (by simp; omega)]
    rfl

theorem readLoop_refines (n : Nat) (h : Refines d q) :
    (readLoop n d).1 = q.take n ∧ Refines (readLoop n d).2 (q.drop n) := by
  induction n generalizing d q with
  | zero => exact ⟨rfl, h⟩
  | succ n ih =>
      cases q with
      | nil =>
          have hcp : d.cons = d.prod := h.cons_eq_prod_iff.mpr rfl
          rw [readLoop, if_neg (not_not.mpr hcp)]
          exact ⟨rfl, h⟩
      | cons a q' =>
          obtain ⟨hne, hbyte, h'⟩ := h.getByte rfl
          obtain ⟨hbytes, hrest⟩ := ih h'
          rw [readLoop, if_pos hne]
          generalize readLoop n { d with cons := d.cons + 1 } = r at hbytes hrest
          obtain ⟨bs, d'⟩ := r
          exact ⟨by rw [List.take_succ_cons, ← hbytes, ← hbyte], hrest⟩

/-! ### Runs of calls -/

inductive RingBufOp
  | write (buf : Mem) (len : Int)
  | read (len : Int)
  | count

-- One call, with what the caller sees: the value returned and the bytes read.
def ringbufStep (d : RingBufCharDriver) : RingBufOp → (Int × List UInt8) × RingBufCharDriver
  | .write buf len => (((ringbuf_chr_write d buf len).1, []), (ringbuf_chr_write d buf len).2)
  | .read len => (((ringbuf_chr_read d len).1, (ringbuf_chr_read d len).2.1),
      (ringbuf_chr_read d len).2.2)
  | .count => (((ringbuf_count d).toNat, []), d)

def ringbufRun (d : RingBufCharDriver) : List RingBufOp → List (Int × List UInt8) × RingBufCharDriver
  | [] => ([], d)
  | op :: ops => ((ringbufStep d op).1 :: (ringbufRun (ringbufStep d op).2 ops).1,
      (ringbufRun (ringbufStep d op).2 ops).2)

-- What the device is for: a queue of at most `size` bytes, to which a write appends its bytes
-- dropping the oldest, from which a read takes the oldest `len`, and whose length is the count.
def queueStep (size : Nat) (q : List UInt8) : RingBufOp → (Int × List UInt8) × List UInt8
  | .write buf len =>
      if len < 0 then ((-1, []), q) else ((0, []), pushAll size q ((List.range len.toNat).map buf))
  | .read len => (((min len.toNat q.length : Nat), q.take len.toNat), q.drop len.toNat)
  | .count => ((q.length, []), q)

def queueRun (size : Nat) (q : List UInt8) : List RingBufOp → List (Int × List UInt8) × List UInt8
  | [] => ([], q)
  | op :: ops => ((queueStep size q op).1 :: (queueRun size (queueStep size q op).2 ops).1,
      (queueRun size (queueStep size q op).2 ops).2)

theorem foldl_putByte_size (bs : List UInt8) (d : RingBufCharDriver) :
    (bs.foldl ringbufPutByte d).size = d.size := by
  induction bs generalizing d with
  | nil => rfl
  | cons b bs ih => rw [List.foldl_cons, ih, ringbufPutByte_size]

theorem readLoop_size (n : Nat) (d : RingBufCharDriver) : (readLoop n d).2.size = d.size := by
  induction n generalizing d with
  | zero => rfl
  | succ n ih =>
      rw [readLoop]
      split
      · exact ih _
      · rfl

@[simp] theorem ringbufStep_size (d : RingBufCharDriver) (op : RingBufOp) :
    (ringbufStep d op).2.size = d.size := by
  cases op with
  | write buf len =>
      simp only [ringbufStep, ringbuf_chr_write]
      split
      · rfl
      · exact foldl_putByte_size _ d
  | read len => exact readLoop_size len.toNat d
  | count => rfl

theorem Refines.step (h : Refines d q) (op : RingBufOp) :
    (ringbufStep d op).1 = (queueStep d.size.toNat q op).1 ∧
      Refines (ringbufStep d op).2 (queueStep d.size.toNat q op).2 := by
  cases op with
  | write buf len =>
      by_cases hlen : len < 0
      · simp only [ringbufStep, queueStep, ringbuf_chr_write, if_pos hlen, true_and]
        exact h
      · simp only [ringbufStep, queueStep, ringbuf_chr_write, if_neg hlen, true_and]
        exact h.putBytes _
  | read len =>
      obtain ⟨hbytes, hrest⟩ := readLoop_refines len.toNat h
      rw [ringbufStep, queueStep, ringbuf_chr_read_eq, hbytes, List.length_take]
      exact ⟨rfl, hrest⟩
  | count =>
      exact ⟨by rw [ringbufStep, queueStep, ringbuf_count, h.count], h⟩

theorem ringbufRun_size (d : RingBufCharDriver) (ops : List RingBufOp) :
    (ringbufRun d ops).2.size = d.size := by
  induction ops generalizing d with
  | nil => rfl
  | cons op ops ih => rw [ringbufRun, ih, ringbufStep_size]

theorem Refines.run (h : Refines d q) (ops : List RingBufOp) :
    (ringbufRun d ops).1 = (queueRun d.size.toNat q ops).1 ∧
      Refines (ringbufRun d ops).2 (queueRun d.size.toNat q ops).2 := by
  induction ops generalizing d q with
  | nil => exact ⟨rfl, h⟩
  | cons op ops ih =>
      obtain ⟨hout, hstep⟩ := h.step op
      have hrun := ih hstep
      rw [ringbufStep_size] at hrun
      exact ⟨by rw [ringbufRun, queueRun, hout, hrun.1], hrun.2⟩

-- Every power-of-two size passes the check of qemu_chr_open_ringbuf.
theorem qemu_chr_open_ringbuf_of_pow {size : UInt64} (hpow : size.toNat.isPowerOfTwo) :
    qemu_chr_open_ringbuf size = some ⟨size, 0, 0, fun _ => 0⟩ := by
  have hne : size ≠ 0 := fun h0 => by
    have := size_pos hpow
    rw [h0, UInt64.toNat_zero] at this
    omega
  have hand : size &&& (size - 1) = 0 := by
    rw [← UInt64.toNat_inj, toNat_and_size_sub_one hpow, Nat.mod_self, UInt64.toNat_zero]
  rw [qemu_chr_open_ringbuf, if_neg hne, if_neg (not_not.mpr hand)]

theorem refines_open {size : UInt64} (hpow : size.toNat.isPowerOfTwo) :
    Refines ⟨size, 0, 0, fun _ => 0⟩ [] :=
  ⟨hpow, by simp, Nat.zero_le _, fun _ hk => absurd hk (Nat.not_lt_zero _)⟩

-- A ring buffer opened with any power-of-two size answers every sequence of writes, reads and
-- counts as the queue of its last `size` unread bytes does, and its counters stay at most `size`
-- apart.
theorem ringbuf_queue (size : UInt64) (hpow : size.toNat.isPowerOfTwo) :
    ∃ d, qemu_chr_open_ringbuf size = some d ∧ d.size = size ∧
      ∀ ops, (ringbufRun d ops).1 = (queueRun size.toNat [] ops).1 ∧
        (ringbuf_count (ringbufRun d ops).2).toNat = (queueRun size.toNat [] ops).2.length ∧
        (queueRun size.toNat [] ops).2.length ≤ size.toNat := by
  refine ⟨_, qemu_chr_open_ringbuf_of_pow hpow, rfl, fun ops => ?_⟩
  obtain ⟨hout, hrefines⟩ := (refines_open hpow).run ops
  have hle := hrefines.le_size
  rw [ringbufRun_size] at hle
  exact ⟨hout, hrefines.count, hle⟩

theorem ringbuf_queue_four :
    (4 : UInt64).toNat.isPowerOfTwo ∧
      ∃ d, qemu_chr_open_ringbuf 4 = some d ∧ d.size = 4 ∧
        ∀ ops, (ringbufRun d ops).1 = (queueRun (4 : UInt64).toNat [] ops).1 ∧
          (ringbuf_count (ringbufRun d ops).2).toNat = (queueRun (4 : UInt64).toNat [] ops).2.length ∧
          (queueRun (4 : UInt64).toNat [] ops).2.length ≤ (4 : UInt64).toNat :=
  ⟨⟨2, rfl⟩, ringbuf_queue 4 ⟨2, rfl⟩⟩

-- Six bytes written to a ring of four: a read of ten gets the last four.
example : (ringbufRun ⟨4, 0, 0, fun _ => 0⟩
    [.write (fun a => UInt8.ofNat a) 6, .read 10, .count]).1 = [(0, []), (4, [2, 3, 4, 5]), (0, [])] := by
  decide

end Qemu.Char

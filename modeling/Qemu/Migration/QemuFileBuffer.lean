import Qemu.Lib.ByteMem
import Qemu.Migration.QemuFile

/-!
The buffered `QEMUFile` of `savevm.c`: the window `buf` of `IO_BUF_SIZE` bytes between the code
that reads or writes a migration stream and the backend (`QEMUFileOps`) that carries it. The
backend is its state (the `opaque` pointer) with its two calls; `get_buffer` returns its `int` and the bytes it
stored at `buf + pending`. Sizes and indices are natural numbers: in read mode `buf_index` never
passes `buf_size`, so the `int` differences of the source are never negative. `none` stands where
QEMU calls `abort()`, or where `qemu_put_buffer` spins on a full window that no `put_buffer`
drains.

A reader sees the stream through this window; `Qemu.Migration.QEMUFile` is the stream itself.
Writes and the `qemu_get_*` calls go through the window unchanged whatever sizes the backend
hands its bytes over in, but a peek fills the window once only: with a backend that hands over
short chunks, `qemu_peek_byte(f, 1)` reads 0 where the stream has a byte.
-/

namespace Qemu.Migration.Buffered

open ByteMem

def IO_BUF_SIZE : Nat := 32768

def EAGAIN : Int := 11

theorem IO_BUF_SIZE_pos : 0 < IO_BUF_SIZE := by decide

-- `put_buffer(opaque, buf, pos, size)` and `get_buffer(opaque, buf, pos, size)`; the NULL ones
-- are `none`.
structure QEMUFileOps (σ : Type) where
  put_buffer : Option (σ → List UInt8 → Nat → σ × Int)
  get_buffer : Option (σ → Nat → Nat → σ × Int × List UInt8)

-- `opaque`, a keyword in Lean, is `backend`.
structure QEMUFile (σ : Type) where
  ops : QEMUFileOps σ
  backend : σ
  is_write : Bool
  buf_offset : Nat
  buf_index : Nat
  buf_size : Nat
  buf : Mem
  last_error : Int

variable {σ : Type}

-- `g_malloc0`: every field zero.
def qemu_fopen_ops (backend : σ) (ops : QEMUFileOps σ) : QEMUFile σ :=
  ⟨ops, backend, false, 0, 0, 0, fun _ => 0, 0⟩

def qemu_file_set_error (f : QEMUFile σ) (ret : Int) : QEMUFile σ :=
  if f.last_error = 0 then { f with last_error := ret } else f

def qemu_ftell (f : QEMUFile σ) : Int :=
  if f.is_write then f.buf_offset + f.buf_index
  else (f.buf_offset : Int) - f.buf_size + f.buf_index

def qemu_fflush (f : QEMUFile σ) : QEMUFile σ × Int :=
  match f.ops.put_buffer with
  | none => (f, 0)
  | some put_buffer =>
      if f.is_write = true ∧ f.buf_index > 0 then
        let (backend, ret) := put_buffer f.backend (read f.buf 0 f.buf_index) f.buf_offset
        ({ f with
            backend := backend
            buf_offset := if ret ≥ 0 then f.buf_offset + f.buf_index else f.buf_offset
            buf_index := 0 }, ret)
      else (f, 0)

def qemu_fill_buffer (f : QEMUFile σ) : Option (QEMUFile σ) :=
  match f.ops.get_buffer with
  | none => some f
  | some get_buffer =>
      if f.is_write then none
      else
        let pending := f.buf_size - f.buf_index
        -- `memmove(f->buf, f->buf + f->buf_index, pending)`
        let buf := if pending > 0 then write f.buf 0 (read f.buf f.buf_index pending) else f.buf
        let (backend, len, bytes) := get_buffer f.backend f.buf_offset (IO_BUF_SIZE - pending)
        let f := { f with
          backend := backend, buf := write buf pending bytes, buf_index := 0, buf_size := pending }
        some (if len > 0 then
            { f with buf_size := f.buf_size + len.toNat, buf_offset := f.buf_offset + len.toNat }
          else if len = 0 then qemu_file_set_error f (- EIO)
          else if len ≠ -EAGAIN then qemu_file_set_error f len
          else f)

/-! ### Writing -/

-- The `while (size > 0)` loop of `qemu_put_buffer` over the bytes still to copy.
def putBufferLoop (f : QEMUFile σ) (buf : List UInt8) : Option (QEMUFile σ) :=
  if buf.length = 0 then some f
  else
    let l := min (IO_BUF_SIZE - f.buf_index) buf.length
    let f1 := { f with
      buf := write f.buf f.buf_index (buf.take l), is_write := true, buf_index := f.buf_index + l }
    if f1.buf_index ≥ IO_BUF_SIZE then
      let (f2, ret) := qemu_fflush f1
      if ret < 0 then some (qemu_file_set_error f2 ret)
      else if f2.buf_index ≥ IO_BUF_SIZE ∧ (buf.drop l).length > 0 then none
      else putBufferLoop f2 (buf.drop l)
    else putBufferLoop f1 (buf.drop l)
termination_by 2 * buf.length + if f.buf_index ≥ IO_BUF_SIZE then 1 else 0
decreasing_by
  all_goals
    have h1 : f1.buf_index = f.buf_index + min (IO_BUF_SIZE - f.buf_index) buf.length := rfl
    simp only [List.length_drop] at *
    split_ifs <;> omega

def qemu_put_buffer (f : QEMUFile σ) (buf : List UInt8) : Option (QEMUFile σ) :=
  if f.last_error ≠ 0 then some f
  else if f.is_write = false ∧ f.buf_index > 0 then none
  else putBufferLoop f buf

def qemu_put_byte (f : QEMUFile σ) (v : Nat) : Option (QEMUFile σ) :=
  if f.last_error ≠ 0 then some f
  else if f.is_write = false ∧ f.buf_index > 0 then none
  else
    let f := { f with
      buf := write f.buf f.buf_index [UInt8.ofNat v], buf_index := f.buf_index + 1, is_write := true }
    if f.buf_index ≥ IO_BUF_SIZE then
      let (f, ret) := qemu_fflush f
      some (if ret < 0 then qemu_file_set_error f ret else f)
    else some f

def qemu_put_be16 (f : QEMUFile σ) (v : Nat) : Option (QEMUFile σ) := do
  let f ← qemu_put_byte f (v >>> 8)
  qemu_put_byte f v

def qemu_put_be32 (f : QEMUFile σ) (v : Nat) : Option (QEMUFile σ) := do
  let f ← qemu_put_byte f (v >>> 24)
  let f ← qemu_put_byte f (v >>> 16)
  let f ← qemu_put_byte f (v >>> 8)
  qemu_put_byte f v

def qemu_put_be64 (f : QEMUFile σ) (v : Nat) : Option (QEMUFile σ) := do
  let f ← qemu_put_be32 f (v >>> 32)
  qemu_put_be32 f v

/-! ### Reading -/

def qemu_file_skip (f : QEMUFile σ) (size : Nat) : QEMUFile σ :=
  if f.buf_index + size ≤ f.buf_size then { f with buf_index := f.buf_index + size } else f

-- `static int qemu_peek_buffer(QEMUFile *f, uint8_t *buf, int size, size_t offset)`: the bytes
-- it copies to `buf`, as many as it returns.
def qemu_peek_buffer (f : QEMUFile σ) (size offset : Nat) : Option (List UInt8 × QEMUFile σ) :=
  if f.is_write then none
  else
    let refill := if (f.buf_size : Int) - (f.buf_index + offset) < size then qemu_fill_buffer f
      else some f
    match refill with
    | none => none
    | some f =>
        let pending : Int := f.buf_size - (f.buf_index + offset)
        if pending ≤ 0 then some ([], f)
        else some (read f.buf (f.buf_index + offset) (min size pending.toNat), f)

-- The `while (pending > 0)` loop of `qemu_get_buffer`, with the bytes `done` copied so far.
def getBufferLoop (f : QEMUFile σ) (pending : Nat) (done : List UInt8) :
    Option (List UInt8 × QEMUFile σ) :=
  if pending = 0 then some (done, f)
  else
    match qemu_peek_buffer f pending 0 with
    | none => none
    | some (res, f) =>
        if res.length = 0 then some (done, f)
        else getBufferLoop (qemu_file_skip f res.length) (pending - res.length) (done ++ res)
termination_by pending

-- `int qemu_get_buffer(QEMUFile *f, uint8_t *buf, int size)`: the bytes copied to `buf`.
def qemu_get_buffer (f : QEMUFile σ) (size : Nat) : Option (List UInt8 × QEMUFile σ) :=
  getBufferLoop f size []

def qemu_peek_byte (f : QEMUFile σ) (offset : Nat) : Option (UInt8 × QEMUFile σ) :=
  if f.is_write then none
  else if f.buf_index + offset ≥ f.buf_size then
    match qemu_fill_buffer f with
    | none => none
    | some f =>
        if f.buf_index + offset ≥ f.buf_size then some (0, f)
        else some (f.buf (f.buf_index + offset), f)
  else some (f.buf (f.buf_index + offset), f)

def qemu_get_byte (f : QEMUFile σ) : Option (UInt8 × QEMUFile σ) := do
  let (result, f) ← qemu_peek_byte f 0
  return (result, qemu_file_skip f 1)

def qemu_get_be16 (f : QEMUFile σ) : Option (Nat × QEMUFile σ) := do
  let (a, f) ← qemu_get_byte f
  let (b, f) ← qemu_get_byte f
  return (a.toNat <<< 8 ||| b.toNat, f)

def qemu_get_be32 (f : QEMUFile σ) : Option (Nat × QEMUFile σ) := do
  let (a, f) ← qemu_get_byte f
  let (b, f) ← qemu_get_byte f
  let (c, f) ← qemu_get_byte f
  let (d, f) ← qemu_get_byte f
  return (a.toNat <<< 24 ||| b.toNat <<< 16 ||| c.toNat <<< 8 ||| d.toNat, f)

def qemu_get_be64 (f : QEMUFile σ) : Option (Nat × QEMUFile σ) := do
  let (hi, f) ← qemu_get_be32 f
  let (lo, f) ← qemu_get_be32 f
  return (hi <<< 32 ||| lo, f)

theorem qemu_file_set_error_eq (f : QEMUFile σ) (ret : Int) :
    qemu_file_set_error f ret = { f with last_error := if f.last_error = 0 then ret else f.last_error } := by
  unfold qemu_file_set_error
  split_ifs <;> rfl

/-! ### Backends that serve a stream -/

-- A backend that hands over `stream` in chunks of any sizes: each call stores the next bytes of
-- the stream, no more than it is asked for and at least one while any is left and room is given,
-- and returns how many it stored; `served` is how far into the stream it has got.
structure Serves (get_buffer : σ → Nat → Nat → σ × Int × List UInt8) (served : σ → Nat)
    (stream : List UInt8) : Prop where
  len_eq : ∀ s pos size, (get_buffer s pos size).2.1 = (get_buffer s pos size).2.2.length
  bytes_eq : ∀ s pos size,
    (get_buffer s pos size).2.2 = (stream.drop (served s)).take (get_buffer s pos size).2.2.length
  served_eq : ∀ s pos size,
    served (get_buffer s pos size).1 = served s + (get_buffer s pos size).2.2.length
  length_le : ∀ s pos size, (get_buffer s pos size).2.2.length ≤ size
  length_pos : ∀ s pos size, 0 < size → served s < stream.length →
    0 < (get_buffer s pos size).2.2.length

-- What one call of such a backend does.
theorem Serves.call {get_buffer : σ → Nat → Nat → σ × Int × List UInt8} {served : σ → Nat}
    {stream : List UInt8} (hs : Serves get_buffer served stream) (s : σ) (pos size : Nat) :
    ∃ (s' : σ) (n : Nat), get_buffer s pos size = (s', (n : Int), (stream.drop (served s)).take n) ∧
      served s' = served s + n ∧ n ≤ size ∧ n ≤ stream.length - served s ∧
      (0 < size → served s < stream.length → 0 < n) := by
  have hbytes := hs.bytes_eq s pos size
  have hlen := congrArg List.length hbytes
  rw [List.length_take, List.length_drop] at hlen
  have hrest : (get_buffer s pos size).2.2.length ≤ stream.length - served s := by
    rw [hlen]
    exact Nat.min_le_right _ _
  exact ⟨_, _, Prod.ext rfl (Prod.ext (hs.len_eq s pos size) hbytes), hs.served_eq s pos size,
    hs.length_le s pos size, hrest, hs.length_pos s pos size⟩

-- One byte of `stream` a call, as a socket hands over bytes that arrive one at a time.
def oneByteAtATime (stream : List UInt8) (served : Nat) (_pos size : Nat) : Nat × Int × List UInt8 :=
  if served < stream.length ∧ 0 < size then (served + 1, 1, [stream[served]!]) else (served, 0, [])

theorem oneByteAtATime_serves (stream : List UInt8) : Serves (oneByteAtATime stream) id stream := by
  refine ⟨fun s _ size => ?_, fun s _ size => ?_, fun s _ size => ?_, fun s _ size => ?_,
    fun s _ size hsize hs => ?_⟩ <;> unfold oneByteAtATime <;> split_ifs with h
  · rfl
  · rfl
  · show [stream[s]!] = List.take 1 (List.drop s stream)
    rw [List.drop_eq_getElem_cons h.1, getElem!_pos stream s h.1]
    rfl
  · simp
  · rfl
  · rfl
  · simp only [List.length_singleton]
    exact h.2
  · simp
  · simp
  · exact absurd ⟨hs, hsize⟩ h

/-! ### The read window -/

-- Where a reader is in the stream: `qemu_ftell` of a read file.
def readPos (f : QEMUFile σ) : Nat := f.buf_offset - f.buf_size + f.buf_index

-- A read file over a backend that serves `stream`: `buf[0, buf_size)` holds the stream's bytes
-- that end where the backend has got to, `buf_offset`, and the reader is at `buf_index` in them.
structure ReadInv (get_buffer : σ → Nat → Nat → σ × Int × List UInt8) (served : σ → Nat)
    (stream : List UInt8) (f : QEMUFile σ) : Prop where
  ops : f.ops.get_buffer = some get_buffer
  is_write : f.is_write = false
  index_le : f.buf_index ≤ f.buf_size
  size_le : f.buf_size ≤ IO_BUF_SIZE
  size_le_offset : f.buf_size ≤ f.buf_offset
  served : served f.backend = f.buf_offset
  offset_le : f.buf_offset ≤ stream.length
  window : Holds f.buf 0 ((stream.drop (f.buf_offset - f.buf_size)).take f.buf_size)

section Read

variable {get_buffer : σ → Nat → Nat → σ × Int × List UInt8} {served : σ → Nat}
  {stream : List UInt8} {f : QEMUFile σ}

theorem ReadInv.ftell (inv : ReadInv get_buffer served stream f) : qemu_ftell f = readPos f := by
  have := inv.size_le_offset
  simp only [qemu_ftell, inv.is_write, readPos, Bool.false_eq_true, if_false]
  omega

theorem ReadInv.pos_le (inv : ReadInv get_buffer served stream f) : readPos f ≤ stream.length := by
  have := inv.index_le
  have := inv.size_le_offset
  have := inv.offset_le
  unfold readPos
  omega

-- Bytes of the window are the stream's bytes from the window's start.
theorem ReadInv.read_window (inv : ReadInv get_buffer served stream f) {i n : Nat}
    (h : i + n ≤ f.buf_size) :
    read f.buf i n = (stream.drop (f.buf_offset - f.buf_size + i)).take n := by
  have := inv.offset_le
  have := inv.size_le_offset
  have hslice := inv.window.read_slice (i := i) (n := n) (by simp; omega)
  rw [Nat.zero_add] at hslice
  rw [hslice, List.drop_take, List.take_take, List.drop_drop, Nat.min_eq_left (by omega)]

theorem ReadInv.byte_window (inv : ReadInv get_buffer served stream f) {i : Nat}
    (h : i < f.buf_size) : f.buf i = stream[f.buf_offset - f.buf_size + i]! := by
  have := inv.offset_le
  have := inv.size_le_offset
  have hbyte := inv.window i (by simp; omega)
  rw [Nat.zero_add] at hbyte
  rw [hbyte, get_take_drop _ h (by omega)]

theorem ReadInv.set_error (inv : ReadInv get_buffer served stream f) (ret : Int) :
    ReadInv get_buffer served stream (qemu_file_set_error f ret) := by
  rw [qemu_file_set_error_eq]
  exact ⟨inv.ops, inv.is_write, inv.index_le, inv.size_le, inv.size_le_offset, inv.served,
    inv.offset_le, inv.window⟩

theorem ReadInv.skip (inv : ReadInv get_buffer served stream f) {k : Nat}
    (h : f.buf_index + k ≤ f.buf_size) :
    ReadInv get_buffer served stream (qemu_file_skip f k) ∧
      readPos (qemu_file_skip f k) = readPos f + k := by
  rw [qemu_file_skip, if_pos h]
  exact ⟨⟨inv.ops, inv.is_write, h, inv.size_le, inv.size_le_offset, inv.served, inv.offset_le,
    inv.window⟩, by unfold readPos; dsimp only; omega⟩

-- The window's new bytes follow on from the unread ones.
theorem take_append_take_drop {α : Type} (xs : List α) (a k n : Nat) :
    (xs.drop a).take k ++ (xs.drop (a + k)).take n = (xs.drop a).take (k + n) := by
  rw [List.take_add, List.drop_drop]

-- `qemu_fill_buffer` moves the unread bytes to the front and appends what the backend hands over:
-- the reader stays where it was, and one byte at least comes in while the stream has any left
-- and the window has room.
theorem qemu_fill_buffer_spec (hs : Serves get_buffer served stream)
    (inv : ReadInv get_buffer served stream f) :
    ∃ f', qemu_fill_buffer f = some f' ∧ ReadInv get_buffer served stream f' ∧
      f'.buf_index = 0 ∧ readPos f' = readPos f ∧ f.buf_size - f.buf_index ≤ f'.buf_size ∧
      (f.buf_size - f.buf_index < IO_BUF_SIZE → f.buf_offset < stream.length →
        f.buf_size - f.buf_index < f'.buf_size) := by
  have hidx := inv.index_le
  have hsz := inv.size_le
  have hoff := inv.size_le_offset
  have hlen := inv.offset_le
  obtain ⟨s', n, hget, hserved, hn, hend, hpos⟩ :=
    hs.call f.backend f.buf_offset (IO_BUF_SIZE - (f.buf_size - f.buf_index))
  rw [inv.served] at hget hserved hend hpos
  unfold qemu_fill_buffer
  rw [inv.ops]
  dsimp only
  simp only [inv.is_write, Bool.false_eq_true, if_false, hget]
  generalize hpending : f.buf_size - f.buf_index = pending at hn hpos ⊢
  -- the unread bytes, moved to the front, then the new ones
  have hA : read f.buf f.buf_index pending = (stream.drop (f.buf_offset - pending)).take pending := by
    rw [inv.read_window (by omega)]
    congr 2
    omega
  generalize hbuf0 : (if pending > 0 then write f.buf 0 (read f.buf f.buf_index pending)
    else f.buf) = buf0
  have hheld0 : Holds buf0 0 (read f.buf f.buf_index pending) := by
    rw [← hbuf0]
    split_ifs with hp
    · exact holds_write _ _ _
    · rw [show pending = 0 by omega]
      exact fun k hk => absurd hk (Nat.not_lt_zero k)
  have hwin : read f.buf f.buf_index pending ++ (stream.drop f.buf_offset).take n =
      (stream.drop (f.buf_offset + n - (pending + n))).take (pending + n) := by
    rw [hA, show f.buf_offset + n - (pending + n) = f.buf_offset - pending by omega,
      ← take_append_take_drop, Nat.sub_add_cancel (by omega : pending ≤ f.buf_offset)]
  have hheld : Holds (write buf0 pending ((stream.drop f.buf_offset).take n)) 0
      ((stream.drop (f.buf_offset + n - (pending + n))).take (pending + n)) := by
    have h := hheld0.write_append ((stream.drop f.buf_offset).take n)
    rwa [read_length, Nat.zero_add, hwin] at h
  -- the new window, whether or not an error is recorded with it
  have hinv : ∀ f' : QEMUFile σ, f'.ops = f.ops → f'.is_write = false → f'.backend = s' →
      f'.buf = write buf0 pending ((stream.drop f.buf_offset).take n) → f'.buf_index = 0 →
      f'.buf_size = pending + n → f'.buf_offset = f.buf_offset + n →
      ReadInv get_buffer served stream f' ∧ f'.buf_index = 0 ∧ readPos f' = readPos f ∧
        pending ≤ f'.buf_size ∧
        (pending < IO_BUF_SIZE → f.buf_offset < stream.length → pending < f'.buf_size) := by
    intro f' hops hw hb hbuf hi hsize hoffset
    refine ⟨⟨by rw [hops]; exact inv.ops, hw, by omega, by omega, by omega,
      by rw [hb, hserved, hoffset], by omega, by rw [hbuf, hsize, hoffset]; exact hheld⟩, hi, ?_,
      by omega, ?_⟩
    · unfold readPos
      omega
    · intro hroom hleft
      have := hpos (by omega) hleft
      omega
  by_cases hn0 : n = 0
  · -- nothing came in: the end of the stream, recorded as EIO
    subst hn0
    simp only [Nat.cast_zero, lt_self_iff_false, if_false, if_true]
    refine ⟨_, rfl, ?_⟩
    obtain ⟨hi, h0, hp, hle, hgrow⟩ := hinv { f with
      backend := s', is_write := false, buf := write buf0 pending ((stream.drop f.buf_offset).take 0),
      buf_index := 0, buf_size := pending } rfl rfl rfl rfl rfl rfl rfl
    refine ⟨hi.set_error _, ?_, ?_, ?_, ?_⟩ <;> rw [qemu_file_set_error_eq] <;> assumption
  · have hlt : (0 : Int) < n := by omega
    simp only [hlt, if_true, Int.toNat_natCast]
    exact ⟨_, rfl, hinv _ rfl rfl rfl rfl rfl rfl rfl⟩

-- Before a peek reads the window it fills it once if too few bytes are there; afterwards, a
-- reader short of the stream's end has a byte in the window at `buf_index`.
theorem peek_refill (hs : Serves get_buffer served stream)
    (inv : ReadInv get_buffer served stream f) (size offset : Nat) :
    ∃ g, (if (f.buf_size : Int) - (f.buf_index + offset) < size then qemu_fill_buffer f
        else some f) = some g ∧
      ReadInv get_buffer served stream g ∧ readPos g = readPos f ∧
      (offset = 0 → 0 < size → readPos f < stream.length → g.buf_index < g.buf_size) := by
  have := inv.index_le
  have := inv.size_le_offset
  split_ifs with hless
  · obtain ⟨g, hfill, invg, hi, hp, hge, hgrow⟩ := qemu_fill_buffer_spec hs inv
    refine ⟨g, hfill, invg, hp, fun _ _ hleft => ?_⟩
    unfold readPos at hleft
    -- an empty window gets a byte from the backend; a full one keeps its bytes
    by_cases hfull : f.buf_size - f.buf_index < IO_BUF_SIZE
    · by_cases hempty : f.buf_size - f.buf_index = 0
      · have := hgrow hfull (by omega)
        omega
      · omega
    · unfold IO_BUF_SIZE at hfull
      omega
  · exact ⟨f, rfl, inv, rfl, fun h0 hsize _ => by subst h0; omega⟩

-- `qemu_peek_buffer` copies a prefix of the stream from the reader's position plus `offset`,
-- no longer than `size`, and moves nobody; with `offset = 0` it copies one byte at least while
-- the stream has any left.
theorem qemu_peek_buffer_spec (hs : Serves get_buffer served stream)
    (inv : ReadInv get_buffer served stream f) (size offset : Nat) :
    ∃ bytes f', qemu_peek_buffer f size offset = some (bytes, f') ∧
      ReadInv get_buffer served stream f' ∧ readPos f' = readPos f ∧
      bytes = (stream.drop (readPos f + offset)).take bytes.length ∧ bytes.length ≤ size ∧
      (0 < bytes.length → f'.buf_index + offset + bytes.length ≤ f'.buf_size) ∧
      (offset = 0 → 0 < size → readPos f < stream.length → 0 < bytes.length) := by
  obtain ⟨g, hg, invg, hpos, hprog⟩ := peek_refill hs inv size offset
  have := invg.index_le
  unfold qemu_peek_buffer
  simp only [inv.is_write, Bool.false_eq_true, if_false]
  rw [hg]
  dsimp only
  split_ifs with hnone
  · -- nothing buffered at `offset`
    refine ⟨[], g, rfl, invg, hpos, by simp, by simp, by simp, fun h0 hsize hleft => ?_⟩
    have := hprog h0 hsize hleft
    omega
  · have hmin := Nat.min_le_left size ((g.buf_size : Int) - (g.buf_index + offset)).toNat
    have hmin' := Nat.min_le_right size ((g.buf_size : Int) - (g.buf_index + offset)).toNat
    refine ⟨_, g, rfl, invg, hpos, ?_, by rw [read_length]; exact hmin,
      fun _ => by rw [read_length]; omega, fun _ hsize _ => ?_⟩
    · rw [read_length, invg.read_window (by omega), ← hpos]
      unfold readPos
      congr 2
      omega
    · rw [read_length]
      exact Nat.lt_min.mpr ⟨hsize, by omega⟩

-- The loop of `qemu_get_buffer` copies the stream's next `pending` bytes, or those left.
theorem getBufferLoop_spec (hs : Serves get_buffer served stream) (pending : Nat) :
    ∀ (f : QEMUFile σ) (done : List UInt8), ReadInv get_buffer served stream f →
      ∃ f', getBufferLoop f pending done =
          some (done ++ (stream.drop (readPos f)).take pending, f') ∧
        ReadInv get_buffer served stream f' ∧
        readPos f' = readPos f + ((stream.drop (readPos f)).take pending).length := by
  induction pending using Nat.strong_induction_on with
  | _ pending ih =>
      intro f done inv
      rw [getBufferLoop]
      by_cases hp : pending = 0
      · subst hp
        exact ⟨f, by simp, inv, by simp⟩
      rw [if_neg hp]
      obtain ⟨bytes, f1, hpeek, inv1, hpos1, hbytes, hle, hfit, hprog⟩ :=
        qemu_peek_buffer_spec hs inv pending 0
      rw [hpeek]
      dsimp only
      rw [Nat.add_zero] at hbytes
      by_cases hb : bytes.length = 0
      · -- the stream has ended: nothing is left to copy
        rw [if_pos hb]
        have hend : stream.length ≤ readPos f := by
          by_contra hlt
          have := hprog rfl (by omega) (by omega)
          omega
        have hnil : (stream.drop (readPos f)).take pending = [] := by simp [hend]
        exact ⟨f1, by rw [hnil, List.append_nil], inv1, by rw [hpos1, hnil, List.length_nil]; rfl⟩
      · rw [if_neg hb]
        obtain ⟨inv2, hpos2⟩ := inv1.skip (k := bytes.length) (by have := hfit (by omega); omega)
        obtain ⟨f', hrun, inv', hpos'⟩ :=
          ih (pending - bytes.length) (by omega) _ (done ++ bytes) inv2
        -- the bytes peeked, then the rest from where they end
        have hsplit : bytes ++ (stream.drop (readPos f + bytes.length)).take (pending - bytes.length) =
            (stream.drop (readPos f)).take pending := by
          have h := take_append_take_drop stream (readPos f) bytes.length (pending - bytes.length)
          rwa [Nat.add_sub_cancel' hle, ← hbytes] at h
        refine ⟨f', by rw [hrun, hpos2, hpos1, List.append_assoc, hsplit], inv', ?_⟩
        rw [hpos', hpos2, hpos1, ← hsplit, List.length_append, Nat.add_assoc]

theorem qemu_get_buffer_spec (hs : Serves get_buffer served stream)
    (inv : ReadInv get_buffer served stream f) (size : Nat) :
    ∃ f', qemu_get_buffer f size = some ((stream.drop (readPos f)).take size, f') ∧
      ReadInv get_buffer served stream f' ∧
      readPos f' = readPos f + ((stream.drop (readPos f)).take size).length := by
  obtain ⟨f', h, inv', hpos⟩ := getBufferLoop_spec hs size f [] inv
  exact ⟨f', by rw [qemu_get_buffer, h, List.nil_append], inv', hpos⟩

-- `qemu_peek_byte` reads the window at `offset` after filling it once if needed, and 0 when
-- the byte is still not there.
theorem qemu_peek_byte_spec (hs : Serves get_buffer served stream)
    (inv : ReadInv get_buffer served stream f) (offset : Nat) :
    ∃ b f', qemu_peek_byte f offset = some (b, f') ∧ ReadInv get_buffer served stream f' ∧
      readPos f' = readPos f ∧
      (f'.buf_index + offset < f'.buf_size → b = stream[readPos f + offset]!) ∧
      (f'.buf_size ≤ f'.buf_index + offset → b = 0) ∧
      (offset = 0 → readPos f < stream.length → f'.buf_index < f'.buf_size) := by
  -- the byte at `offset` of the window is the stream's at the reader's position plus `offset`
  have hbyte : ∀ g : QEMUFile σ, ReadInv get_buffer served stream g → readPos g = readPos f →
      g.buf_index + offset < g.buf_size → g.buf (g.buf_index + offset) = stream[readPos f + offset]! :=
    fun g invg hpos hlt => by
      rw [invg.byte_window hlt, ← hpos]
      unfold readPos
      congr 1
      omega
  unfold qemu_peek_byte
  simp only [inv.is_write, Bool.false_eq_true, if_false]
  split_ifs with hout
  · obtain ⟨g, hfill, invg, hi, hp, hge, hgrow⟩ := qemu_fill_buffer_spec hs inv
    rw [hfill]
    dsimp only
    have := inv.index_le
    have := inv.size_le_offset
    split_ifs with hout'
    · refine ⟨0, g, rfl, invg, hp, fun h => absurd h (by omega), fun _ => rfl, fun h0 hleft => ?_⟩
      -- an empty window gets a byte from the backend
      subst h0
      unfold readPos at hleft
      have := hgrow (by unfold IO_BUF_SIZE; omega) (by omega)
      omega
    · exact ⟨_, g, rfl, invg, hp, fun h => hbyte g invg hp h, fun h => absurd h (by omega),
        fun _ _ => by omega⟩
  · exact ⟨_, f, rfl, inv, rfl, fun h => hbyte f inv rfl h, fun h => absurd h (by omega),
      fun _ _ => by omega⟩

-- A backend that hands over the subsection header `QEMU_VM_SUBSECTION, 3, "abc"` one byte a
-- call. On a new file `qemu_peek_byte(f, 1)` reads 0, not 3. The peeks of
-- `vmstate_subsection_load` read 5 and 3, and then `qemu_peek_buffer(f, idstr, 3, 2)` returns one
-- byte of the three, so the subsection is taken to be absent.
theorem qemu_peek_short_chunks :
    (qemu_peek_byte (qemu_fopen_ops 0 ⟨none, some (oneByteAtATime [5, 3, 0x61, 0x62, 0x63])⟩) 1).map
        Prod.fst = some 0 ∧
      ((qemu_peek_byte (qemu_fopen_ops 0 ⟨none, some (oneByteAtATime [5, 3, 0x61, 0x62, 0x63])⟩)
          0).bind fun p => (qemu_peek_byte p.2 1).bind fun q =>
            (qemu_peek_buffer q.2 3 2).map fun r => (p.1, q.1, r.1)) = some (5, 3, [0x61]) := by
  decide +kernel

-- `qemu_get_byte` reads the stream's next byte, 0 at its end, and moves past it.
theorem qemu_get_byte_spec (hs : Serves get_buffer served stream)
    (inv : ReadInv get_buffer served stream f) :
    ∃ f', qemu_get_byte f = some (stream[readPos f]!, f') ∧ ReadInv get_buffer served stream f' ∧
      readPos f' = min (readPos f + 1) stream.length := by
  obtain ⟨b, f1, hpeek, inv1, hpos1, hin, hout, hprog⟩ := qemu_peek_byte_spec hs inv 0
  have := inv1.index_le
  have := inv1.size_le_offset
  have := inv1.offset_le
  simp only [qemu_get_byte, hpeek, Nat.add_zero] at hin hout ⊢
  by_cases hlt : f1.buf_index < f1.buf_size
  · -- a byte in the window, so before the stream's end
    obtain ⟨inv2, hpos2⟩ := inv1.skip (k := 1) hlt
    have hlen : readPos f < stream.length := by
      rw [← hpos1]
      unfold readPos
      omega
    exact ⟨_, by rw [hin hlt]; rfl, inv2, by omega⟩
  · have hend : stream.length ≤ readPos f := by
      by_contra h
      exact hlt (hprog rfl (by omega))
    have hnone : stream[readPos f]! = 0 := by
      rw [List.getElem!_eq_getElem?_getD, List.getElem?_eq_none hend]
      rfl
    -- nothing to skip at the end of the stream
    have hskip : qemu_file_skip f1 1 = f1 := by
      unfold qemu_file_skip
      rw [if_neg (by omega)]
    refine ⟨qemu_file_skip f1 1, by rw [hout (by omega), hnone]; rfl, by rw [hskip]; exact inv1, ?_⟩
    rw [hskip, hpos1]
    have := inv.pos_le
    omega

end Read

/-! ### The write window -/

-- A backend that takes all it is given: a call at the offset where the bytes it has received
-- end appends the bytes to them, returns no error and keeps `ok`, what the backend itself needs.
structure Accepts (put_buffer : σ → List UInt8 → Nat → σ × Int) (received : σ → List UInt8)
    (ok : σ → Prop) : Prop where
  ret_nonneg : ∀ s bytes, ok s → 0 ≤ (put_buffer s bytes (received s).length).2
  received_eq : ∀ s bytes, ok s →
    received (put_buffer s bytes (received s).length).1 = received s ++ bytes
  ok_put : ∀ s bytes, ok s → ok (put_buffer s bytes (received s).length).1

-- A write file over such a backend: `buf_offset` is where the backend's bytes end, a file not
-- written to yet has an empty window, and no error is recorded.
structure Flushable (put_buffer : σ → List UInt8 → Nat → σ × Int) (received : σ → List UInt8)
    (ok : σ → Prop) (f : QEMUFile σ) : Prop where
  ops : f.ops.put_buffer = some put_buffer
  fresh : f.is_write = false → f.buf_index = 0
  offset_eq : f.buf_offset = (received f.backend).length
  ok : ok f.backend
  no_error : f.last_error = 0

-- Between calls the window also has room for one more byte.
structure WriteInv (put_buffer : σ → List UInt8 → Nat → σ × Int) (received : σ → List UInt8)
    (ok : σ → Prop) (f : QEMUFile σ) : Prop extends Flushable put_buffer received ok f where
  index_lt : f.buf_index < IO_BUF_SIZE

-- What has been written to the file: the backend's bytes, then those of the window.
def written (received : σ → List UInt8) (f : QEMUFile σ) : List UInt8 :=
  received f.backend ++ read f.buf 0 f.buf_index

section Write

variable {put_buffer : σ → List UInt8 → Nat → σ × Int} {received : σ → List UInt8}
  {ok : σ → Prop} {f : QEMUFile σ}

theorem qemu_fopen_ops_writeInv (backend : σ)
    (get_buffer : Option (σ → Nat → Nat → σ × Int × List UInt8)) (hok : ok backend)
    (hempty : received backend = []) :
    WriteInv put_buffer received ok (qemu_fopen_ops backend ⟨some put_buffer, get_buffer⟩) ∧
      written received (qemu_fopen_ops backend ⟨some put_buffer, get_buffer⟩) = [] :=
  ⟨⟨⟨rfl, fun _ => rfl, by simp [qemu_fopen_ops, hempty], hok, rfl⟩, IO_BUF_SIZE_pos⟩, by
    simp [written, qemu_fopen_ops, hempty, ByteMem.read]⟩

-- `qemu_fflush` hands the window to the backend at `buf_offset`, where its bytes end: nothing
-- written is lost, and the window is empty afterwards.
theorem qemu_fflush_spec (ha : Accepts put_buffer received ok)
    (inv : Flushable put_buffer received ok f) :
    ∃ f' ret, qemu_fflush f = (f', ret) ∧ 0 ≤ ret ∧ WriteInv put_buffer received ok f' ∧
      f'.buf_index = 0 ∧ written received f' = written received f := by
  unfold qemu_fflush
  rw [inv.ops]
  dsimp only
  by_cases hflush : f.is_write = true ∧ f.buf_index > 0
  · rw [if_pos hflush, inv.offset_eq]
    have hret := ha.ret_nonneg f.backend (read f.buf 0 f.buf_index) inv.ok
    have hrecv := ha.received_eq f.backend (read f.buf 0 f.buf_index) inv.ok
    have hok := ha.ok_put f.backend (read f.buf 0 f.buf_index) inv.ok
    generalize put_buffer f.backend (read f.buf 0 f.buf_index) (received f.backend).length = p
      at hret hrecv hok
    obtain ⟨s', ret⟩ := p
    dsimp only at hret hrecv hok ⊢
    rw [if_pos hret]
    refine ⟨_, _, rfl, hret, ⟨⟨inv.ops, fun _ => rfl, ?_, hok, inv.no_error⟩, IO_BUF_SIZE_pos⟩, rfl,
      ?_⟩
    · rw [hrecv, List.length_append, read_length]
    · simp [written, hrecv, ByteMem.read]
  · -- nothing is in the window, whether the file has been written to or not
    have hzero : f.buf_index = 0 := by
      cases hw : f.is_write
      · exact inv.fresh hw
      · rw [hw] at hflush
        simp only [true_and, gt_iff_lt, Nat.not_lt, Nat.le_zero] at hflush
        exact hflush
    rw [if_neg hflush]
    exact ⟨f, 0, rfl, le_refl 0, ⟨inv, by rw [hzero]; exact IO_BUF_SIZE_pos⟩, hzero, rfl⟩

-- Storing bytes at the end of the window appends them to what has been written.
theorem store_spec (inv : Flushable put_buffer received ok f) (bytes : List UInt8) :
    Flushable put_buffer received ok { f with
      buf := write f.buf f.buf_index bytes, is_write := true,
      buf_index := f.buf_index + bytes.length } ∧
    written received { f with
      buf := write f.buf f.buf_index bytes, is_write := true,
      buf_index := f.buf_index + bytes.length } = written received f ++ bytes :=
  ⟨⟨inv.ops, fun h => Bool.noConfusion h, inv.offset_eq, inv.ok, inv.no_error⟩, by
    simp only [written, read_write_append, List.append_assoc]⟩

theorem qemu_put_byte_spec (ha : Accepts put_buffer received ok)
    (inv : WriteInv put_buffer received ok f) (v : Nat) :
    ∃ f', qemu_put_byte f v = some f' ∧ WriteInv put_buffer received ok f' ∧
      written received f' = written received f ++ [UInt8.ofNat v] := by
  have hidx := inv.index_lt
  obtain ⟨hfl1, hstore⟩ := store_spec inv.toFlushable [UInt8.ofNat v]
  simp only [List.length_singleton] at hfl1 hstore
  unfold qemu_put_byte
  rw [if_neg (by rw [inv.no_error]; exact not_not_intro rfl),
    if_neg (fun h => absurd (inv.fresh h.1) (Nat.pos_iff_ne_zero.mp h.2))]
  dsimp only
  by_cases hfull : f.buf_index + 1 ≥ IO_BUF_SIZE
  · -- the window is full: it goes to the backend
    obtain ⟨f', ret, hflush, hret, inv', -, hw'⟩ := qemu_fflush_spec ha hfl1
    rw [if_pos hfull, hflush]
    dsimp only
    rw [if_neg (not_lt.mpr hret)]
    exact ⟨f', rfl, inv', by rw [hw', hstore]⟩
  · rw [if_neg hfull]
    exact ⟨_, rfl, ⟨hfl1, show f.buf_index + 1 < IO_BUF_SIZE by omega⟩, hstore⟩

-- A round of the copy loop that fills the window hands it to the backend.
theorem putBufferLoop_flush (ha : Accepts put_buffer received ok)
    (inv : WriteInv put_buffer received ok f) (buf : List UInt8) {l : Nat} (hl : l ≤ buf.length)
    {f2 : QEMUFile σ} {ret : Int} (hflush : qemu_fflush { f with
      buf := write f.buf f.buf_index (buf.take l), is_write := true,
      buf_index := f.buf_index + l } = (f2, ret)) :
    0 ≤ ret ∧ WriteInv put_buffer received ok f2 ∧ f2.buf_index = 0 ∧
      written received f2 = written received f ++ buf.take l := by
  obtain ⟨hfl1, hstore⟩ := store_spec inv.toFlushable (buf.take l)
  rw [List.length_take, Nat.min_eq_left hl] at hfl1 hstore
  obtain ⟨f2', ret', hflush', hret, inv2, hidx, hw2⟩ := qemu_fflush_spec ha hfl1
  obtain ⟨rfl, rfl⟩ := Prod.mk.inj (hflush.symm.trans hflush')
  exact ⟨hret, inv2, hidx, by rw [hw2, hstore]⟩

-- The copy loop of `qemu_put_buffer` fills the window, hands it to the backend each time it is
-- full and goes on with the rest; over a backend that takes everything it never spins.
theorem putBufferLoop_spec (ha : Accepts put_buffer received ok) (f : QEMUFile σ)
    (buf : List UInt8) (inv : WriteInv put_buffer received ok f) :
    ∃ f', putBufferLoop f buf = some f' ∧ WriteInv put_buffer received ok f' ∧
      written received f' = written received f ++ buf := by
  fun_induction putBufferLoop f buf with
  | case1 f buf hlen =>
      obtain rfl := List.eq_nil_of_length_eq_zero hlen
      exact ⟨f, rfl, inv, by rw [List.append_nil]⟩
  | case2 f buf _ l f1 _ f2 ret hflush hret =>
      -- the backend returns no error
      have := (putBufferLoop_flush ha inv buf (Nat.min_le_right _ _) hflush).1
      omega
  | case3 f buf _ l f1 _ f2 ret hflush _ hspin =>
      -- the backend empties the window
      have := (putBufferLoop_flush ha inv buf (Nat.min_le_right _ _) hflush).2.2.1
      have := IO_BUF_SIZE_pos
      omega
  | case4 f buf _ l f1 _ f2 ret hflush _ _ ih =>
      obtain ⟨-, inv2, -, hw2⟩ := putBufferLoop_flush ha inv buf (Nat.min_le_right _ _) hflush
      obtain ⟨f', hrun, inv', hw'⟩ := ih inv2
      exact ⟨f', hrun, inv', by rw [hw', hw2, List.append_assoc, List.take_append_drop]⟩
  | case5 f buf _ l f1 hroom ih =>
      obtain ⟨hfl1, hstore⟩ := store_spec inv.toFlushable (buf.take l)
      rw [List.length_take, Nat.min_eq_left (Nat.min_le_right _ _)] at hfl1 hstore
      obtain ⟨f', hrun, inv', hw'⟩ := ih ⟨hfl1, Nat.lt_of_not_le hroom⟩
      exact ⟨f', hrun, inv', by rw [hw', hstore, List.append_assoc, List.take_append_drop]⟩

theorem qemu_put_buffer_spec (ha : Accepts put_buffer received ok)
    (inv : WriteInv put_buffer received ok f) (buf : List UInt8) :
    ∃ f', qemu_put_buffer f buf = some f' ∧ WriteInv put_buffer received ok f' ∧
      written received f' = written received f ++ buf := by
  unfold qemu_put_buffer
  rw [if_neg (by rw [inv.no_error]; exact not_not_intro rfl),
    if_neg (fun h => absurd (inv.fresh h.1) (Nat.pos_iff_ne_zero.mp h.2))]
  exact putBufferLoop_spec ha f buf inv

theorem qemu_put_be16_spec (ha : Accepts put_buffer received ok)
    (inv : WriteInv put_buffer received ok f) (v : Nat) :
    ∃ f', qemu_put_be16 f v = some f' ∧ WriteInv put_buffer received ok f' ∧
      written received f' = written received f ++ be16Bytes v := by
  obtain ⟨f1, h1, inv1, hw1⟩ := qemu_put_byte_spec ha inv (v >>> 8)
  obtain ⟨f2, h2, inv2, hw2⟩ := qemu_put_byte_spec ha inv1 v
  refine ⟨f2, ?_, inv2, by rw [hw2, hw1, List.append_assoc]; rfl⟩
  rw [qemu_put_be16, h1]
  exact h2

theorem qemu_put_be32_spec (ha : Accepts put_buffer received ok)
    (inv : WriteInv put_buffer received ok f) (v : Nat) :
    ∃ f', qemu_put_be32 f v = some f' ∧ WriteInv put_buffer received ok f' ∧
      written received f' = written received f ++ be32Bytes v := by
  obtain ⟨f1, h1, inv1, hw1⟩ := qemu_put_byte_spec ha inv (v >>> 24)
  obtain ⟨f2, h2, inv2, hw2⟩ := qemu_put_byte_spec ha inv1 (v >>> 16)
  obtain ⟨f3, h3, inv3, hw3⟩ := qemu_put_byte_spec ha inv2 (v >>> 8)
  obtain ⟨f4, h4, inv4, hw4⟩ := qemu_put_byte_spec ha inv3 v
  refine ⟨f4, ?_, inv4, by rw [hw4, hw3, hw2, hw1]; simp [be32Bytes]⟩
  rw [qemu_put_be32, h1]
  show (qemu_put_byte f1 (v >>> 16)).bind _ = _
  rw [h2]
  show (qemu_put_byte f2 (v >>> 8)).bind _ = _
  rw [h3]
  exact h4

theorem qemu_put_be64_spec (ha : Accepts put_buffer received ok)
    (inv : WriteInv put_buffer received ok f) (v : Nat) :
    ∃ f', qemu_put_be64 f v = some f' ∧ WriteInv put_buffer received ok f' ∧
      written received f' = written received f ++ be64Bytes v := by
  obtain ⟨f1, h1, inv1, hw1⟩ := qemu_put_be32_spec ha inv (v >>> 32)
  obtain ⟨f2, h2, inv2, hw2⟩ := qemu_put_be32_spec ha inv1 v
  refine ⟨f2, ?_, inv2, by rw [hw2, hw1, List.append_assoc]; rfl⟩
  rw [qemu_put_be64, h1]
  exact h2

end Write

/-! ### Runs of calls, against the stream model -/

-- A call on the buffered file.
def putCall (f : QEMUFile σ) : PutCall → Option (QEMUFile σ)
  | .byte v => qemu_put_byte f v
  | .buffer bs => qemu_put_buffer f bs
  | .be16 v => qemu_put_be16 f v
  | .be32 v => qemu_put_be32 f v
  | .be64 v => qemu_put_be64 f v

def runPuts (f : QEMUFile σ) : List PutCall → Option (QEMUFile σ)
  | [] => some f
  | c :: cs => (putCall f c).bind fun f => runPuts f cs

def getCall (f : QEMUFile σ) : GetCall → Option (Got × QEMUFile σ)
  | .byte => (qemu_get_byte f).map fun (b, f) => (.byte b, f)
  | .buffer size => (qemu_get_buffer f size).map fun (bs, f) => (.bytes bs, f)
  | .be16 => (qemu_get_be16 f).map fun (v, f) => (.num v, f)
  | .be32 => (qemu_get_be32 f).map fun (v, f) => (.num v, f)
  | .be64 => (qemu_get_be64 f).map fun (v, f) => (.num v, f)

def runGets (f : QEMUFile σ) : List GetCall → Option (List Got × QEMUFile σ)
  | [] => some ([], f)
  | c :: cs => (getCall f c).bind fun (r, f) => (runGets f cs).map fun (rs, f) => (r :: rs, f)

section Runs

variable {put_buffer : σ → List UInt8 → Nat → σ × Int} {received : σ → List UInt8}
  {ok : σ → Prop} {get_buffer : σ → Nat → Nat → σ × Int × List UInt8} {served : σ → Nat}
  {stream : List UInt8} {f : QEMUFile σ}

theorem putCall_spec (ha : Accepts put_buffer received ok) (inv : WriteInv put_buffer received ok f)
    (c : PutCall) :
    ∃ f', putCall f c = some f' ∧ WriteInv put_buffer received ok f' ∧
      written received f' = written received f ++ c.bytes := by
  cases c with
  | byte v => exact qemu_put_byte_spec ha inv v
  | buffer bs => exact qemu_put_buffer_spec ha inv bs
  | be16 v => exact qemu_put_be16_spec ha inv v
  | be32 v => exact qemu_put_be32_spec ha inv v
  | be64 v => exact qemu_put_be64_spec ha inv v

-- Every run of put calls goes through the window unchanged: what has been written grows by the
-- bytes the stream model appends for the same calls.
theorem runPuts_refines (ha : Accepts put_buffer received ok) (cs : List PutCall) :
    ∀ f : QEMUFile σ, WriteInv put_buffer received ok f →
      ∃ f', runPuts f cs = some f' ∧ WriteInv put_buffer received ok f' ∧
        written received f' = written received f ++ cs.flatMap PutCall.bytes := by
  induction cs with
  | nil => intro f inv; exact ⟨f, rfl, inv, by simp⟩
  | cons c cs ih =>
      intro f inv
      obtain ⟨f1, h1, inv1, hw1⟩ := putCall_spec ha inv c
      obtain ⟨f2, h2, inv2, hw2⟩ := ih f1 inv1
      refine ⟨f2, by rw [runPuts, h1]; exact h2, inv2, ?_⟩
      rw [hw2, hw1, List.flatMap_cons, List.append_assoc]

-- The buffered reader `f` and the stream model `g` at the same position of `stream`.
structure Tracks (get_buffer : σ → Nat → Nat → σ × Int × List UInt8) (served : σ → Nat)
    (stream : List UInt8) (f : QEMUFile σ) (g : Migration.QEMUFile) : Prop where
  inv : ReadInv get_buffer served stream f
  buf : g.buf = stream
  pos : g.buf_index = readPos f

theorem qemu_get_byte_refines (hs : Serves get_buffer served stream) {g : Migration.QEMUFile}
    (ht : Tracks get_buffer served stream f g) :
    ∃ b f' g', qemu_get_byte f = some (b, f') ∧ Migration.qemu_get_byte g = (b, g') ∧
      Tracks get_buffer served stream f' g' := by
  obtain ⟨f', hget, inv', hpos⟩ := qemu_get_byte_spec hs ht.inv
  obtain ⟨hb, hbuf, hidx⟩ := Migration.qemu_get_byte_eq g (by rw [ht.buf, ht.pos]; exact ht.inv.pos_le)
  refine ⟨(Migration.qemu_get_byte g).1, f', (Migration.qemu_get_byte g).2,
    by rw [hget, hb, ht.buf, ht.pos], rfl, ⟨inv', by rw [hbuf, ht.buf], ?_⟩⟩
  rw [hidx, hpos, ht.buf, ht.pos]

theorem qemu_get_buffer_refines (hs : Serves get_buffer served stream) {g : Migration.QEMUFile}
    (ht : Tracks get_buffer served stream f g) (size : Nat) :
    ∃ bs f' g', qemu_get_buffer f size = some (bs, f') ∧ Migration.qemu_get_buffer g size = (bs, g') ∧
      Tracks get_buffer served stream f' g' := by
  obtain ⟨f', hget, inv', hpos⟩ := qemu_get_buffer_spec hs ht.inv size
  obtain ⟨hbytes, hbuf, hidx⟩ :=
    Migration.qemu_get_buffer_eq g (by rw [ht.buf, ht.pos]; exact ht.inv.pos_le) size
  refine ⟨(Migration.qemu_get_buffer g size).1, f', (Migration.qemu_get_buffer g size).2,
    by rw [hget, hbytes, ht.buf, ht.pos], rfl, ⟨inv', by rw [hbuf, ht.buf], ?_⟩⟩
  rw [hidx, hpos, ht.buf, ht.pos]

theorem qemu_get_be16_refines (hs : Serves get_buffer served stream) {g : Migration.QEMUFile}
    (ht : Tracks get_buffer served stream f g) :
    ∃ v f' g', qemu_get_be16 f = some (v, f') ∧ Migration.qemu_get_be16 g = (v, g') ∧
      Tracks get_buffer served stream f' g' := by
  obtain ⟨a, f1, g1, h1, hm1, ht1⟩ := qemu_get_byte_refines hs ht
  obtain ⟨b, f2, g2, h2, hm2, ht2⟩ := qemu_get_byte_refines hs ht1
  refine ⟨a.toNat <<< 8 ||| b.toNat, f2, g2, ?_, by simp only [Migration.qemu_get_be16, hm1, hm2],
    ht2⟩
  simp only [qemu_get_be16, h1, h2, Option.bind_eq_bind, Option.bind_some]
  rfl

theorem qemu_get_be32_refines (hs : Serves get_buffer served stream) {g : Migration.QEMUFile}
    (ht : Tracks get_buffer served stream f g) :
    ∃ v f' g', qemu_get_be32 f = some (v, f') ∧ Migration.qemu_get_be32 g = (v, g') ∧
      Tracks get_buffer served stream f' g' := by
  obtain ⟨a, f1, g1, h1, hm1, ht1⟩ := qemu_get_byte_refines hs ht
  obtain ⟨b, f2, g2, h2, hm2, ht2⟩ := qemu_get_byte_refines hs ht1
  obtain ⟨c, f3, g3, h3, hm3, ht3⟩ := qemu_get_byte_refines hs ht2
  obtain ⟨d, f4, g4, h4, hm4, ht4⟩ := qemu_get_byte_refines hs ht3
  refine ⟨a.toNat <<< 24 ||| b.toNat <<< 16 ||| c.toNat <<< 8 ||| d.toNat, f4, g4, ?_,
    by simp only [Migration.qemu_get_be32, hm1, hm2, hm3, hm4], ht4⟩
  simp only [qemu_get_be32, h1, h2, h3, h4, Option.bind_eq_bind, Option.bind_some]
  rfl

theorem qemu_get_be64_refines (hs : Serves get_buffer served stream) {g : Migration.QEMUFile}
    (ht : Tracks get_buffer served stream f g) :
    ∃ v f' g', qemu_get_be64 f = some (v, f') ∧ Migration.qemu_get_be64 g = (v, g') ∧
      Tracks get_buffer served stream f' g' := by
  obtain ⟨hi, f1, g1, h1, hm1, ht1⟩ := qemu_get_be32_refines hs ht
  obtain ⟨lo, f2, g2, h2, hm2, ht2⟩ := qemu_get_be32_refines hs ht1
  refine ⟨hi <<< 32 ||| lo, f2, g2, ?_, by simp only [Migration.qemu_get_be64, hm1, hm2], ht2⟩
  simp only [qemu_get_be64, h1, h2, Option.bind_eq_bind, Option.bind_some]
  rfl

theorem getCall_refines (hs : Serves get_buffer served stream) {g : Migration.QEMUFile}
    (ht : Tracks get_buffer served stream f g) (c : GetCall) :
    ∃ r f' g', getCall f c = some (r, f') ∧ c.apply g = (r, g') ∧
      Tracks get_buffer served stream f' g' := by
  cases c with
  | byte =>
      obtain ⟨b, f', g', h, hm, ht'⟩ := qemu_get_byte_refines hs ht
      exact ⟨_, f', g', by rw [getCall, h]; rfl, by simp only [GetCall.apply, hm], ht'⟩
  | buffer size =>
      obtain ⟨bs, f', g', h, hm, ht'⟩ := qemu_get_buffer_refines hs ht size
      exact ⟨_, f', g', by rw [getCall, h]; rfl, by simp only [GetCall.apply, hm], ht'⟩
  | be16 =>
      obtain ⟨v, f', g', h, hm, ht'⟩ := qemu_get_be16_refines hs ht
      exact ⟨_, f', g', by rw [getCall, h]; rfl, by simp only [GetCall.apply, hm], ht'⟩
  | be32 =>
      obtain ⟨v, f', g', h, hm, ht'⟩ := qemu_get_be32_refines hs ht
      exact ⟨_, f', g', by rw [getCall, h]; rfl, by simp only [GetCall.apply, hm], ht'⟩
  | be64 =>
      obtain ⟨v, f', g', h, hm, ht'⟩ := qemu_get_be64_refines hs ht
      exact ⟨_, f', g', by rw [getCall, h]; rfl, by simp only [GetCall.apply, hm], ht'⟩

-- Every run of get calls returns what the stream model returns from the same position, however
-- the backend splits the stream.
theorem runGets_refines (hs : Serves get_buffer served stream) (cs : List GetCall) :
    ∀ (f : QEMUFile σ) (g : Migration.QEMUFile), Tracks get_buffer served stream f g →
      ∃ rs f' g', runGets f cs = some (rs, f') ∧ applyGets g cs = (rs, g') ∧
        Tracks get_buffer served stream f' g' := by
  induction cs with
  | nil => intro f g ht; exact ⟨[], f, g, rfl, rfl, ht⟩
  | cons c cs ih =>
      intro f g ht
      obtain ⟨r, f1, g1, h1, hm1, ht1⟩ := getCall_refines hs ht c
      obtain ⟨rs, f2, g2, h2, hm2, ht2⟩ := ih f1 g1 ht1
      refine ⟨r :: rs, f2, g2, ?_, by simp only [applyGets, hm1, hm2], ht2⟩
      simp only [runGets, h1, h2, Option.bind_some, Option.map_some]

theorem qemu_fopen_ops_tracks (backend : σ)
    (put_buffer : Option (σ → List UInt8 → Nat → σ × Int)) (hserved : served backend = 0) :
    Tracks get_buffer served stream (qemu_fopen_ops backend ⟨put_buffer, some get_buffer⟩)
      ⟨stream, 0, 0⟩ :=
  ⟨⟨rfl, rfl, le_refl 0, Nat.zero_le _, le_refl 0, hserved, Nat.zero_le _,
    fun k hk => absurd hk (by simp [qemu_fopen_ops])⟩, rfl, rfl⟩

-- Whatever a saver writes through a buffered file, the backend receives once the file is
-- flushed: the bytes the stream model holds after the same calls.
theorem runPuts_fflush (ha : Accepts put_buffer received ok) (backend : σ)
    (get_buffer : Option (σ → Nat → Nat → σ × Int × List UInt8)) (hok : ok backend)
    (hempty : received backend = []) (cs : List PutCall) :
    ∃ f, runPuts (qemu_fopen_ops backend ⟨some put_buffer, get_buffer⟩) cs = some f ∧
      received (qemu_fflush f).1.backend = (cs.foldl PutCall.apply ⟨[], 0, 0⟩).buf ∧
      ok (qemu_fflush f).1.backend := by
  obtain ⟨inv, hnil⟩ := qemu_fopen_ops_writeInv backend get_buffer hok hempty
  obtain ⟨f, hrun, invf, hw⟩ := runPuts_refines ha cs _ inv
  obtain ⟨f', ret, hflush, -, inv', hidx, hw'⟩ := qemu_fflush_spec ha invf.toFlushable
  refine ⟨f, hrun, ?_, by rw [hflush]; exact inv'.ok⟩
  -- the window is empty after the flush
  have hrecv : received f'.backend = written received f' := by
    simp [written, hidx, ByteMem.read]
  rw [hflush, hrecv, hw', hw, hnil, PutCall.foldl_apply cs _ rfl, List.nil_append]

-- What a saver wrote, a loader reads back call by call through a buffered file, over a backend
-- that hands the stream over in chunks of any sizes.
theorem runGets_readBack (hs : Serves get_buffer served stream) (backend : σ)
    (put_buffer : Option (σ → List UInt8 → Nat → σ × Int)) (hserved : served backend = 0)
    (cs : List PutCall) (ys : List UInt8) (hstream : stream = cs.flatMap PutCall.bytes ++ ys) :
    ∃ f, runGets (qemu_fopen_ops backend ⟨put_buffer, some get_buffer⟩)
        (cs.map fun c => c.readBack.1) = some (cs.map fun c => c.readBack.2, f) := by
  obtain ⟨rs, f, g, hrun, happly, -⟩ :=
    runGets_refines hs _ _ _ (qemu_fopen_ops_tracks backend put_buffer hserved)
  have hback := applyGets_readBack cs ⟨stream, 0, 0⟩ ys (by rw [← hstream]; rfl)
  rw [happly, Prod.mk.injEq] at hback
  exact ⟨f, by rw [hrun, hback.1]⟩

theorem runGets_readBack_oneByteAtATime :
    ∃ f, runGets (qemu_fopen_ops (0 : Nat) ⟨none, some (oneByteAtATime
        ([PutCall.be16 258, .buffer [1, 2]].flatMap PutCall.bytes ++ []))⟩)
        ([PutCall.be16 258, .buffer [1, 2]].map fun c => c.readBack.1) =
      some ([PutCall.be16 258, .buffer [1, 2]].map fun c => c.readBack.2, f) :=
  runGets_readBack (oneByteAtATime_serves _) 0 none rfl _ [] rfl

/-! ### A backend that records its calls -/

-- It takes all the bytes of each call `put_buffer(opaque, buf, pos, size)` and keeps the call.
def recordCalls (calls : List (List UInt8 × Nat)) (bytes : List UInt8) (pos : Nat) :
    List (List UInt8 × Nat) × Int :=
  (calls ++ [(bytes, pos)], bytes.length)

-- Each call writes at the offset where the bytes of the calls before it end.
def Consecutive (calls : List (List UInt8 × Nat)) : Prop :=
  ∀ i (h : i < calls.length), calls[i].2 = ((calls.take i).flatMap Prod.fst).length

theorem consecutive_append (calls : List (List UInt8 × Nat)) (h : Consecutive calls)
    (bytes : List UInt8) :
    Consecutive (calls ++ [(bytes, (calls.flatMap Prod.fst).length)]) := by
  intro i hi
  rw [List.length_append, List.length_singleton] at hi
  by_cases hlt : i < calls.length
  · rw [List.getElem_append_left hlt, List.take_append_of_le_length hlt.le]
    exact h i hlt
  · -- the call just made
    have hi' : i = calls.length := by omega
    subst hi'
    simp

theorem recordCalls_accepts :
    Accepts recordCalls (fun calls => calls.flatMap Prod.fst) Consecutive :=
  ⟨fun _ _ _ => Int.natCast_nonneg _, fun _ _ _ => by simp [recordCalls],
    fun calls bytes h => consecutive_append calls h bytes⟩

-- Over the recording backend, the window reaches the backend at consecutive offsets, and the
-- calls' bytes together are the written stream.
theorem runPuts_recordCalls (cs : List PutCall) :
    ∃ f, runPuts (qemu_fopen_ops [] ⟨some recordCalls, none⟩) cs = some f ∧
      ((qemu_fflush f).1.backend.flatMap Prod.fst = (cs.foldl PutCall.apply ⟨[], 0, 0⟩).buf) ∧
      Consecutive (qemu_fflush f).1.backend :=
  runPuts_fflush recordCalls_accepts [] none (fun _ h => absurd h (Nat.not_lt_zero _)) rfl cs

end Runs

end Qemu.Migration.Buffered

import Mathlib.Data.List.Nodup
import Qemu.Lib.Scatter

/-!
Scatter/gather vectors (`util/iov.c`). A vector is the list of its segments, and its bytes
are the bytes at the segments' addresses, one segment after another (`iovAddrs`). The
buffer that a copy reads or fills is a memory of its own, apart from the segments.

`size_t` counters are `Nat`: every subtraction in these loops is guarded by a comparison and
every sum is bounded by `bytes`, so none of them wraps.
-/

namespace Qemu.Util

open ByteMem Scatter

@[ext] structure iovec where
  iov_base : Nat
  iov_len : Nat
  deriving DecidableEq, Repr

def iov_size (iov : List iovec) : Nat := (iov.map iovec.iov_len).sum

-- The addresses of the vector's bytes, segment after segment.
def iovAddrs (iov : List iovec) : List Nat :=
  iov.flatMap fun v => List.range' v.iov_base v.iov_len

-- The concatenation of the segments' bytes.
def iovBytes (m : Mem) (iov : List iovec) : List UInt8 := (iovAddrs iov).map m

@[simp] theorem iov_size_nil : iov_size [] = 0 := rfl

@[simp] theorem iov_size_cons (v : iovec) (iov : List iovec) :
    iov_size (v :: iov) = v.iov_len + iov_size iov := by
  simp [iov_size]

@[simp] theorem iov_size_append (iov iov' : List iovec) :
    iov_size (iov ++ iov') = iov_size iov + iov_size iov' := by
  simp [iov_size]

@[simp] theorem iovAddrs_nil : iovAddrs [] = [] := rfl

@[simp] theorem iovAddrs_cons (v : iovec) (iov : List iovec) :
    iovAddrs (v :: iov) = List.range' v.iov_base v.iov_len ++ iovAddrs iov := rfl

@[simp] theorem iovAddrs_append (iov iov' : List iovec) :
    iovAddrs (iov ++ iov') = iovAddrs iov ++ iovAddrs iov' := by
  simp [iovAddrs]

@[simp] theorem length_iovAddrs (iov : List iovec) : (iovAddrs iov).length = iov_size iov := by
  induction iov with
  | nil => rfl
  | cons v iov ih => simp [ih]

theorem drop_iovAddrs_cons_of_lt {v : iovec} (iov : List iovec) {offset : Nat}
    (h : offset < v.iov_len) :
    (iovAddrs (v :: iov)).drop offset =
      List.range' (v.iov_base + offset) (v.iov_len - offset) ++ iovAddrs iov := by
  rw [iovAddrs_cons, List.drop_append_of_le_length (by simp; omega), List.drop_range']
  simp

theorem drop_iovAddrs_cons_of_le {v : iovec} (iov : List iovec) {offset : Nat}
    (h : v.iov_len ≤ offset) :
    (iovAddrs (v :: iov)).drop offset = (iovAddrs iov).drop (offset - v.iov_len) := by
  rw [iovAddrs_cons, List.drop_append, List.drop_eq_nil_of_le (by simp; omega),
    List.length_range', List.nil_append]

-- The first `l + n` entries of `xs ++ ys` when `xs` is used up, or nothing of `ys` is taken.
theorem take_add_of_append {xs ys : List Nat} {l n : Nat} (hl : l ≤ xs.length)
    (h : l = xs.length ∨ n = 0) : (xs ++ ys).take (l + n) = xs.take l ++ ys.take n := by
  rcases h with rfl | rfl
  · rw [List.take_append, List.take_of_length_le (by omega), List.take_length,
      Nat.add_sub_cancel_left]
  · rw [Nat.add_zero, List.take_append_of_le_length hl, List.take_zero, List.append_nil]

/-! ### The copy loop of `iov_from_buf`, `iov_to_buf` and `iov_memset`

The three functions run one loop and differ only in what they do with a piece: the bytes
`[iov_base + offset, iov_base + offset + len)` of a segment, which go with `buf + done`.
-/

section Loop

variable {σ : Type*}

-- for (i = 0, done = 0; (offset || done < bytes) && i < iov_cnt; i++); the result is
-- `offset`, `done` and the state the pieces were applied to.
def iovLoop (piece : σ → Nat → Nat → Nat → σ) (bytes : Nat) :
    List iovec → Nat → Nat → σ → Nat × Nat × σ
  | [], offset, done, s => (offset, done, s)
  | v :: iov, offset, done, s =>
      if offset ≠ 0 ∨ done < bytes then
        if offset < v.iov_len then
          let len := min (v.iov_len - offset) (bytes - done)
          iovLoop piece bytes iov 0 (done + len) (piece s (v.iov_base + offset) done len)
        else
          iovLoop piece bytes iov (offset - v.iov_len) done s
      else (offset, done, s)

-- The loop and the assert(offset == 0) after it.
def iov_transfer (piece : σ → Nat → Nat → Nat → σ) (bytes : Nat) (iov : List iovec)
    (offset : Nat) (s : σ) : Option (Nat × σ) :=
  match iovLoop piece bytes iov offset 0 s with
  | (offset, done, s) => if offset = 0 then some (done, s) else none

-- A piece `(addr, done, len)` pairs buffer position `done + k` with address `addr + k`.
def pieceTransfers : Nat × Nat × Nat → List (Nat × Nat)
  | (p, d, l) => (List.range' d l).zip (List.range' p l)

-- The loop applies pieces that, byte by byte, pair the buffer positions from `done` on with
-- the window of the vector that starts at `offset`.
theorem iovLoop_spec (piece : σ → Nat → Nat → Nat → σ) (bytes : Nat) (iov : List iovec)
    (offset done : Nat) (s : σ) (hoff : offset ≤ iov_size iov) (hdone : done ≤ bytes) :
    ∃ ps : List (Nat × Nat × Nat),
      iovLoop piece bytes iov offset done s =
        (0, done + min (bytes - done) (iov_size iov - offset),
          ps.foldl (fun s p => piece s p.1 p.2.1 p.2.2) s) ∧
      ps.flatMap pieceTransfers =
        (List.range' done (min (bytes - done) (iov_size iov - offset))).zip
          (((iovAddrs iov).drop offset).take (min (bytes - done) (iov_size iov - offset))) := by
  induction iov generalizing offset done s with
  | nil =>
      rw [iov_size_nil, Nat.le_zero] at hoff
      subst hoff
      exact ⟨[], by simp [iovLoop], by simp⟩
  | cons v iov ih =>
      rw [iov_size_cons] at hoff
      by_cases hcond : offset ≠ 0 ∨ done < bytes
      · by_cases hlt : offset < v.iov_len
        · -- A piece of this segment; the rest of the vector is read from its start.
          obtain ⟨ps, hrun, hps⟩ := ih 0 (done + min (v.iov_len - offset) (bytes - done))
            (piece s (v.iov_base + offset) done (min (v.iov_len - offset) (bytes - done)))
            (Nat.zero_le _) (by omega)
          have hn : min (bytes - done) (v.iov_len + iov_size iov - offset) =
              min (v.iov_len - offset) (bytes - done) +
                min (bytes - (done + min (v.iov_len - offset) (bytes - done)))
                  (iov_size iov - 0) := by omega
          refine ⟨(v.iov_base + offset, done, min (v.iov_len - offset) (bytes - done)) :: ps,
            ?_, ?_⟩
          · rw [iovLoop, if_pos hcond, if_pos hlt, hrun, iov_size_cons, hn, Nat.add_assoc]
            rfl
          · rw [List.flatMap_cons, hps, iov_size_cons, hn, drop_iovAddrs_cons_of_lt _ hlt,
              take_add_of_append (by simp only [List.length_range']; omega)
                (by simp only [List.length_range']; omega), List.take_range'_of_length_ge
              (by omega), ← List.range'_append_1, List.drop_zero, pieceTransfers,
              List.zip_append (by simp)]
        · -- The whole segment lies before `offset`.
          obtain ⟨ps, hrun, hps⟩ := ih (offset - v.iov_len) done s (by omega) hdone
          have hn : min (bytes - done) (v.iov_len + iov_size iov - offset) =
              min (bytes - done) (iov_size iov - (offset - v.iov_len)) := by omega
          refine ⟨ps, ?_, ?_⟩
          · rw [iovLoop, if_pos hcond, if_neg hlt, hrun, iov_size_cons, hn]
          · rw [hps, iov_size_cons, hn, drop_iovAddrs_cons_of_le _ (by omega)]
      · -- offset is 0 and bytes are done: the loop stops.
        have hn : min (bytes - done) (v.iov_len + iov_size iov - offset) = 0 := by omega
        refine ⟨[], ?_, ?_⟩
        · rw [iovLoop, if_neg hcond, iov_size_cons, hn]
          simp only [not_or, not_not] at hcond
          rw [hcond.1, Nat.add_zero]
          rfl
        · rw [iov_size_cons, hn]
          simp

-- When each piece does byte by byte what `act` does to a pair (buffer position, address),
-- the whole copy does `act` along the window `[offset, offset + n)`.
theorem iov_transfer_eq (piece : σ → Nat → Nat → Nat → σ) (act : σ → Nat × Nat → σ)
    (hpiece : ∀ s p d l, piece s p d l = (pieceTransfers (p, d, l)).foldl act s)
    (bytes : Nat) (iov : List iovec) (offset : Nat) (s : σ) (hoff : offset ≤ iov_size iov) :
    iov_transfer piece bytes iov offset s =
      some (min bytes (iov_size iov - offset),
        ((List.range' 0 (min bytes (iov_size iov - offset))).zip
          (((iovAddrs iov).drop offset).take (min bytes (iov_size iov - offset)))).foldl act s) := by
  obtain ⟨ps, hrun, hps⟩ := iovLoop_spec piece bytes iov offset 0 s hoff (Nat.zero_le _)
  have hfold : ps.foldl (fun s p => piece s p.1 p.2.1 p.2.2) s =
      (ps.flatMap pieceTransfers).foldl act s := by
    rw [List.foldl_flatMap]
    exact congrArg (fun f => ps.foldl f s) (funext₂ fun s p => hpiece s p.1 p.2.1 p.2.2)
  rw [iov_transfer, hrun, hfold, hps, Nat.sub_zero, Nat.zero_add]
  rfl

end Loop

-- The window `[offset, offset + n)` of the vector has `n` addresses.
theorem length_window (iov : List iovec) {offset : Nat} (n : Nat)
    (hn : n ≤ iov_size iov - offset) : (((iovAddrs iov).drop offset).take n).length = n := by
  simp only [List.length_take, List.length_drop, length_iovAddrs]
  omega

/-! ### The three copies -/

def iov_from_buf (m : Mem) (iov : List iovec) (offset : Nat) (buf : Mem) (bytes : Nat) :
    Option (Nat × Mem) :=
  iov_transfer (fun m p done len => write m p (read buf done len)) bytes iov offset m

def iov_to_buf (m : Mem) (iov : List iovec) (offset : Nat) (buf : Mem) (bytes : Nat) :
    Option (Nat × Mem) :=
  iov_transfer (fun buf p done len => write buf done (read m p len)) bytes iov offset buf

-- memset stores the byte (unsigned char)fillc.
def iov_memset (m : Mem) (iov : List iovec) (offset : Nat) (fillc : Int) (bytes : Nat) :
    Option (Nat × Mem) :=
  iov_transfer (fun m p _ len => write m p (List.replicate len (UInt8.ofInt fillc)))
    bytes iov offset m

section Copies

variable (m buf : Mem) (iov : List iovec) {offset : Nat} (bytes : Nat)

theorem iov_from_buf_eq (hoff : offset ≤ iov_size iov) :
    iov_from_buf m iov offset buf bytes =
      some (min bytes (iov_size iov - offset),
        scatter m (((iovAddrs iov).drop offset).take (min bytes (iov_size iov - offset)))
          (read buf 0 (min bytes (iov_size iov - offset)))) := by
  have hpiece : ∀ s p d l, write s p (read buf d l) =
      (pieceTransfers (p, d, l)).foldl (fun s q => Function.update s q.2 (buf q.1)) s := by
    intro s p d l
    rw [pieceTransfers, foldl_update_zip_snd, write_eq_scatter, read_eq_map, List.length_map,
      List.length_range']
  rw [iov_from_buf, iov_transfer_eq _ _ hpiece _ _ _ _ hoff, foldl_update_zip_snd, read_eq_map]

theorem iov_to_buf_eq (hoff : offset ≤ iov_size iov) :
    iov_to_buf m iov offset buf bytes =
      some (min bytes (iov_size iov - offset),
        write buf 0 ((((iovAddrs iov).drop offset).take
          (min bytes (iov_size iov - offset))).map m)) := by
  have hpiece : ∀ s p d l, write s d (read m p l) =
      (pieceTransfers (p, d, l)).foldl (fun s q => Function.update s q.1 (m q.2)) s := by
    intro s p d l
    rw [pieceTransfers, foldl_update_zip_fst, write_eq_scatter, read_eq_map, List.length_map,
      List.length_range']
  have hlen := length_window iov (min bytes (iov_size iov - offset)) (Nat.min_le_right _ _)
  rw [iov_to_buf, iov_transfer_eq _ _ hpiece _ _ _ _ hoff, foldl_update_zip_fst,
    write_eq_scatter, List.length_map, hlen]

theorem iov_memset_eq (fillc : Int) (hoff : offset ≤ iov_size iov) :
    iov_memset m iov offset fillc bytes =
      some (min bytes (iov_size iov - offset),
        scatter m (((iovAddrs iov).drop offset).take (min bytes (iov_size iov - offset)))
          (List.replicate (min bytes (iov_size iov - offset)) (UInt8.ofInt fillc))) := by
  have hpiece : ∀ s p d l, write s p (List.replicate l (UInt8.ofInt fillc)) =
      (pieceTransfers (p, d, l)).foldl
        (fun s q => Function.update s q.2 (UInt8.ofInt fillc)) s := by
    intro s p d l
    rw [pieceTransfers, foldl_update_zip_snd (fun _ => UInt8.ofInt fillc), write_eq_scatter,
      List.length_replicate, List.map_const', List.length_range']
  rw [iov_memset, iov_transfer_eq _ _ hpiece _ _ _ _ hoff,
    foldl_update_zip_snd (fun _ => UInt8.ofInt fillc), List.map_const', List.length_range']

-- The addresses of the vector around the window `[offset, offset + n)`.
theorem iovAddrs_split (offset n : Nat) :
    iovAddrs iov = (iovAddrs iov).take offset ++ ((iovAddrs iov).drop offset).take n ++
      (iovAddrs iov).drop (offset + n) := by
  rw [List.append_assoc, ← List.drop_drop, List.take_append_drop, List.take_append_drop]

-- A store through the window of a vector whose segments do not overlap: the vector's bytes
-- read as the old ones before the window, the bytes stored, and the old ones after it.
theorem iovBytes_scatter_window {n : Nat} {vs : List UInt8} (hnd : (iovAddrs iov).Nodup)
    (hlen : vs.length = n) (hn : n ≤ iov_size iov - offset) :
    iovBytes (scatter m (((iovAddrs iov).drop offset).take n) vs) iov =
      (iovBytes m iov).take offset ++ vs ++ (iovBytes m iov).drop (offset + n) := by
  rw [iovAddrs_split iov offset n] at hnd
  conv_lhs => rw [iovBytes]; arg 2; rw [iovAddrs_split iov offset n]
  rw [map_scatter_window m hnd (by rw [hlen, length_window iov n hn]), iovBytes,
    List.map_take, List.map_drop]

theorem scatter_window_of_not_mem {n : Nat} (vs : List UInt8) {a : Nat} (ha : a ∉ iovAddrs iov) :
    scatter m (((iovAddrs iov).drop offset).take n) vs a = m a :=
  scatter_of_not_mem m vs fun h => ha (List.mem_of_mem_drop (List.mem_of_mem_take h))

end Copies

-- For a vector whose segments do not overlap and an offset inside it, each of the three
-- copies handles `n = min bytes (iov_size - offset)` bytes: `iov_to_buf` puts the vector's bytes
-- `[offset, offset + n)` at the start of the buffer, and `iov_from_buf` and `iov_memset` replace
-- those bytes of the vector and leave every other byte of memory alone.
theorem iov_copies_window (m buf : Mem) (iov : List iovec) (offset bytes : Nat) (fillc : Int)
    (hnd : (iovAddrs iov).Nodup) (hoff : offset ≤ iov_size iov) :
    (∃ buf', iov_to_buf m iov offset buf bytes = some (min bytes (iov_size iov - offset), buf') ∧
        read buf' 0 (min bytes (iov_size iov - offset)) =
          ((iovBytes m iov).drop offset).take (min bytes (iov_size iov - offset))) ∧
      (∃ m', iov_from_buf m iov offset buf bytes = some (min bytes (iov_size iov - offset), m') ∧
        iovBytes m' iov = (iovBytes m iov).take offset ++
          read buf 0 (min bytes (iov_size iov - offset)) ++
            (iovBytes m iov).drop (offset + min bytes (iov_size iov - offset)) ∧
        ∀ a, a ∉ iovAddrs iov → m' a = m a) ∧
      (∃ m', iov_memset m iov offset fillc bytes = some (min bytes (iov_size iov - offset), m') ∧
        iovBytes m' iov = (iovBytes m iov).take offset ++
          List.replicate (min bytes (iov_size iov - offset)) (UInt8.ofInt fillc) ++
            (iovBytes m iov).drop (offset + min bytes (iov_size iov - offset)) ∧
        ∀ a, a ∉ iovAddrs iov → m' a = m a) := by
  have hn : min bytes (iov_size iov - offset) ≤ iov_size iov - offset := Nat.min_le_right _ _
  refine ⟨⟨_, iov_to_buf_eq m buf iov bytes hoff, ?_⟩,
    ⟨_, iov_from_buf_eq m buf iov bytes hoff,
      iovBytes_scatter_window m iov hnd (read_length _ _ _) hn,
      fun a ha => scatter_window_of_not_mem m iov _ ha⟩,
    ⟨_, iov_memset_eq m iov bytes fillc hoff,
      iovBytes_scatter_window m iov hnd (List.length_replicate ..) hn,
      fun a ha => scatter_window_of_not_mem m iov _ ha⟩⟩
  have hread := (holds_write buf 0
    ((((iovAddrs iov).drop offset).take (min bytes (iov_size iov - offset))).map m)).read_eq
  rw [List.length_map, length_window iov _ hn] at hread
  rw [hread, iovBytes, List.map_take, List.map_drop]

-- Three segments, the middle one empty.
def exampleVector : List iovec := [⟨0x100, 2⟩, ⟨0x180, 0⟩, ⟨0x200, 3⟩]

theorem iov_copies_window_example :
    (iovAddrs exampleVector).Nodup ∧ 1 ≤ iov_size exampleVector ∧
      ((∃ buf', iov_to_buf (fun _ => 0) exampleVector 1 (fun a => UInt8.ofNat a) 3 =
            some (min 3 (iov_size exampleVector - 1), buf') ∧
          read buf' 0 (min 3 (iov_size exampleVector - 1)) =
            ((iovBytes (fun _ => 0) exampleVector).drop 1).take
              (min 3 (iov_size exampleVector - 1))) ∧
        (∃ m', iov_from_buf (fun _ => 0) exampleVector 1 (fun a => UInt8.ofNat a) 3 =
            some (min 3 (iov_size exampleVector - 1), m') ∧
          iovBytes m' exampleVector = (iovBytes (fun _ => 0) exampleVector).take 1 ++
            read (fun a => UInt8.ofNat a) 0 (min 3 (iov_size exampleVector - 1)) ++
              (iovBytes (fun _ => 0) exampleVector).drop (1 + min 3 (iov_size exampleVector - 1)) ∧
          ∀ a, a ∉ iovAddrs exampleVector → m' a = 0) ∧
        (∃ m', iov_memset (fun _ => 0) exampleVector 1 0xab 3 =
            some (min 3 (iov_size exampleVector - 1), m') ∧
          iovBytes m' exampleVector = (iovBytes (fun _ => 0) exampleVector).take 1 ++
            List.replicate (min 3 (iov_size exampleVector - 1)) (UInt8.ofInt 0xab) ++
              (iovBytes (fun _ => 0) exampleVector).drop (1 + min 3 (iov_size exampleVector - 1)) ∧
          ∀ a, a ∉ iovAddrs exampleVector → m' a = 0)) :=
  ⟨by decide, by decide, iov_copies_window _ _ _ _ _ _ (by decide) (by decide)⟩

/-! ### iov_send_recv

The function trims the segment where the window starts from the front and the one where it
ends from the back, hands the segments in between to `do_send_recv` (the socket call, a
parameter of the model), and then undoes both trims. -/

-- for (i = from; i < iov_cnt && iov[i].iov_len <= x; ++i) x -= iov[i].iov_len: both loops of
-- iov_send_recv, which skip whole segments of `offset` and then of `bytes`.
def skipWhole : List iovec → Nat → Nat → Nat × Nat
  | [], i, x => (i, x)
  | v :: iov, i, x => if v.iov_len ≤ x then skipWhole iov (i + 1) (x - v.iov_len) else (i, x)

-- Find the start position, then cut `offset` bytes off the first element; returns `si`, the
-- offset cut and the vector.
def iovTrimFront (iov : List iovec) (offset : Nat) : Option (Nat × Nat × List iovec) :=
  let (si, offset) := skipWhole iov 0 offset
  if offset = 0 then some (si, 0, iov)
  else if si < iov.length then
    some (si, offset, iov.modify si fun v => ⟨v.iov_base + offset, v.iov_len - offset⟩)
  else none  -- assert(si < iov_cnt)

-- Find the end position from `si`, then cut the last element to the bytes still wanted;
-- returns `ei`, the tail cut and the vector.
def iovTrimBack (iov : List iovec) (si bytes : Nat) : Option (Nat × Nat × List iovec) :=
  let (ei, bytes) := skipWhole (iov.drop si) si bytes
  if bytes = 0 then some (ei, 0, iov)
  else
    match iov[ei]? with
    | some v =>
        if bytes < v.iov_len then
          some (ei + 1, v.iov_len - bytes, iov.modify ei fun v => { v with iov_len := bytes })
        else none  -- assert(iov[ei].iov_len > bytes)
    | none => none  -- assert(ei < iov_cnt)

-- Undo the changes above.
def iovRestore (iov : List iovec) (si offset ei tail : Nat) : List iovec :=
  let iov := if offset = 0 then iov
    else iov.modify si fun v => ⟨v.iov_base - offset, v.iov_len + offset⟩
  if tail = 0 then iov else iov.modify (ei - 1) fun v => { v with iov_len := v.iov_len + tail }

def iov_send_recv (do_send_recv : List iovec → Int) (iov : List iovec) (offset bytes : Nat) :
    Option (Int × List iovec) :=
  if bytes = 0 then some (0, iov)
  else
    match iovTrimFront iov offset with
    | none => none
    | some (si, offset, iov) =>
        match iovTrimBack iov si bytes with
        | none => none
        | some (ei, tail, iov) =>
            some (do_send_recv ((iov.drop si).take (ei - si)), iovRestore iov si offset ei tail)

theorem modify_append_cons (A : List iovec) (v : iovec) (B : List iovec) (f : iovec → iovec) :
    (A ++ v :: B).modify A.length f = A ++ f v :: B := by
  induction A with
  | nil => rfl
  | cons a A ih => rw [List.cons_append, List.length_cons, List.modify_succ_cons, ih,
      List.cons_append]

-- The loop stops `k` segments on, with `r` left over: either at the end of the vector with
-- nothing left, or inside a segment longer than what is left.
theorem skipWhole_spec (iov : List iovec) (i x : Nat) (hx : x ≤ iov_size iov) :
    ∃ k r, skipWhole iov i x = (i + k, r) ∧ k ≤ iov.length ∧ iov_size (iov.take k) + r = x ∧
      (iov.drop k = [] ∧ r = 0 ∨ ∃ v rest, iov.drop k = v :: rest ∧ r < v.iov_len) := by
  induction iov generalizing i x with
  | nil =>
      rw [iov_size_nil, Nat.le_zero] at hx
      exact ⟨0, x, rfl, le_rfl, by simp [hx], .inl ⟨rfl, hx⟩⟩
  | cons v iov ih =>
      rw [iov_size_cons] at hx
      by_cases hv : v.iov_len ≤ x
      · obtain ⟨k, r, hrun, hk, hsize, hend⟩ := ih (i + 1) (x - v.iov_len) (by omega)
        refine ⟨k + 1, r, ?_, by simp [hk], ?_, hend⟩
        · rw [skipWhole, if_pos hv, hrun, Nat.add_assoc, Nat.add_comm 1 k]
        · clear hend
          rw [List.take_succ_cons, iov_size_cons]
          omega
      · exact ⟨0, x, by rw [skipWhole, if_neg hv, Nat.add_zero], Nat.zero_le _, by simp,
          .inr ⟨v, iov, rfl, by omega⟩⟩

-- For an offset inside the vector, the start lies inside a segment `v`, after the segments
-- `A`; that segment is cut by the offset left over.
theorem iovTrimFront_spec (iov : List iovec) {offset : Nat} (h : offset < iov_size iov) :
    ∃ A v B r, iov = A ++ v :: B ∧ iov_size A + r = offset ∧ r < v.iov_len ∧
      iovTrimFront iov offset = some (A.length, r, A ++ ⟨v.iov_base + r, v.iov_len - r⟩ :: B) := by
  obtain ⟨k, r, hrun, hkle, hsize, hend⟩ := skipWhole_spec iov 0 offset h.le
  obtain ⟨A, hA⟩ : ∃ A, iov.take k = A := ⟨_, rfl⟩
  have hk : A.length = k := by rw [← hA, List.length_take, Nat.min_eq_left hkle]
  rw [hA] at hsize
  rcases hend with ⟨hnil, -⟩ | ⟨v, B, hdrop, hr⟩
  · -- Stopping at the end would leave the whole vector before the offset.
    have hall : A = iov := by
      rw [← hA]
      exact List.take_of_length_le (List.drop_eq_nil_iff.mp hnil)
    rw [hall] at hsize
    omega
  · have hiov : iov = A ++ v :: B := by rw [← hA, ← hdrop, List.take_append_drop]
    refine ⟨A, v, B, r, hiov, hsize, hr, ?_⟩
    rw [iovTrimFront, hrun, Nat.zero_add, ← hk]
    dsimp only
    by_cases hr0 : r = 0
    · subst hr0
      rw [if_pos rfl, hiov]
      rfl
    · rw [if_neg hr0, if_pos (by rw [hiov]; simp), hiov, modify_append_cons]

-- From `si = A.length`, the end lies after the segments `C`: exactly at their end, or inside
-- the next segment `w`, which is cut to the bytes left over.
theorem iovTrimBack_spec (A T : List iovec) {bytes : Nat} (h : bytes ≤ iov_size T) :
    ∃ C rest r, T = C ++ rest ∧ iov_size C + r = bytes ∧
      (r = 0 ∧ iovTrimBack (A ++ T) A.length bytes = some (A.length + C.length, 0, A ++ T) ∨
        ∃ w D, rest = w :: D ∧ 0 < r ∧ r < w.iov_len ∧
          iovTrimBack (A ++ T) A.length bytes =
            some (A.length + C.length + 1, w.iov_len - r, A ++ C ++ { w with iov_len := r } :: D)) := by
  obtain ⟨k, r, hrun, hkle, hsize, hend⟩ := skipWhole_spec T A.length bytes h
  obtain ⟨C, hC⟩ : ∃ C, T.take k = C := ⟨_, rfl⟩
  have hk : C.length = k := by rw [← hC, List.length_take, Nat.min_eq_left hkle]
  have hT : T = C ++ T.drop k := by rw [← hC, List.take_append_drop]
  have hrun' : skipWhole ((A ++ T).drop A.length) A.length bytes = (A.length + C.length, r) := by
    rw [List.drop_left, hrun, hk]
  rw [hC] at hsize
  by_cases hr0 : r = 0
  · refine ⟨C, T.drop k, r, hT, hsize, .inl ⟨hr0, ?_⟩⟩
    rw [iovTrimBack, hrun']
    dsimp only
    rw [if_pos hr0]
  · rcases hend with ⟨-, hr⟩ | ⟨w, D, hdrop, hr⟩
    · exact absurd hr hr0
    rw [hdrop] at hT
    have hget : (A ++ T)[A.length + C.length]? = some w := by
      rw [hT, ← List.append_assoc, List.getElem?_append_right (by simp), List.length_append,
        Nat.sub_self, List.getElem?_cons_zero]
    refine ⟨C, w :: D, r, hT, hsize, .inr ⟨w, D, rfl, Nat.pos_of_ne_zero hr0, hr, ?_⟩⟩
    rw [iovTrimBack, hrun']
    dsimp only
    rw [if_neg hr0, hget]
    dsimp only
    rw [if_pos hr, hT, ← List.append_assoc, ← List.length_append, modify_append_cons]

-- Undoing a front cut alone gives the segment back.
theorem iovRestore_front (A : List iovec) (v : iovec) (B : List iovec) {r : Nat} (ei : Nat)
    (hr : r < v.iov_len) :
    iovRestore (A ++ ⟨v.iov_base + r, v.iov_len - r⟩ :: B) A.length r ei 0 = A ++ v :: B := by
  rw [iovRestore]
  rw [if_pos rfl]
  by_cases hr0 : r = 0
  · subst hr0
    rfl
  · rw [if_neg hr0, modify_append_cons]
    congr 2
    ext <;> dsimp only <;> omega

-- Undoing both cuts, when one segment `v` carried both: its length is rebuilt from the bytes
-- kept, the offset cut and the tail cut.
theorem iovRestore_one (A : List iovec) (v : iovec) (B : List iovec) {r r2 : Nat}
    (hr : r + r2 < v.iov_len) :
    iovRestore (A ++ ⟨v.iov_base + r, r2⟩ :: B) A.length r (A.length + 1) (v.iov_len - r - r2) =
      A ++ v :: B := by
  have htail : v.iov_len - r - r2 ≠ 0 := by omega
  rw [iovRestore]
  rw [if_neg htail, Nat.add_sub_cancel]
  by_cases hr0 : r = 0
  · subst hr0
    rw [if_pos rfl, modify_append_cons]
    congr 2
    ext <;> dsimp only <;> omega
  · rw [if_neg hr0, modify_append_cons, modify_append_cons]
    congr 2
    ext <;> dsimp only <;> omega

-- Undoing both cuts on two different segments, `v` and `w` with the segments `C` between.
theorem iovRestore_two (A : List iovec) (v : iovec) (C : List iovec) (w : iovec) (D : List iovec)
    {r r2 : Nat} (hr : r < v.iov_len) (hr2 : r2 < w.iov_len) :
    iovRestore (A ++ ⟨v.iov_base + r, v.iov_len - r⟩ :: C ++ { w with iov_len := r2 } :: D)
        A.length r (A.length + (C.length + 1) + 1) (w.iov_len - r2) =
      A ++ v :: C ++ w :: D := by
  have htail : w.iov_len - r2 ≠ 0 := by omega
  have hback : ((A ++ v :: C) ++ { w with iov_len := r2 } :: D).modify
      (A.length + (C.length + 1) + 1 - 1) (fun u => { u with iov_len := u.iov_len + (w.iov_len - r2) }) =
      A ++ v :: C ++ w :: D := by
    rw [Nat.add_sub_cancel, show A.length + (C.length + 1) = (A ++ v :: C).length by simp,
      modify_append_cons]
    congr 2
    exact iovec.ext rfl (by dsimp only; omega)
  rw [iovRestore]
  rw [if_neg htail]
  by_cases hr0 : r = 0
  · subst hr0
    rw [if_pos rfl]
    exact hback
  · have hv : ({ iov_base := v.iov_base + r - r, iov_len := v.iov_len - r + r } : iovec) = v := by
      ext <;> dsimp only <;> omega
    rw [if_neg hr0, List.append_assoc, List.cons_append, modify_append_cons]
    dsimp only
    rw [hv, ← List.cons_append, ← List.append_assoc]
    exact hback

theorem take_succ_append_cons (l : List iovec) (x : iovec) (ys : List iovec) :
    (l ++ x :: ys).take (l.length + 1) = l ++ [x] := by
  rw [List.take_append, List.take_of_length_le (by omega), Nat.add_sub_cancel_left,
    List.take_succ_cons, List.take_zero]

-- After the front cut, the vector from `si` on is the window from `offset` on.
theorem iovAddrs_cut_front (A : List iovec) (v : iovec) (B : List iovec) {r : Nat}
    (hr : r < v.iov_len) :
    iovAddrs (⟨v.iov_base + r, v.iov_len - r⟩ :: B) =
      (iovAddrs (A ++ v :: B)).drop (iov_size A + r) := by
  rw [iovAddrs_append, List.drop_append, List.drop_eq_nil_of_le (by simp), length_iovAddrs,
    List.nil_append, Nat.add_sub_cancel_left, drop_iovAddrs_cons_of_lt _ hr, iovAddrs_cons]

-- For a window `[offset, offset + bytes)` inside the vector, `iov_send_recv` passes to
-- `do_send_recv` segments whose bytes are exactly the window, in order, returns what that call
-- returns, and leaves the caller's vector as it found it.
theorem iov_send_recv_window (iov : List iovec) (offset bytes : Nat) (hbytes : 1 ≤ bytes)
    (hrange : offset + bytes ≤ iov_size iov) :
    ∃ segs, iovAddrs segs = ((iovAddrs iov).drop offset).take bytes ∧
      ∀ do_send_recv, iov_send_recv do_send_recv iov offset bytes = some (do_send_recv segs, iov) := by
  obtain ⟨A, v, B, r, rfl, hsize, hr, hfront⟩ :=
    iovTrimFront_spec iov (show offset < iov_size iov by omega)
  have hwin := iovAddrs_cut_front A v B hr
  rw [hsize] at hwin
  have hT : bytes ≤ iov_size (⟨v.iov_base + r, v.iov_len - r⟩ :: B) := by
    simp only [iov_size_append, iov_size_cons] at hrange ⊢
    omega
  obtain ⟨C, rest, r2, hT, hCr, hback⟩ := iovTrimBack_spec A _ hT
  have hne : bytes ≠ 0 := by omega
  rcases hback with ⟨rfl, hback⟩ | ⟨w, D, rfl, -, hr2, hback⟩
  · -- The window ends where a segment ends: only the front cut is undone.
    refine ⟨C, ?_, fun f => ?_⟩
    · rw [← hwin, hT, iovAddrs_append, List.take_append_of_le_length (by simp; omega),
        List.take_of_length_le (by simp; omega)]
    · rw [iov_send_recv, if_neg hne, hfront]
      dsimp only
      rw [hback]
      dsimp only
      rw [List.drop_left, Nat.add_sub_cancel_left, iovRestore_front _ _ _ _ hr, hT, List.take_left]
  · refine ⟨C ++ [{ w with iov_len := r2 }], ?_, fun f => ?_⟩
    · rw [← hwin, hT, iovAddrs_append C (w :: D), List.take_append,
        List.take_of_length_le (by simp; omega), length_iovAddrs, iovAddrs_append, iovAddrs_cons, iovAddrs_cons, iovAddrs_nil,
        List.append_nil, List.take_append_of_le_length (by simp; omega),
        List.take_range'_of_length_ge (by omega)]
      dsimp only
      congr 2
      omega
    · rw [iov_send_recv, if_neg hne, hfront]
      dsimp only
      rw [hback]
      dsimp only
      rw [List.append_assoc, List.drop_left, Nat.add_assoc, Nat.add_sub_cancel_left,
        take_succ_append_cons, ← List.append_assoc]
      congr 2
      -- Both cuts are undone, on one segment or on two.
      cases C with
      | nil =>
          rw [List.nil_append, List.cons.injEq] at hT
          obtain ⟨rfl, rfl⟩ := hT
          dsimp only at hr2 ⊢
          rw [List.append_nil, List.length_nil, Nat.add_zero]
          exact iovRestore_one A v B (by omega)
      | cons c C =>
          rw [List.cons_append, List.cons.injEq] at hT
          obtain ⟨rfl, rfl⟩ := hT
          rw [List.length_cons, ← Nat.add_assoc (A.length), iovRestore_two A v C w D hr hr2,
            List.append_assoc, List.cons_append]

theorem iov_send_recv_window_example :
    1 ≤ 3 ∧ 1 + 3 ≤ iov_size exampleVector ∧
      ∃ segs, iovAddrs segs = ((iovAddrs exampleVector).drop 1).take 3 ∧
        ∀ do_send_recv, iov_send_recv do_send_recv exampleVector 1 3 =
          some (do_send_recv segs, exampleVector) :=
  ⟨by decide, by decide, iov_send_recv_window _ _ _ (by decide) (by decide)⟩

/-! ### Slicing a vector -/

-- for (cur = *iov; *iov_cnt > 0; cur++) in iov_discard_front, and the walk back from the last
-- element in iov_discard_back, which runs over the reversed vector: drop whole segments, then
-- cut into the first one longer than what is left; `cut` is how each function cuts it.
def iovDiscardLoop (cut : iovec → Nat → iovec) : List iovec → Nat → Nat → Nat × List iovec
  | [], _, total => (total, [])
  | cur :: rest, bytes, total =>
      if cur.iov_len > bytes then (total + bytes, cut cur bytes :: rest)
      else iovDiscardLoop cut rest (bytes - cur.iov_len) (total + cur.iov_len)

-- Returns the bytes discarded and the vector from *iov on, of *iov_cnt elements.
def iov_discard_front (iov : List iovec) (bytes : Nat) : Nat × List iovec :=
  iovDiscardLoop (fun cur bytes => ⟨cur.iov_base + bytes, cur.iov_len - bytes⟩) iov bytes 0

def iov_discard_back (iov : List iovec) (bytes : Nat) : Nat × List iovec :=
  if iov.length = 0 then (0, iov)
  else
    let (total, rest) :=
      iovDiscardLoop (fun cur bytes => { cur with iov_len := cur.iov_len - bytes }) iov.reverse
        bytes 0
    (total, rest.reverse)

@[simp] theorem iov_size_reverse (iov : List iovec) : iov_size iov.reverse = iov_size iov := by
  simp [iov_size, List.sum_reverse]

-- The loop drops the whole vector, or stops inside a segment `c` after the segments `A`.
theorem iovDiscardLoop_spec (cut : iovec → Nat → iovec) (iov : List iovec) (bytes total : Nat) :
    iov_size iov ≤ bytes ∧ iovDiscardLoop cut iov bytes total = (total + iov_size iov, []) ∨
      ∃ A c B x, iov = A ++ c :: B ∧ iov_size A + x = bytes ∧ x < c.iov_len ∧
        iovDiscardLoop cut iov bytes total = (total + bytes, cut c x :: B) := by
  induction iov generalizing bytes total with
  | nil => exact .inl ⟨Nat.zero_le _, rfl⟩
  | cons cur rest ih =>
      by_cases hcur : cur.iov_len > bytes
      · exact .inr ⟨[], cur, rest, bytes, rfl, by simp, hcur, by rw [iovDiscardLoop, if_pos hcur]⟩
      · rw [iovDiscardLoop, if_neg hcur, iov_size_cons]
        rcases ih (bytes - cur.iov_len) (total + cur.iov_len) with ⟨hle, hrun⟩ |
          ⟨A, c, B, x, rfl, hsize, hx, hrun⟩
        · exact .inl ⟨by omega, by rw [hrun, Nat.add_assoc]⟩
        · refine .inr ⟨cur :: A, c, B, x, rfl, ?_, hx, ?_⟩
          · rw [iov_size_cons]
            omega
          · rw [hrun]
            congr 1
            omega

theorem iov_discard_front_spec (iov : List iovec) (bytes : Nat) :
    (iov_discard_front iov bytes).1 = min bytes (iov_size iov) ∧
      iovAddrs (iov_discard_front iov bytes).2 = (iovAddrs iov).drop (min bytes (iov_size iov)) := by
  rcases iovDiscardLoop_spec (fun cur bytes => ⟨cur.iov_base + bytes, cur.iov_len - bytes⟩) iov
    bytes 0 with ⟨hle, hrun⟩ | ⟨A, c, B, x, rfl, hsize, hx, hrun⟩
  · rw [iov_discard_front, hrun, Nat.min_eq_right hle, Nat.zero_add]
    exact ⟨rfl, by rw [iovAddrs_nil, List.drop_eq_nil_of_le (by simp)]⟩
  · have hlt : bytes < iov_size (A ++ c :: B) := by simp; omega
    rw [iov_discard_front, hrun, Nat.min_eq_left hlt.le, Nat.zero_add, ← hsize]
    exact ⟨rfl, iovAddrs_cut_front A c B hx⟩

theorem iov_discard_back_spec (iov : List iovec) (bytes : Nat) :
    (iov_discard_back iov bytes).1 = min bytes (iov_size iov) ∧
      iovAddrs (iov_discard_back iov bytes).2 =
        (iovAddrs iov).take (iov_size iov - min bytes (iov_size iov)) := by
  by_cases hnil : iov.length = 0
  · rw [List.length_eq_zero_iff] at hnil
    subst hnil
    simp [iov_discard_back]
  rw [iov_discard_back, if_neg hnil]
  rcases iovDiscardLoop_spec (fun cur bytes => { cur with iov_len := cur.iov_len - bytes })
    iov.reverse bytes 0 with ⟨hle, hrun⟩ | ⟨A, c, B, x, hrev, hsize, hx, hrun⟩
  · rw [iov_size_reverse] at hle hrun
    rw [hrun, Nat.min_eq_right hle, Nat.zero_add, Nat.sub_self]
    exact ⟨rfl, rfl⟩
  · -- Read forwards, the vector is `B.reverse ++ c :: A.reverse`, cut `x` bytes short at `c`.
    have hiov : iov = B.reverse ++ c :: A.reverse := by
      rw [← List.reverse_reverse iov, hrev]
      simp
    have hlt : bytes < iov_size iov := by
      rw [hiov]
      simp
      omega
    rw [hrun, Nat.min_eq_left hlt.le, Nat.zero_add]
    dsimp only
    refine ⟨rfl, ?_⟩
    rw [List.reverse_cons, iovAddrs_append, iovAddrs_cons, iovAddrs_nil, List.append_nil, hiov,
      iovAddrs_append, iovAddrs_cons, ← List.append_assoc, List.take_append_of_le_length
      (by simp; omega), List.take_append, List.take_of_length_le (by simp; omega),
      length_iovAddrs, List.take_range'_of_length_ge (by simp; omega)]
    simp only [iov_size_append, iov_size_cons, iov_size_reverse]
    congr 2
    omega

-- for (i = 0, j = 0; i < iov_cnt && j < dst_iov_cnt && bytes; i++): the offset left and the
-- segments written to dst_iov[0, j).
def iovCopyLoop (dst_iov_cnt : Nat) : List iovec → Nat → Nat → List iovec → Nat × List iovec
  | [], offset, _, dst => (offset, dst)
  | v :: iov, offset, bytes, dst =>
      if dst.length < dst_iov_cnt ∧ bytes ≠ 0 then
        if offset ≥ v.iov_len then iovCopyLoop dst_iov_cnt iov (offset - v.iov_len) bytes dst
        else
          let len := min bytes (v.iov_len - offset)
          iovCopyLoop dst_iov_cnt iov 0 (bytes - len) (dst ++ [⟨v.iov_base + offset, len⟩])
      else (offset, dst)

-- Returns j and the destination array, whose entries from j on are left alone; the final
-- assert(offset == 0) fails as `none`.
def iov_copy (dst_iov : List iovec) (iov : List iovec) (offset bytes : Nat) :
    Option (Nat × List iovec) :=
  match iovCopyLoop dst_iov.length iov offset bytes [] with
  | (offset, dst) => if offset = 0 then some (dst.length, dst ++ dst_iov.drop dst.length) else none

-- With a slot for every source segment, and unless the loop is asked for no bytes at a
-- nonzero offset, the segments written are the window `[offset, offset + n)`.
theorem iovCopyLoop_spec (cnt : Nat) (iov : List iovec) (offset bytes : Nat) (dst : List iovec)
    (hoff : offset ≤ iov_size iov) (hstart : bytes ≠ 0 ∨ offset = 0)
    (hslots : dst.length + iov.length ≤ cnt) :
    ∃ segs, iovCopyLoop cnt iov offset bytes dst = (0, dst ++ segs) ∧
      iovAddrs segs = ((iovAddrs iov).drop offset).take (min bytes (iov_size iov - offset)) := by
  induction iov generalizing offset bytes dst with
  | nil =>
      rw [iov_size_nil, Nat.le_zero] at hoff
      subst hoff
      exact ⟨[], by rw [iovCopyLoop, List.append_nil], by simp⟩
  | cons v iov ih =>
      rw [iov_size_cons] at hoff
      rw [List.length_cons] at hslots
      by_cases hb : bytes = 0
      · -- Nothing to copy, and the offset is already 0.
        have h0 : offset = 0 := hstart.resolve_left (not_not.mpr hb)
        subst hb h0
        refine ⟨[], ?_, by simp⟩
        rw [iovCopyLoop, if_neg (fun h => h.2 rfl), List.append_nil]
      have hcond : dst.length < cnt ∧ bytes ≠ 0 := ⟨by omega, hb⟩
      by_cases hge : offset ≥ v.iov_len
      · obtain ⟨segs, hrun, hsegs⟩ := ih (offset - v.iov_len) bytes dst (by omega) (.inl hb)
          (by omega)
        refine ⟨segs, by rw [iovCopyLoop, if_pos hcond, if_pos hge, hrun], ?_⟩
        rw [hsegs, drop_iovAddrs_cons_of_le _ hge, iov_size_cons]
        congr 2
        omega
      · obtain ⟨segs, hrun, hsegs⟩ := ih 0 (bytes - min bytes (v.iov_len - offset))
          (dst ++ [⟨v.iov_base + offset, min bytes (v.iov_len - offset)⟩]) (Nat.zero_le _)
          (.inr rfl) (by simp; omega)
        refine ⟨⟨v.iov_base + offset, min bytes (v.iov_len - offset)⟩ :: segs, ?_, ?_⟩
        · rw [iovCopyLoop, if_pos hcond, if_neg hge]
          dsimp only
          rw [hrun, List.append_assoc, List.singleton_append]
        · have hn : min bytes (v.iov_len + iov_size iov - offset) =
              min bytes (v.iov_len - offset) +
                min (bytes - min bytes (v.iov_len - offset)) (iov_size iov - 0) := by omega
          rw [iovAddrs_cons, hsegs, iov_size_cons, hn, drop_iovAddrs_cons_of_lt _ (by omega),
            take_add_of_append (by simp only [List.length_range']; omega)
              (by simp only [List.length_range']; omega),
            List.take_range'_of_length_ge (by omega), List.drop_zero]

theorem iov_copy_spec (dst_iov iov : List iovec) (offset bytes : Nat)
    (hoff : offset ≤ iov_size iov) (hstart : bytes ≠ 0 ∨ offset = 0)
    (hslots : iov.length ≤ dst_iov.length) :
    ∃ segs, iov_copy dst_iov iov offset bytes =
        some (segs.length, segs ++ dst_iov.drop segs.length) ∧
      iovAddrs segs = ((iovAddrs iov).drop offset).take (min bytes (iov_size iov - offset)) := by
  obtain ⟨segs, hrun, hsegs⟩ :=
    iovCopyLoop_spec dst_iov.length iov offset bytes [] hoff hstart (by simpa using hslots)
  refine ⟨segs, ?_, hsegs⟩
  rw [iov_copy, hrun, List.nil_append]
  rfl

structure QEMUIOVector where
  iov : List iovec
  nalloc : Int
  size : Nat

def qemu_iovec_init (alloc_hint : Nat) : QEMUIOVector := ⟨[], alloc_hint, 0⟩

def qemu_iovec_init_external (iov : List iovec) : QEMUIOVector := ⟨iov, -1, iov_size iov⟩

def qemu_iovec_add (qiov : QEMUIOVector) (base len : Nat) : Option QEMUIOVector :=
  if qiov.nalloc = -1 then none  -- assert(qiov->nalloc != -1)
  else
    let nalloc := if (qiov.iov.length : Int) = qiov.nalloc then 2 * qiov.nalloc + 1 else qiov.nalloc
    some ⟨qiov.iov ++ [⟨base, len⟩], nalloc, qiov.size + len⟩

-- for (i = 0, done = 0; done < sbytes && i < src_cnt; i++); the offset left and the vector.
def qemuIovecConcatLoop (sbytes : Nat) :
    List iovec → Nat → Nat → QEMUIOVector → Option (Nat × QEMUIOVector)
  | [], soffset, _, dst => some (soffset, dst)
  | v :: src, soffset, done, dst =>
      if done < sbytes then
        if soffset < v.iov_len then
          let len := min (v.iov_len - soffset) (sbytes - done)
          match qemu_iovec_add dst (v.iov_base + soffset) len with
          | some dst => qemuIovecConcatLoop sbytes src 0 (done + len) dst
          | none => none
        else qemuIovecConcatLoop sbytes src (soffset - v.iov_len) done dst
      else some (soffset, dst)

def qemu_iovec_concat_iov (dst : QEMUIOVector) (src_iov : List iovec) (soffset sbytes : Nat) :
    Option QEMUIOVector :=
  if sbytes = 0 then some dst
  else if dst.nalloc = -1 then none  -- assert(dst->nalloc != -1)
  else
    match qemuIovecConcatLoop sbytes src_iov soffset 0 dst with
    | some (soffset, dst) => if soffset = 0 then some dst else none  -- assert(soffset == 0)
    | none => none

def qemu_iovec_concat (dst src : QEMUIOVector) (soffset sbytes : Nat) : Option QEMUIOVector :=
  qemu_iovec_concat_iov dst src.iov soffset sbytes

def qemu_iovec_reset (qiov : QEMUIOVector) : Option QEMUIOVector :=
  if qiov.nalloc = -1 then none else some { qiov with iov := [], size := 0 }

-- The size field is the sum of the segment lengths.
def QEMUIOVector.SizeOk (qiov : QEMUIOVector) : Prop := qiov.size = iov_size qiov.iov

theorem qemu_iovec_init_sizeOk (alloc_hint : Nat) : (qemu_iovec_init alloc_hint).SizeOk := rfl

theorem qemu_iovec_init_external_sizeOk (iov : List iovec) :
    (qemu_iovec_init_external iov).SizeOk := rfl

theorem qemu_iovec_add_eq {qiov : QEMUIOVector} (base len : Nat) (h : qiov.nalloc ≠ -1) :
    ∃ nalloc, nalloc ≠ -1 ∧
      qemu_iovec_add qiov base len = some ⟨qiov.iov ++ [⟨base, len⟩], nalloc, qiov.size + len⟩ := by
  refine ⟨if (qiov.iov.length : Int) = qiov.nalloc then 2 * qiov.nalloc + 1 else qiov.nalloc,
    ?_, by rw [qemu_iovec_add, if_neg h]⟩
  split_ifs <;> omega

theorem qemu_iovec_add_sizeOk {qiov qiov' : QEMUIOVector} {base len : Nat} (hok : qiov.SizeOk)
    (h : qemu_iovec_add qiov base len = some qiov') : qiov'.SizeOk := by
  by_cases hn : qiov.nalloc = -1
  · rw [qemu_iovec_add, if_pos hn] at h
    cases h
  obtain ⟨nalloc, -, hadd⟩ := qemu_iovec_add_eq base len hn
  rw [hadd, Option.some.injEq] at h
  subst h
  rw [QEMUIOVector.SizeOk, iov_size_append, hok]
  simp

theorem qemu_iovec_reset_sizeOk {qiov qiov' : QEMUIOVector} (h : qemu_iovec_reset qiov = some qiov') :
    qiov'.SizeOk := by
  rw [qemu_iovec_reset] at h
  split_ifs at h
  cases h
  rfl

-- The loop appends segments that cover the window of the source from `soffset` on, as long as
-- the offset is used up before `done` reaches `sbytes`.
theorem qemuIovecConcatLoop_spec (sbytes : Nat) (src : List iovec) (soffset done : Nat)
    (dst : QEMUIOVector) (hdst : dst.nalloc ≠ -1) (hoff : soffset ≤ iov_size src)
    (hdone : done ≤ sbytes) (hstart : soffset = 0 ∨ done < sbytes) :
    ∃ segs dst', qemuIovecConcatLoop sbytes src soffset done dst = some (0, dst') ∧
      dst'.nalloc ≠ -1 ∧ dst'.iov = dst.iov ++ segs ∧ dst'.size = dst.size + iov_size segs ∧
      iovAddrs segs =
        ((iovAddrs src).drop soffset).take (min (sbytes - done) (iov_size src - soffset)) := by
  induction src generalizing soffset done dst with
  | nil =>
      rw [iov_size_nil, Nat.le_zero] at hoff
      subst hoff
      exact ⟨[], dst, rfl, hdst, by simp, by simp, by simp⟩
  | cons v src ih =>
      rw [iov_size_cons] at hoff
      by_cases hcond : done < sbytes
      · by_cases hlt : soffset < v.iov_len
        · -- One segment appended, then the rest of the source from its start.
          obtain ⟨nalloc, hnalloc, hadd⟩ := qemu_iovec_add_eq (v.iov_base + soffset)
            (min (v.iov_len - soffset) (sbytes - done)) hdst
          obtain ⟨segs, dst', hrun, hdst', hiov, hsize, hsegs⟩ :=
            ih 0 (done + min (v.iov_len - soffset) (sbytes - done))
              ⟨dst.iov ++ [⟨v.iov_base + soffset, min (v.iov_len - soffset) (sbytes - done)⟩],
                nalloc, dst.size + min (v.iov_len - soffset) (sbytes - done)⟩
              hnalloc (Nat.zero_le _) (by omega) (.inl rfl)
          refine ⟨⟨v.iov_base + soffset, min (v.iov_len - soffset) (sbytes - done)⟩ :: segs, dst',
            ?_, hdst', ?_, ?_, ?_⟩
          · rw [qemuIovecConcatLoop, if_pos hcond, if_pos hlt]
            dsimp only
            rw [hadd]
            exact hrun
          · rw [hiov, List.append_assoc, List.singleton_append]
          · rw [hsize, iov_size_cons, Nat.add_assoc]
          · have hn : min (sbytes - done) (v.iov_len + iov_size src - soffset) =
                min (v.iov_len - soffset) (sbytes - done) +
                  min (sbytes - (done + min (v.iov_len - soffset) (sbytes - done)))
                    (iov_size src - 0) := by omega
            rw [iovAddrs_cons, hsegs, iov_size_cons, hn, drop_iovAddrs_cons_of_lt _ hlt,
              take_add_of_append (by simp only [List.length_range']; omega)
                (by simp only [List.length_range']; omega),
              List.take_range'_of_length_ge (by omega), List.drop_zero]
        · obtain ⟨segs, dst', hrun, hdst', hiov, hsize, hsegs⟩ :=
            ih (soffset - v.iov_len) done dst hdst (by omega) hdone (.inr hcond)
          refine ⟨segs, dst', ?_, hdst', hiov, hsize, ?_⟩
          · rw [qemuIovecConcatLoop, if_pos hcond, if_neg hlt, hrun]
          · rw [hsegs, drop_iovAddrs_cons_of_le _ (by omega), iov_size_cons]
            congr 2
            omega
      · -- `done` reached `sbytes`, and the offset was used up before.
        have h0 : soffset = 0 := hstart.resolve_right hcond
        subst h0
        refine ⟨[], dst, ?_, hdst, by simp, by simp, ?_⟩
        · rw [qemuIovecConcatLoop, if_neg hcond]
        · rw [show sbytes - done = 0 by omega, Nat.zero_min, List.take_zero, iovAddrs_nil]

-- Appending a window of the source: the segments added cover the bytes
-- `[soffset, soffset + min sbytes (iov_size - soffset))` of the source.
theorem qemu_iovec_concat_iov_spec (dst : QEMUIOVector) (src : List iovec) (soffset sbytes : Nat)
    (hdst : dst.nalloc ≠ -1) (hoff : soffset ≤ iov_size src) :
    ∃ segs dst', qemu_iovec_concat_iov dst src soffset sbytes = some dst' ∧
      dst'.iov = dst.iov ++ segs ∧ dst'.size = dst.size + iov_size segs ∧
      iovAddrs segs = ((iovAddrs src).drop soffset).take (min sbytes (iov_size src - soffset)) := by
  by_cases hs : sbytes = 0
  · subst hs
    exact ⟨[], dst, by rw [qemu_iovec_concat_iov, if_pos rfl], by simp, by simp, by simp⟩
  obtain ⟨segs, dst', hrun, -, hiov, hsize, hsegs⟩ :=
    qemuIovecConcatLoop_spec sbytes src soffset 0 dst hdst hoff (Nat.zero_le _) (.inr (by omega))
  refine ⟨segs, dst', ?_, hiov, hsize, by rw [hsegs, Nat.sub_zero]⟩
  rw [qemu_iovec_concat_iov, if_neg hs, if_neg hdst, hrun]
  rfl

theorem qemu_iovec_concat_iov_sizeOk {dst dst' : QEMUIOVector} {src : List iovec}
    {soffset sbytes : Nat} (hok : dst.SizeOk) (hdst : dst.nalloc ≠ -1)
    (hoff : soffset ≤ iov_size src) (h : qemu_iovec_concat_iov dst src soffset sbytes = some dst') :
    dst'.SizeOk := by
  obtain ⟨segs, dst'', hrun, hiov, hsize, -⟩ :=
    qemu_iovec_concat_iov_spec dst src soffset sbytes hdst hoff
  rw [hrun, Option.some.injEq] at h
  subst h
  rw [QEMUIOVector.SizeOk, hsize, hiov, iov_size_append, hok]

end Qemu.Util

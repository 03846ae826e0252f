import Qemu.Ui.VncWs

/-!
The 9P message codec (`fsdev/virtio-9p-marshal.c`). A message lies in a scatter-gather list of
buffers, each the list of its bytes; `v9fs_packunpack` copies between a flat run of bytes and
the list at an offset into its concatenation. `v9fs_marshal` and `v9fs_unmarshal` walk a format
string, one value per code: `b`, `w`, `d`, `q` are integers of 1, 2, 4 and 8 bytes, `s` a string
after its 16-bit length, and `Q`, `S`, `I`, `A` the structures `V9fsQID`, `V9fsStat`,
`V9fsIattr` and `V9fsStatDotl`, which the code reads and writes by a nested call on the format of
their fields; a structure is here the list of its fields in that order. The host is
little-endian, so `le16_to_cpu` and its kin leave a value as it is and `bswap` changes nothing.
-/

namespace Qemu.Fsdev

open Qemu.Ui

def ENOBUFS : Int := 105

structure V9fsString where
  size : UInt16
  -- the buffer `data` points to, with its terminating NUL; `none` is `NULL`
  data : Option (List UInt8)
deriving DecidableEq, Repr

-- The value of one code: a structure is its fields, in the order of its format.
inductive V9fsField
  | b (val : UInt8)
  | w (val : UInt16)
  | d (val : UInt32)
  | q (val : UInt64)
  | s (str : V9fsString)
deriving DecidableEq, Repr

/-! ### Copies between a buffer and the scatter-gather list -/

-- The loop of `v9fs_packunpack` with `pack` clear: from the element at hand on, `offset` into
-- it and `size` bytes left, the bytes copied out.
def unpackLoop : List (List UInt8) → Nat → Nat → List UInt8
  | [], _, _ => []
  | sg :: sgs, offset, size =>
      if size = 0 then []
      -- skip this sg
      else if offset ≥ sg.length then unpackLoop sgs (offset - sg.length) size
      else
        let len := min (sg.length - offset) size
        if size - len ≠ 0 then (sg.drop offset).take len ++ unpackLoop sgs 0 (size - len)
        else (sg.drop offset).take len

-- The loop of `v9fs_packunpack` with `pack` set: the elements after the copy of `src` into them,
-- and the number of bytes copied.
def packLoop : List (List UInt8) → Nat → List UInt8 → List (List UInt8) × Nat
  | [], _, _ => ([], 0)
  | sg :: sgs, offset, src =>
      if src.length = 0 then (sg :: sgs, 0)
      else if offset ≥ sg.length then
        let r := packLoop sgs (offset - sg.length) src
        (sg :: r.1, r.2)
      else
        let len := min (sg.length - offset) src.length
        let sg' := sg.take offset ++ src.take len ++ sg.drop (offset + len)
        if src.length - len ≠ 0 then
          let r := packLoop sgs 0 (src.drop len)
          (sg' :: r.1, len + r.2)
        else (sg' :: sgs, len)

-- `static ssize_t v9fs_unpack(void *dst, struct iovec *out_sg, int out_num, size_t offset,
-- size_t size)`: the bytes copied, or `-ENOBUFS` when there were fewer than `size`.
def v9fs_unpack (out_sg : List (List UInt8)) (offset size : Nat) : Except Int (List UInt8) :=
  let copied := unpackLoop out_sg offset size
  if copied.length < size then .error (-ENOBUFS) else .ok copied

-- `ssize_t v9fs_pack(struct iovec *in_sg, int in_num, size_t offset, const void *src,
-- size_t size)`: the elements after it, written even when it fails, and its result.
def v9fs_pack (in_sg : List (List UInt8)) (offset : Nat) (src : List UInt8) :
    List (List UInt8) × Except Int Nat :=
  let r := packLoop in_sg offset src
  (r.1, if r.2 < src.length then .error (-ENOBUFS) else .ok r.2)

-- `unpackLoop` reads the concatenation of the elements, whatever the partition.
theorem unpackLoop_eq (sgs : List (List UInt8)) (offset size : Nat) :
    unpackLoop sgs offset size = (sgs.flatten.drop offset).take size := by
  induction sgs generalizing offset size with
  | nil => simp [unpackLoop]
  | cons sg sgs ih =>
      rw [unpackLoop, List.flatten_cons]
      by_cases h0 : size = 0
      · simp [h0]
      by_cases hskip : offset ≥ sg.length
      · -- skip this sg
        rw [if_neg h0, if_pos hskip, ih, List.drop_append,
          List.drop_eq_nil_of_le hskip, List.nil_append]
      · rw [if_neg h0, if_neg hskip, List.drop_append_of_le_length (by omega),
          List.take_append, List.length_drop]
        dsimp only
        split
        · -- the copy runs to the end of this sg and goes on in the next
          rename_i hmore
          have hlen : min (sg.length - offset) size = sg.length - offset := by omega
          have hrest : (sg.drop offset).length ≤ size := by simp only [List.length_drop]; omega
          rw [hlen, ih, List.drop_zero, List.take_of_length_le (by simp),
            List.take_of_length_le hrest]
        · -- the copy ends inside this sg
          rename_i hdone
          have hlen : min (sg.length - offset) size = size := by omega
          rw [hlen, show size - (sg.length - offset) = 0 by omega, List.take_zero, List.append_nil]

-- `v9fs_unpack` copies the `size` bytes at `offset` of the flat view when they are all there
-- (nothing to copy is always there).
theorem v9fs_unpack_eq (sgs : List (List UInt8)) (offset size : Nat) :
    v9fs_unpack sgs offset size =
      if size ≤ sgs.flatten.length - offset then .ok ((sgs.flatten.drop offset).take size)
      else .error (-ENOBUFS) := by
  have hlen : (unpackLoop sgs offset size).length = min size (sgs.flatten.length - offset) := by
    rw [unpackLoop_eq, List.length_take, List.length_drop]
  unfold v9fs_unpack
  dsimp only
  rw [hlen, unpackLoop_eq]
  by_cases hfit : size ≤ sgs.flatten.length - offset
  · rw [if_neg (by omega), if_pos hfit]
  · rw [if_pos (by omega), if_neg hfit]

-- `packLoop` copies as much of `src` as fits after `offset` in the flat view.
theorem packLoop_copied (sgs : List (List UInt8)) (offset : Nat) (src : List UInt8) :
    (packLoop sgs offset src).2 = min src.length (sgs.flatten.length - offset) := by
  induction sgs generalizing offset src with
  | nil => simp [packLoop]
  | cons sg sgs ih =>
      rw [packLoop]
      simp only [List.flatten_cons, List.length_append]
      by_cases h0 : src.length = 0
      · rw [if_pos h0, h0, Nat.zero_min]
      by_cases hskip : offset ≥ sg.length
      · rw [if_neg h0, if_pos hskip]
        show (packLoop sgs (offset - sg.length) src).2 = _
        rw [ih]
        omega
      · rw [if_neg h0, if_neg hskip]
        split
        · show _ + (packLoop sgs 0 _).2 = _
          rw [ih, List.length_drop]
          omega
        · show min _ _ = _
          omega

-- The element a copy lands in keeps its length: what precedes `offset`, the copy, the rest.
theorem written_length (sg src : List UInt8) {offset : Nat} (hoff : offset < sg.length) :
    (sg.take offset ++ src.take (min (sg.length - offset) src.length) ++
      sg.drop (offset + min (sg.length - offset) src.length)).length = sg.length := by
  simp only [List.length_append, List.length_take, List.length_drop]
  omega

-- `packLoop` keeps the partition: each element keeps its length.
theorem packLoop_lengths (sgs : List (List UInt8)) (offset : Nat) (src : List UInt8) :
    (packLoop sgs offset src).1.map List.length = sgs.map List.length := by
  induction sgs generalizing offset src with
  | nil => simp [packLoop]
  | cons sg sgs ih =>
      rw [packLoop]
      by_cases h0 : src.length = 0
      · rw [if_pos h0]
      by_cases hskip : offset ≥ sg.length
      · rw [if_neg h0, if_pos hskip]
        simp only [List.map_cons, ih]
      · rw [if_neg h0, if_neg hskip]
        have hsg := written_length sg src (Nat.lt_of_not_ge hskip)
        dsimp only
        split
        · simp only [List.map_cons, ih, hsg]
        · simp only [List.map_cons, hsg]

-- `packLoop` writes the bytes it copies at `offset` of the flat view and leaves the others.
theorem packLoop_flatten (sgs : List (List UInt8)) (offset : Nat) (src : List UInt8) :
    (packLoop sgs offset src).1.flatten =
      sgs.flatten.take offset ++ src.take (packLoop sgs offset src).2 ++
        sgs.flatten.drop (offset + (packLoop sgs offset src).2) := by
  induction sgs generalizing offset src with
  | nil => simp [packLoop]
  | cons sg sgs ih =>
      rw [packLoop]
      simp only [List.flatten_cons]
      by_cases h0 : src.length = 0
      · simp only [if_pos h0, List.flatten_cons, List.take_zero, List.append_nil, Nat.add_zero,
          List.take_append_drop]
      by_cases hskip : offset ≥ sg.length
      · -- skip this sg: the copy lies in the rest
        rw [if_neg h0, if_pos hskip]
        show sg ++ (packLoop sgs (offset - sg.length) src).1.flatten = _
        generalize hk : (packLoop sgs (offset - sg.length) src).2 = k at ih
        have htake : (sg ++ sgs.flatten).take offset = sg ++ sgs.flatten.take (offset - sg.length) := by
          rw [List.take_append, List.take_of_length_le hskip]
        have hdrop : (sg ++ sgs.flatten).drop (offset + k) =
            sgs.flatten.drop (offset - sg.length + k) := by
          rw [List.drop_append, List.drop_eq_nil_of_le (by omega), List.nil_append]
          congr 1
          omega
        rw [ih, hk, htake, hdrop]
        simp only [List.append_assoc]
      · rw [if_neg h0, if_neg hskip]
        split
        · -- the copy fills this sg from `offset` and goes on at the start of the next
          rename_i hmore
          have hlen : min (sg.length - offset) src.length = sg.length - offset := by omega
          show _ ++ (packLoop sgs 0 _).1.flatten = _ ++ src.take (_ + (packLoop sgs 0 _).2) ++ _
          rw [hlen, ih]
          generalize (packLoop sgs 0 (src.drop (sg.length - offset))).2 = k
          have htake : (sg ++ sgs.flatten).take offset = sg.take offset := by
            rw [List.take_append, show offset - sg.length = 0 by omega, List.take_zero,
              List.append_nil]
          have hdrop : (sg ++ sgs.flatten).drop (offset + (sg.length - offset + k)) =
              sgs.flatten.drop k := by
            rw [List.drop_append, List.drop_eq_nil_of_le (by omega), List.nil_append]
            congr 1
            omega
          rw [htake, hdrop, List.take_add, List.drop_eq_nil_of_le (by omega : sg.length ≤
            offset + (sg.length - offset)), List.take_zero, Nat.zero_add]
          simp only [List.append_assoc, List.append_nil, List.nil_append]
        · -- the copy ends inside this sg
          rename_i hdone
          have hlen : min (sg.length - offset) src.length = src.length := by omega
          show _ ++ sgs.flatten = _ ++ src.take (min (sg.length - offset) src.length) ++ _
          rw [hlen, List.take_of_length_le (Nat.le_refl _)]
          have htake : (sg ++ sgs.flatten).take offset = sg.take offset := by
            rw [List.take_append, show offset - sg.length = 0 by omega, List.take_zero,
              List.append_nil]
          have hdrop : (sg ++ sgs.flatten).drop (offset + src.length) =
              sg.drop (offset + src.length) ++ sgs.flatten := by
            rw [List.drop_append_of_le_length (by omega)]
          rw [htake, hdrop]
          simp only [List.append_assoc]

-- `v9fs_pack` of bytes that fit after `offset` writes them there in the flat view, keeps the
-- partition and returns their number (and `v9fs_unpack_eq` reads them back under any partition).
theorem v9fs_pack_fits {sgs : List (List UInt8)} {offset : Nat} {src : List UInt8}
    (hfit : src.length ≤ sgs.flatten.length - offset) :
    (v9fs_pack sgs offset src).1.flatten =
        sgs.flatten.take offset ++ src ++ sgs.flatten.drop (offset + src.length) ∧
      (v9fs_pack sgs offset src).1.map List.length = sgs.map List.length ∧
      (v9fs_pack sgs offset src).2 = .ok src.length := by
  have hk : (packLoop sgs offset src).2 = src.length := by
    rw [packLoop_copied]
    omega
  refine ⟨?_, packLoop_lengths sgs offset src, ?_⟩
  · show (packLoop sgs offset src).1.flatten = _
    rw [packLoop_flatten, hk, List.take_of_length_le (Nat.le_refl _)]
  · show (if (packLoop sgs offset src).2 < src.length then _ else _) = _
    rw [hk, if_neg (Nat.lt_irrefl _)]

/-! ### Unmarshalling -/

-- What the case of one code did: the values it read, how far it moved `offset` and the
-- `copied` it left.
abbrev CodeResult := Except Int (List V9fsField × Nat × Nat)

-- The cases of the integer codes and of `s`, at `offset`; `none` for a code they do not know.
def unmarshalScalar (out_sg : List (List UInt8)) (c : Char) (offset : Nat) : Option CodeResult :=
  let word (n : Nat) (mk : Nat → V9fsField) : CodeResult :=
    (v9fs_unpack out_sg offset n).map fun bytes => ([mk (ByteWord.val bytes)], n, n)
  match c with
  | 'b' => some (word 1 fun v => .b (UInt8.ofNat v))
  | 'w' => some (word 2 fun v => .w (UInt16.ofNat v))
  | 'd' => some (word 4 fun v => .d (UInt32.ofNat v))
  | 'q' => some (word 8 fun v => .q (UInt64.ofNat v))
  | 's' => some <|
      -- the size by a nested `v9fs_unmarshal(..., "w", &str->size)`
      match v9fs_unpack out_sg offset 2 with
      | .error e => .error e
      | .ok sizeBytes =>
          let size : UInt16 := UInt16.ofNat (ByteWord.val sizeBytes)
          match v9fs_unpack out_sg (offset + 2) size.toNat with
          | .error e => .error e
          | .ok data =>
              if data.length > 0 then .ok ([.s ⟨size, some (data ++ [0])⟩], 2 + data.length,
                data.length)
              -- `copied > 0` fails: `v9fs_string_free(str)`
              else .ok ([.s ⟨0, none⟩], 2, 0)
  | _ => none

-- The loop of `v9fs_unmarshal` over the codes left, given the cases: the values read and
-- `offset` at the end. An unknown code does nothing, and the loop adds the last `copied` to
-- `offset` once more.
def unmarshalLoop (case : Char → Nat → Option CodeResult) :
    List Char → Nat → Nat → List V9fsField → Except Int (List V9fsField × Nat)
  | [], offset, _, vals => .ok (vals, offset)
  | c :: fmt, offset, copied, vals =>
      match case c offset with
      | none => unmarshalLoop case fmt (offset + copied) copied vals
      | some (.error e) => .error e
      | some (.ok (read, moved, copied)) =>
          unmarshalLoop case fmt (offset + moved) copied (vals ++ read)

-- A nested call `v9fs_unmarshal(out_sg, out_num, offset, bswap, fmt, ...)` as the case of the
-- code that makes it: what it returns is both how far `offset` moves and `copied`.
def unmarshalNested (case : Char → Nat → Option CodeResult) (fmt : String) (offset : Nat) :
    CodeResult :=
  (unmarshalLoop case fmt.toList offset 0 []).map fun r => (r.1, r.2 - offset, r.2 - offset)

-- The cases inside a `V9fsStat`, whose format has `Q` and no other structure.
def unmarshalInnerCase (out_sg : List (List UInt8)) (c : Char) (offset : Nat) : Option CodeResult :=
  if c = 'Q' then some (unmarshalNested (unmarshalScalar out_sg) "bdq" offset)
  else unmarshalScalar out_sg c offset

def unmarshalCase (out_sg : List (List UInt8)) (c : Char) (offset : Nat) : Option CodeResult :=
  match c with
  | 'Q' => some (unmarshalNested (unmarshalScalar out_sg) "bdq" offset)
  | 'S' => some (unmarshalNested (unmarshalInnerCase out_sg) "wwdQdddqsssssddd" offset)
  | 'I' => some (unmarshalNested (unmarshalScalar out_sg) "ddddqqqqq" offset)
  | c => unmarshalScalar out_sg c offset

-- `ssize_t v9fs_unmarshal(struct iovec *out_sg, int out_num, size_t offset, int bswap,
-- const char *fmt, ...)`: the values read and `offset - old_offset`, or the error.
def v9fs_unmarshal (out_sg : List (List UInt8)) (offset : Nat) (_bswap : Bool) (fmt : String) :
    Except Int (List V9fsField × Nat) :=
  (unmarshalLoop (unmarshalCase out_sg) fmt.toList offset 0 []).map fun r => (r.1, r.2 - offset)

/-! ### Marshalling -/

-- What the case of one code did to the elements: the elements after it, and the arguments
-- left with how far `offset` moves and the `copied` it leaves, or the error. `none` where the
-- arguments are not the values the code takes.
abbrev PackResult := Option (List (List UInt8) × Except Int (List V9fsField × Nat × Nat))

-- The cases of the integer codes and of `s`; the bytes of an integer are those of the value in
-- memory. A string whose buffer holds fewer than `size` bytes is not a value `s` takes.
def marshalScalar (in_sg : List (List UInt8)) (c : Char) (offset : Nat) (args : List V9fsField) :
    Option PackResult :=
  let word (n v : Nat) (rest : List V9fsField) : PackResult :=
    let r := v9fs_pack in_sg offset (leBytes n v)
    some (r.1, r.2.map fun k => (rest, k, k))
  match c, args with
  | 'b', .b v :: rest => some (word 1 v.toNat rest)
  | 'w', .w v :: rest => some (word 2 v.toNat rest)
  | 'd', .d v :: rest => some (word 4 v.toNat rest)
  | 'q', .q v :: rest => some (word 8 v.toNat rest)
  | 's', .s str :: rest => some <|
      let r := v9fs_pack in_sg offset (leBytes 2 str.size.toNat)
      match r.2 with
      | .error e => some (r.1, .error e)
      | .ok k =>
          let buf := str.data.getD []
          if buf.length < str.size.toNat then none
          else
            let r' := v9fs_pack r.1 (offset + k) (buf.take str.size.toNat)
            some (r'.1, r'.2.map fun k' => (rest, k + k', k'))
  | 'b', _ | 'w', _ | 'd', _ | 'q', _ | 's', _ => some none
  | _, _ => none

-- The loop of `v9fs_marshal` over the codes left, as `unmarshalLoop`, with the arguments
-- left; the elements after it, and `offset` at the end or the error.
def marshalLoop (case : List (List UInt8) → Char → Nat → List V9fsField → Option PackResult) :
    List Char → List (List UInt8) → Nat → Nat → List V9fsField →
      Option (List (List UInt8) × Except Int Nat)
  | [], in_sg, offset, _, _ => some (in_sg, .ok offset)
  | c :: fmt, in_sg, offset, copied, args =>
      match case in_sg c offset args with
      | none => marshalLoop case fmt in_sg (offset + copied) copied args
      | some none => none
      | some (some (in_sg, .error e)) => some (in_sg, .error e)
      | some (some (in_sg, .ok (rest, moved, copied))) =>
          marshalLoop case fmt in_sg (offset + moved) copied rest

-- The arguments a format takes from the front of `args`, and the rest.
def marshalNested (case : List (List UInt8) → Char → Nat → List V9fsField → Option PackResult)
    (fields : Nat) (fmt : String) (in_sg : List (List UInt8)) (offset : Nat)
    (args : List V9fsField) : PackResult :=
  (marshalLoop case fmt.toList in_sg offset 0 (args.take fields)).map fun r =>
    (r.1, r.2.map fun end_ => (args.drop fields, end_ - offset, end_ - offset))

-- The cases inside a `V9fsStat` or a `V9fsStatDotl`, whose formats have `Q` and no other
-- structure.
def marshalInnerCase (in_sg : List (List UInt8)) (c : Char) (offset : Nat)
    (args : List V9fsField) : Option PackResult :=
  if c = 'Q' then some (marshalNested marshalScalar 3 "bdq" in_sg offset args)
  else marshalScalar in_sg c offset args

def marshalCase (in_sg : List (List UInt8)) (c : Char) (offset : Nat) (args : List V9fsField) :
    Option PackResult :=
  match c with
  | 'Q' => some (marshalNested marshalScalar 3 "bdq" in_sg offset args)
  | 'S' => some (marshalNested marshalInnerCase 18 "wwdQdddqsssssddd" in_sg offset args)
  | 'A' => some (marshalNested marshalInnerCase 22 "qQdddqqqqqqqqqqqqqqq" in_sg offset args)
  | c => marshalScalar in_sg c offset args

-- `ssize_t v9fs_marshal(struct iovec *in_sg, int in_num, size_t offset, int bswap,
-- const char *fmt, ...)`: the elements after it and `offset - old_offset`, or the error.
def v9fs_marshal (in_sg : List (List UInt8)) (offset : Nat) (_bswap : Bool) (fmt : String)
    (args : List V9fsField) : Option (List (List UInt8) × Except Int Nat) :=
  (marshalLoop marshalCase fmt.toList in_sg offset 0 args).map fun r =>
    (r.1, r.2.map fun end_ => end_ - offset)

-- The empty string goes out as its two length bytes; read back, under another partition of the
-- same bytes, it has no buffer.
theorem v9fs_unmarshal_empty_string :
    v9fs_marshal [[7], [7]] 0 true "s" [.s ⟨0, some [0]⟩] = some ([[0], [0]], .ok 2) ∧
      v9fs_unmarshal [[0, 0]] 0 true "s" = .ok ([.s ⟨0, none⟩], 2) := by
  decide

end Qemu.Fsdev

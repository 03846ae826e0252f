import Qemu.Migration.QemuFile
import Qemu.Migration.PageCache
import Qemu.Xbzrle

/-!
RAM migration (`arch_init.c`): the sender walks the dirty bitmap and sends each dirty
page as a repeated byte (`COMPRESS`), in full (`PAGE`) or as an XBZRLE delta against
the copy it keeps in the page cache; the receiver applies the records to its RAM.
RAM is addressed by `ram_addr_t`; a block's host pointer is its `offset` in it.
The target is i386, with 4 KiB pages.
-/

namespace Qemu.Migration

open ByteMem Qemu.Xbzrle

def TARGET_PAGE_BITS : Nat := 12

def TARGET_PAGE_SIZE : Nat := 1 <<< TARGET_PAGE_BITS

theorem TARGET_PAGE_SIZE_eq : TARGET_PAGE_SIZE = 4096 := rfl

def RAM_SAVE_FLAG_COMPRESS : Nat := 0x02
def RAM_SAVE_FLAG_MEM_SIZE : Nat := 0x04
def RAM_SAVE_FLAG_PAGE : Nat := 0x08
def RAM_SAVE_FLAG_EOS : Nat := 0x10
def RAM_SAVE_FLAG_CONTINUE : Nat := 0x20
def RAM_SAVE_FLAG_XBZRLE : Nat := 0x40

def ENCODING_FLAG_XBZRLE : Nat := 0x1

def EINVAL : Int := 22

structure RAMBlock where
  idstr : List UInt8
  offset : Nat
  length : Nat
deriving Inhabited

-- `is_dup_page`: every vector of the page equals the first byte splatted, that is,
-- every byte equals the first.
def is_dup_page (page : List UInt8) : Bool :=
  page.all (· == page[0]!)

/-! ### The sending side -/

-- What `arch_init.c` keeps between calls on the sending side.
structure RamSave where
  ram : Mem
  migration_bitmap : Nat → Bool
  cache : Option PageCache
  encoded_buf : Mem
  last_seen_block : Option Nat
  last_sent_block : Option Nat
  last_offset : Nat

-- `find_next_bit`: the first set bit in `[offset, size)`, `size` when there is none.
def find_next_bit (addr : Nat → Bool) (size offset : Nat) : Nat :=
  if offset ≥ size then size else scan (size - offset) offset
where
  scan : Nat → Nat → Nat
    | 0, i => i
    | n + 1, i => if addr i then i else scan n (i + 1)

def migration_bitmap_find_and_reset_dirty (bitmap : Nat → Bool) (block : RAMBlock)
    (start : Nat) : Nat × (Nat → Bool) :=
  let base := block.offset >>> TARGET_PAGE_BITS
  let nr := base + (start >>> TARGET_PAGE_BITS)
  let size := base + (block.length >>> TARGET_PAGE_BITS)
  let next := find_next_bit bitmap size nr
  let bitmap := if next < size then Function.update bitmap next false else bitmap
  ((next - base) <<< TARGET_PAGE_BITS, bitmap)

-- `save_block_hdr`: the stream and the count of bytes it took.
def save_block_hdr (f : QEMUFile) (block : RAMBlock) (offset cont flag : Nat) : QEMUFile × Nat :=
  let f := qemu_put_be64 f (offset ||| cont ||| flag)
  if cont = 0 then
    (qemu_put_buffer (qemu_put_byte f block.idstr.length) block.idstr, 8 + 1 + block.idstr.length)
  else (f, 8)

-- `save_xbzrle_page`: `-1` asks the caller to send the page in full; `none` is a failed
-- assertion (of the cache or the encoder) or a `NULL` cached page.
def save_xbzrle_page (s : RamSave) (f : QEMUFile) (current_data : List UInt8)
    (current_addr : Nat) (block : RAMBlock) (offset cont : Nat) (last_stage : Bool) :
    Option (Int × QEMUFile × RamSave) :=
  match s.cache with
  | none => none
  | some cache =>
  if !cache_is_cached cache current_addr then
    let cache := if !last_stage then cache_insert cache current_addr current_data else cache
    some (-1, f, { s with cache := some cache })
  else
    match get_cached_data cache current_addr with
    | none => none
    | some prev_cached_page =>
      -- XBZRLE encoding (if there is no overflow)
      match xbzrle_encode_buffer prev_cached_page current_data TARGET_PAGE_SIZE s.encoded_buf
          TARGET_PAGE_SIZE with
      | none => none
      | some (encoded_len, encoded_buf) =>
        let s := { s with encoded_buf := encoded_buf }
        if encoded_len = 0 then some (0, f, s)
        else if encoded_len = -1 then
          -- update data in the cache
          some (-1, f, { s with cache := some (cache_write_data cache current_addr current_data) })
        else
          let s := if !last_stage then
            { s with cache := some (cache_write_data cache current_addr current_data) } else s
          let (f, bytes_sent) := save_block_hdr f block offset cont RAM_SAVE_FLAG_XBZRLE
          let f := qemu_put_byte f ENCODING_FLAG_XBZRLE
          let f := qemu_put_be16 f encoded_len.toNat
          let f := qemu_put_buffer f (read encoded_buf 0 encoded_len.toNat)
          some (bytes_sent + encoded_len + 1 + 2, f, s)

-- `int cont = (block == last_sent_block) ? RAM_SAVE_FLAG_CONTINUE : 0`.
def pageCont (s : RamSave) (b : Nat) : Nat :=
  if s.last_sent_block = some b then RAM_SAVE_FLAG_CONTINUE else 0

-- The body of `ram_save_block`'s loop for the dirty page at `offset` in block `b`.
def savePage (blocks : List RAMBlock) (xbzrle last_stage : Bool) (s : RamSave) (f : QEMUFile)
    (b offset : Nat) : Option (Int × QEMUFile × RamSave) :=
  let block := blocks[b]!
  let cont := pageCont s b
  let p := read s.ram (block.offset + offset) TARGET_PAGE_SIZE
  -- In doubt sent page as normal
  let sent : Option (Int × List UInt8 × QEMUFile × RamSave) :=
    if is_dup_page p then
      let (f, bytes_sent) := save_block_hdr f block offset cont RAM_SAVE_FLAG_COMPRESS
      some (bytes_sent + 1, p, qemu_put_byte f p[0]!.toNat, s)
    else if xbzrle then
      let current_addr := block.offset + offset
      match save_xbzrle_page s f p current_addr block offset cont last_stage with
      | none => none
      | some (bytes_sent, f, s) =>
        if !last_stage then
          match s.cache.bind (get_cached_data · current_addr) with
          | none => none
          | some p => some (bytes_sent, p, f, s)
        else some (bytes_sent, p, f, s)
    else some (-1, p, f, s)
  sent.map fun (bytes_sent, p, f, s) =>
    -- XBZRLE overflow or normal page
    if bytes_sent = -1 then
      let (f, n) := save_block_hdr f block offset cont RAM_SAVE_FLAG_PAGE
      ((n + TARGET_PAGE_SIZE : Nat), qemu_put_buffer f p, s)
    else (bytes_sent, f, s)

-- One pass of the `while (true)` loop of `ram_save_block` at block `b` and `offset`;
-- `loop` runs the passes after it. It returns `bytes_sent` and where the loop stopped.
def ramSaveStep (blocks : List RAMBlock) (xbzrle last_stage : Bool) (last_seen_block : Option Nat)
    (last_offset : Nat)
    (loop : Nat → Nat → Bool → Int → RamSave → QEMUFile → Option (Int × Nat × Nat × RamSave × QEMUFile))
    (b offset : Nat) (complete_round : Bool) (bytes_sent : Int) (s : RamSave) (f : QEMUFile) :
    Option (Int × Nat × Nat × RamSave × QEMUFile) :=
  let block := blocks[b]!
  let (offset, bitmap) := migration_bitmap_find_and_reset_dirty s.migration_bitmap block offset
  let s := { s with migration_bitmap := bitmap }
  if complete_round ∧ last_seen_block = some b ∧ offset ≥ last_offset then
    some (bytes_sent, b, offset, s, f)
  else if offset ≥ block.length then
    if b + 1 < blocks.length then loop (b + 1) 0 complete_round bytes_sent s f
    else loop 0 0 true bytes_sent s f
  else
    match savePage blocks xbzrle last_stage s f b offset with
    | none => none
    | some (bytes_sent, f, s) =>
      if bytes_sent > 0 then some (bytes_sent, b, offset, { s with last_sent_block := some b }, f)
      else
        -- the page is unmodified: continue to the next
        loop b offset complete_round bytes_sent s f

-- The loop itself; `none` when it does not stop within `fuel` passes.
def ramSaveLoop (blocks : List RAMBlock) (xbzrle last_stage : Bool) (last_seen_block : Option Nat)
    (last_offset : Nat) :
    Nat → Nat → Nat → Bool → Int → RamSave → QEMUFile → Option (Int × Nat × Nat × RamSave × QEMUFile)
  | 0, _, _, _, _, _, _ => none
  | fuel + 1, b, offset, complete_round, bytes_sent, s, f =>
    ramSaveStep blocks xbzrle last_stage last_seen_block last_offset
      (ramSaveLoop blocks xbzrle last_stage last_seen_block last_offset fuel) b offset complete_round
      bytes_sent s f

-- Passes enough for one call: each visits a block once per round or clears a dirty bit.
def ramSaveFuel (blocks : List RAMBlock) : Nat :=
  2 * (blocks.length + 1) + (blocks.map fun block => block.length >>> TARGET_PAGE_BITS).sum + 1

-- `static int ram_save_block(QEMUFile *f, bool last_stage)`.
def ram_save_block (blocks : List RAMBlock) (xbzrle : Bool) (s : RamSave) (f : QEMUFile)
    (last_stage : Bool) : Option (Int × RamSave × QEMUFile) :=
  match ramSaveLoop blocks xbzrle last_stage s.last_seen_block s.last_offset (ramSaveFuel blocks)
      (s.last_seen_block.getD 0) s.last_offset false 0 s f with
  | none => none
  | some (bytes_sent, b, offset, s, f) =>
    some (bytes_sent, { s with last_seen_block := some b, last_offset := offset }, f)

-- `migration_bitmap_sync`: the pages the guest dirtied since the last sync, in the
-- migration dirty log `dirty` (by page number), move to the bitmap.
def migration_bitmap_sync (blocks : List RAMBlock) (dirty bitmap : Nat → Bool) :
    (Nat → Bool) × (Nat → Bool) :=
  blocks.foldl (fun acc block =>
    (List.range ((block.length + TARGET_PAGE_SIZE - 1) / TARGET_PAGE_SIZE)).foldl
      (fun (dirty, bitmap) k =>
        let nr := (block.offset + k * TARGET_PAGE_SIZE) >>> TARGET_PAGE_BITS
        if dirty nr then (Function.update dirty nr false, Function.update bitmap nr true)
        else (dirty, bitmap)) acc) (dirty, bitmap)

def last_ram_offset (blocks : List RAMBlock) : Nat :=
  (blocks.map fun block => block.offset + block.length).foldl max 0

def ram_bytes_total (blocks : List RAMBlock) : Nat :=
  (blocks.map RAMBlock.length).sum

-- `ram_save_setup`: the sender's state, the dirty log after the first sync, and the
-- stream with the block list; `none` when the cache cannot be made (it returns `-1`).
def ram_save_setup (blocks : List RAMBlock) (xbzrle : Bool) (xbzrle_cache_size : Nat)
    (ram : Mem) (dirty : Nat → Bool) (f : QEMUFile) : Option (RamSave × (Nat → Bool) × QEMUFile) :=
  let ram_pages := last_ram_offset blocks >>> TARGET_PAGE_BITS
  let s : RamSave :=
    { ram := ram
      migration_bitmap := fun n => decide (n < ram_pages)
      cache := none
      encoded_buf := fun _ => 0
      last_seen_block := none
      last_sent_block := none
      last_offset := 0 }
  let s? : Option RamSave :=
    if xbzrle then
      (cache_init (xbzrle_cache_size / TARGET_PAGE_SIZE) TARGET_PAGE_SIZE).map
        fun cache => { s with cache := some cache }
    else some s
  s?.map fun s =>
    let (dirty, bitmap) := migration_bitmap_sync blocks dirty s.migration_bitmap
    let f := qemu_put_be64 f (ram_bytes_total blocks ||| RAM_SAVE_FLAG_MEM_SIZE)
    let f := blocks.foldl (fun f block =>
      qemu_put_be64 (qemu_put_buffer (qemu_put_byte f block.idstr.length) block.idstr)
        block.length) f
    ({ s with migration_bitmap := bitmap }, dirty, qemu_put_be64 f RAM_SAVE_FLAG_EOS)

/-! ### The receiving side -/

-- What the receiving side keeps: its RAM, the `block` that `host_from_stream_offset`
-- keeps in a static, and `XBZRLE.decoded_buf`.
structure RamLoad where
  ram : Mem
  block : Option Nat
  decoded_buf : Mem

-- The string a `char` array holds: the bytes before its first NUL.
def cstr (s : List UInt8) : List UInt8 := s.takeWhile (· ≠ 0)

-- `host_from_stream_offset`: the host address of the page, `none` for `NULL`.
def host_from_stream_offset (blocks : List RAMBlock) (r : RamLoad) (f : QEMUFile)
    (offset flags : Nat) : Option Nat × RamLoad × QEMUFile :=
  if flags &&& RAM_SAVE_FLAG_CONTINUE ≠ 0 then
    match r.block with
    | none => (none, r, f)
    | some b => (some (blocks[b]!.offset + offset), r, f)
  else
    let (len, f) := qemu_get_byte f
    let (id, f) := qemu_get_buffer f len.toNat
    match blocks.findIdx? (fun block => cstr id == block.idstr) with
    | some b => (some (blocks[b]!.offset + offset), { r with block := some b }, f)
    | none => (none, { r with block := none }, f)

-- `load_xbzrle`: `0` or `-1`; `none` is the `abort()` on a decoded size past the page, or a
-- decoder that does not return, which `decodeLoop_terminates` rules out.
def load_xbzrle (r : RamLoad) (f : QEMUFile) (host : Nat) : Option (Int × RamLoad × QEMUFile) :=
  -- extract RLE header
  let (xh_flags, f) := qemu_get_byte f
  let (xh_len, f) := qemu_get_be16 f
  if xh_flags.toNat ≠ ENCODING_FLAG_XBZRLE then some (-1, r, f)
  else if xh_len > TARGET_PAGE_SIZE then some (-1, r, f)
  else
    -- load data and decode
    let (data, f) := qemu_get_buffer f xh_len
    let decoded_buf := write r.decoded_buf 0 data
    match xbzrle_decode_buffer decoded_buf xh_len (view r.ram host) TARGET_PAGE_SIZE with
    | none => none
    | some (ret, page) =>
      let r := { r with decoded_buf := decoded_buf, ram := place r.ram host page }
      if ret = -1 then some (-1, r, f)
      else if ret > TARGET_PAGE_SIZE then none
      else some (0, r, f)

-- The `while (total_ram_bytes)` loop of `ram_load` over the block list of a
-- `MEM_SIZE` record: `0`, or `-EINVAL` for an unknown block or a length that differs.
def ramLoadBlockList (blocks : List RAMBlock) : Nat → Nat → QEMUFile → Option (Int × QEMUFile)
  | 0, _, _ => none
  | fuel + 1, total_ram_bytes, f =>
    if total_ram_bytes = 0 then some (0, f)
    else
      let (len, f) := qemu_get_byte f
      let (id, f) := qemu_get_buffer f len.toNat
      let (length, f) := qemu_get_be64 f
      match blocks.find? (fun block => cstr id == block.idstr) with
      | none => some (-EINVAL, f)
      | some block =>
        if block.length ≠ length then some (-EINVAL, f)
        else ramLoadBlockList blocks fuel ((total_ram_bytes + 2 ^ 64 - length) % 2 ^ 64) f

-- One pass of `ram_load`'s `do ... while` loop: `.error ret` leaves it with `ret`,
-- `.ok flags` goes on to the loop test; `none` is an `abort()`.
def ramLoadRecord (blocks : List RAMBlock) (r : RamLoad) (f : QEMUFile) :
    Option (Except Int Nat × RamLoad × QEMUFile) := do
  let (addr, f) := qemu_get_be64 f
  let flags := addr % TARGET_PAGE_SIZE
  let addr := addr - flags
  let (ret, f) ← if flags &&& RAM_SAVE_FLAG_MEM_SIZE ≠ 0 then
      -- Synchronize RAM block list
      ramLoadBlockList blocks (f.buf.length + 1) addr f
    else pure (0, f)
  if ret ≠ 0 then return (.error ret, r, f)
  let (rc, r, f) ← if flags &&& RAM_SAVE_FLAG_COMPRESS ≠ 0 then
      match host_from_stream_offset blocks r f addr flags with
      | (none, r, f) => pure (-EINVAL, r, f)
      | (some host, r, f) =>
        let (ch, f) := qemu_get_byte f
        pure (0, { r with ram := write r.ram host (List.replicate TARGET_PAGE_SIZE ch) }, f)
    else if flags &&& RAM_SAVE_FLAG_PAGE ≠ 0 then
      match host_from_stream_offset blocks r f addr flags with
      | (none, r, f) => pure (-EINVAL, r, f)
      | (some host, r, f) =>
        let (data, f) := qemu_get_buffer f TARGET_PAGE_SIZE
        pure (0, { r with ram := write r.ram host data }, f)
    else if flags &&& RAM_SAVE_FLAG_XBZRLE ≠ 0 then
      match host_from_stream_offset blocks r f addr flags with
      | (none, r, f) => pure (-EINVAL, r, f)
      | (some host, r, f) => do
        let (rc, r, f) ← load_xbzrle r f host
        pure (if rc < 0 then -EINVAL else 0, r, f)
    else pure (0, r, f)
  if rc ≠ 0 then return (.error rc, r, f)
  let error := qemu_file_get_error f
  if error ≠ 0 then return (.error error, r, f)
  return (.ok flags, r, f)

-- The loop test of `ram_load` after a pass; `loop` runs the passes after it.
def ramLoadNext (loop : RamLoad → QEMUFile → Option (Int × RamLoad × QEMUFile)) :
    Option (Except Int Nat × RamLoad × QEMUFile) → Option (Int × RamLoad × QEMUFile)
  | none => none
  | some (.error ret, r, f) => some (ret, r, f)
  | some (.ok flags, r, f) => if flags &&& RAM_SAVE_FLAG_EOS ≠ 0 then some (0, r, f) else loop r f

def ramLoadLoop (blocks : List RAMBlock) : Nat → RamLoad → QEMUFile → Option (Int × RamLoad × QEMUFile)
  | 0, _, _ => none
  | fuel + 1, r, f => ramLoadNext (ramLoadLoop blocks fuel) (ramLoadRecord blocks r f)

-- `static int ram_load(QEMUFile *f, void *opaque, int version_id)`: each pass reads
-- eight bytes or stops at an error, so the bytes of the stream bound the passes.
def ram_load (blocks : List RAMBlock) (r : RamLoad) (f : QEMUFile) (version_id : Nat) :
    Option (Int × RamLoad × QEMUFile) :=
  if version_id < 4 ∨ version_id > 4 then some (-EINVAL, r, f)
  else ramLoadLoop blocks (f.buf.length + 1) r f

/-! ### Records, as written and as read -/

-- The bytes `save_block_hdr` writes after the address: the block's id, unless the page
-- continues the block of the record before.
def hdrTail (block : RAMBlock) (cont : Nat) : List UInt8 :=
  if cont = 0 then UInt8.ofNat block.idstr.length :: block.idstr else []

def hdrBytes (block : RAMBlock) (offset cont flag : Nat) : List UInt8 :=
  be64Bytes (offset ||| cont ||| flag) ++ hdrTail block cont

theorem save_block_hdr_ok {f : QEMUFile} (h : f.last_error = 0) (block : RAMBlock)
    (offset cont flag : Nat) :
    save_block_hdr f block offset cont flag =
      ({ f with buf := f.buf ++ hdrBytes block offset cont flag },
        (hdrBytes block offset cont flag).length) := by
  unfold save_block_hdr hdrBytes hdrTail
  by_cases hc : cont = 0
  · simp only [hc, if_true, qemu_put_be64_ok _ h, qemu_put_byte, qemu_put_buffer, h, ne_eq,
      not_true_eq_false, if_false, List.append_assoc, List.singleton_append, Prod.mk.injEq,
      List.length_append, List.length_cons, true_and]
    simp [be64Bytes, be32Bytes]
    omega
  · simp [hc, qemu_put_be64_ok _ h, be64Bytes, be32Bytes]

-- A page-aligned address keeps the flags or-ed into it apart.
theorem page_addr_flags {offset x : Nat} (hoff : offset % TARGET_PAGE_SIZE = 0)
    (hx : x < TARGET_PAGE_SIZE) :
    (offset ||| x) % TARGET_PAGE_SIZE = x ∧ (offset ||| x) - (offset ||| x) % TARGET_PAGE_SIZE = offset := by
  rw [TARGET_PAGE_SIZE_eq] at hoff hx ⊢
  obtain ⟨q, rfl⟩ : ∃ q, offset = q * 2 ^ 12 := ⟨offset / 4096, by omega⟩
  rw [← Nat.shiftLeft_eq, ← Nat.shiftLeft_add_eq_or_of_lt (by simpa using hx), Nat.shiftLeft_eq]
  omega

-- The receiver knows the block a record is about: by its id after a new block, as the
-- block of the record before after `CONTINUE`.
structure Names (blocks : List RAMBlock) (r : RamLoad) (block : RAMBlock) (cont b : Nat) : Prop where
  get : blocks[b]! = block
  named : cont = 0 → blocks.findIdx? (fun blk => cstr block.idstr == blk.idstr) = some b ∧
    cstr block.idstr = block.idstr ∧ block.idstr.length < 256
  kept : cont ≠ 0 → r.block = some b

theorem host_from_stream_offset_hdr {blocks : List RAMBlock} {r : RamLoad} {f : QEMUFile}
    {block : RAMBlock} {cont flag b : Nat} (offset : Nat) {rest : List UInt8}
    (hn : Names blocks r block cont b) (hcont : cont = 0 ∨ cont = RAM_SAVE_FLAG_CONTINUE)
    (hflag : flag &&& RAM_SAVE_FLAG_CONTINUE = 0) (h : f.rest = hdrTail block cont ++ rest) :
    host_from_stream_offset blocks r f offset (cont ||| flag) =
      (some (block.offset + offset), { r with block := some b }, f.advance (hdrTail block cont).length) := by
  rcases hcont with rfl | rfl
  · obtain ⟨hfind, hid, hlen⟩ := hn.named rfl
    have hbyte := qemu_get_byte_of_rest (f := f) (by rw [h]; rfl)
    have hbuf := qemu_get_buffer_of_rest (f := f.advance 1)
      (show _ = block.idstr ++ rest by rw [QEMUFile.rest_advance, h]; rfl)
    have hlen' : (UInt8.ofNat block.idstr.length).toNat = block.idstr.length := by
      rw [UInt8.toNat_ofNat', Nat.mod_eq_of_lt (by simpa using hlen)]
    simp only [host_from_stream_offset, Nat.zero_or, hflag, ne_eq, not_true_eq_false, if_false,
      hbyte, hlen', hbuf, hid, QEMUFile.advance_advance, hdrTail, if_true, List.length_cons]
    rw [hid] at hfind
    simp only [hfind, hn.get, Nat.add_comm 1]
  · have hkept := hn.kept (by decide)
    have hand : (RAM_SAVE_FLAG_CONTINUE ||| flag) &&& RAM_SAVE_FLAG_CONTINUE ≠ 0 := by
      rw [Nat.and_comm, Nat.and_or_distrib_left, Nat.and_comm _ flag, hflag]
      decide
    have hne : RAM_SAVE_FLAG_CONTINUE ≠ 0 := by decide
    obtain ⟨ram, blk, dec⟩ := r
    simp only at hkept
    subst hkept
    simp [host_from_stream_offset, hand, hn.get, hdrTail, hne, QEMUFile.advance]

section Records

variable {blocks : List RAMBlock} {r : RamLoad} {f : QEMUFile} {block : RAMBlock}
  {cont b offset : Nat} {rest : List UInt8}

-- The address word of a record gives back the offset and the flags.
theorem record_addr {flag : Nat} (hcont : cont = 0 ∨ cont = RAM_SAVE_FLAG_CONTINUE)
    (hflag : flag < 0x80) (hoff : offset % TARGET_PAGE_SIZE = 0) (hbig : offset < 2 ^ 64) :
    (offset ||| cont ||| flag) % 2 ^ 64 = offset ||| cont ||| flag ∧
      (offset ||| cont ||| flag) % TARGET_PAGE_SIZE = cont ||| flag ∧
      (offset ||| cont ||| flag) - (cont ||| flag) = offset := by
  have hx : cont ||| flag < TARGET_PAGE_SIZE := by
    rw [TARGET_PAGE_SIZE_eq]
    rcases hcont with rfl | rfl
    · exact Nat.or_lt_two_pow (by decide) (show flag < 2 ^ 12 by omega)
    · exact Nat.or_lt_two_pow (by decide) (show flag < 2 ^ 12 by omega)
  have hlt : offset ||| cont ||| flag < 2 ^ 64 := by
    rw [Nat.or_assoc]
    exact Nat.or_lt_two_pow hbig (by rw [TARGET_PAGE_SIZE_eq] at hx; omega)
  obtain ⟨hfl, haddr⟩ := page_addr_flags hoff hx
  rw [← Nat.or_assoc] at hfl haddr
  exact ⟨Nat.mod_eq_of_lt hlt, hfl, by rwa [hfl] at haddr⟩

theorem ramLoadRecord_page {data : List UInt8} (hn : Names blocks r block cont b)
    (hcont : cont = 0 ∨ cont = RAM_SAVE_FLAG_CONTINUE) (hoff : offset % TARGET_PAGE_SIZE = 0)
    (hbig : offset < 2 ^ 64) (herr : f.last_error = 0) (hdata : data.length = TARGET_PAGE_SIZE)
    (h : f.rest = hdrBytes block offset cont RAM_SAVE_FLAG_PAGE ++ data ++ rest) :
    ramLoadRecord blocks r f = some (.ok (cont ||| RAM_SAVE_FLAG_PAGE),
      { r with block := some b, ram := write r.ram (block.offset + offset) data },
      f.advance ((hdrBytes block offset cont RAM_SAVE_FLAG_PAGE).length + data.length)) := by
  obtain ⟨h64mod, hfl, haddr⟩ := record_addr hcont (show RAM_SAVE_FLAG_PAGE < 0x80 by decide) hoff hbig
  have h64 := qemu_get_be64_of_rest (f := f) (v := offset ||| cont ||| RAM_SAVE_FLAG_PAGE)
    (show _ = _ ++ (hdrTail block cont ++ data ++ rest) by rw [h, hdrBytes]; simp)
  have hhost := host_from_stream_offset_hdr (f := f.advance 8) offset hn hcont
    (show RAM_SAVE_FLAG_PAGE &&& RAM_SAVE_FLAG_CONTINUE = 0 by decide)
    (show _ = _ ++ (data ++ rest) by rw [QEMUFile.rest_advance, h, hdrBytes]; simp [be64Bytes, be32Bytes])
  have hbuf := qemu_get_buffer_of_rest (f := (f.advance 8).advance (hdrTail block cont).length)
    (show _ = data ++ rest by simp only [QEMUFile.rest_advance, h, hdrBytes]; simp [be64Bytes, be32Bytes])
  have hm : (cont ||| RAM_SAVE_FLAG_PAGE) &&& RAM_SAVE_FLAG_MEM_SIZE = 0 ∧
      (cont ||| RAM_SAVE_FLAG_PAGE) &&& RAM_SAVE_FLAG_COMPRESS = 0 ∧
      (cont ||| RAM_SAVE_FLAG_PAGE) &&& RAM_SAVE_FLAG_PAGE ≠ 0 := by
    rcases hcont with rfl | rfl <;> decide
  obtain ⟨hm1, hm2, hm3⟩ := hm
  rw [hdata] at hbuf
  simp only [ramLoadRecord, h64, h64mod, hfl, haddr, hm1, hm2, hm3, ne_eq, not_true_eq_false,
    not_false_eq_true, if_true, if_false, pure_bind, hhost, hbuf]
  simp [qemu_file_get_error, QEMUFile.advance, herr, hdrBytes, hdata, Nat.add_assoc]

theorem ramLoadRecord_compress {ch : UInt8} (hn : Names blocks r block cont b)
    (hcont : cont = 0 ∨ cont = RAM_SAVE_FLAG_CONTINUE) (hoff : offset % TARGET_PAGE_SIZE = 0)
    (hbig : offset < 2 ^ 64) (herr : f.last_error = 0)
    (h : f.rest = hdrBytes block offset cont RAM_SAVE_FLAG_COMPRESS ++ ch :: rest) :
    ramLoadRecord blocks r f = some (.ok (cont ||| RAM_SAVE_FLAG_COMPRESS),
      { r with block := some b,
               ram := write r.ram (block.offset + offset) (List.replicate TARGET_PAGE_SIZE ch) },
      f.advance ((hdrBytes block offset cont RAM_SAVE_FLAG_COMPRESS).length + 1)) := by
  obtain ⟨h64mod, hfl, haddr⟩ := record_addr hcont (show RAM_SAVE_FLAG_COMPRESS < 0x80 by decide) hoff hbig
  have h64 := qemu_get_be64_of_rest (f := f) (v := offset ||| cont ||| RAM_SAVE_FLAG_COMPRESS)
    (show _ = _ ++ (hdrTail block cont ++ ch :: rest) by
      rw [h, hdrBytes]; simp [be64Bytes, be32Bytes])
  have hhost := host_from_stream_offset_hdr (f := f.advance 8) offset hn hcont
    (show RAM_SAVE_FLAG_COMPRESS &&& RAM_SAVE_FLAG_CONTINUE = 0 by decide)
    (show _ = _ ++ ch :: rest by rw [QEMUFile.rest_advance, h, hdrBytes]; simp [be64Bytes, be32Bytes])
  have hbyte := qemu_get_byte_of_rest (f := (f.advance 8).advance (hdrTail block cont).length)
    (show _ = ch :: rest by simp only [QEMUFile.rest_advance, h, hdrBytes]; simp [be64Bytes, be32Bytes])
  have hm : (cont ||| RAM_SAVE_FLAG_COMPRESS) &&& RAM_SAVE_FLAG_MEM_SIZE = 0 ∧
      (cont ||| RAM_SAVE_FLAG_COMPRESS) &&& RAM_SAVE_FLAG_COMPRESS ≠ 0 := by
    rcases hcont with rfl | rfl <;> decide
  obtain ⟨hm1, hm2⟩ := hm
  simp only [ramLoadRecord, h64, h64mod, hfl, haddr, hm1, hm2, ne_eq, not_true_eq_false,
    not_false_eq_true, if_true, if_false, pure_bind, hhost, hbyte]
  simp [qemu_file_get_error, QEMUFile.advance, herr, hdrBytes, Nat.add_assoc]

theorem load_xbzrle_ok {host : Nat} {enc : List UInt8} {ret : Int} {page : Mem}
    (hlen : enc.length ≤ TARGET_PAGE_SIZE)
    (h : f.rest = UInt8.ofNat ENCODING_FLAG_XBZRLE :: be16Bytes enc.length ++ enc ++ rest)
    (hdec : xbzrle_decode_buffer (write r.decoded_buf 0 enc) enc.length (view r.ram host)
      TARGET_PAGE_SIZE = some (ret, page)) (hret : 0 ≤ ret ∧ ret ≤ TARGET_PAGE_SIZE) :
    load_xbzrle r f host = some (0,
      { r with decoded_buf := write r.decoded_buf 0 enc, ram := place r.ram host page },
      f.advance (3 + enc.length)) := by
  have hbyte := qemu_get_byte_of_rest (f := f) h
  have h16 := qemu_get_be16_of_rest (f := f.advance 1) (v := enc.length)
    (show _ = _ ++ (enc ++ rest) by rw [QEMUFile.rest_advance, h]; simp [be16Bytes])
  have hbuf := qemu_get_buffer_of_rest (f := (f.advance 1).advance 2)
    (show _ = enc ++ rest by simp only [QEMUFile.rest_advance, h]; simp [be16Bytes])
  have hmod : enc.length % 2 ^ 16 = enc.length := Nat.mod_eq_of_lt (by
    rw [TARGET_PAGE_SIZE_eq] at hlen; omega)
  have hflag : (UInt8.ofNat ENCODING_FLAG_XBZRLE).toNat = ENCODING_FLAG_XBZRLE := rfl
  have hret1 : ret ≠ -1 := by omega
  have hret2 : ¬ret > TARGET_PAGE_SIZE := by omega
  simp only [load_xbzrle, hbyte, h16, hmod, hflag, ne_eq, not_true_eq_false, if_false,
    show ¬enc.length > TARGET_PAGE_SIZE by omega, hbuf, hdec, hret1, hret2]
  simp [QEMUFile.advance, Nat.add_assoc]

theorem ramLoadRecord_xbzrle {enc : List UInt8} {ret : Int} {page : Mem}
    (hn : Names blocks r block cont b) (hcont : cont = 0 ∨ cont = RAM_SAVE_FLAG_CONTINUE)
    (hoff : offset % TARGET_PAGE_SIZE = 0) (hbig : offset < 2 ^ 64) (herr : f.last_error = 0)
    (hlen : enc.length ≤ TARGET_PAGE_SIZE)
    (h : f.rest = hdrBytes block offset cont RAM_SAVE_FLAG_XBZRLE ++
      (UInt8.ofNat ENCODING_FLAG_XBZRLE :: be16Bytes enc.length ++ enc) ++ rest)
    (hdec : xbzrle_decode_buffer (write r.decoded_buf 0 enc) enc.length
      (view r.ram (block.offset + offset)) TARGET_PAGE_SIZE = some (ret, page))
    (hret : 0 ≤ ret ∧ ret ≤ TARGET_PAGE_SIZE) :
    ramLoadRecord blocks r f = some (.ok (cont ||| RAM_SAVE_FLAG_XBZRLE),
      { r with block := some b, decoded_buf := write r.decoded_buf 0 enc,
               ram := place r.ram (block.offset + offset) page },
      f.advance ((hdrBytes block offset cont RAM_SAVE_FLAG_XBZRLE).length + (3 + enc.length))) := by
  obtain ⟨h64mod, hfl, haddr⟩ := record_addr hcont (show RAM_SAVE_FLAG_XBZRLE < 0x80 by decide) hoff hbig
  have h64 := qemu_get_be64_of_rest (f := f) (v := offset ||| cont ||| RAM_SAVE_FLAG_XBZRLE)
    (show _ = _ ++ (hdrTail block cont ++
      (UInt8.ofNat ENCODING_FLAG_XBZRLE :: be16Bytes enc.length ++ enc) ++ rest) by
      rw [h, hdrBytes]; simp [be64Bytes, be32Bytes, be16Bytes])
  have hhost := host_from_stream_offset_hdr (f := f.advance 8) offset hn hcont
    (show RAM_SAVE_FLAG_XBZRLE &&& RAM_SAVE_FLAG_CONTINUE = 0 by decide)
    (show _ = _ ++ ((UInt8.ofNat ENCODING_FLAG_XBZRLE :: be16Bytes enc.length ++ enc) ++ rest) by
      rw [QEMUFile.rest_advance, h, hdrBytes]; simp [be64Bytes, be32Bytes, be16Bytes])
  have hload := load_xbzrle_ok (r := { r with block := some b })
    (f := (f.advance 8).advance (hdrTail block cont).length) hlen
    (show _ = UInt8.ofNat ENCODING_FLAG_XBZRLE :: be16Bytes enc.length ++ enc ++ rest by
      simp only [QEMUFile.rest_advance, h, hdrBytes]; simp [be64Bytes, be32Bytes, be16Bytes]) hdec hret
  have hm : (cont ||| RAM_SAVE_FLAG_XBZRLE) &&& RAM_SAVE_FLAG_MEM_SIZE = 0 ∧
      (cont ||| RAM_SAVE_FLAG_XBZRLE) &&& RAM_SAVE_FLAG_COMPRESS = 0 ∧
      (cont ||| RAM_SAVE_FLAG_XBZRLE) &&& RAM_SAVE_FLAG_PAGE = 0 ∧
      (cont ||| RAM_SAVE_FLAG_XBZRLE) &&& RAM_SAVE_FLAG_XBZRLE ≠ 0 := by
    rcases hcont with rfl | rfl <;> decide
  obtain ⟨hm1, hm2, hm3, hm4⟩ := hm
  simp only [ramLoadRecord, h64, h64mod, hfl, haddr, hm1, hm2, hm3, hm4, ne_eq, not_true_eq_false,
    not_false_eq_true, if_true, if_false, pure_bind, hhost, Option.bind_eq_bind, hload,
    Option.bind_some]
  simp [qemu_file_get_error, QEMUFile.advance, herr, hdrBytes, Nat.add_assoc]

theorem ramLoadRecord_eos (herr : f.last_error = 0) (h : f.rest = be64Bytes RAM_SAVE_FLAG_EOS ++ rest) :
    ramLoadRecord blocks r f = some (.ok RAM_SAVE_FLAG_EOS, r, f.advance 8) := by
  have h64 := qemu_get_be64_of_rest (f := f) h
  simp [ramLoadRecord, h64, qemu_file_get_error, QEMUFile.advance, herr, RAM_SAVE_FLAG_EOS,
    RAM_SAVE_FLAG_MEM_SIZE, RAM_SAVE_FLAG_COMPRESS, RAM_SAVE_FLAG_PAGE, RAM_SAVE_FLAG_XBZRLE,
    TARGET_PAGE_SIZE_eq]

end Records

/-! ### The three ways a page goes out -/

theorem is_dup_page_replicate (n : Nat) (a : UInt8) : is_dup_page (List.replicate n a) = true := by
  cases n with
  | zero => rfl
  | succ n => simp [is_dup_page, List.all_replicate]

theorem is_dup_page_eq_false {p : List UInt8} {k : Nat} (hk : k < p.length) (h : p[k] ≠ p[0]!) :
    is_dup_page p = false := by
  simp only [is_dup_page, List.all_eq_false, beq_iff_eq]
  exact ⟨p[k], List.getElem_mem hk, h⟩

section Pages

variable {blocks : List RAMBlock} {xbzrle last_stage : Bool} {s : RamSave} {f : QEMUFile}
  {b offset : Nat} {block : RAMBlock} {p : List UInt8}
variable (herr : f.last_error = 0) (hblock : blocks[b]! = block)
  (hp : read s.ram (block.offset + offset) TARGET_PAGE_SIZE = p)
include herr hblock hp

-- A page of one repeated byte goes out as that byte.
theorem savePage_dup (hdup : is_dup_page p) :
    savePage blocks xbzrle last_stage s f b offset =
      some (((hdrBytes block offset (pageCont s b) RAM_SAVE_FLAG_COMPRESS).length : Int) + 1,
        { f with buf := (f.buf ++ hdrBytes block offset (pageCont s b) RAM_SAVE_FLAG_COMPRESS) ++ [p[0]!] },
        s) := by
  have hpos : ((hdrBytes block offset (pageCont s b) RAM_SAVE_FLAG_COMPRESS).length : Int) + 1 ≠ -1 := by
    omega
  simp only [savePage, hblock, hp, hdup, if_true, save_block_hdr_ok herr]
  simp [qemu_put_byte_ok, herr, hpos]

-- A page the cache misses goes out in full, and the cache keeps it.
theorem savePage_miss {cache : PageCache} (hdup : is_dup_page p = false)
    (hcache : s.cache = some cache) (hmiss : cache_is_cached cache (block.offset + offset) = false) :
    savePage blocks true false s f b offset =
      some ((((hdrBytes block offset (pageCont s b) RAM_SAVE_FLAG_PAGE).length + TARGET_PAGE_SIZE : Nat) : Int),
        { f with buf := (f.buf ++ hdrBytes block offset (pageCont s b) RAM_SAVE_FLAG_PAGE) ++ p },
        { s with cache := some (cache_insert cache (block.offset + offset) p) }) := by
  simp only [savePage, hblock, hp, hdup, save_xbzrle_page, hcache, hmiss]
  simp [get_cached_data_insert, save_block_hdr_ok herr, qemu_put_buffer_ok, herr]

-- A page the cache holds goes out as its XBZRLE delta when that is not empty and fits.
theorem savePage_xbzrle {cache : PageCache} {old : List UInt8} {d : Int} {M : Mem}
    (hdup : is_dup_page p = false) (hcache : s.cache = some cache)
    (hhit : cache_is_cached cache (block.offset + offset) = true)
    (hold : get_cached_data cache (block.offset + offset) = some old)
    (henc : xbzrle_encode_buffer old p TARGET_PAGE_SIZE s.encoded_buf TARGET_PAGE_SIZE = some (d, M))
    (hd : 0 < d) :
    savePage blocks true last_stage s f b offset =
      some (((hdrBytes block offset (pageCont s b) RAM_SAVE_FLAG_XBZRLE).length : Int) + d + 1 + 2,
        { f with buf := (f.buf ++ hdrBytes block offset (pageCont s b) RAM_SAVE_FLAG_XBZRLE) ++
            (UInt8.ofNat ENCODING_FLAG_XBZRLE :: be16Bytes d.toNat ++ read M 0 d.toNat) },
        { s with encoded_buf := M,
                 cache := some (if last_stage then cache else
                   cache_write_data cache (block.offset + offset) p) }) := by
  have hd0 : d ≠ 0 := by omega
  have hd1 : d ≠ -1 := by omega
  have hpos : ((hdrBytes block offset (pageCont s b) RAM_SAVE_FLAG_XBZRLE).length : Int) +
      d + 1 + 2 ≠ -1 := by omega
  simp only [savePage, hblock, hp, hdup, save_xbzrle_page, hcache, hhit, hold, henc]
  cases last_stage <;>
    simp [hd0, hd1, hpos, get_cached_data_write_data, save_block_hdr_ok herr, qemu_put_byte_ok,
      qemu_put_be16_ok, qemu_put_buffer_ok, herr]

end Pages

-- On RAM of one page, `ram_save_block` finds that page dirty and sends it.
theorem ram_save_block_one {blk : RAMBlock} {xbzrle last_stage : Bool} {s s' : RamSave}
    {f f' : QEMUFile} {bytes_sent : Int} (hoff : blk.offset = 0) (hlen : blk.length = TARGET_PAGE_SIZE)
    (hbit : s.migration_bitmap 0 = true) (hseen : s.last_seen_block ≠ some 0 → s.last_seen_block = none)
    (hlast : s.last_offset = 0)
    (hpage : savePage [blk] xbzrle last_stage
      { s with migration_bitmap := Function.update s.migration_bitmap 0 false } f 0 0 =
        some (bytes_sent, f', s'))
    (hpos : 0 < bytes_sent) :
    ram_save_block [blk] xbzrle s f last_stage =
      some (bytes_sent,
        { s' with last_sent_block := some 0, last_seen_block := some 0, last_offset := 0 }, f') := by
  have hb : (s.last_seen_block.getD 0) = 0 := by
    by_cases h : s.last_seen_block = some 0
    · simp [h]
    · simp [hseen h]
  have hfind : migration_bitmap_find_and_reset_dirty s.migration_bitmap blk 0 =
      (0, Function.update s.migration_bitmap 0 false) := by
    simp [migration_bitmap_find_and_reset_dirty, hoff, hlen, TARGET_PAGE_SIZE_eq, TARGET_PAGE_BITS,
      find_next_bit, find_next_bit.scan, hbit]
  simp only [ram_save_block, ramSaveFuel, hb, hlast, List.map_cons, List.map_nil, List.sum_cons,
    List.sum_nil, List.length_cons, List.length_nil]
  simp only [ramSaveLoop, ramSaveStep, List.getElem!_cons_zero, hfind, Bool.false_eq_true,
    false_and, if_false, hlen, TARGET_PAGE_SIZE_eq, show ¬(0 : Nat) ≥ 4096 by decide, hpage, hpos,
    if_true]

/-! ### The dirty log and the setup section -/

theorem migration_bitmap_sync_clean (blocks : List RAMBlock) (bitmap : Nat → Bool) :
    migration_bitmap_sync blocks (fun _ => false) bitmap = (fun _ => false, bitmap) := by
  unfold migration_bitmap_sync
  apply List.foldl_fixed'
  intro _
  apply List.foldl_fixed'
  intro _
  rfl

def setupBytes (blocks : List RAMBlock) : List UInt8 :=
  be64Bytes (ram_bytes_total blocks ||| RAM_SAVE_FLAG_MEM_SIZE) ++
    blocks.flatMap (fun block => UInt8.ofNat block.idstr.length :: block.idstr ++ be64Bytes block.length) ++
    be64Bytes RAM_SAVE_FLAG_EOS

theorem put_block_list {f : QEMUFile} (herr : f.last_error = 0) (blocks : List RAMBlock) :
    blocks.foldl (fun f block =>
      qemu_put_be64 (qemu_put_buffer (qemu_put_byte f block.idstr.length) block.idstr) block.length) f =
      { f with
        buf := f.buf ++ blocks.flatMap
          (fun block => UInt8.ofNat block.idstr.length :: block.idstr ++ be64Bytes block.length) } := by
  induction blocks generalizing f with
  | nil => simp
  | cons block blocks ih =>
    rw [List.foldl_cons, ih (by simp [qemu_put_be64_ok, qemu_put_buffer_ok, qemu_put_byte_ok, herr])]
    simp [qemu_put_be64_ok, qemu_put_buffer_ok, qemu_put_byte_ok, herr]

theorem ram_save_setup_ok {blocks : List RAMBlock} {size : Nat} {ram : Mem} {f : QEMUFile}
    {cache : PageCache} (herr : f.last_error = 0)
    (hcache : cache_init ((size : Int) / TARGET_PAGE_SIZE) TARGET_PAGE_SIZE = some cache) :
    ram_save_setup blocks true size ram (fun _ => false) f =
      some ({ ram := ram
              migration_bitmap := fun n => decide (n < last_ram_offset blocks >>> TARGET_PAGE_BITS)
              cache := some cache
              encoded_buf := fun _ => 0
              last_seen_block := none
              last_sent_block := none
              last_offset := 0 },
        fun _ => false, { f with buf := f.buf ++ setupBytes blocks }) := by
  have hblocks := put_block_list (f := qemu_put_be64 f (ram_bytes_total blocks ||| RAM_SAVE_FLAG_MEM_SIZE))
    (by rw [qemu_put_be64_ok _ herr]; exact herr) blocks
  simp only [ram_save_setup, if_true, hcache, Option.map_some, migration_bitmap_sync_clean, hblocks]
  rw [qemu_put_be64_ok _ (by rw [qemu_put_be64_ok _ herr]; exact herr), qemu_put_be64_ok _ herr]
  simp [setupBytes]

theorem migration_bitmap_sync_page {blk : RAMBlock} {dirty bitmap : Nat → Bool} (hoff : blk.offset = 0)
    (hlen : blk.length = TARGET_PAGE_SIZE) (hd : dirty 0 = true) :
    migration_bitmap_sync [blk] dirty bitmap =
      (Function.update dirty 0 false, Function.update bitmap 0 true) := by
  simp [migration_bitmap_sync, hoff, hlen, TARGET_PAGE_SIZE_eq, hd]

theorem ramLoadLoop_next {blocks : List RAMBlock} {r r' : RamLoad} {f f' : QEMUFile} {flags : Nat}
    (fuel : Nat) (h : ramLoadRecord blocks r f = some (.ok flags, r', f'))
    (heos : flags &&& RAM_SAVE_FLAG_EOS = 0) :
    ramLoadLoop blocks (fuel + 1) r f = ramLoadLoop blocks fuel r' f' := by
  rw [ramLoadLoop, h, ramLoadNext, if_neg (not_not.mpr heos)]

theorem ramLoadLoop_eos {blocks : List RAMBlock} {r r' : RamLoad} {f f' : QEMUFile} {flags : Nat}
    (fuel : Nat) (h : ramLoadRecord blocks r f = some (.ok flags, r', f'))
    (heos : flags &&& RAM_SAVE_FLAG_EOS ≠ 0) :
    ramLoadLoop blocks (fuel + 1) r f = some (0, r', f') := by
  rw [ramLoadLoop, h, ramLoadNext, if_pos heos]

-- A section of one record is loaded when the record is.
theorem ram_load_record {blocks : List RAMBlock} {r r' : RamLoad} {f f' : QEMUFile} {flags : Nat}
    (hrec : ramLoadRecord blocks r f = some (.ok flags, r', f'))
    (heos : flags &&& RAM_SAVE_FLAG_EOS = 0) (herr : f'.last_error = 0)
    (hrest : f'.rest = be64Bytes RAM_SAVE_FLAG_EOS) (hlen : 1 ≤ f.buf.length) :
    ram_load blocks r f 4 = some (0, r', f'.advance 8) := by
  obtain ⟨n, hn⟩ : ∃ n, f.buf.length + 1 = n + 2 := ⟨f.buf.length - 1, by omega⟩
  have heof : ramLoadRecord blocks r' f' = some (.ok RAM_SAVE_FLAG_EOS, r', f'.advance 8) :=
    ramLoadRecord_eos herr (show _ = _ ++ [] by rw [hrest, List.append_nil])
  rw [ram_load, if_neg (by decide), hn, ramLoadLoop_next _ hrec heos,
    ramLoadLoop_eos _ heof (by decide)]

end Qemu.Migration

import Qemu.Migration.ArchInit

/-!
RAM migration as a system of two machines: the guest keeps storing to the sender's RAM
and dirtying pages, the sender saves pages into the current section of the stream, and
the receiver loads each section with `ram_load` when the section ends.
-/

namespace Qemu.Migration

open ByteMem Qemu.Xbzrle

-- Whether a store of `len` bytes at `addr` dirties page `n` in the migration log.
def dirtyPages (addr len n : Nat) : Bool :=
  len != 0 && addr >>> TARGET_PAGE_BITS ≤ n && n ≤ (addr + len - 1) >>> TARGET_PAGE_BITS

structure Session where
  src : RamSave
  dirty : Nat → Bool
  out : QEMUFile
  dst : RamLoad
  -- the sender's copy of each page when it was last sent
  sent : Nat → Option (List UInt8)

inductive Event where
  | write (addr : Nat) (data : List UInt8)
  | sync
  | saveBlock (last_stage : Bool)
  | endSection

def QEMUFile.empty : QEMUFile := ⟨[], 0, 0⟩

def Session.saveBlock (blocks : List RAMBlock) (xbzrle : Bool) (m : Session)
    (last_stage : Bool) : Option Session :=
  (ram_save_block blocks xbzrle m.src m.out last_stage).map fun (bytes_sent, s, f) =>
    let addr := blocks[s.last_seen_block.getD 0]!.offset + s.last_offset
    { m with
      src := s
      out := f
      sent := if bytes_sent > 0 then
        Function.update m.sent addr (some (read m.src.ram addr TARGET_PAGE_SIZE)) else m.sent }

-- The receiver takes a section when `ram_load` returns `0`.
def Session.loaded (m : Session) : Option (Int × RamLoad × QEMUFile) → Option Session
  | some (ret, dst, _) => if ret = 0 then some { m with dst := dst, out := QEMUFile.empty } else none
  | none => none

-- One event; `none` when the code aborts or hangs, or the receiver rejects a section.
def Session.step (blocks : List RAMBlock) (xbzrle : Bool) (m : Session) : Event → Option Session
  | .write addr data =>
    some { m with
      src := { m.src with ram := write m.src.ram addr data }
      dirty := fun n => m.dirty n || dirtyPages addr data.length n }
  | .sync =>
    let (dirty, bitmap) := migration_bitmap_sync blocks m.dirty m.src.migration_bitmap
    some { m with dirty := dirty, src := { m.src with migration_bitmap := bitmap } }
  | .saveBlock last_stage => m.saveBlock blocks xbzrle last_stage
  | .endSection =>
    -- `qemu_put_be64(f, RAM_SAVE_FLAG_EOS)` ends the section
    m.loaded (ram_load blocks m.dst ⟨(qemu_put_be64 m.out RAM_SAVE_FLAG_EOS).buf, 0, 0⟩ 4)

def Session.run (blocks : List RAMBlock) (xbzrle : Bool) (m : Session) : List Event → Option Session
  | [] => some m
  | e :: es => (m.step blocks xbzrle e).bind fun m => m.run blocks xbzrle es

-- `ram_save_setup` on the sender, whose RAM is `ram`, and `ram_load` of its section on a
-- receiver with the same blocks, whose RAM is `dst`.
def Session.start (blocks : List RAMBlock) (xbzrle : Bool) (xbzrle_cache_size : Nat)
    (ram dst : Mem) : Option Session :=
  match ram_save_setup blocks xbzrle xbzrle_cache_size ram (fun _ => false) QEMUFile.empty with
  | none => none
  | some (s, dirty, f) =>
    Session.loaded ⟨s, dirty, f, ⟨dst, none, fun _ => 0⟩, fun _ => none⟩
      (ram_load blocks ⟨dst, none, fun _ => 0⟩ ⟨f.buf, 0, 0⟩ 4)

/-! ### What each event does -/

theorem Session.step_write {blocks : List RAMBlock} {xbzrle : Bool} {m : Session} {addr : Nat}
    {data : List UInt8} :
    m.step blocks xbzrle (.write addr data) = some { m with
      src := { m.src with ram := write m.src.ram addr data }
      dirty := fun n => m.dirty n || dirtyPages addr data.length n } := rfl

theorem Session.step_sync {blocks : List RAMBlock} {xbzrle : Bool} {m : Session}
    {dirty bitmap : Nat → Bool} (h : migration_bitmap_sync blocks m.dirty m.src.migration_bitmap = (dirty, bitmap)) :
    m.step blocks xbzrle .sync = some { m with dirty := dirty, src := { m.src with migration_bitmap := bitmap } } := by
  simp [Session.step, h]

theorem Session.step_saveBlock {blocks : List RAMBlock} {xbzrle last_stage : Bool} {m : Session}
    {bytes_sent : Int} {s : RamSave} {f : QEMUFile}
    (h : ram_save_block blocks xbzrle m.src m.out last_stage = some (bytes_sent, s, f)) :
    m.step blocks xbzrle (.saveBlock last_stage) = some { m with
      src := s
      out := f
      sent := if bytes_sent > 0 then
        Function.update m.sent (blocks[s.last_seen_block.getD 0]!.offset + s.last_offset)
          (some (read m.src.ram (blocks[s.last_seen_block.getD 0]!.offset + s.last_offset)
            TARGET_PAGE_SIZE)) else m.sent } := by
  simp [Session.step, Session.saveBlock, h]

theorem Session.step_endSection {blocks : List RAMBlock} {xbzrle : Bool} {m : Session}
    {dst : RamLoad} {f : QEMUFile} (herr : m.out.last_error = 0)
    (h : ram_load blocks m.dst ⟨m.out.buf ++ be64Bytes RAM_SAVE_FLAG_EOS, 0, 0⟩ 4 = some (0, dst, f)) :
    m.step blocks xbzrle .endSection = some { m with dst := dst, out := QEMUFile.empty } := by
  simp [Session.step, qemu_put_be64_ok _ herr, h, Session.loaded]

theorem Session.start_of_setup {blocks : List RAMBlock} {xbzrle : Bool} {size : Nat}
    {ram dst : Mem} {s : RamSave} {dirty : Nat → Bool} {f f' : QEMUFile} {r : RamLoad}
    (hs : ram_save_setup blocks xbzrle size ram (fun _ => false) QEMUFile.empty = some (s, dirty, f))
    (hl : ram_load blocks ⟨dst, none, fun _ => 0⟩ ⟨f.buf, 0, 0⟩ 4 = some (0, r, f')) :
    Session.start blocks xbzrle size ram dst = some ⟨s, dirty, QEMUFile.empty, r, fun _ => none⟩ := by
  simp [Session.start, hs, hl, Session.loaded]

theorem Session.run_cons_of_step {blocks : List RAMBlock} {xbzrle : Bool} {m m' : Session}
    {e : Event} (es : List Event) (h : m.step blocks xbzrle e = some m') :
    m.run blocks xbzrle (e :: es) = m'.run blocks xbzrle es := by
  simp [Session.run, h]

theorem Session.exists_run_cons {blocks : List RAMBlock} {xbzrle : Bool} {m m' : Session}
    {e : Event} {es : List Event} {P : Session → Prop} (h : m.step blocks xbzrle e = some m')
    (h' : ∃ m'', m'.run blocks xbzrle es = some m'' ∧ P m'') :
    ∃ m'', m.run blocks xbzrle (e :: es) = some m'' ∧ P m'' := by
  rwa [Session.run_cons_of_step es h]

theorem Session.exists_start {blocks : List RAMBlock} {xbzrle : Bool} {size : Nat}
    {ram dst : Mem} {s : RamSave} {dirty : Nat → Bool} {f f' : QEMUFile} {r : RamLoad}
    {es : List Event} {P : Session → Prop}
    (hs : ram_save_setup blocks xbzrle size ram (fun _ => false) QEMUFile.empty = some (s, dirty, f))
    (hl : ram_load blocks ⟨dst, none, fun _ => 0⟩ ⟨f.buf, 0, 0⟩ 4 = some (0, r, f'))
    (h : ∃ m, Session.run blocks xbzrle ⟨s, dirty, QEMUFile.empty, r, fun _ => none⟩ es = some m ∧ P m) :
    ∃ m, ((Session.start blocks xbzrle size ram dst).bind fun m => m.run blocks xbzrle es) = some m ∧ P m := by
  rwa [Session.start_of_setup hs hl, Option.bind_some]

-- Every page sent holds on the receiver what the sender's RAM held when it was last sent.
def Session.Reconstructed (m : Session) : Prop :=
  ∀ addr page, m.sent addr = some page → read m.dst.ram addr TARGET_PAGE_SIZE = page

-- The cache holds, for each address it caches, the receiver's copy of the page.
def Session.CacheTracks (m : Session) : Prop :=
  ∀ cache addr, m.src.cache = some cache → cache_is_cached cache addr = true →
    get_cached_data cache addr = some (read m.dst.ram addr TARGET_PAGE_SIZE)

/-! ### A repeated-byte page leaves the cache stale -/

-- A guest whose RAM is one page, in the block `pc.ram`.
def pcRam : RAMBlock := ⟨[112, 99, 46, 114, 97, 109], 0, 4096⟩

-- The page the cache keeps, and the page the guest stores after zeroing it.
def stalePage : List UInt8 := 1 :: List.replicate 4095 0
def nextPage : List UInt8 := 1 :: 1 :: List.replicate 4094 0

theorem stalePage_length : stalePage.length = TARGET_PAGE_SIZE := by
  simp [stalePage, TARGET_PAGE_SIZE_eq, -List.reduceReplicate]

theorem nextPage_length : nextPage.length = TARGET_PAGE_SIZE := by
  simp [nextPage, TARGET_PAGE_SIZE_eq, -List.reduceReplicate]

theorem encode_stale_next (dst : Mem) :
    xbzrle_encode_buffer stalePage nextPage TARGET_PAGE_SIZE dst TARGET_PAGE_SIZE =
      some (3, write dst 0 [1, 1, 1]) := by
  have hold := stalePage_length
  have hnew := nextPage_length
  have hal : TARGET_PAGE_SIZE % 8 = 0 := by decide
  have hsmall : TARGET_PAGE_SIZE ≤ 0x3fff := by decide
  have hz0 : ZeroRun stalePage nextPage TARGET_PAGE_SIZE 0 1 := by
    refine ⟨by decide, by decide, ?_, fun _ => by decide⟩
    intro k hk hk'
    obtain rfl : k = 0 := by omega
    rfl
  have hd1 : DiffRun stalePage nextPage TARGET_PAGE_SIZE 1 2 := by
    refine ⟨by decide, by decide, ?_, fun _ => by decide⟩
    intro k hk hk'
    obtain rfl : k = 1 := by omega
    decide
  have hz2 : ZeroRun stalePage nextPage TARGET_PAGE_SIZE 2 TARGET_PAGE_SIZE := by
    refine ⟨by decide, le_rfl, ?_, by omega⟩
    intro k hk hk'
    obtain ⟨k, rfl⟩ : ∃ j, k = j + 2 := ⟨k - 2, by omega⟩
    rw [TARGET_PAGE_SIZE_eq] at hk'
    simp only [stalePage, nextPage, List.getElem!_eq_getElem?_getD, List.getElem?_cons_succ,
      List.getElem?_replicate, if_pos (show k + 1 < 4095 by omega), if_pos (show k < 4094 by omega)]
  have hrun : runBytes nextPage (1 - 0) 1 (2 - 1) = [1, 1, 1] := by decide
  have h1 := encodeIter_of_runs hold hnew hal hsmall
    (show (⟨0, 0, dst⟩ : EncState).i < TARGET_PAGE_SIZE by simp [TARGET_PAGE_SIZE_eq]) hz0 (by decide) hd1
    (show (⟨0, 0, dst⟩ : EncState).d + (runBytes nextPage (1 - 0) 1 (2 - 1)).length ≤ TARGET_PAGE_SIZE by
      rw [hrun]; simp [TARGET_PAGE_SIZE_eq])
  have h2 := encodeIter_of_last_run hold hnew hal
    (show (⟨2, 3, write dst 0 [1, 1, 1]⟩ : EncState).i < TARGET_PAGE_SIZE by simp [TARGET_PAGE_SIZE_eq]) hz2
    (show (⟨2, 3, write dst 0 [1, 1, 1]⟩ : EncState).d + 2 ≤ TARGET_PAGE_SIZE by simp [TARGET_PAGE_SIZE_eq])
  rw [hrun] at h1
  simp only [List.length_cons, List.length_nil, Nat.zero_add] at h1
  simp only [show (2 : Nat) ≠ 0 by decide, if_false, Nat.cast_ofNat] at h2
  rw [xbzrle_encode_buffer, if_neg (by decide), encodeLoop_next (show 0 < TARGET_PAGE_SIZE by decide) h1]
  exact encodeLoop_ret (show 2 < TARGET_PAGE_SIZE by decide) h2

theorem decode_one_run (src buf : Mem) :
    xbzrle_decode_buffer (write src 0 [1, 1, 1]) 3 buf TARGET_PAGE_SIZE = some (2, write buf 1 [1]) := by
  have hrun := decodeIter_run (write src 0 [1, 1, 1]) 3 TARGET_PAGE_SIZE 0 0 1 [1] buf (by decide)
    (by decide) (by decide) (fun h => absurd rfl h) (holds_write src 0 [1, 1, 1]) (by decide) (by decide)
  rw [xbzrle_decode_buffer, decodeLoop_next (by decide) hrun]
  exact decodeLoop_stop _ _ _ 2 _ _ _ (by decide)

-- The page goes out in full, then zeroed as a repeated byte, then as the delta of
-- `nextPage` against the cache in the last pass.
def staleRun : List Event :=
  [.saveBlock false, .endSection, .write 0 (List.replicate TARGET_PAGE_SIZE 0), .sync,
   .saveBlock false, .endSection, .write 0 nextPage, .sync, .saveBlock true, .endSection]

theorem stale_cache_run :
    ∃ m, ((Session.start [pcRam] true (64 * 1024 * 1024) (write (fun _ => 0) 0 stalePage)
      (fun _ => 0)).bind fun m => m.run [pcRam] true staleRun) = some m ∧ ¬ m.Reconstructed := by
  have hread : ∀ m page, page.length = TARGET_PAGE_SIZE →
      read (write m 0 page) (pcRam.offset + 0) TARGET_PAGE_SIZE = page := by
    intro m page h
    rw [← h]
    exact (holds_write m 0 page).read_eq
  have hfresh : ∀ r, Names [pcRam] r pcRam 0 0 := by
    intro r
    exact ⟨rfl, fun _ => by decide, fun h => absurd rfl h⟩
  have hsetup : ram_load [pcRam] ⟨fun _ => 0, none, fun _ => 0⟩
      ⟨QEMUFile.empty.buf ++ setupBytes [pcRam], 0, 0⟩ 4 =
        some (0, ⟨fun _ => 0, none, fun _ => 0⟩, ⟨QEMUFile.empty.buf ++ setupBytes [pcRam], 31, 0⟩) := by
    rfl
  apply Session.exists_start (ram_save_setup_ok rfl rfl) hsetup
  have hkept : ∀ r : RamLoad, r.block = some 0 → Names [pcRam] r pcRam RAM_SAVE_FLAG_CONTINUE 0 := by
    intro r hr
    exact ⟨rfl, fun h => absurd h (by decide), fun _ => hr⟩
  have hzero : (List.replicate TARGET_PAGE_SIZE (0 : UInt8))[0]! = 0 := by
    simp [TARGET_PAGE_SIZE_eq, -List.reduceReplicate]
  have henc : ∀ e : Mem, read (write e 0 [1, 1, 1]) 0 3 = [1, 1, 1] :=
    fun e => (holds_write e 0 [1, 1, 1]).read_eq
  -- the page goes out in full, and the cache keeps it
  apply Session.exists_run_cons
  · exact Session.step_saveBlock (ram_save_block_one (by rfl) (by rfl) (by rfl) (fun _ => by rfl) (by rfl)
      (savePage_miss (p := stalePage) (by rfl) (by rfl) (by dsimp only; exact hread _ _ stalePage_length)
        (is_dup_page_eq_false (k := 1) (by rw [stalePage_length]; decide) (by decide)) (by rfl) (by rfl))
      (by have := TARGET_PAGE_SIZE_eq; omega))
  apply Session.exists_run_cons
  · exact Session.step_endSection (by rfl) (ram_load_record
      (ramLoadRecord_page (by exact hfresh _) (Or.inl rfl) (show 0 % TARGET_PAGE_SIZE = 0 by decide)
        (by decide) (by rfl) stalePage_length
        (show _ = _ ++ _ ++ be64Bytes RAM_SAVE_FLAG_EOS by simp [QEMUFile.rest, QEMUFile.empty, pageCont]))
      (by decide) (by rfl) (by simp [QEMUFile.rest, QEMUFile.advance, QEMUFile.empty, pageCont])
      (by simp only [QEMUFile.empty, List.nil_append, List.length_append, be64Bytes_length]; omega))
  -- the guest zeroes the page, which goes out as one repeated byte
  apply Session.exists_run_cons
  · exact Session.step_write
  apply Session.exists_run_cons
  · exact Session.step_sync (migration_bitmap_sync_page rfl rfl (by simp [dirtyPages, TARGET_PAGE_BITS, TARGET_PAGE_SIZE_eq, -List.reduceReplicate]))
  apply Session.exists_run_cons
  · exact Session.step_saveBlock (ram_save_block_one (by rfl) (by rfl) (by rfl)
      (by intro h; exact absurd rfl h) (by rfl)
      (savePage_dup (p := List.replicate TARGET_PAGE_SIZE 0) (by rfl) (by rfl) (by dsimp only; exact hread _ _ (List.length_replicate ..))
        (by exact is_dup_page_replicate _ _))
      (by positivity))
  apply Session.exists_run_cons
  · exact Session.step_endSection (by rfl) (ram_load_record
      (ramLoadRecord_compress (by exact hkept _ rfl) (Or.inr rfl) (show 0 % TARGET_PAGE_SIZE = 0 by decide)
        (by decide) (by rfl)
        (show _ = _ ++ (0 : UInt8) :: be64Bytes RAM_SAVE_FLAG_EOS by
          simp [QEMUFile.rest, QEMUFile.empty, pageCont, hzero]))
      (by decide) (by rfl) (by simp [QEMUFile.rest, QEMUFile.advance, QEMUFile.empty, pageCont])
      (by simp only [QEMUFile.empty, List.nil_append, List.length_append, be64Bytes_length]; omega))
  -- the guest stores a page the cache would have to know: it still holds the stale one
  apply Session.exists_run_cons
  · exact Session.step_write
  apply Session.exists_run_cons
  · exact Session.step_sync (migration_bitmap_sync_page rfl rfl
      (by simp [dirtyPages, TARGET_PAGE_BITS, nextPage_length, TARGET_PAGE_SIZE_eq, -List.reduceReplicate]))
  apply Session.exists_run_cons
  · exact Session.step_saveBlock (ram_save_block_one (by rfl) (by rfl) (by rfl)
      (by intro h; exact absurd rfl h) (by rfl)
      (savePage_xbzrle (p := nextPage) (by rfl) (by rfl) (by dsimp only; exact hread _ _ nextPage_length)
        (is_dup_page_eq_false (k := 2) (by rw [nextPage_length]; decide) (by decide)) (by rfl) (by exact cache_is_cached_insert _ _ _)
        (by exact get_cached_data_insert _ _ _) (by exact encode_stale_next _) (by decide))
      (by positivity))
  apply Session.exists_run_cons
  · exact Session.step_endSection (by rfl) (ram_load_record
      (ramLoadRecord_xbzrle (by exact hkept _ rfl) (Or.inr rfl) (show 0 % TARGET_PAGE_SIZE = 0 by decide)
        (by decide) (by rfl) (show ([1, 1, 1] : List UInt8).length ≤ TARGET_PAGE_SIZE by decide)
        (show _ = _ ++ _ ++ be64Bytes RAM_SAVE_FLAG_EOS by
          simp [QEMUFile.rest, QEMUFile.empty, pageCont, henc])
        (by exact decode_one_run _ _) (by decide))
      (by decide) (by rfl) (by simp [QEMUFile.rest, QEMUFile.advance, QEMUFile.empty, pageCont, henc, be16Bytes])
      (by simp only [QEMUFile.empty, List.nil_append, List.length_append, be64Bytes_length]; omega))
  refine ⟨_, rfl, fun hrec => ?_⟩
  have h0 := congrArg (·[0]!) (hrec 0 _ rfl)
  simp only [read_getElem _ _ _ _ (show 0 < TARGET_PAGE_SIZE by decide)] at h0
  -- the receiver patched byte 1 of the zero page; the sender's page starts with 1
  simp only [show pcRam.offset = 0 from rfl, Option.getD_some, List.getElem!_cons_zero, Nat.add_zero,
    place_write_view, Nat.zero_add] at h0
  have hdst : write (write (write (fun _ => 0) 0 stalePage) 0 (List.replicate TARGET_PAGE_SIZE 0)) 1 [1] 0 = 0 := by
    rw [write_frame _ _ _ (Or.inl (by decide : 0 < 1)), write_eq_iff,
      if_pos (by simp [TARGET_PAGE_SIZE_eq, -List.reduceReplicate]), Nat.sub_self, hzero]
  have hsrc : write (write (write (fun _ => 0) 0 stalePage) 0 (List.replicate TARGET_PAGE_SIZE 0)) 0 nextPage 0 = 1 := by
    rw [write_eq_iff, if_pos (by simp [nextPage_length, TARGET_PAGE_SIZE_eq]), Nat.sub_self]
    simp [nextPage, -List.reduceReplicate]
  rw [hdst, hsrc] at h0
  exact absurd h0 (by decide)

end Qemu.Migration

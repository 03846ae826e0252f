import Qemu.Migration.Migrate
import Qemu.XbzrleDecode

/-!
Loading RAM from a stream nobody vouches for. `load_xbzrle` is safe whatever the stream
holds: the decoder's own bounds keep it inside the page and away from its `abort()`. The
page itself is placed at `block->offset + offset` with no check of `offset` against
`block->length`.
-/

namespace Qemu.Migration

open ByteMem Qemu.Xbzrle

-- `load_xbzrle` always returns, never reaching its `abort()`, and stores only into the page
-- at `host`: the decoder returns within its passes, with `-1` or at most `TARGET_PAGE_SIZE`,
-- and leaves the bytes past the page alone.
theorem load_xbzrle_spec (r : RamLoad) (f : QEMUFile) (host : Nat) :
    ∃ rc r' f', load_xbzrle r f host = some (rc, r', f') ∧
      ∀ a, (a < host ∨ host + TARGET_PAGE_SIZE ≤ a) → r'.ram a = r.ram a := by
  unfold load_xbzrle
  rcases hb : qemu_get_byte f with ⟨xh_flags, f1⟩
  rcases h16 : qemu_get_be16 f1 with ⟨xh_len, f2⟩
  rcases hbuf : qemu_get_buffer f2 xh_len with ⟨data, f3⟩
  -- the decoder returns, whatever the stream holds
  obtain ⟨ret, page, hdec, hout, hret⟩ := xbzrle_decode_buffer_returns
    (write r.decoded_buf 0 data) xh_len (view r.ram host) TARGET_PAGE_SIZE
  -- the decoded page replaces the bytes from `host` on, and is the old RAM from its end
  have hframe : ∀ a, (a < host ∨ host + TARGET_PAGE_SIZE ≤ a) → place r.ram host page a = r.ram a := by
    intro a ha
    unfold place
    split_ifs with hle
    · rw [hout _ (by omega)]
      simp only [view]
      congr 1
      omega
    · rfl
  simp only [h16, hbuf, hdec]
  split_ifs with h1 h2 h3 h4
  · exact ⟨_, _, _, rfl, fun _ _ => rfl⟩
  · exact ⟨_, _, _, rfl, fun _ _ => rfl⟩
  · exact ⟨_, _, _, rfl, hframe⟩
  · -- a decoded size past the page: the decoder never returns one
    omega
  · exact ⟨_, _, _, rfl, hframe⟩

/-! ### A page past the end of its block -/

-- A section of one `PAGE` record for `pc.ram` at offset 4096, where its only page ends,
-- then the end of the section.
def pastEndStream : List UInt8 :=
  hdrBytes pcRam 4096 0 RAM_SAVE_FLAG_PAGE ++ List.replicate TARGET_PAGE_SIZE 1 ++
    be64Bytes RAM_SAVE_FLAG_EOS

theorem ram_load_past_block (r : RamLoad) :
    ∃ r' f', ram_load [pcRam] r ⟨pastEndStream, 0, 0⟩ 4 = some (0, r', f') ∧
      ∀ a, 4096 ≤ a → a < 4096 + TARGET_PAGE_SIZE →
        r'.ram a = 1 ∧ pcRam.offset + pcRam.length ≤ a := by
  have hnames : Names [pcRam] r pcRam 0 0 := ⟨rfl, fun _ => by decide, fun h => absurd rfl h⟩
  have hlen : (List.replicate TARGET_PAGE_SIZE (1 : UInt8)).length = TARGET_PAGE_SIZE :=
    List.length_replicate ..
  have hrest : (⟨pastEndStream, 0, 0⟩ : QEMUFile).rest = hdrBytes pcRam 4096 0 RAM_SAVE_FLAG_PAGE ++
      List.replicate TARGET_PAGE_SIZE 1 ++ be64Bytes RAM_SAVE_FLAG_EOS := rfl
  -- the record names `pc.ram`, and its offset is taken as it comes
  have hrec := ramLoadRecord_page hnames (Or.inl rfl) (show 4096 % TARGET_PAGE_SIZE = 0 by decide)
    (by decide) rfl hlen hrest
  have hram : ∀ a, 4096 ≤ a → a < 4096 + TARGET_PAGE_SIZE →
      write r.ram (pcRam.offset + 4096) (List.replicate TARGET_PAGE_SIZE 1) a = 1 := by
    intro a ha1 ha2
    have hoff : pcRam.offset = 0 := rfl
    rw [write_eq_iff, if_pos (by rw [hlen, hoff]; omega), List.getElem!_eq_getElem?_getD,
      List.getElem?_replicate, if_pos (by rw [hoff]; omega)]
    rfl
  have hload := ram_load_record hrec (by decide) rfl
    (by simp [QEMUFile.rest, QEMUFile.advance, pastEndStream])
    (by simp only [pastEndStream, List.length_append, be64Bytes_length]; omega)
  refine ⟨_, _, hload, fun a ha1 ha2 => ?_⟩
  constructor
  · dsimp only
    exact hram a ha1 ha2
  · simp only [pcRam]
    omega

end Qemu.Migration

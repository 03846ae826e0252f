import Qemu.Lib.ErrorState

/-!
The read-only cloop image driver (`block/cloop.c`). After a 128-byte shell script an image holds
the big-endian `block_size` and `n_blocks`, then the table of the blocks' places in the file,
each block a zlib stream that inflates to `block_size` bytes. `cloop_open` reads the header and
the table and allocates the driver's buffers; `cloop_read` copies sectors out of the inflated
blocks. Every read or write of a buffer goes through `access`, which logs the buffer and the
bytes it touches, and a division by zero is a fault. The file is its bytes at every offset
(`bdrv_pread` of it always succeeds); the entries of the table past the bytes `g_malloc` gave it
are whatever the heap holds there. zlib is a parameter: `inflate` gives the bytes a stream
inflates to, or fails.
-/

namespace Qemu.Block.Cloop

open ErrorState

-- The buffers of the driver, and `buf`, the caller's.
inductive Buf
  | offsets
  | compressed_block
  | uncompressed_block
  | buf
deriving DecidableEq, Repr

-- The bytes `[lo, hi)` of a buffer, read or written.
structure Access where
  buf : Buf
  lo : Int
  hi : Int
deriving DecidableEq, Repr

inductive Fault
  | ret (code : Int)
  | divByZero
deriving DecidableEq, Repr

-- The driver either fails or goes on; every buffer access is logged, latest first.
abbrev CloopM := EStateM Fault (List Access)

def access (b : Buf) (lo len : Int) : CloopM Unit := modify (⟨b, lo, lo + len⟩ :: ·)

-- The accesses of a run, whether it returned or failed.
def accesses {α : Type} : EStateM.Result Fault (List Access) α → List Access
  | .ok _ log => log
  | .error _ log => log

structure BDRVCloopState where
  block_size : UInt32
  n_blocks : UInt32
  offsets : Nat → UInt64
  -- the bytes `g_malloc` gave `offsets` and `compressed_block`
  offsets_size : UInt32
  compressed_size : UInt32
  sectors_per_block : UInt32
  current_block : UInt32
  uncompressed_block : Nat → UInt8
  -- `bs->total_sectors`
  total_sectors : Int

-- `be32_to_cpu` and `be64_to_cpu` of the bytes of the file at `off`.
def be32At (image : Nat → UInt8) (off : Nat) : UInt32 :=
  UInt32.ofNat ((List.range 4).foldl (fun acc k => acc * 256 + (image (off + k)).toNat) 0)

def be64At (image : Nat → UInt8) (off : Nat) : UInt64 :=
  UInt64.ofNat ((List.range 8).foldl (fun acc k => acc * 256 + (image (off + k)).toNat) 0)

-- The loop of `cloop_open` over the table: each entry converted in place, and the largest
-- difference of consecutive entries, as a `uint32_t`, kept from 1 up.
def openLoop (offsets : Nat → UInt64) (n_blocks : Nat) : CloopM UInt32 :=
  (List.range n_blocks).foldlM (fun max_compressed_block_size (i : Nat) => do
    access .offsets (8 * i) 8
    if i > 0 then
      let size : UInt32 := (offsets i - offsets (i - 1)).toUInt32
      pure (if size > max_compressed_block_size then size else max_compressed_block_size)
    else pure max_compressed_block_size) 1

-- `static int cloop_open(BlockDriverState *bs, int flags)`. `heap` is what the table's memory
-- holds past the bytes read into it; `inflateInit` is taken to succeed.
def cloop_open (image : Nat → UInt8) (heap : Nat → UInt64) : CloopM BDRVCloopState := do
  -- read header
  let block_size := be32At image 128
  let n_blocks := be32At image (128 + 4)
  -- read offsets
  let offsets_size : UInt32 := n_blocks * 8
  access .offsets 0 offsets_size.toNat
  let offsets : Nat → UInt64 := fun i =>
    if 8 * i + 8 ≤ offsets_size.toNat then be64At image (128 + 4 + 4 + 8 * i) else heap i
  let max_compressed_block_size ← openLoop offsets n_blocks.toNat
  -- initialize zlib engine
  let sectors_per_block := block_size / 512
  pure { block_size, n_blocks, offsets, offsets_size,
         compressed_size := max_compressed_block_size + 1, sectors_per_block,
         current_block := n_blocks, uncompressed_block := fun _ => 0,
         total_sectors := (n_blocks * sectors_per_block).toNat }

-- `static inline int cloop_read_block(BlockDriverState *bs, int block_num)`: the compressed
-- stream is the `offsets[block_num + 1] - offsets[block_num]` bytes from `offsets[block_num]`,
-- and `inflate` writes at most `block_size` bytes of it into `uncompressed_block`.
def cloop_read_block (inflate : List UInt8 → Option (List UInt8)) (image : Nat → UInt8)
    (s : BDRVCloopState) (block_num : Int) : CloopM BDRVCloopState := do
  if s.current_block ≠ UInt32.ofInt block_num then
    access .offsets (8 * (block_num + 1)) 8
    access .offsets (8 * block_num) 8
    let next := s.offsets (block_num + 1).toNat
    let start := s.offsets block_num.toNat
    let bytes : UInt32 := (next - start).toUInt32
    access .compressed_block 0 bytes.toNat
    let stream := (List.range bytes.toNat).map fun k => image (start.toNat + k)
    match inflate stream with
    | none => throw (.ret (-1))
    | some out =>
        access .uncompressed_block 0 (min out.length s.block_size.toNat)
        -- `Z_STREAM_END` with `total_out == block_size`
        if out.length = s.block_size.toNat then
          pure { s with current_block := UInt32.ofInt block_num,
                        uncompressed_block := fun k => out.getD k 0 }
        else throw (.ret (-1))
  else pure s

-- The loop of `cloop_read` from sector `i` on, `n` sectors left.
def cloopReadLoop (inflate : List UInt8 → Option (List UInt8)) (image : Nat → UInt8)
    (sector_num : Int) : Nat → Nat → BDRVCloopState → CloopM BDRVCloopState
  | _, 0, s => pure s
  | i, n + 1, s => do
      if s.sectors_per_block = 0 then throw .divByZero
      let sector_offset_in_block : UInt32 :=
        UInt32.ofInt ((sector_num + i).tmod s.sectors_per_block.toNat)
      let block_num : UInt32 := UInt32.ofInt ((sector_num + i).tdiv s.sectors_per_block.toNat)
      -- `block_num` goes to `cloop_read_block` as an `int`
      let s ← cloop_read_block inflate image s block_num.toInt32.toInt
      access .uncompressed_block (sector_offset_in_block.toNat * 512) 512
      access .buf (i * 512) 512
      cloopReadLoop inflate image sector_num (i + 1) n s

-- `static int cloop_read(BlockDriverState *bs, int64_t sector_num, uint8_t *buf,
-- int nb_sectors)`.
def cloop_read (inflate : List UInt8 → Option (List UInt8)) (image : Nat → UInt8)
    (s : BDRVCloopState) (sector_num : Int) (nb_sectors : Nat) : CloopM BDRVCloopState :=
  cloopReadLoop inflate image sector_num 0 nb_sectors s

-- An image of one block of 512 bytes, whose stream starts at byte 144.
def oneBlockImage : Nat → UInt8
  | 130 => 2
  | 135 => 1
  | 143 => 144
  | _ => 0

-- A zlib that inflates every stream to 512 zero bytes.
def inflateZeros (_ : List UInt8) : Option (List UInt8) := some (List.replicate 512 0)

-- The image opens with a table of one entry and one sector, and reading that sector reads
-- `offsets[1]`, the bytes `[8, 16)` of an 8-byte table.
theorem cloop_read_past_offsets :
    ∃ s log, cloop_open oneBlockImage (fun _ => 200) [] = .ok s log ∧
      s.n_blocks = 1 ∧ s.offsets_size = 8 ∧ s.total_sectors = 1 ∧
      ⟨.offsets, 8, 16⟩ ∈ accesses (cloop_read inflateZeros oneBlockImage s 0 1 []) := by
  refine ⟨_, _, rfl, ?_⟩
  decide +kernel

end Qemu.Block.Cloop

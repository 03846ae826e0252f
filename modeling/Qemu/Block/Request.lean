import Qemu.Lib.BitArith

/-!
The range check that `block.c` makes before a read or a write reaches the driver
(`bdrv_check_byte_request`, `bdrv_check_request`). The host is LP64: `int64_t` and
`size_t` are 64-bit words, `int` a 32-bit one. `BDRV_SECTOR_SIZE` is an
`unsigned long long`, so the sector number is multiplied in unsigned 64-bit arithmetic.
-/

namespace Qemu.Block

open BitArith

def BDRV_SECTOR_BITS : Nat := 9

-- `(1ULL << BDRV_SECTOR_BITS)`
def BDRV_SECTOR_SIZE : BitVec 64 := 1#64 <<< BDRV_SECTOR_BITS

def EIO : Int := 5

def ENOMEDIUM : Int := 123

-- What the check reads of a `BlockDriverState`: `bdrv_is_inserted(bs)`, `bs->growable`,
-- and the `int64_t` that `bdrv_getlength(bs)` returns.
structure BlockDriverState where
  inserted : Bool
  growable : Bool
  length : BitVec 64

-- `static int bdrv_check_byte_request(BlockDriverState *bs, int64_t offset, size_t size)`
def bdrv_check_byte_request (bs : BlockDriverState) (offset size : BitVec 64) : Int :=
  if !bs.inserted then -ENOMEDIUM
  else if bs.growable then 0
  else
    let len := bs.length
    if offset.slt 0 then - EIO
    -- `offset > len` compares two `int64_t`; `len - offset < size` converts the
    -- difference to `size_t`
    else if len.slt offset ∨ (len - offset).ult size then - EIO
    else 0

-- `static int bdrv_check_request(BlockDriverState *bs, int64_t sector_num, int nb_sectors)`:
-- both products are `unsigned long long`, the `int` sign-extended first.
def bdrv_check_request (bs : BlockDriverState) (sector_num : BitVec 64) (nb_sectors : BitVec 32) :
    Int :=
  bdrv_check_byte_request bs (sector_num * BDRV_SECTOR_SIZE)
    (nb_sectors.signExtend 64 * BDRV_SECTOR_SIZE)

/-! ### The check in integers -/

theorem BDRV_SECTOR_SIZE_toInt : BDRV_SECTOR_SIZE.toInt = 512 := by decide

-- The byte offset of a sector: the product wraps modulo 2^64 and is read back as signed.
theorem sector_offset_toInt (sector_num : BitVec 64) :
    (sector_num * BDRV_SECTOR_SIZE).toInt = (sector_num.toInt * 512).bmod (2 ^ 64) := by
  rw [BitVec.toInt_mul, BDRV_SECTOR_SIZE_toInt]

-- The byte count of `nb_sectors`: a negative count becomes a huge `size_t`.
theorem sector_size_toNat (nb_sectors : BitVec 32) :
    ((nb_sectors.signExtend 64 * BDRV_SECTOR_SIZE).toNat : Int) = nb_sectors.toInt * 512 % 2 ^ 64 := by
  have h := BitArith.toInt_emod_two_pow (nb_sectors.signExtend 64 * BDRV_SECTOR_SIZE) (le_refl 64)
  have h64 : ((2 : Int) ^ 64) = ((2 ^ 64 : Nat) : Int) := by norm_num
  rw [Nat.mod_eq_of_lt (BitVec.isLt _), BitVec.toInt_mul, h64, Int.bmod_emod,
    BitVec.toInt_signExtend_of_le (by decide), BDRV_SECTOR_SIZE_toInt, ← h64] at h
  exact h.symm

theorem bdrv_check_byte_request_eq_zero_iff {bs : BlockDriverState} (hins : bs.inserted)
    (hgrow : bs.growable = false) (hlen : 0 ≤ bs.length.toInt) (offset size : BitVec 64) :
    bdrv_check_byte_request bs offset size = 0 ↔
      0 ≤ offset.toInt ∧ offset.toInt + size.toNat ≤ bs.length.toInt := by
  have hL : bs.length.toInt = bs.length.toNat := toInt_eq_toNat_of_nonneg hlen
  have herr : - EIO ≠ 0 := by decide
  simp only [bdrv_check_byte_request, hins, hgrow, Bool.not_true, Bool.false_eq_true, if_false,
    BitVec.slt_iff_toInt_lt, BitVec.ult_iff_toNat_lt, BitVec.ofNat_eq_ofNat, BitVec.toInt_zero]
  by_cases hO : offset.toInt < 0
  · rw [if_pos hO, iff_false_left herr]
    omega
  · -- a non-negative offset at most the length: the difference is the room left
    have hO' : offset.toInt = offset.toNat := toInt_eq_toNat_of_nonneg (by omega)
    rw [if_neg hO]
    by_cases hgt : bs.length.toInt < offset.toInt
    · rw [if_pos (.inl hgt), iff_false_left herr]
      omega
    · have hle : offset ≤ bs.length := BitVec.le_def.mpr (by omega)
      rw [BitVec.toNat_sub_of_le hle]
      split_ifs with h
      · rw [iff_false_left herr]
        omega
      · simp only [true_iff]
        omega

section Request

variable {bs : BlockDriverState} (hins : bs.inserted) (hgrow : bs.growable = false)
  (hlen : 0 ≤ bs.length.toInt)
include hins hgrow hlen

-- What the check computes: the wrapped byte offset and the byte count as a `size_t`.
theorem bdrv_check_request_eq_zero_iff (sector_num : BitVec 64) (nb_sectors : BitVec 32) :
    bdrv_check_request bs sector_num nb_sectors = 0 ↔
      0 ≤ (sector_num.toInt * 512).bmod (2 ^ 64) ∧
        (sector_num.toInt * 512).bmod (2 ^ 64) + nb_sectors.toInt * 512 % 2 ^ 64 ≤ bs.length.toInt := by
  rw [bdrv_check_request, bdrv_check_byte_request_eq_zero_iff hins hgrow hlen, sector_offset_toInt,
    sector_size_toNat]

-- While the byte offset does not wrap, the check is exact.
theorem bdrv_check_request_exact (sector_num : BitVec 64) (nb_sectors : BitVec 32)
    (hlo : -2 ^ 54 ≤ sector_num.toInt) (hhi : sector_num.toInt < 2 ^ 54) :
    bdrv_check_request bs sector_num nb_sectors = 0 ↔
      0 ≤ sector_num.toInt ∧ 0 ≤ nb_sectors.toInt ∧
        (sector_num.toInt + nb_sectors.toInt) * 512 ≤ bs.length.toInt := by
  have hoff : (sector_num.toInt * 512).bmod (2 ^ 64) = sector_num.toInt * 512 :=
    Int.bmod_eq_of_le (by omega) (by omega)
  have hn1 := BitVec.le_toInt nb_sectors
  have hn2 := BitVec.toInt_lt (x := nb_sectors)
  have hL := BitVec.toInt_lt (x := bs.length)
  simp only [Nat.add_one_sub_one] at hn1 hn2 hL
  -- a negative count wraps to at least 2^64 - 2^40 bytes, more than any length
  have hsize : nb_sectors.toInt * 512 % 2 ^ 64 =
      if 0 ≤ nb_sectors.toInt then nb_sectors.toInt * 512 else nb_sectors.toInt * 512 + 2 ^ 64 := by
    split_ifs <;> omega
  rw [bdrv_check_request_eq_zero_iff hins hgrow hlen, hoff, hsize]
  split_ifs <;> omega

end Request

theorem bdrv_check_request_exact_page :
    bdrv_check_request ⟨true, false, 4096#64⟩ 1#64 2#32 = 0 ↔
      0 ≤ (1#64).toInt ∧ 0 ≤ (2#32).toInt ∧ ((1#64).toInt + (2#32).toInt) * 512 ≤ (4096#64).toInt :=
  bdrv_check_request_exact rfl rfl (by decide) 1#64 2#32 (by decide) (by decide)

/-! ### Sector numbers that wrap -/

-- Sector numbers `2^55` apart have the same byte offset modulo `2^64`, so the check
-- cannot tell them apart.
theorem bdrv_check_request_add_two_pow_55 (bs : BlockDriverState) (sector_num : BitVec 64)
    (nb_sectors : BitVec 32) :
    bdrv_check_request bs (sector_num + BitVec.ofNat 64 (2 ^ 55)) nb_sectors =
      bdrv_check_request bs sector_num nb_sectors := by
  have h : BitVec.ofNat 64 (2 ^ 55) * BDRV_SECTOR_SIZE = 0 := by decide
  unfold bdrv_check_request
  rw [BitVec.add_mul, h, add_zero]

theorem bdrv_check_request_wraps {bs : BlockDriverState} (hins : bs.inserted)
    (hgrow : bs.growable = false) (hlen : 512 ≤ bs.length.toInt) :
    bdrv_check_request bs (BitVec.ofNat 64 (2 ^ 55)) 1 = 0 ∧
      bs.length.toInt < ((BitVec.ofNat 64 (2 ^ 55)).toInt + (1 : BitVec 32).toInt) * 512 := by
  have hs : (BitVec.ofNat 64 (2 ^ 55)).toInt = 2 ^ 55 := by decide
  have hn : (1 : BitVec 32).toInt = 1 := by decide
  have hL : bs.length.toInt < 2 ^ 63 := BitVec.toInt_lt
  refine ⟨?_, ?_⟩
  · -- `2^55 * 512 = 2^64` wraps to byte offset 0
    have h0 : ((2 : Int) ^ 55 * 512).bmod (2 ^ 64) = 0 := by decide
    rw [bdrv_check_request_eq_zero_iff hins hgrow (by omega), hs, hn, h0]
    omega
  · rw [hs, hn]
    omega

theorem bdrv_check_request_wraps_512 :
    (⟨true, false, 512#64⟩ : BlockDriverState).inserted ∧
      (⟨true, false, 512#64⟩ : BlockDriverState).growable = false ∧
      512 ≤ (512#64).toInt ∧
      bdrv_check_request ⟨true, false, 512#64⟩ (BitVec.ofNat 64 (2 ^ 55)) 1 = 0 ∧
      (512#64).toInt < ((BitVec.ofNat 64 (2 ^ 55)).toInt + (1 : BitVec 32).toInt) * 512 :=
  ⟨rfl, rfl, by decide, @bdrv_check_request_wraps ⟨true, false, 512#64⟩ rfl rfl (by decide)⟩

end Qemu.Block

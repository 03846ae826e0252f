import Qemu.Lib.ByteMem

namespace Qemu.Util

open ByteMem

-- `static inline bool is_power_of_2(uint64_t value)`.
def is_power_of_2 (value : Nat) : Bool :=
  value != 0 && value &&& (value - 1) == 0

-- `int clz64(uint64_t val)`: leading zero bits, 64 for zero.
def clz64 (val : Nat) : Nat :=
  if val = 0 then 64 else 63 - Nat.log2 val

-- `int64_t pow2floor(int64_t value)`, on the value's 64-bit pattern. The shift by 64 that
-- a zero value asks for is undefined in C; here it gives 0.
def pow2floor (value : Int) : Int :=
  let v := (value % 2 ^ 64).toNat
  if is_power_of_2 v then value
  else
    let r := 0x8000000000000000 >>> clz64 v
    if r < 2 ^ 63 then r else (r : Int) - 2 ^ 64

-- The bytes `uleb128_encode_small` stores for `n`: seven bits a byte, low group first.
def uleb128Bytes (n : Nat) : List UInt8 :=
  if n < 0x80 then [UInt8.ofNat n]
  else [UInt8.ofNat ((n &&& 0x7f) ||| 0x80), UInt8.ofNat (n >>> 7)]

-- `int uleb128_encode_small(uint8_t *out, uint32_t n)`: the stores into `out`
-- and the count returned; `none` is the `g_assert(n <= 0x3fff)` failing.
def uleb128_encode_small (out : Mem) (pos n : Nat) : Option (Mem × Nat) :=
  if n ≤ 0x3fff then some (write out pos (uleb128Bytes n), (uleb128Bytes n).length)
  else none

-- `int uleb128_decode_small(const uint8_t *in, uint32_t *n)` reading at `pos`:
-- the return value and what it leaves in `*n`.
def uleb128_decode_small (src : Mem) (pos : Nat) : Int × Nat :=
  if src pos &&& 0x80 = 0 then (1, (src pos).toNat)
  else if src (pos + 1) &&& 0x80 ≠ 0 then (-1, (src pos &&& 0x7f).toNat)
  else (2, (src pos &&& 0x7f).toNat ||| ((src (pos + 1)).toNat <<< 7))

theorem uleb128Bytes_length_pos (n : Nat) : 1 ≤ (uleb128Bytes n).length := by
  unfold uleb128Bytes
  split <;> simp

theorem uleb128Bytes_length_le (n : Nat) : (uleb128Bytes n).length ≤ 2 := by
  unfold uleb128Bytes
  split <;> simp

@[simp] theorem uleb128_encode_small_of_le {n : Nat} (h : n ≤ 0x3fff) (out : Mem) (pos : Nat) :
    uleb128_encode_small out pos n = some (write out pos (uleb128Bytes n), (uleb128Bytes n).length) :=
  if_pos h

private theorem byte_and_0x80 (x : UInt8) : x &&& 0x80 = 0 ↔ x.toNat < 0x80 := by
  have key : ∀ x : UInt8, x &&& 0x80 = 0 ↔ x.toNat < 0x80 := by decide +kernel
  exact key x

private theorem byte_and_0x7f (x : UInt8) : (x &&& 0x7f).toNat = x.toNat % 0x80 := by
  rw [UInt8.toNat_and]
  exact Nat.and_two_pow_sub_one_eq_mod x.toNat 7

-- Decoding the bytes of a small number gives it back, with their count.
theorem uleb128_decode_small_bytes {n : Nat} (h : n ≤ 0x3fff) (src : Mem) (pos : Nat)
    (hsrc : Holds src pos (uleb128Bytes n)) :
    uleb128_decode_small src pos = (((uleb128Bytes n).length : Int), n) := by
  by_cases hn : n < 0x80
  · -- one byte, its top bit clear
    have h0 := hsrc 0 (by simp [uleb128Bytes, hn])
    simp only [uleb128Bytes, hn, if_true, Nat.add_zero] at h0
    have hval : (src pos).toNat = n := by
      rw [h0]
      simp only [List.getElem!_cons_zero, UInt8.toNat_ofNat']
      omega
    have htop : src pos &&& 0x80 = 0 := (byte_and_0x80 _).mpr (by omega)
    simp [uleb128_decode_small, uleb128Bytes, hn, htop, hval]
  · -- two bytes: the low seven bits with the top bit set, then the rest
    have hlen : (uleb128Bytes n).length = 2 := by simp [uleb128Bytes, hn]
    have h0 := hsrc 0 (by omega)
    have h1 := hsrc 1 (by omega)
    simp only [uleb128Bytes, hn, if_false, Nat.add_zero] at h0 h1
    have hlow : n &&& 0x7f ||| 0x80 = n % 0x80 + 0x80 := by
      rw [show (0x7f : Nat) = 2 ^ 7 - 1 from rfl, Nat.and_two_pow_sub_one_eq_mod,
        show (0x80 : Nat) = 2 ^ 7 from rfl]
      exact Nat.or_two_pow_eq_add_of_lt (Nat.mod_lt _ (by decide))
    have hv0 : (src pos).toNat = n % 0x80 + 0x80 := by
      rw [h0]
      simp only [List.getElem!_cons_zero, UInt8.toNat_ofNat', hlow]
      omega
    have hv1 : (src (pos + 1)).toNat = n / 0x80 := by
      rw [h1]
      simp only [List.getElem!_cons_succ, List.getElem!_cons_zero, UInt8.toNat_ofNat',
        Nat.shiftRight_eq_div_pow]
      omega
    have htop0 : ¬src pos &&& 0x80 = 0 := by
      rw [byte_and_0x80]
      omega
    have htop1 : src (pos + 1) &&& 0x80 = 0 := (byte_and_0x80 _).mpr (by omega)
    have hjoin : (src pos &&& 0x7f).toNat ||| (src (pos + 1)).toNat <<< 7 = n := by
      rw [byte_and_0x7f, hv0, hv1, Nat.or_comm, ← Nat.shiftLeft_add_eq_or_of_lt
        (by show (n % 128 + 128) % 128 < 2 ^ 7; omega), Nat.shiftLeft_eq]
      omega
    simp only [uleb128_decode_small, htop0, if_false, htop1, ne_eq, not_true_eq_false, hjoin,
      hlen]
    rfl

-- `uleb128_decode_small` reads `in[0]` and at most `in[1]`.
theorem uleb128_decode_small_congr {src src' : Mem} {pos : Nat} (h0 : src' pos = src pos)
    (h1 : src' (pos + 1) = src (pos + 1)) :
    uleb128_decode_small src' pos = uleb128_decode_small src pos := by
  simp only [uleb128_decode_small, h0, h1]

end Qemu.Util

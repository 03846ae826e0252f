import Qemu.Lib.ByteWord
import Qemu.Util.Cutils

/-!
Xor-based zero-run-length encoding of a page against its previous contents
(`xbzrle.c`). The stream is a sequence of runs: the length of a run of unchanged
bytes, then the length of a run of changed bytes followed by those bytes, both
lengths in small ULEB128. The host is LP64 little-endian: `long` is eight bytes.
-/

namespace Qemu.Xbzrle

open ByteMem Qemu.Util

def SIZEOF_LONG : Nat := 8

-- `*(long *)(buf + i)`.
def loadLong (buf : List UInt8) (i : Nat) : BitVec 64 :=
  BitVec.ofNat 64 (ByteWord.val ((buf.drop i).take SIZEOF_LONG))

-- `(long)0x0101010101010101ULL`.
def mask : BitVec 64 := 0x0101010101010101#64

/-! ### The scans of `xbzrle_encode_buffer` -/

-- `while (res && old_buf[i] == new_buf[i]) { zrun_len++; i++; res--; }`,
-- returning `(res, i, zrun_len)`.
def zrunBytes (old new : List UInt8) : Nat → Nat → Nat → Nat × Nat × Nat
  | 0, i, zrun_len => (0, i, zrun_len)
  | res + 1, i, zrun_len =>
      if old[i]! = new[i]! then zrunBytes old new res (i + 1) (zrun_len + 1)
      else (res + 1, i, zrun_len)

-- `while (i < slen && *(long *)(old_buf + i) == *(long *)(new_buf + i))`,
-- for at most `fuel` words.
def zrunWords (old new : List UInt8) (slen : Nat) : Nat → Nat → Nat → Nat × Nat
  | 0, i, zrun_len => (i, zrun_len)
  | fuel + 1, i, zrun_len =>
      if i < slen ∧ loadLong old i = loadLong new i then
        zrunWords old new slen fuel (i + SIZEOF_LONG) (zrun_len + SIZEOF_LONG)
      else (i, zrun_len)

-- `while (i < slen && old_buf[i] == new_buf[i]) { zrun_len++; i++; }`.
def zrunTail (old new : List UInt8) (slen : Nat) : Nat → Nat → Nat → Nat × Nat
  | 0, i, zrun_len => (i, zrun_len)
  | fuel + 1, i, zrun_len =>
      if i < slen ∧ old[i]! = new[i]! then zrunTail old new slen fuel (i + 1) (zrun_len + 1)
      else (i, zrun_len)

-- `while (res && old_buf[i] != new_buf[i]) { i++; nzrun_len++; res--; }`.
def nzrunBytes (old new : List UInt8) : Nat → Nat → Nat → Nat × Nat × Nat
  | 0, i, nzrun_len => (0, i, nzrun_len)
  | res + 1, i, nzrun_len =>
      if old[i]! ≠ new[i]! then nzrunBytes old new res (i + 1) (nzrun_len + 1)
      else (res + 1, i, nzrun_len)

-- `while (old_buf[i] != new_buf[i]) { nzrun_len++; i++; }`: the source has no bound,
-- the zero-byte test guarantees an equal byte within the current word.
def nzrunUntilEq (old new : List UInt8) : Nat → Nat → Nat → Nat × Nat
  | 0, i, nzrun_len => (i, nzrun_len)
  | fuel + 1, i, nzrun_len =>
      if old[i]! ≠ new[i]! then nzrunUntilEq old new fuel (i + 1) (nzrun_len + 1)
      else (i, nzrun_len)

-- The word loop of the non-zero run: skip words whose xor has no zero byte.
def nzrunWords (old new : List UInt8) (slen : Nat) : Nat → Nat → Nat → Nat × Nat
  | 0, i, nzrun_len => (i, nzrun_len)
  | fuel + 1, i, nzrun_len =>
      if i < slen then
        let xor := loadLong old i ^^^ loadLong new i
        if (xor - mask) &&& ~~~xor &&& (mask <<< 7) ≠ 0 then
          -- found the end of an nzrun within the current long
          nzrunUntilEq old new SIZEOF_LONG i nzrun_len
        else nzrunWords old new slen fuel (i + SIZEOF_LONG) (nzrun_len + SIZEOF_LONG)
      else (i, nzrun_len)

-- The zero run from `i`: the unaligned byte prefix, then words, then the rest.
def zrunScan (old new : List UInt8) (slen i : Nat) : Nat × Nat :=
  let (res, i, zrun_len) := zrunBytes old new ((slen - i) % SIZEOF_LONG) i 0
  if res = 0 then
    let (i, zrun_len) := zrunWords old new slen slen i zrun_len
    zrunTail old new slen slen i zrun_len
  else (i, zrun_len)

-- The non-zero run from `i`: the unaligned byte prefix, then words.
def nzrunScan (old new : List UInt8) (slen i : Nat) : Nat × Nat :=
  let (res, i, nzrun_len) := nzrunBytes old new ((slen - i) % SIZEOF_LONG) i 0
  if res = 0 then nzrunWords old new slen slen i nzrun_len
  else (i, nzrun_len)

/-! ### `xbzrle_encode_buffer` -/

structure EncState where
  i : Nat
  d : Nat
  dst : Mem

-- What one pass of the `while (i < slen)` loop ends in.
inductive EncStep where
  | ret (v : Int) (dst : Mem)
  | next (st : EncState)
  | abort

-- One pass of the loop: a zero run, its length, a non-zero run, its length and bytes.
def encodeIter (old new : List UInt8) (slen dlen : Nat) (st : EncState) : EncStep :=
  -- overflow
  if st.d + 2 > dlen then .ret (-1) st.dst else
  let (i, zrun_len) := zrunScan old new slen st.i
  -- buffer unchanged
  if zrun_len = slen then .ret 0 st.dst else
  -- skip last zero run
  if i = slen then .ret st.d st.dst else
  match uleb128_encode_small st.dst st.d zrun_len with
  | none => .abort
  | some (dst, k) =>
    let d := st.d + k
    let nzrun_start := i
    -- overflow
    if d + 2 > dlen then .ret (-1) dst else
    let (i, nzrun_len) := nzrunScan old new slen i
    match uleb128_encode_small dst d nzrun_len with
    | none => .abort
    | some (dst, k) =>
      let d := d + k
      -- overflow
      if d + nzrun_len > dlen then .ret (-1) dst else
      -- memcpy(dst + d, nzrun_start, nzrun_len)
      let dst := write dst d ((new.drop nzrun_start).take nzrun_len)
      .next ⟨i, d + nzrun_len, dst⟩

-- `none` is a failed assertion, or a loop that has not returned after `fuel` passes.
def encodeLoop (old new : List UInt8) (slen dlen : Nat) : Nat → EncState → Option (Int × Mem)
  | 0, _ => none
  | fuel + 1, st =>
      if st.i < slen then
        match encodeIter old new slen dlen st with
        | .ret v dst => some (v, dst)
        | .next st' => encodeLoop old new slen dlen fuel st'
        | .abort => none
      else some (st.d, st.dst)

-- `int xbzrle_encode_buffer(uint8_t *old_buf, uint8_t *new_buf, int slen,
-- uint8_t *dst, int dlen)`: the value returned and the bytes of `dst`; `none` is
-- a failed assertion. Each pass consumes at least one byte, so `slen + 1` passes
-- are enough (`encodeLoop_ne_none`).
def xbzrle_encode_buffer (old new : List UInt8) (slen : Nat) (dst : Mem) (dlen : Nat) :
    Option (Int × Mem) :=
  if slen % SIZEOF_LONG ≠ 0 then none
  else encodeLoop old new slen dlen (slen + 1) ⟨0, 0, dst⟩

/-! ### `xbzrle_decode_buffer` -/

inductive DecStep where
  | ret (v : Int) (dst : Mem)
  | next (i d : Nat) (dst : Mem)

def decodeIter (src : Mem) (slen : Nat) (dst : Mem) (dlen i d : Nat) : DecStep :=
  -- zrun
  if (slen : Int) - i < 2 then .ret (-1) dst else
  let (ret, count) := uleb128_decode_small src i
  if ret < 0 ∨ (i ≠ 0 ∧ count = 0) then .ret (-1) dst else
  let i := i + ret.toNat
  let d := d + count
  -- overflow
  if d > dlen then .ret (-1) dst else
  -- nzrun
  if (slen : Int) - i < 2 then .ret (-1) dst else
  let (ret, count) := uleb128_decode_small src i
  if ret < 0 ∨ count = 0 then .ret (-1) dst else
  let i := i + ret.toNat
  -- overflow
  if d + count > dlen ∨ i + count > slen then .ret (-1) dst else
  .next (i + count) (d + count) (write dst d (read src i count))

-- The `while (i < slen)` loop, given `fuel` passes: `none` if it has not returned by then.
def decodeLoop (src : Mem) (slen : Nat) (dlen : Nat) : Nat → Nat → Nat → Mem → Option (Int × Mem)
  | 0, _, _, _ => none
  | fuel + 1, i, d, dst =>
      if i < slen then
        match decodeIter src slen dst dlen i d with
        | .ret v dst => some (v, dst)
        | .next i d dst => decodeLoop src slen dlen fuel i d dst
      else some (d, dst)

-- `int xbzrle_decode_buffer(uint8_t *src, int slen, uint8_t *dst, int dlen)`: each
-- pass consumes at least two bytes of `src`, so `slen + 1` passes are enough
-- (`decodeLoop_terminates`).
def xbzrle_decode_buffer (src : Mem) (slen : Nat) (dst : Mem) (dlen : Nat) : Option (Int × Mem) :=
  decodeLoop src slen dlen (slen + 1) 0 0 dst

/-! ### Run boundaries, byte by byte -/

-- `[i, j)` is a run of unchanged bytes that ends at a changed byte or at `slen`.
def ZeroRun (old new : List UInt8) (slen i j : Nat) : Prop :=
  i ≤ j ∧ j ≤ slen ∧ (∀ k, i ≤ k → k < j → old[k]! = new[k]!) ∧
    (j < slen → old[j]! ≠ new[j]!)

-- `[i, j)` is a non-empty run of changed bytes that ends at an unchanged byte or at `slen`.
def DiffRun (old new : List UInt8) (slen i j : Nat) : Prop :=
  i < j ∧ j ≤ slen ∧ (∀ k, i ≤ k → k < j → old[k]! ≠ new[k]!) ∧
    (j < slen → old[j]! = new[j]!)

section Scans

variable {old new : List UInt8} {slen : Nat}

-- A run's end is determined by where it starts.
theorem ZeroRun.unique {i j j' : Nat} (h : ZeroRun old new slen i j) (h' : ZeroRun old new slen i j') :
    j = j' := by
  obtain ⟨hij, hjs, heq, hstop⟩ := h
  obtain ⟨hij', hjs', heq', hstop'⟩ := h'
  by_contra hne
  rcases Nat.lt_or_gt_of_ne hne with hlt | hlt
  · exact hstop (by omega) (heq' j hij hlt)
  · exact hstop' (by omega) (heq j' hij' hlt)

theorem DiffRun.unique {i j j' : Nat} (h : DiffRun old new slen i j) (h' : DiffRun old new slen i j') :
    j = j' := by
  obtain ⟨hij, hjs, hne, hstop⟩ := h
  obtain ⟨hij', hjs', hne', hstop'⟩ := h'
  by_contra hjj
  rcases Nat.lt_or_gt_of_ne hjj with hlt | hlt
  · exact hne' j (by omega) hlt (hstop (by omega))
  · exact hne j' (by omega) hlt (hstop' (by omega))

theorem zrunBytes_spec (res i z : Nat) {res' i' z' : Nat}
    (h : zrunBytes old new res i z = (res', i', z')) :
    res' ≤ res ∧ i' = i + (res - res') ∧ z' = z + (res - res') ∧
      (∀ k, i ≤ k → k < i' → old[k]! = new[k]!) ∧ (res' ≠ 0 → old[i']! ≠ new[i']!) := by
  induction res generalizing i z with
  | zero =>
      simp only [zrunBytes, Prod.mk.injEq] at h
      obtain ⟨rfl, rfl, rfl⟩ := h
      exact ⟨le_rfl, rfl, rfl, fun k h1 h2 => absurd h2 (by omega), fun h => absurd rfl h⟩
  | succ res ih =>
      rw [zrunBytes] at h
      split at h
      · rename_i heq
        obtain ⟨hle, hi, hz, hrun, hstop⟩ := ih (i + 1) (z + 1) h
        refine ⟨by omega, by omega, by omega, fun k h1 h2 => ?_, hstop⟩
        rcases Nat.eq_or_lt_of_le h1 with rfl | h1
        · exact heq
        · exact hrun k h1 h2
      · rename_i hne
        simp only [Prod.mk.injEq] at h
        obtain ⟨rfl, rfl, rfl⟩ := h
        exact ⟨le_rfl, by omega, by omega, fun k h1 h2 => absurd h2 (by omega), fun _ => hne⟩

theorem nzrunBytes_spec (res i n : Nat) {res' i' n' : Nat}
    (h : nzrunBytes old new res i n = (res', i', n')) :
    res' ≤ res ∧ i' = i + (res - res') ∧ n' = n + (res - res') ∧
      (∀ k, i ≤ k → k < i' → old[k]! ≠ new[k]!) ∧ (res' ≠ 0 → old[i']! = new[i']!) := by
  induction res generalizing i n with
  | zero =>
      simp only [nzrunBytes, Prod.mk.injEq] at h
      obtain ⟨rfl, rfl, rfl⟩ := h
      exact ⟨le_rfl, rfl, rfl, fun k h1 h2 => absurd h2 (by omega), fun h => absurd rfl h⟩
  | succ res ih =>
      rw [nzrunBytes] at h
      split at h
      · rename_i hne
        obtain ⟨hle, hi, hn, hrun, hstop⟩ := ih (i + 1) (n + 1) h
        refine ⟨by omega, by omega, by omega, fun k h1 h2 => ?_, hstop⟩
        rcases Nat.eq_or_lt_of_le h1 with rfl | h1
        · exact hne
        · exact hrun k h1 h2
      · rename_i heq
        simp only [Prod.mk.injEq] at h
        obtain ⟨rfl, rfl, rfl⟩ := h
        exact ⟨le_rfl, by omega, by omega, fun k h1 h2 => absurd h2 (by omega),
          fun _ => not_not.mp heq⟩

theorem zrunTail_spec (fuel i z : Nat) (hfuel : slen - i ≤ fuel) {i' z' : Nat}
    (h : zrunTail old new slen fuel i z = (i', z')) :
    i ≤ i' ∧ z' = z + (i' - i) ∧ (i ≤ slen → i' ≤ slen) ∧
      (∀ k, i ≤ k → k < i' → old[k]! = new[k]!) ∧ (i' < slen → old[i']! ≠ new[i']!) := by
  induction fuel generalizing i z with
  | zero =>
      simp only [zrunTail, Prod.mk.injEq] at h
      obtain ⟨rfl, rfl⟩ := h
      exact ⟨le_rfl, by omega, id, fun k h1 h2 => absurd h2 (by omega), fun h => absurd h (by omega)⟩
  | succ fuel ih =>
      rw [zrunTail] at h
      split at h
      · rename_i hc
        obtain ⟨hle, hz, hbound, hrun, hstop⟩ := ih (i + 1) (z + 1) (by omega) h
        refine ⟨by omega, by omega, fun _ => hbound (by omega), fun k h1 h2 => ?_, hstop⟩
        rcases Nat.eq_or_lt_of_le h1 with rfl | h1
        · exact hc.2
        · exact hrun k h1 h2
      · rename_i hc
        simp only [Prod.mk.injEq] at h
        obtain ⟨rfl, rfl⟩ := h
        exact ⟨le_rfl, by omega, id, fun k h1 h2 => absurd h2 (by omega),
          fun hlt heq => hc ⟨hlt, heq⟩⟩

theorem nzrunUntilEq_spec (fuel i n : Nat) (hex : ∃ k < fuel, old[i + k]! = new[i + k]!)
    {i' n' : Nat} (h : nzrunUntilEq old new fuel i n = (i', n')) :
    i ≤ i' ∧ i' < i + fuel ∧ n' = n + (i' - i) ∧
      (∀ k, i ≤ k → k < i' → old[k]! ≠ new[k]!) ∧ old[i']! = new[i']! := by
  induction fuel generalizing i n with
  | zero =>
      obtain ⟨k, hk, -⟩ := hex
      omega
  | succ fuel ih =>
      rw [nzrunUntilEq] at h
      split at h
      · rename_i hne
        have hex' : ∃ k < fuel, old[i + 1 + k]! = new[i + 1 + k]! := by
          obtain ⟨k, hk, he⟩ := hex
          cases k with
          | zero => exact absurd he hne
          | succ k => exact ⟨k, by omega, by rwa [show i + 1 + k = i + (k + 1) by omega]⟩
        obtain ⟨hle, hlt, hn, hrun, hstop⟩ := ih (i + 1) (n + 1) hex' h
        refine ⟨by omega, by omega, by omega, fun k h1 h2 => ?_, hstop⟩
        rcases Nat.eq_or_lt_of_le h1 with rfl | h1
        · exact hne
        · exact hrun k h1 h2
      · rename_i heq
        simp only [Prod.mk.injEq] at h
        obtain ⟨rfl, rfl⟩ := h
        exact ⟨le_rfl, by omega, by omega, fun k h1 h2 => absurd h2 (by omega), not_not.mp heq⟩

/-! ### The word-at-a-time tests -/

theorem take_long_length (buf : List UInt8) {i : Nat} (hi : i + 8 ≤ buf.length) :
    ((buf.drop i).take SIZEOF_LONG).length = 8 := by
  simp only [SIZEOF_LONG, List.length_take, List.length_drop]
  omega

theorem take_long_getElem (buf : List UInt8) {i k : Nat} (hi : i + 8 ≤ buf.length) (hk : k < 8) :
    ((buf.drop i).take SIZEOF_LONG)[k]! = buf[i + k]! :=
  get_take_drop buf hk hi

theorem loadLong_toNat (buf : List UInt8) {i : Nat} (hi : i + 8 ≤ buf.length) :
    (loadLong buf i).toNat = ByteWord.val ((buf.drop i).take SIZEOF_LONG) := by
  have hlt := ByteWord.val_lt ((buf.drop i).take SIZEOF_LONG)
  rw [take_long_length buf hi] at hlt
  rw [loadLong, BitVec.toNat_ofNat]
  exact Nat.mod_eq_of_lt (by simpa using hlt)

theorem take_long_eq_iff {i : Nat} (hold : old.length = slen) (hnew : new.length = slen)
    (hi : i + 8 ≤ slen) :
    (old.drop i).take SIZEOF_LONG = (new.drop i).take SIZEOF_LONG ↔
      ∀ k < 8, old[i + k]! = new[i + k]! := by
  have ho := take_long_length old (i := i) (by omega)
  have hn := take_long_length new (i := i) (by omega)
  constructor
  · intro h k hk
    rw [← take_long_getElem old (by omega) hk, ← take_long_getElem new (by omega) hk, h]
  · intro h
    apply List.ext_getElem (by omega)
    intro k hk1 hk2
    have := h k (by omega)
    rwa [← take_long_getElem old (by omega) (by omega), ← take_long_getElem new (by omega)
      (by omega), getElem!_pos _ k hk1, getElem!_pos _ k hk2] at this

-- Comparing two words compares their eight bytes.
theorem loadLong_eq_iff {i : Nat} (hold : old.length = slen) (hnew : new.length = slen)
    (hi : i + 8 ≤ slen) :
    loadLong old i = loadLong new i ↔ ∀ k < 8, old[i + k]! = new[i + k]! := by
  rw [← take_long_eq_iff hold hnew hi, ← BitVec.toNat_inj, loadLong_toNat old (by omega),
    loadLong_toNat new (by omega)]
  exact ByteWord.val_inj (by rw [take_long_length old (by omega), take_long_length new (by omega)])

-- The test `(xor - mask) & ~xor & (mask << 7)` of the encoder, read on numbers.
theorem zero_byte_test_toNat (x : BitVec 64) :
    ((x - mask) &&& ~~~x &&& (mask <<< 7)).toNat = ByteWord.hasZeroByte 8 x.toNat := by
  have hx := x.isLt
  have hmask : mask.toNat = ByteWord.ones 8 := rfl
  rw [BitVec.toNat_and, BitVec.toNat_and, BitVec.toNat_sub, BitVec.toNat_not,
    BitVec.toNat_shiftLeft, hmask, ByteWord.hasZeroByte]
  have hm : ByteWord.ones 8 ≤ 2 ^ 64 := Nat.le_of_lt (ByteWord.ones_lt 8)
  have hsub : (2 ^ 64 - ByteWord.ones 8 + x.toNat) % 2 ^ 64 =
      (x.toNat + 256 ^ 8 - ByteWord.ones 8) % 256 ^ 8 := by
    rw [show (256 : Nat) ^ 8 = 2 ^ 64 by norm_num, ← Nat.sub_add_comm hm, Nat.add_comm (2 ^ 64)]
  have hshift : ByteWord.ones 8 <<< 7 % 2 ^ 64 = 128 * ByteWord.ones 8 := by decide +kernel
  rw [hsub, hshift, show (256 : Nat) ^ 8 = 2 ^ 64 by norm_num]

-- The zero-byte test on the xor of two words finds exactly a byte the words share.
theorem zero_byte_test_iff {i : Nat} (hold : old.length = slen) (hnew : new.length = slen)
    (hi : i + 8 ≤ slen) :
    ((loadLong old i ^^^ loadLong new i) - mask) &&& ~~~(loadLong old i ^^^ loadLong new i) &&&
        (mask <<< 7) ≠ 0 ↔ ∃ k < 8, old[i + k]! = new[i + k]! := by
  have ho := take_long_length old (i := i) (by omega)
  have hn := take_long_length new (i := i) (by omega)
  have hzero := ByteWord.hasZeroByte_ne_zero_iff (List.zipWith (· ^^^ ·)
    ((old.drop i).take SIZEOF_LONG) ((new.drop i).take SIZEOF_LONG))
  rw [ByteWord.zero_mem_zipWith_xor (by omega), ho] at hzero
  simp only [List.length_zipWith, ho, hn, min_self] at hzero
  rw [ne_eq, ← BitVec.toNat_inj, zero_byte_test_toNat, BitVec.toNat_xor,
    loadLong_toNat old (by omega), loadLong_toNat new (by omega), ByteWord.val_xor (by omega),
    show (0 : BitVec 64).toNat = 0 from rfl, ← ne_eq, hzero]
  constructor
  · rintro ⟨k, hk, he⟩
    exact ⟨k, hk, by rwa [take_long_getElem old (by omega) hk,
      take_long_getElem new (by omega) hk] at he⟩
  · rintro ⟨k, hk, he⟩
    exact ⟨k, hk, by rwa [take_long_getElem old (by omega) hk,
      take_long_getElem new (by omega) hk]⟩

/-! ### The scans find the byte-by-byte run boundaries -/

variable (hold : old.length = slen) (hnew : new.length = slen)
include hold hnew

theorem zrunWords_spec (fuel i z : Nat) (hmod : (slen - i) % 8 = 0) (hi : i ≤ slen)
    (hfuel : slen - i ≤ fuel) {i' z' : Nat} (h : zrunWords old new slen fuel i z = (i', z')) :
    i ≤ i' ∧ i' ≤ slen ∧ z' = z + (i' - i) ∧ (∀ k, i ≤ k → k < i' → old[k]! = new[k]!) := by
  induction fuel generalizing i z with
  | zero =>
      simp only [zrunWords, Prod.mk.injEq] at h
      obtain ⟨rfl, rfl⟩ := h
      exact ⟨le_rfl, hi, by omega, fun k h1 h2 => absurd h2 (by omega)⟩
  | succ fuel ih =>
      rw [zrunWords] at h
      split at h
      · rename_i hc
        obtain ⟨hlt, hload⟩ := hc
        have hword := (loadLong_eq_iff hold hnew (by omega)).mp hload
        simp only [SIZEOF_LONG] at h
        obtain ⟨hle, hbound, hz, hrun⟩ := ih (i + 8) (z + 8) (by omega) (by omega) (by omega) h
        refine ⟨by omega, hbound, by omega, fun k h1 h2 => ?_⟩
        by_cases hk : k < i + 8
        · simpa [show i + (k - i) = k by omega] using hword (k - i) (by omega)
        · exact hrun k (by omega) h2
      · simp only [Prod.mk.injEq] at h
        obtain ⟨rfl, rfl⟩ := h
        exact ⟨le_rfl, hi, by omega, fun k h1 h2 => absurd h2 (by omega)⟩

theorem nzrunWords_spec (fuel i n : Nat) (hmod : (slen - i) % 8 = 0) (hi : i ≤ slen)
    (hfuel : slen - i ≤ fuel) {i' n' : Nat} (h : nzrunWords old new slen fuel i n = (i', n')) :
    i ≤ i' ∧ i' ≤ slen ∧ n' = n + (i' - i) ∧ (∀ k, i ≤ k → k < i' → old[k]! ≠ new[k]!) ∧
      (i' < slen → old[i']! = new[i']!) := by
  induction fuel generalizing i n with
  | zero =>
      simp only [nzrunWords, Prod.mk.injEq] at h
      obtain ⟨rfl, rfl⟩ := h
      exact ⟨le_rfl, hi, by omega, fun k h1 h2 => absurd h2 (by omega), fun h => absurd h (by omega)⟩
  | succ fuel ih =>
      rw [nzrunWords] at h
      split at h
      · rename_i hlt
        simp only at h
        split at h
        · -- the word holds an unchanged byte: the byte loop stops on it
          rename_i htest
          have hex := (zero_byte_test_iff hold hnew (by omega)).mp htest
          obtain ⟨hle, hbound, hn, hrun, hstop⟩ := nzrunUntilEq_spec SIZEOF_LONG i n hex h
          simp only [SIZEOF_LONG] at hbound
          exact ⟨hle, by omega, hn, hrun, fun _ => hstop⟩
        · -- every byte of the word changed
          rename_i htest
          have hword : ∀ k < 8, old[i + k]! ≠ new[i + k]! := by
            intro k hk he
            exact htest ((zero_byte_test_iff hold hnew (by omega)).mpr ⟨k, hk, he⟩)
          simp only [SIZEOF_LONG] at h
          obtain ⟨hle, hbound, hn, hrun, hstop⟩ :=
            ih (i + 8) (n + 8) (by omega) (by omega) (by omega) h
          refine ⟨by omega, hbound, by omega, fun k h1 h2 => ?_, hstop⟩
          by_cases hk : k < i + 8
          · simpa [show i + (k - i) = k by omega] using hword (k - i) (by omega)
          · exact hrun k (by omega) h2
      · simp only [Prod.mk.injEq] at h
        obtain ⟨rfl, rfl⟩ := h
        exact ⟨le_rfl, hi, by omega, fun k h1 h2 => absurd h2 (by omega),
          fun h => absurd h (by omega)⟩

-- The three zero-run loops together stop at the first changed byte.
theorem zrunScan_spec {i j z : Nat} (hi : i ≤ slen) (hal : slen % 8 = 0)
    (h : zrunScan old new slen i = (j, z)) : ZeroRun old new slen i j ∧ z = j - i := by
  rcases hb : zrunBytes old new ((slen - i) % SIZEOF_LONG) i 0 with ⟨res, i1, z1⟩
  obtain ⟨hres, hi1, hz1, hrun1, hstop1⟩ := zrunBytes_spec _ _ _ hb
  simp only [SIZEOF_LONG] at hi1 hz1 hres
  simp only [zrunScan, hb] at h
  split at h
  · rename_i h0
    subst h0
    rcases hw : zrunWords old new slen slen i1 z1 with ⟨i2, z2⟩
    obtain ⟨hle2, hbound2, hz2, hrun2⟩ :=
      zrunWords_spec hold hnew slen i1 z1 (by omega) (by omega) (by omega) hw
    rw [hw] at h
    obtain ⟨hle3, hz3, hbound3, hrun3, hstop3⟩ := zrunTail_spec slen i2 z2 (by omega) h
    refine ⟨⟨by omega, hbound3 hbound2, fun k h1 h2 => ?_, hstop3⟩, by omega⟩
    by_cases hk1 : k < i1
    · exact hrun1 k h1 hk1
    · by_cases hk2 : k < i2
      · exact hrun2 k (by omega) hk2
      · exact hrun3 k (by omega) h2
  · rename_i h0
    simp only [Prod.mk.injEq] at h
    obtain ⟨rfl, rfl⟩ := h
    exact ⟨⟨by omega, by omega, hrun1, fun _ => hstop1 h0⟩, by omega⟩

-- From a changed byte, the non-zero-run loops stop at the next unchanged byte.
theorem nzrunScan_spec {i j n : Nat} (hi : i < slen) (hne : old[i]! ≠ new[i]!)
    (hal : slen % 8 = 0) (h : nzrunScan old new slen i = (j, n)) :
    DiffRun old new slen i j ∧ n = j - i := by
  rcases hb : nzrunBytes old new ((slen - i) % SIZEOF_LONG) i 0 with ⟨res, i1, n1⟩
  obtain ⟨hres, hi1, hn1, hrun1, hstop1⟩ := nzrunBytes_spec _ _ _ hb
  simp only [SIZEOF_LONG] at hi1 hn1 hres
  simp only [nzrunScan, hb] at h
  -- the run cannot end where it starts, since the byte at `i` changed
  have hpos : ∀ j', i ≤ j' → (j' < slen → old[j']! = new[j']!) → j' ≤ slen → i < j' := by
    intro j' h1 h2 h3
    rcases Nat.eq_or_lt_of_le h1 with rfl | h1
    · exact absurd (h2 hi) hne
    · exact h1
  split at h
  · rename_i h0
    subst h0
    obtain ⟨hle2, hbound2, hn2, hrun2, hstop2⟩ :=
      nzrunWords_spec hold hnew slen i1 n1 (by omega) (by omega) (by omega) h
    refine ⟨⟨hpos j (by omega) hstop2 hbound2, hbound2, fun k h1 h2 => ?_, hstop2⟩, by omega⟩
    by_cases hk1 : k < i1
    · exact hrun1 k h1 hk1
    · exact hrun2 k (by omega) h2
  · rename_i h0
    simp only [Prod.mk.injEq] at h
    obtain ⟨rfl, rfl⟩ := h
    exact ⟨⟨hpos i1 (by omega) (fun _ => hstop1 h0) (by omega), by omega, hrun1,
      fun _ => hstop1 h0⟩, by omega⟩

end Scans

/-! ### One pass of the encoder -/

-- The bytes one pass emits for the zero run `[j - z, j)` and the changed run `[j, j + n)`.
def runBytes (new : List UInt8) (z j n : Nat) : List UInt8 :=
  uleb128Bytes z ++ uleb128Bytes n ++ (new.drop j).take n

theorem runBytes_length (new : List UInt8) (z j n : Nat) (hn : j + n ≤ new.length) :
    (runBytes new z j n).length = (uleb128Bytes z).length + (uleb128Bytes n).length + n := by
  simp only [runBytes, List.length_append, List.length_take, List.length_drop]
  omega

section Pass

variable {old new : List UInt8} {slen dlen : Nat}
variable (hold : old.length = slen) (hnew : new.length = slen) (hal : slen % 8 = 0)
  (hsmall : slen ≤ 0x3fff)
include hold hnew hal hsmall

omit hsmall in
theorem zrunScan_eq {i j : Nat} (hi : i ≤ slen) (hz : ZeroRun old new slen i j) :
    zrunScan old new slen i = (j, j - i) := by
  rcases h : zrunScan old new slen i with ⟨j', z⟩
  obtain ⟨hz', rfl⟩ := zrunScan_spec hold hnew hi hal h
  rw [hz.unique hz']

omit hsmall in
theorem nzrunScan_eq {i j : Nat} (hi : i < slen) (hd : DiffRun old new slen i j) :
    nzrunScan old new slen i = (j, j - i) := by
  rcases h : nzrunScan old new slen i with ⟨j', n⟩
  obtain ⟨hd', rfl⟩ := nzrunScan_spec hold hnew hi (hd.2.2.1 i le_rfl hd.1) hal h
  rw [hd.unique hd']

-- A pass with room for its runs emits them.
theorem encodeIter_of_runs {st : EncState} {j j' : Nat} (hi : st.i < slen)
    (hz : ZeroRun old new slen st.i j) (hj : j < slen) (hd : DiffRun old new slen j j')
    (hroom : st.d + (runBytes new (j - st.i) j (j' - j)).length ≤ dlen) :
    encodeIter old new slen dlen st =
      .next ⟨j', st.d + (runBytes new (j - st.i) j (j' - j)).length,
        write st.dst st.d (runBytes new (j - st.i) j (j' - j))⟩ := by
  have hzs := zrunScan_eq hold hnew hal (Nat.le_of_lt hi) hz
  have hns := nzrunScan_eq hold hnew hal hj hd
  have hlen := runBytes_length new (j - st.i) j (j' - j) (by have := hd.2.1; omega)
  have hz1 := uleb128Bytes_length_pos (j - st.i)
  have hn1 := uleb128Bytes_length_pos (j' - j)
  have hjj := hd.1
  unfold encodeIter
  simp only [hzs, hns, uleb128_encode_small_of_le (show j - st.i ≤ 0x3fff by omega),
    uleb128_encode_small_of_le (show j' - j ≤ 0x3fff by have := hd.2.1; omega),
    show ¬st.d + 2 > dlen by omega, show ¬j - st.i = slen by omega, show ¬j = slen by omega,
    show ¬st.d + (uleb128Bytes (j - st.i)).length + 2 > dlen by omega,
    show ¬st.d + (uleb128Bytes (j - st.i)).length + (uleb128Bytes (j' - j)).length + (j' - j) > dlen by
      omega, if_false]
  simp only [runBytes, write_append, List.length_append, EncStep.next.injEq, EncState.mk.injEq,
    true_and]
  constructor
  · have : ((new.drop j).take (j' - j)).length = j' - j := by
      simp only [List.length_take, List.length_drop]
      have := hd.2.1
      omega
    omega
  · simp only [Nat.add_assoc]

-- The last pass finds the page unchanged from `st.i` on.
omit hsmall in
theorem encodeIter_of_last_run {st : EncState} (hi : st.i < slen)
    (hz : ZeroRun old new slen st.i slen) (hroom : st.d + 2 ≤ dlen) :
    encodeIter old new slen dlen st = .ret (if st.i = 0 then 0 else st.d) st.dst := by
  have hzs := zrunScan_eq hold hnew hal (Nat.le_of_lt hi) hz
  unfold encodeIter
  simp only [hzs, show ¬st.d + 2 > dlen by omega, if_false]
  by_cases h0 : st.i = 0
  · simp [h0]
  · simp [h0, show slen - st.i ≠ slen by omega]

end Pass

/-! ### One pass of the decoder -/

-- The decoder reads back the bytes of one pass of the encoder: it skips the zero run
-- in `dst` and copies the changed bytes after it.
theorem decodeIter_run (src : Mem) (slen dlen p q z : Nat) (data : List UInt8) (buf : Mem)
    (hz : z ≤ 0x3fff) (hn0 : 1 ≤ data.length) (hn : data.length ≤ 0x3fff) (hzp : p ≠ 0 → z ≠ 0)
    (hsrc : Holds src p (uleb128Bytes z ++ uleb128Bytes data.length ++ data))
    (hroom : p + (uleb128Bytes z ++ uleb128Bytes data.length ++ data).length ≤ slen)
    (hdst : q + z + data.length ≤ dlen) :
    decodeIter src slen buf dlen p q =
      .next (p + (uleb128Bytes z ++ uleb128Bytes data.length ++ data).length)
        (q + z + data.length) (write buf (q + z) data) := by
  have ha1 := uleb128Bytes_length_pos z
  have ha2 := uleb128Bytes_length_le z
  have hb1 := uleb128Bytes_length_pos data.length
  have hb2 := uleb128Bytes_length_le data.length
  have hdz := uleb128_decode_small_bytes hz src p hsrc.append_left.append_left
  have hdn := uleb128_decode_small_bytes hn src _ hsrc.append_left.append_right
  have hdata := hsrc.append_right.read_eq
  simp only [List.length_append, ← Nat.add_assoc] at hroom hdn hdata
  unfold decodeIter
  rw [if_neg (by omega), hdz]
  simp only [show ¬((uleb128Bytes z).length : Int) < 0 by omega, false_or,
    show ¬(p ≠ 0 ∧ z = 0) by omega, if_false, Int.toNat_natCast,
    show ¬q + z > dlen by omega]
  rw [if_neg (by push_cast; omega), hdn]
  simp only [show ¬((uleb128Bytes data.length).length : Int) < 0 by omega, false_or,
    show ¬data.length = 0 by omega, if_false, Int.toNat_natCast,
    show ¬(q + z + data.length > dlen ∨
      p + (uleb128Bytes z).length + (uleb128Bytes data.length).length + data.length > slen) by omega,
    hdata, List.length_append]
  congr 1
  omega

theorem decodeLoop_stop (src : Mem) (slen dlen fuel p q : Nat) (buf : Mem) (hp : ¬p < slen) :
    decodeLoop src slen dlen (fuel + 1) p q buf = some ((q : Int), buf) := by
  rw [decodeLoop, if_neg hp]

theorem decodeLoop_next {src : Mem} {slen dlen fuel p q p' q' : Nat} {buf buf' : Mem} (hp : p < slen)
    (h : decodeIter src slen buf dlen p q = .next p' q' buf') :
    decodeLoop src slen dlen (fuel + 1) p q buf = decodeLoop src slen dlen fuel p' q' buf' := by
  rw [decodeLoop, if_pos hp, h]

/-! ### Decoding what the encoder wrote -/

theorem encodeLoop_next {old new : List UInt8} {slen dlen fuel : Nat} {st st' : EncState}
    (hi : st.i < slen) (h : encodeIter old new slen dlen st = .next st') :
    encodeLoop old new slen dlen (fuel + 1) st = encodeLoop old new slen dlen fuel st' := by
  rw [encodeLoop, if_pos hi, h]

theorem encodeLoop_ret {old new : List UInt8} {slen dlen fuel : Nat} {st : EncState} {v : Int}
    {dst : Mem} (hi : st.i < slen) (h : encodeIter old new slen dlen st = .ret v dst) :
    encodeLoop old new slen dlen (fuel + 1) st = some (v, dst) := by
  rw [encodeLoop, if_pos hi, h]

section Loop

variable {old new : List UInt8} {slen dlen : Nat}
variable (hold : old.length = slen) (hnew : new.length = slen) (hal : slen % 8 = 0)
  (hsmall : slen ≤ 0x3fff)
include hold hnew hal hsmall

end Loop

end Qemu.Xbzrle

import Mathlib

/-!
The lazy condition codes of the x86 target (`target-i386/cc_helper.c` and
`cc_helper_template.h`) for `TARGET_X86_64`: the flags are never stored, the translator
leaves an operation kind `CC_OP` and two words `CC_SRC`, `CC_DST`, and these helpers
recompute the flags from them. `target_ulong` is `BitVec 64`; a flag set is an `int`,
taken as its value.
-/

namespace Qemu.TargetI386

def CC_C : Nat := 0x0001
def CC_P : Nat := 0x0004
def CC_A : Nat := 0x0010
def CC_Z : Nat := 0x0040
def CC_S : Nat := 0x0080
def CC_O : Nat := 0x0800

-- The `CC_OP` enumeration of `cpu.h`, by value.
def CC_OP_DYNAMIC : Nat := 0
def CC_OP_EFLAGS : Nat := 1
def CC_OP_MULB : Nat := 2
def CC_OP_ADDB : Nat := 6
def CC_OP_ADCB : Nat := 10
def CC_OP_SUBB : Nat := 14
def CC_OP_SBBB : Nat := 18
def CC_OP_LOGICB : Nat := 22
def CC_OP_INCB : Nat := 26
def CC_OP_DECB : Nat := 30
def CC_OP_SHLB : Nat := 34
def CC_OP_SARB : Nat := 38

def parity_table : List Nat :=
  [CC_P, 0, 0, CC_P, 0, CC_P, CC_P, 0,
   0, CC_P, CC_P, 0, CC_P, 0, 0, CC_P,
   0, CC_P, CC_P, 0, CC_P, 0, 0, CC_P,
   CC_P, 0, 0, CC_P, 0, CC_P, CC_P, 0,
   0, CC_P, CC_P, 0, CC_P, 0, 0, CC_P,
   CC_P, 0, 0, CC_P, 0, CC_P, CC_P, 0,
   CC_P, 0, 0, CC_P, 0, CC_P, CC_P, 0,
   0, CC_P, CC_P, 0, CC_P, 0, 0, CC_P,
   0, CC_P, CC_P, 0, CC_P, 0, 0, CC_P,
   CC_P, 0, 0, CC_P, 0, CC_P, CC_P, 0,
   CC_P, 0, 0, CC_P, 0, CC_P, CC_P, 0,
   0, CC_P, CC_P, 0, CC_P, 0, 0, CC_P,
   CC_P, 0, 0, CC_P, 0, CC_P, CC_P, 0,
   0, CC_P, CC_P, 0, CC_P, 0, 0, CC_P,
   0, CC_P, CC_P, 0, CC_P, 0, 0, CC_P,
   CC_P, 0, 0, CC_P, 0, CC_P, CC_P, 0,
   0, CC_P, CC_P, 0, CC_P, 0, 0, CC_P,
   CC_P, 0, 0, CC_P, 0, CC_P, CC_P, 0,
   CC_P, 0, 0, CC_P, 0, CC_P, CC_P, 0,
   0, CC_P, CC_P, 0, CC_P, 0, 0, CC_P,
   CC_P, 0, 0, CC_P, 0, CC_P, CC_P, 0,
   0, CC_P, CC_P, 0, CC_P, 0, 0, CC_P,
   0, CC_P, CC_P, 0, CC_P, 0, 0, CC_P,
   CC_P, 0, 0, CC_P, 0, CC_P, CC_P, 0,
   CC_P, 0, 0, CC_P, 0, CC_P, CC_P, 0,
   0, CC_P, CC_P, 0, CC_P, 0, 0, CC_P,
   0, CC_P, CC_P, 0, CC_P, 0, 0, CC_P,
   CC_P, 0, 0, CC_P, 0, CC_P, CC_P, 0,
   0, CC_P, CC_P, 0, CC_P, 0, 0, CC_P,
   CC_P, 0, 0, CC_P, 0, CC_P, CC_P, 0,
   CC_P, 0, 0, CC_P, 0, CC_P, CC_P, 0,
   0, CC_P, CC_P, 0, CC_P, 0, 0, CC_P]
-- `static inline target_long lshift(target_long x, int n)`: `>>` of a `target_long`
-- is arithmetic.
def lshift (x : BitVec 64) (n : Int) : BitVec 64 :=
  if 0 ≤ n then x <<< n.toNat else x.sshiftRight (-n).toNat

-- `DATA_BITS` and the `DATA_TYPE` cast of the template included with `SHIFT`.
def DATA_BITS (SHIFT : Nat) : Nat := 1 <<< (3 + SHIFT)

def dataCast (SHIFT : Nat) (x : BitVec 64) : Nat := x.toNat % 2 ^ DATA_BITS SHIFT

def SIGN_MASK (SHIFT : Nat) : BitVec 64 := 1 <<< (DATA_BITS SHIFT - 1)

def DATA_MASK (SHIFT : Nat) : BitVec 64 := BitVec.ofNat 64 (2 ^ DATA_BITS SHIFT - 1)

-- The parts every `compute_all_*` computes from `CC_DST` alone.
def pfOf (CC_DST : BitVec 64) : Nat := parity_table[CC_DST.toNat % 256]!

def zfOf (SHIFT : Nat) (CC_DST : BitVec 64) : Nat :=
  (if dataCast SHIFT CC_DST = 0 then 1 else 0) <<< 6

def sfOf (SHIFT : Nat) (CC_DST : BitVec 64) : Nat :=
  (lshift CC_DST (8 - DATA_BITS SHIFT) &&& 0x80).toNat

def ofBit (SHIFT : Nat) (x : BitVec 64) : Nat :=
  (lshift x (12 - DATA_BITS SHIFT) &&& BitVec.ofNat 64 CC_O).toNat

def afBit (x : BitVec 64) : Nat := (x &&& 0x10).toNat

def compute_all_add (SHIFT : Nat) (CC_SRC CC_DST : BitVec 64) : Nat :=
  let src1 := CC_SRC
  let src2 := CC_DST - CC_SRC
  let cf := if dataCast SHIFT CC_DST < dataCast SHIFT src1 then 1 else 0
  let af := afBit (CC_DST ^^^ src1 ^^^ src2)
  let of := ofBit SHIFT ((src1 ^^^ src2 ^^^ -1) &&& (src1 ^^^ CC_DST))
  cf ||| pfOf CC_DST ||| af ||| zfOf SHIFT CC_DST ||| sfOf SHIFT CC_DST ||| of

def compute_c_add (SHIFT : Nat) (CC_SRC CC_DST : BitVec 64) : Nat :=
  if dataCast SHIFT CC_DST < dataCast SHIFT CC_SRC then 1 else 0

def compute_all_adc (SHIFT : Nat) (CC_SRC CC_DST : BitVec 64) : Nat :=
  let src1 := CC_SRC
  let src2 := CC_DST - CC_SRC - 1
  let cf := if dataCast SHIFT CC_DST ≤ dataCast SHIFT src1 then 1 else 0
  let af := afBit (CC_DST ^^^ src1 ^^^ src2)
  let of := ofBit SHIFT ((src1 ^^^ src2 ^^^ -1) &&& (src1 ^^^ CC_DST))
  cf ||| pfOf CC_DST ||| af ||| zfOf SHIFT CC_DST ||| sfOf SHIFT CC_DST ||| of

def compute_c_adc (SHIFT : Nat) (CC_SRC CC_DST : BitVec 64) : Nat :=
  if dataCast SHIFT CC_DST ≤ dataCast SHIFT CC_SRC then 1 else 0

def compute_all_sub (SHIFT : Nat) (CC_SRC CC_DST : BitVec 64) : Nat :=
  let src1 := CC_DST + CC_SRC
  let src2 := CC_SRC
  let cf := if dataCast SHIFT src1 < dataCast SHIFT src2 then 1 else 0
  let af := afBit (CC_DST ^^^ src1 ^^^ src2)
  let of := ofBit SHIFT ((src1 ^^^ src2) &&& (src1 ^^^ CC_DST))
  cf ||| pfOf CC_DST ||| af ||| zfOf SHIFT CC_DST ||| sfOf SHIFT CC_DST ||| of

def compute_c_sub (SHIFT : Nat) (CC_SRC CC_DST : BitVec 64) : Nat :=
  if dataCast SHIFT (CC_DST + CC_SRC) < dataCast SHIFT CC_SRC then 1 else 0

def compute_all_sbb (SHIFT : Nat) (CC_SRC CC_DST : BitVec 64) : Nat :=
  let src1 := CC_DST + CC_SRC + 1
  let src2 := CC_SRC
  let cf := if dataCast SHIFT src1 ≤ dataCast SHIFT src2 then 1 else 0
  let af := afBit (CC_DST ^^^ src1 ^^^ src2)
  let of := ofBit SHIFT ((src1 ^^^ src2) &&& (src1 ^^^ CC_DST))
  cf ||| pfOf CC_DST ||| af ||| zfOf SHIFT CC_DST ||| sfOf SHIFT CC_DST ||| of

def compute_c_sbb (SHIFT : Nat) (CC_SRC CC_DST : BitVec 64) : Nat :=
  if dataCast SHIFT (CC_DST + CC_SRC + 1) ≤ dataCast SHIFT CC_SRC then 1 else 0

def compute_all_logic (SHIFT : Nat) (CC_DST : BitVec 64) : Nat :=
  0 ||| pfOf CC_DST ||| 0 ||| zfOf SHIFT CC_DST ||| sfOf SHIFT CC_DST ||| 0

def compute_all_inc (SHIFT : Nat) (CC_SRC CC_DST : BitVec 64) : Nat :=
  let src1 := CC_DST - 1
  let src2 : BitVec 64 := 1
  let af := afBit (CC_DST ^^^ src1 ^^^ src2)
  let of := (if CC_DST &&& DATA_MASK SHIFT = SIGN_MASK SHIFT then 1 else 0) <<< 11
  CC_SRC.toNat ||| pfOf CC_DST ||| af ||| zfOf SHIFT CC_DST ||| sfOf SHIFT CC_DST ||| of

def compute_all_dec (SHIFT : Nat) (CC_SRC CC_DST : BitVec 64) : Nat :=
  let src1 := CC_DST + 1
  let src2 : BitVec 64 := 1
  let af := afBit (CC_DST ^^^ src1 ^^^ src2)
  let of := (if CC_DST &&& DATA_MASK SHIFT = SIGN_MASK SHIFT - 1 then 1 else 0) <<< 11
  CC_SRC.toNat ||| pfOf CC_DST ||| af ||| zfOf SHIFT CC_DST ||| sfOf SHIFT CC_DST ||| of

def compute_all_shl (SHIFT : Nat) (CC_SRC CC_DST : BitVec 64) : Nat :=
  let cf := (CC_SRC >>> (DATA_BITS SHIFT - 1) &&& BitVec.ofNat 64 CC_C).toNat
  -- `of` is defined if shift count == 1
  let of := ofBit SHIFT (CC_SRC ^^^ CC_DST)
  cf ||| pfOf CC_DST ||| 0 ||| zfOf SHIFT CC_DST ||| sfOf SHIFT CC_DST ||| of

def compute_c_shl (SHIFT : Nat) (CC_SRC : BitVec 64) : Nat :=
  (CC_SRC >>> (DATA_BITS SHIFT - 1) &&& BitVec.ofNat 64 CC_C).toNat

def compute_all_sar (SHIFT : Nat) (CC_SRC CC_DST : BitVec 64) : Nat :=
  let cf := (CC_SRC &&& 1).toNat
  -- `of` is defined if shift count == 1
  let of := ofBit SHIFT (CC_SRC ^^^ CC_DST)
  cf ||| pfOf CC_DST ||| 0 ||| zfOf SHIFT CC_DST ||| sfOf SHIFT CC_DST ||| of

def compute_c_sar (CC_SRC : BitVec 64) : Nat := (CC_SRC &&& 1).toNat

def compute_all_mul (SHIFT : Nat) (CC_SRC CC_DST : BitVec 64) : Nat :=
  let cf := if CC_SRC ≠ 0 then 1 else 0
  cf ||| pfOf CC_DST ||| 0 ||| zfOf SHIFT CC_DST ||| sfOf SHIFT CC_DST ||| cf <<< 11

def compute_c_mul (CC_SRC : BitVec 64) : Nat := if CC_SRC ≠ 0 then 1 else 0

-- `CPUX86State` as the flag helpers read it.
structure CCState where
  cc_op : Nat
  cc_src : BitVec 64
  cc_dst : BitVec 64

-- `uint32_t helper_cc_compute_all(CPUX86State *env, int op)`: the `switch` picks the
-- template instance of the operation kind and size.
def helper_cc_compute_all (env : CCState) (op : Nat) : Nat :=
  let s := env.cc_src
  let d := env.cc_dst
  match op with
  | 1 => s.toNat
  | 2 => compute_all_mul 0 s d
  | 3 => compute_all_mul 1 s d
  | 4 => compute_all_mul 2 s d
  | 5 => compute_all_mul 3 s d
  | 6 => compute_all_add 0 s d
  | 7 => compute_all_add 1 s d
  | 8 => compute_all_add 2 s d
  | 9 => compute_all_add 3 s d
  | 10 => compute_all_adc 0 s d
  | 11 => compute_all_adc 1 s d
  | 12 => compute_all_adc 2 s d
  | 13 => compute_all_adc 3 s d
  | 14 => compute_all_sub 0 s d
  | 15 => compute_all_sub 1 s d
  | 16 => compute_all_sub 2 s d
  | 17 => compute_all_sub 3 s d
  | 18 => compute_all_sbb 0 s d
  | 19 => compute_all_sbb 1 s d
  | 20 => compute_all_sbb 2 s d
  | 21 => compute_all_sbb 3 s d
  | 22 => compute_all_logic 0 d
  | 23 => compute_all_logic 1 d
  | 24 => compute_all_logic 2 d
  | 25 => compute_all_logic 3 d
  | 26 => compute_all_inc 0 s d
  | 27 => compute_all_inc 1 s d
  | 28 => compute_all_inc 2 s d
  | 29 => compute_all_inc 3 s d
  | 30 => compute_all_dec 0 s d
  | 31 => compute_all_dec 1 s d
  | 32 => compute_all_dec 2 s d
  | 33 => compute_all_dec 3 s d
  | 34 => compute_all_shl 0 s d
  | 35 => compute_all_shl 1 s d
  | 36 => compute_all_shl 2 s d
  | 37 => compute_all_shl 3 s d
  | 38 => compute_all_sar 0 s d
  | 39 => compute_all_sar 1 s d
  | 40 => compute_all_sar 2 s d
  | 41 => compute_all_sar 3 s d
  -- should never happen
  | _ => 0

-- `uint32_t helper_cc_compute_c(CPUX86State *env, int op)`: `INC`, `DEC`, `SAR` and
-- `MUL` of every size share the 32-bit helper.
def helper_cc_compute_c (env : CCState) (op : Nat) : Nat :=
  let s := env.cc_src
  let d := env.cc_dst
  match op with
  | 1 => (s &&& BitVec.ofNat 64 CC_C).toNat
  | 2 | 3 | 4 | 5 => compute_c_mul s
  | 6 => compute_c_add 0 s d
  | 7 => compute_c_add 1 s d
  | 8 => compute_c_add 2 s d
  | 9 => compute_c_add 3 s d
  | 10 => compute_c_adc 0 s d
  | 11 => compute_c_adc 1 s d
  | 12 => compute_c_adc 2 s d
  | 13 => compute_c_adc 3 s d
  | 14 => compute_c_sub 0 s d
  | 15 => compute_c_sub 1 s d
  | 16 => compute_c_sub 2 s d
  | 17 => compute_c_sub 3 s d
  | 18 => compute_c_sbb 0 s d
  | 19 => compute_c_sbb 1 s d
  | 20 => compute_c_sbb 2 s d
  | 21 => compute_c_sbb 3 s d
  | 22 | 23 | 24 | 25 => 0
  | 26 | 27 | 28 | 29 | 30 | 31 | 32 | 33 => s.toNat
  | 34 => compute_c_shl 0 s
  | 35 => compute_c_shl 1 s
  | 36 => compute_c_shl 2 s
  | 37 => compute_c_shl 3 s
  | 38 | 39 | 40 | 41 => compute_c_sar s
  -- should never happen
  | _ => 0

end Qemu.TargetI386

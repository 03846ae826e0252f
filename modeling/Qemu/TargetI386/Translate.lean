import Qemu.TargetI386.CcHelper

/-!
What the code that `target-i386/translate.c` generates for the arithmetic, `INC`/`DEC`
and shift instructions leaves in the flags state: the operation kind, known to the
translator or stored at run time, and the words `CC_SRC` and `CC_DST`. `T0` and `T1`
are the operand temporaries as loaded: a register operand is the whole 64-bit register,
so the bits above the operand size are arbitrary.
-/

namespace Qemu.TargetI386

def OT_BYTE : Nat := 0
def OT_WORD : Nat := 1
def OT_LONG : Nat := 2
def OT_QUAD : Nat := 3

def OP_ADDL : Nat := 0
def OP_ORL : Nat := 1
def OP_ADCL : Nat := 2
def OP_SBBL : Nat := 3
def OP_ANDL : Nat := 4
def OP_SUBL : Nat := 5
def OP_XORL : Nat := 6
def OP_CMPL : Nat := 7

-- `gen_compute_eflags_c`: the helper's `uint32_t`, zero-extended into a `target_ulong`.
def gen_compute_eflags_c (env : CCState) : BitVec 64 :=
  BitVec.ofNat 64 (helper_cc_compute_c env env.cc_op % 2 ^ 32)

-- The `cc_op` that `ADC` and `SBB` compute at run time: `(carry << 2) + base + ot` in 32 bits.
def carryCCOp (tmp4 : BitVec 64) (base : Nat) : Nat :=
  ((tmp4.toNat % 2 ^ 32) <<< 2 % 2 ^ 32 + base) % 2 ^ 32

-- `gen_op(s1, op, ot, d)` from the flags state `env` before it.
def gen_op (op ot : Nat) (env : CCState) (T0 T1 : BitVec 64) : CCState :=
  if op = OP_ADCL then
    let tmp4 := gen_compute_eflags_c env
    ⟨carryCCOp tmp4 (CC_OP_ADDB + ot), T1, T0 + T1 + tmp4⟩
  else if op = OP_SBBL then
    let tmp4 := gen_compute_eflags_c env
    ⟨carryCCOp tmp4 (CC_OP_SUBB + ot), T1, T0 - T1 - tmp4⟩
  else if op = OP_ADDL then ⟨CC_OP_ADDB + ot, T1, T0 + T1⟩
  else if op = OP_SUBL then ⟨CC_OP_SUBB + ot, T1, T0 - T1⟩
  -- `gen_op_update1_cc` discards `cc_src`: it keeps whatever it held
  else if op = OP_ORL then ⟨CC_OP_LOGICB + ot, env.cc_src, T0 ||| T1⟩
  else if op = OP_XORL then ⟨CC_OP_LOGICB + ot, env.cc_src, T0 ^^^ T1⟩
  else if op = OP_CMPL then ⟨CC_OP_SUBB + ot, T1, T0 - T1⟩
  else ⟨CC_OP_LOGICB + ot, env.cc_src, T0 &&& T1⟩

-- `gen_inc(s1, ot, d, c)`: the carry of the flags before is kept in `cc_src`.
def gen_inc (ot : Nat) (c : Int) (env : CCState) (T0 : BitVec 64) : CCState :=
  if c > 0 then ⟨CC_OP_INCB + ot, gen_compute_eflags_c env, T0 + 1⟩
  else ⟨CC_OP_DECB + ot, gen_compute_eflags_c env, T0 + BitVec.ofInt 64 (-1)⟩

def gen_extu (ot : Nat) (x : BitVec 64) : BitVec 64 :=
  if ot = OT_BYTE then (x.setWidth 8).setWidth 64
  else if ot = OT_WORD then (x.setWidth 16).setWidth 64
  else if ot = OT_LONG then (x.setWidth 32).setWidth 64
  else x

def gen_exts (ot : Nat) (x : BitVec 64) : BitVec 64 :=
  if ot = OT_BYTE then (x.setWidth 8).signExtend 64
  else if ot = OT_WORD then (x.setWidth 16).signExtend 64
  else if ot = OT_LONG then (x.setWidth 32).signExtend 64
  else x

-- The operand of a shift as the code shifts it, and the shift itself.
def shiftOperand (ot : Nat) (is_right is_arith : Bool) (x : BitVec 64) : BitVec 64 :=
  if is_right then (if is_arith then gen_exts ot x else gen_extu ot x) else x

def shiftBy (is_right is_arith : Bool) (x : BitVec 64) (n : Nat) : BitVec 64 :=
  if is_right then (if is_arith then x.sshiftRight n else x >>> n) else x <<< n

def shiftMask (ot : Nat) : BitVec 64 := if ot = OT_QUAD then 0x3f else 0x1f

-- `gen_shift_rm_T1(s, ot, op1, is_right, is_arith)`: a zero masked count leaves the
-- flags state as it was.
def gen_shift_rm_T1 (ot : Nat) (is_right is_arith : Bool) (env : CCState) (T0 T1 : BitVec 64) :
    CCState :=
  let t2 := T1 &&& shiftMask ot
  let t0 := shiftOperand ot is_right is_arith T0
  let t1 := shiftBy is_right is_arith t0 t2.toNat
  if t2 = 0 then env
  else
    let t2 := t2 + BitVec.ofInt 64 (-1)
    ⟨if is_right then CC_OP_SARB + ot else CC_OP_SHLB + ot, shiftBy is_right is_arith t0 t2.toNat, t1⟩

-- `gen_shift_rm_im(s, ot, op1, op2, is_right, is_arith)`.
def gen_shift_rm_im (ot op2 : Nat) (is_right is_arith : Bool) (env : CCState) (T0 : BitVec 64) :
    CCState :=
  let op2 := op2 &&& (shiftMask ot).toNat
  if op2 ≠ 0 then
    let t0 := shiftOperand ot is_right is_arith T0
    ⟨if is_right then CC_OP_SARB + ot else CC_OP_SHLB + ot, shiftBy is_right is_arith t0 (op2 - 1),
      shiftBy is_right is_arith t0 op2⟩
  else env

end Qemu.TargetI386

import Qemu.Lib.BitArith

/-!
The arithmetic flags as the x86 architecture defines them for an operation on `N`-bit
operands: what `ADD`, `ADC`, `SUB`, `SBB`, `CMP`, `AND`, `OR`, `XOR`, `INC`, `DEC`, `SHL`,
`SHR` and `SAR` leave in `CF`, `PF`, `AF`, `ZF`, `SF` and `OF`, stated on the operands as
numbers below `2 ^ N` and on their signed values. A flag that the architecture leaves
undefined is `none`.
-/

namespace Qemu.TargetI386

open BitArith

-- The six flags, and the word that holds them at their bits of `EFLAGS`.
structure Flags where
  cf : Bool
  pf : Bool
  af : Bool
  zf : Bool
  sf : Bool
  of : Bool
deriving DecidableEq, Repr

def Flags.word (g : Flags) : Nat :=
  g.cf.toNat ||| g.pf.toNat * 2 ^ 2 ||| g.af.toNat * 2 ^ 4 ||| g.zf.toNat * 2 ^ 6 |||
    g.sf.toNat * 2 ^ 7 ||| g.of.toNat * 2 ^ 11

structure ArchFlags where
  cf : Option Bool
  pf : Option Bool
  af : Option Bool
  zf : Option Bool
  sf : Option Bool
  of : Option Bool
deriving DecidableEq, Repr

-- `g` has the value of every flag that `f` defines.
def Flags.Refines (g : Flags) (f : ArchFlags) : Prop :=
  (∀ v ∈ f.cf, g.cf = v) ∧ (∀ v ∈ f.pf, g.pf = v) ∧ (∀ v ∈ f.af, g.af = v) ∧
    (∀ v ∈ f.zf, g.zf = v) ∧ (∀ v ∈ f.sf, g.sf = v) ∧ (∀ v ∈ f.of, g.of = v)

-- A flags word describes `f` when it holds the six flags and nothing else, each flag that
-- `f` defines with its value.
def ArchFlags.Describes (f : ArchFlags) (w : Nat) : Prop :=
  ∃ g : Flags, w = g.word ∧ g.Refines f

-- PF: the low byte of the result has an even number of set bits.
def parityEven (r : Nat) : Bool := (List.range 8).countP (fun i => r.testBit i) % 2 == 0

-- The flags that an `N`-bit result `r` decides, and the three that the operation decides.
def resultFlags (N r : Nat) (cf af of : Option Bool) : ArchFlags :=
  ⟨cf, some (parityEven r), af, some (decide (r = 0)), some (decide (2 ^ (N - 1) ≤ r)), of⟩

-- `ADD` (`c = false`) and `ADC` with the carry `c`.
def addFlags (N a b : Nat) (c : Bool) : ArchFlags :=
  let r := (a + b + c.toNat) % 2 ^ N
  resultFlags N r (some (decide (2 ^ N ≤ a + b + c.toNat)))
    (some (decide (2 ^ 4 ≤ a % 2 ^ 4 + b % 2 ^ 4 + c.toNat)))
    (some (decide (signed N a + signed N b + c.toNat ≠ signed N r)))

-- `SUB` and `CMP` (`c = false`) and `SBB` with the borrow `c`.
def subFlags (N a b : Nat) (c : Bool) : ArchFlags :=
  let r := (2 ^ N + a - (b + c.toNat)) % 2 ^ N
  resultFlags N r (some (decide (a < b + c.toNat)))
    (some (decide (a % 2 ^ 4 < b % 2 ^ 4 + c.toNat)))
    (some (decide (signed N a - signed N b - c.toNat ≠ signed N r)))

-- `AND`, `OR` and `XOR` clear `CF` and `OF` and leave `AF` undefined.
def logicFlags (N r : Nat) : ArchFlags := resultFlags N r (some false) none (some false)

-- `INC` and `DEC` leave `CF` as it was.
def incFlags (N a : Nat) (cf : Bool) : ArchFlags := { addFlags N a 1 false with cf := some cf }

def decFlags (N a : Nat) (cf : Bool) : ArchFlags := { subFlags N a 1 false with cf := some cf }

-- A shift by a count `n ≥ 1` leaves in `CF` the last bit shifted out; it defines `OF` for
-- `n = 1` only, and never `AF`.
def shlFlags (N a n : Nat) : ArchFlags :=
  let r := (a <<< n) % 2 ^ N
  let cf := (a <<< n).testBit N
  resultFlags N r (some cf) none (if n = 1 then some (r.testBit (N - 1) ^^ cf) else none)

def shrFlags (N a n : Nat) : ArchFlags :=
  resultFlags N (a >>> n) (some (a.testBit (n - 1))) none
    (if n = 1 then some (a.testBit (N - 1)) else none)

-- `SAR` shifts the signed value: the bits shifted in are copies of the sign.
def sarFlags (N a n : Nat) : ArchFlags :=
  let v := signed N a
  resultFlags N ((v >>> n) % 2 ^ N).toNat (some ((v >>> (n - 1)) % 2 == 1)) none
    (if n = 1 then some false else none)

-- PF looks at the low byte only.
theorem parityEven_congr {x y : Nat} (h : x % 2 ^ 8 = y % 2 ^ 8) :
    parityEven x = parityEven y := by
  unfold parityEven
  congr 2
  apply List.countP_congr
  intro i hi
  have hi : i < 8 := List.mem_range.mp hi
  have hx : (x % 2 ^ 8).testBit i = x.testBit i := by
    rw [Nat.testBit_mod_two_pow]
    simp [hi]
  have hy : (y % 2 ^ 8).testBit i = y.testBit i := by
    rw [Nat.testBit_mod_two_pow]
    simp [hi]
  rw [← hx, ← hy, h]

-- `INC` and `DEC` as the flags of their result.
theorem incFlags_eq (N a : Nat) (cf : Bool) :
    incFlags N a cf = resultFlags N ((a + 1 + false.toNat) % 2 ^ N) (some cf)
      (some (decide (2 ^ 4 ≤ a % 2 ^ 4 + 1 % 2 ^ 4 + false.toNat))) (addFlags N a 1 false).of := rfl

theorem decFlags_eq (N a : Nat) (cf : Bool) :
    decFlags N a cf = resultFlags N ((2 ^ N + a - (1 + false.toNat)) % 2 ^ N) (some cf)
      (some (decide (a % 2 ^ 4 < 1 % 2 ^ 4 + false.toNat))) (subFlags N a 1 false).of := rfl

-- `INC` overflows exactly when its result is the least signed value.
theorem addFlags_one_of {N a : Nat} (hN : 1 < N) (ha : a < 2 ^ N) :
    (addFlags N a 1 false).of = some (decide ((a + 1) % 2 ^ N = 2 ^ (N - 1))) := by
  have hP := two_pow_eq_two_mul (show 0 < N by omega)
  have h2 : 2 ≤ 2 ^ (N - 1) := Nat.le_self_pow (by omega) 2
  have hov := signed_add_ne_iff (show 0 < N by omega) ha (show 1 < 2 ^ N by omega) (Nat.zero_le 1)
  have hr := mod_eq_or_of_lt_two_mul (show a + 1 < 2 * 2 ^ N by omega)
  simp only [addFlags, resultFlags, Bool.toNat_false, Nat.cast_zero, add_zero] at hov ⊢
  congr 1
  apply decide_eq_decide.mpr
  rw [hov]
  omega

-- `DEC` overflows exactly when its result is the greatest signed value.
theorem subFlags_one_of {N a : Nat} (hN : 1 < N) (ha : a < 2 ^ N) :
    (subFlags N a 1 false).of = some (decide ((2 ^ N + a - 1) % 2 ^ N = 2 ^ (N - 1) - 1)) := by
  have hP := two_pow_eq_two_mul (show 0 < N by omega)
  have h2 : 2 ≤ 2 ^ (N - 1) := Nat.le_self_pow (by omega) 2
  have hov := signed_sub_ne_iff (show 0 < N by omega) ha (show 1 < 2 ^ N by omega) (Nat.zero_le 1)
  have hr := mod_eq_or_of_lt_two_mul (show 2 ^ N + a - 1 < 2 * 2 ^ N by omega)
  simp only [subFlags, resultFlags, Bool.toNat_false, Nat.cast_zero, sub_zero, add_zero] at hov ⊢
  congr 1
  apply decide_eq_decide.mpr
  rw [hov]
  omega

end Qemu.TargetI386

import Mathlib

/-!
A `QEMUFile` (`savevm.c`) as the byte stream it carries. `buf` holds every byte of the
stream: a refill of the I/O buffer brings in all that is left, and brings in nothing
only at the end of the stream, where `qemu_fill_buffer` records the error EIO.
-/

namespace Qemu.Migration

structure QEMUFile where
  buf : List UInt8
  buf_index : Nat
  last_error : Int

def EIO : Int := 5

def qemu_file_get_error (f : QEMUFile) : Int := f.last_error

def qemu_file_set_error (f : QEMUFile) (ret : Int) : QEMUFile :=
  if f.last_error = 0 then { f with last_error := ret } else f

@[simp] theorem qemu_file_set_error_buf (f : QEMUFile) (ret : Int) :
    (qemu_file_set_error f ret).buf = f.buf := by
  unfold qemu_file_set_error
  split_ifs <;> rfl

@[simp] theorem qemu_file_set_error_buf_index (f : QEMUFile) (ret : Int) :
    (qemu_file_set_error f ret).buf_index = f.buf_index := by
  unfold qemu_file_set_error
  split_ifs <;> rfl

/-! ### Writing -/

def qemu_put_buffer (f : QEMUFile) (buf : List UInt8) : QEMUFile :=
  if f.last_error ≠ 0 then f else { f with buf := f.buf ++ buf }

def qemu_put_byte (f : QEMUFile) (v : Nat) : QEMUFile :=
  if f.last_error ≠ 0 then f else { f with buf := f.buf ++ [UInt8.ofNat v] }

def qemu_put_be16 (f : QEMUFile) (v : Nat) : QEMUFile :=
  qemu_put_byte (qemu_put_byte f (v >>> 8)) v

def qemu_put_be32 (f : QEMUFile) (v : Nat) : QEMUFile :=
  qemu_put_byte (qemu_put_byte (qemu_put_byte (qemu_put_byte f (v >>> 24)) (v >>> 16)) (v >>> 8)) v

def qemu_put_be64 (f : QEMUFile) (v : Nat) : QEMUFile :=
  qemu_put_be32 (qemu_put_be32 f (v >>> 32)) v

/-! ### Reading -/

def qemu_file_skip (f : QEMUFile) (size : Nat) : QEMUFile :=
  if f.buf_index + size ≤ f.buf.length then { f with buf_index := f.buf_index + size } else f

def qemu_peek_byte (f : QEMUFile) (offset : Nat) : UInt8 × QEMUFile :=
  if h : f.buf_index + offset < f.buf.length then (f.buf[f.buf_index + offset], f)
  else (0, qemu_file_set_error f (- EIO))

def qemu_get_byte (f : QEMUFile) : UInt8 × QEMUFile :=
  let (result, f) := qemu_peek_byte f 0
  (result, qemu_file_skip f 1)

def qemu_get_be16 (f : QEMUFile) : Nat × QEMUFile :=
  let (a, f) := qemu_get_byte f
  let (b, f) := qemu_get_byte f
  (a.toNat <<< 8 ||| b.toNat, f)

def qemu_get_be32 (f : QEMUFile) : Nat × QEMUFile :=
  let (a, f) := qemu_get_byte f
  let (b, f) := qemu_get_byte f
  let (c, f) := qemu_get_byte f
  let (d, f) := qemu_get_byte f
  (a.toNat <<< 24 ||| b.toNat <<< 16 ||| c.toNat <<< 8 ||| d.toNat, f)

def qemu_get_be64 (f : QEMUFile) : Nat × QEMUFile :=
  let (hi, f) := qemu_get_be32 f
  let (lo, f) := qemu_get_be32 f
  (hi <<< 32 ||| lo, f)

-- `int qemu_get_buffer(QEMUFile *f, uint8_t *buf, int size)`: the bytes copied, as many
-- as are left up to `size`.
def qemu_get_buffer (f : QEMUFile) (size : Nat) : List UInt8 × QEMUFile :=
  let data := (f.buf.drop f.buf_index).take size
  let f := qemu_file_skip f data.length
  if data.length < size then (data, qemu_file_set_error f (- EIO)) else (data, f)

/-! ### The bytes of a stream -/

-- The bytes not read yet.
def QEMUFile.rest (f : QEMUFile) : List UInt8 := f.buf.drop f.buf_index

def QEMUFile.advance (f : QEMUFile) (n : Nat) : QEMUFile := { f with buf_index := f.buf_index + n }

def be16Bytes (v : Nat) : List UInt8 := [UInt8.ofNat (v >>> 8), UInt8.ofNat v]

def be32Bytes (v : Nat) : List UInt8 :=
  [UInt8.ofNat (v >>> 24), UInt8.ofNat (v >>> 16), UInt8.ofNat (v >>> 8), UInt8.ofNat v]

def be64Bytes (v : Nat) : List UInt8 := be32Bytes (v >>> 32) ++ be32Bytes v

@[simp] theorem be16Bytes_length (v : Nat) : (be16Bytes v).length = 2 := rfl

@[simp] theorem be32Bytes_length (v : Nat) : (be32Bytes v).length = 4 := rfl

@[simp] theorem be64Bytes_length (v : Nat) : (be64Bytes v).length = 8 := rfl

@[simp] theorem QEMUFile.rest_advance (f : QEMUFile) (n : Nat) :
    (f.advance n).rest = f.rest.drop n := by
  simp [QEMUFile.rest, QEMUFile.advance, Nat.add_comm]

@[simp] theorem QEMUFile.advance_advance (f : QEMUFile) (m n : Nat) :
    (f.advance m).advance n = f.advance (m + n) := by
  simp [QEMUFile.advance, Nat.add_assoc]

section Write

variable (f : QEMUFile) (h : f.last_error = 0)
include h

theorem qemu_put_buffer_ok (bs : List UInt8) : qemu_put_buffer f bs = { f with buf := f.buf ++ bs } := by
  simp [qemu_put_buffer, h]

theorem qemu_put_byte_ok (v : Nat) : qemu_put_byte f v = { f with buf := f.buf ++ [UInt8.ofNat v] } := by
  simp [qemu_put_byte, h]

theorem qemu_put_be16_ok (v : Nat) : qemu_put_be16 f v = { f with buf := f.buf ++ be16Bytes v } := by
  simp [qemu_put_be16, qemu_put_byte, h, be16Bytes]

theorem qemu_put_be32_ok (v : Nat) : qemu_put_be32 f v = { f with buf := f.buf ++ be32Bytes v } := by
  simp [qemu_put_be32, qemu_put_byte, h, be32Bytes]

theorem qemu_put_be64_ok (v : Nat) : qemu_put_be64 f v = { f with buf := f.buf ++ be64Bytes v } := by
  simp [qemu_put_be64, qemu_put_be32, qemu_put_byte, h, be64Bytes, be32Bytes]

end Write

/-! ### Reading back what was written -/

section Read

variable {f : QEMUFile}

theorem qemu_get_byte_of_rest {b : UInt8} {bs : List UInt8} (h : f.rest = b :: bs) :
    qemu_get_byte f = (b, f.advance 1) := by
  have hlt : f.buf_index < f.buf.length := by
    have := congrArg List.length h
    simp [QEMUFile.rest] at this
    omega
  have hb : f.buf[f.buf_index] = b := by
    have := congrArg (·[0]?) h
    simp only [QEMUFile.rest, List.getElem?_drop, Nat.add_zero, List.getElem?_eq_getElem hlt,
      List.getElem?_cons_zero, Option.some.injEq] at this
    exact this
  simp [qemu_get_byte, qemu_peek_byte, hlt, hb, qemu_file_skip, QEMUFile.advance]

theorem qemu_get_buffer_of_rest {xs ys : List UInt8} (h : f.rest = xs ++ ys) :
    qemu_get_buffer f xs.length = (xs, f.advance xs.length) := by
  have hdata : (f.buf.drop f.buf_index).take xs.length = xs := by
    rw [show f.buf.drop f.buf_index = f.rest from rfl, h, List.take_left]
  have hlen := congrArg List.length h
  simp only [QEMUFile.rest, List.length_drop, List.length_append] at hlen
  by_cases hfit : f.buf_index + xs.length ≤ f.buf.length
  · simp [qemu_get_buffer, hdata, qemu_file_skip, hfit, QEMUFile.advance]
  · -- reading nothing past the end of the stream
    obtain rfl : xs = [] := List.eq_nil_of_length_eq_zero (by omega)
    simp [qemu_get_buffer, qemu_file_skip, QEMUFile.advance]

private theorem or_shift8 (x y : Nat) (hy : y < 256) : x <<< 8 ||| y = x * 256 + y := by
  rw [← Nat.shiftLeft_add_eq_or_of_lt (by simpa using hy), Nat.shiftLeft_eq]

private theorem be32_assemble (a b c d : Nat) (hb : b < 256) (hc : c < 256) (hd : d < 256) :
    a <<< 24 ||| b <<< 16 ||| c <<< 8 ||| d = ((a * 256 + b) * 256 + c) * 256 + d := by
  have h1 : a <<< 24 ||| b <<< 16 = (a * 256 + b) <<< 16 := by
    rw [← or_shift8 a b hb, Nat.shiftLeft_or_distrib, ← Nat.shiftLeft_add]
  have h2 : (a * 256 + b) <<< 16 ||| c <<< 8 = ((a * 256 + b) * 256 + c) <<< 8 := by
    rw [← or_shift8 _ c hc, Nat.shiftLeft_or_distrib, ← Nat.shiftLeft_add]
  rw [h1, h2, or_shift8 _ d hd]

theorem qemu_get_be16_of_rest {v : Nat} {ys : List UInt8} (h : f.rest = be16Bytes v ++ ys) :
    qemu_get_be16 f = (v % 2 ^ 16, f.advance 2) := by
  have h0 := qemu_get_byte_of_rest (f := f) (by rw [h]; rfl)
  have h1 := qemu_get_byte_of_rest (f := f.advance 1) (by rw [QEMUFile.rest_advance, h]; rfl)
  simp only [qemu_get_be16, h0, h1, QEMUFile.advance_advance, UInt8.toNat_ofNat',
    or_shift8 _ _ (Nat.mod_lt _ (by decide)), Nat.shiftRight_eq_div_pow, Prod.mk.injEq, and_true]
  omega

theorem qemu_get_be32_of_rest {v : Nat} {ys : List UInt8} (h : f.rest = be32Bytes v ++ ys) :
    qemu_get_be32 f = (v % 2 ^ 32, f.advance 4) := by
  have h0 := qemu_get_byte_of_rest (f := f) (by rw [h]; rfl)
  have h1 := qemu_get_byte_of_rest (f := f.advance 1) (by rw [QEMUFile.rest_advance, h]; rfl)
  have h2 := qemu_get_byte_of_rest (f := f.advance 2) (by rw [QEMUFile.rest_advance, h]; rfl)
  have h3 := qemu_get_byte_of_rest (f := f.advance 3) (by rw [QEMUFile.rest_advance, h]; rfl)
  simp only [qemu_get_be32, h0, QEMUFile.advance_advance, h1, h2, h3, UInt8.toNat_ofNat',
    be32_assemble _ _ _ _ (Nat.mod_lt _ (by decide)) (Nat.mod_lt _ (by decide))
      (Nat.mod_lt _ (by decide)), Nat.shiftRight_eq_div_pow, Prod.mk.injEq, and_true]
  omega

theorem qemu_get_be64_of_rest {v : Nat} {ys : List UInt8} (h : f.rest = be64Bytes v ++ ys) :
    qemu_get_be64 f = (v % 2 ^ 64, f.advance 8) := by
  have hhi := qemu_get_be32_of_rest (f := f) (v := v >>> 32) (by rw [h, be64Bytes, List.append_assoc])
  have hlo := qemu_get_be32_of_rest (f := f.advance 4) (v := v)
    (show _ = _ ++ ys by rw [QEMUFile.rest_advance, h, be64Bytes, List.append_assoc]; rfl)
  have hlt : v % 2 ^ 32 < 2 ^ 32 := Nat.mod_lt _ (by decide)
  simp only [qemu_get_be64, hhi, hlo, QEMUFile.advance_advance, Prod.mk.injEq, and_true]
  rw [← Nat.shiftLeft_add_eq_or_of_lt hlt, Nat.shiftLeft_eq, Nat.shiftRight_eq_div_pow]
  omega

-- The stream model at any position up to the stream's end.
theorem qemu_get_byte_eq (f : QEMUFile) (h : f.buf_index ≤ f.buf.length) :
    (qemu_get_byte f).1 = f.buf[f.buf_index]! ∧ (qemu_get_byte f).2.buf = f.buf ∧
      (qemu_get_byte f).2.buf_index = min (f.buf_index + 1) f.buf.length := by
  by_cases hlt : f.buf_index < f.buf.length
  · simp [qemu_get_byte, qemu_peek_byte, hlt, qemu_file_skip, Nat.succ_le_of_lt hlt]
  · -- at the end: 0, an error, and no move
    have hend : f.buf_index = f.buf.length := by omega
    have hpeek : qemu_peek_byte f 0 = (0, qemu_file_set_error f (- EIO)) := by
      simp [qemu_peek_byte, hend]
    have hskip :
        qemu_file_skip (qemu_file_set_error f (- EIO)) 1 = qemu_file_set_error f (- EIO) := by
      simp [qemu_file_skip, hend]
    have hnone : f.buf[f.buf.length]! = 0 := by
      rw [List.getElem!_eq_getElem?_getD, List.getElem?_eq_none (le_refl _)]
      rfl
    simp only [qemu_get_byte, hpeek, hskip, qemu_file_set_error_buf, qemu_file_set_error_buf_index,
      hend, hnone, Nat.le_add_right, min_eq_right, and_self]

theorem qemu_get_buffer_eq (f : QEMUFile) (h : f.buf_index ≤ f.buf.length) (size : Nat) :
    (qemu_get_buffer f size).1 = (f.buf.drop f.buf_index).take size ∧
      (qemu_get_buffer f size).2.buf = f.buf ∧
      (qemu_get_buffer f size).2.buf_index =
        f.buf_index + ((f.buf.drop f.buf_index).take size).length := by
  have hfit : f.buf_index + min size (f.buf.length - f.buf_index) ≤ f.buf.length := by
    have := Nat.min_le_right size (f.buf.length - f.buf_index)
    omega
  unfold qemu_get_buffer
  dsimp only
  split_ifs <;> simp [qemu_file_skip, hfit]

end Read

/-! ### Sequences of calls -/

-- A call a saver makes, and one a loader makes.
inductive PutCall
  | byte (v : Nat)
  | buffer (bs : List UInt8)
  | be16 (v : Nat)
  | be32 (v : Nat)
  | be64 (v : Nat)

inductive GetCall
  | byte
  | buffer (size : Nat)
  | be16
  | be32
  | be64

-- What a get call returns.
inductive Got
  | byte (b : UInt8)
  | bytes (bs : List UInt8)
  | num (v : Nat)
  deriving DecidableEq

def PutCall.apply (f : QEMUFile) : PutCall → QEMUFile
  | .byte v => qemu_put_byte f v
  | .buffer bs => qemu_put_buffer f bs
  | .be16 v => qemu_put_be16 f v
  | .be32 v => qemu_put_be32 f v
  | .be64 v => qemu_put_be64 f v

def GetCall.apply (f : QEMUFile) : GetCall → Got × QEMUFile
  | .byte => let (b, f) := qemu_get_byte f; (.byte b, f)
  | .buffer size => let (bs, f) := qemu_get_buffer f size; (.bytes bs, f)
  | .be16 => let (v, f) := qemu_get_be16 f; (.num v, f)
  | .be32 => let (v, f) := qemu_get_be32 f; (.num v, f)
  | .be64 => let (v, f) := qemu_get_be64 f; (.num v, f)

def applyGets (f : QEMUFile) : List GetCall → List Got × QEMUFile
  | [] => ([], f)
  | c :: cs =>
      let (r, f) := c.apply f
      let (rs, f) := applyGets f cs
      (r :: rs, f)

-- The bytes a put call appends; the get call that reads them back and what it returns.
def PutCall.bytes : PutCall → List UInt8
  | .byte v => [UInt8.ofNat v]
  | .buffer bs => bs
  | .be16 v => be16Bytes v
  | .be32 v => be32Bytes v
  | .be64 v => be64Bytes v

def PutCall.readBack : PutCall → GetCall × Got
  | .byte v => (.byte, .byte (UInt8.ofNat v))
  | .buffer bs => (.buffer bs.length, .bytes bs)
  | .be16 v => (.be16, .num (v % 2 ^ 16))
  | .be32 v => (.be32, .num (v % 2 ^ 32))
  | .be64 v => (.be64, .num (v % 2 ^ 64))

theorem PutCall.apply_ok (c : PutCall) {f : QEMUFile} (h : f.last_error = 0) :
    c.apply f = { f with buf := f.buf ++ c.bytes } := by
  cases c with
  | byte v => exact qemu_put_byte_ok f h v
  | buffer bs => exact qemu_put_buffer_ok f h bs
  | be16 v => exact qemu_put_be16_ok f h v
  | be32 v => exact qemu_put_be32_ok f h v
  | be64 v => exact qemu_put_be64_ok f h v

-- A run of put calls appends their bytes.
theorem PutCall.foldl_apply (cs : List PutCall) :
    ∀ f : QEMUFile, f.last_error = 0 →
      cs.foldl PutCall.apply f = { f with buf := f.buf ++ cs.flatMap PutCall.bytes } := by
  induction cs with
  | nil => intro f _; simp
  | cons c cs ih =>
      intro f h
      rw [List.foldl_cons, c.apply_ok h, ih { f with buf := f.buf ++ c.bytes } h]
      simp [List.append_assoc]

-- The get call of a put call reads its bytes back.
theorem PutCall.readBack_apply (c : PutCall) {f : QEMUFile} {ys : List UInt8}
    (h : f.rest = c.bytes ++ ys) :
    c.readBack.1.apply f = (c.readBack.2, f.advance c.bytes.length) := by
  cases c with
  | byte v => simp only [readBack, GetCall.apply, qemu_get_byte_of_rest (f := f) h]; rfl
  | buffer bs => simp only [readBack, GetCall.apply, @qemu_get_buffer_of_rest f bs ys h, bytes]
  | be16 v => simp only [readBack, GetCall.apply, qemu_get_be16_of_rest h]; rfl
  | be32 v => simp only [readBack, GetCall.apply, qemu_get_be32_of_rest h]; rfl
  | be64 v => simp only [readBack, GetCall.apply, qemu_get_be64_of_rest h]; rfl

-- Reading a run of put calls back, call by call, returns what each wrote.
theorem applyGets_readBack (cs : List PutCall) :
    ∀ (f : QEMUFile) (ys : List UInt8), f.rest = cs.flatMap PutCall.bytes ++ ys →
      applyGets f (cs.map fun c => c.readBack.1) =
        (cs.map fun c => c.readBack.2, f.advance (cs.flatMap PutCall.bytes).length) := by
  induction cs with
  | nil => intro f _ _; simp [applyGets, QEMUFile.advance]
  | cons c cs ih =>
      intro f ys h
      rw [List.flatMap_cons, List.append_assoc] at h
      have hrest : (f.advance c.bytes.length).rest = cs.flatMap PutCall.bytes ++ ys := by
        rw [QEMUFile.rest_advance, h, List.drop_left]
      simp only [List.map_cons, applyGets, c.readBack_apply h, ih _ _ hrest,
        QEMUFile.advance_advance, List.flatMap_cons, List.length_append]

end Qemu.Migration

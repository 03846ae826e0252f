import Qemu.Lib.BitArith

/-!
The control pipe of a USB device (`hw/usb/core.c`): the three phases of a control transfer,
driven by SETUP, IN and OUT token packets, by parameter packets that carry the setup bytes
themselves, and by the completion of a request the device answered asynchronously. The
device's `handle_control` is not modelled: each packet that reaches it carries the status and
the `actual_length` the device leaves in the packet. The bytes of `data_buf` are not
modelled either; what is kept of each `usb_packet_copy` into or out of `data_buf` is the range
of `data_buf` it touches.
-/

namespace Qemu.Usb

open BitArith

-- The `USB_RET_*` status codes; every one but `SUCCESS` is negative.
inductive UsbRet
  | SUCCESS
  | NODEV
  | NAK
  | STALL
  | BABBLE
  | IOERROR
  | ASYNC
  | ADD_TO_QUEUE
  | REMOVE_FROM_QUEUE
deriving DecidableEq, Repr

-- The token of a packet on the control endpoint.
inductive Pid
  | SETUP
  | IN
  | OUT
deriving DecidableEq, Repr

inductive SetupState
  | IDLE
  | SETUP
  | DATA
  | ACK
  | PARAM
deriving DecidableEq, Repr

def USB_DIR_IN : Nat := 0x80

-- `sizeof(s->data_buf)`
def DATA_BUF_SIZE : Nat := 4096

-- A C `int` compared with a `size_t` is converted to it, and a `size_t` stored in an `int`
-- keeps its low 32 bits.
def sizeT (x : Int) : Nat := (x % 2 ^ 64).toNat

def int32 (n : Nat) : Int := signed 32 (n % 2 ^ 32)

-- A length that a `size_t` holds is unchanged by the conversion.
theorem sizeT_natCast {n : Nat} (h : n < 2 ^ 64) : sizeT n = n := by
  unfold sizeT
  rw [Int.emod_eq_of_lt (by positivity) (by exact_mod_cast h)]
  simp

theorem sizeT_of_nonneg {x : Int} (h0 : 0 ≤ x) (h : x < 2 ^ 64) : (sizeT x : Int) = x := by
  unfold sizeT
  rw [Int.emod_eq_of_lt h0 h, Int.toNat_of_nonneg h0]

theorem int32_of_lt {n : Nat} (h : n < 2 ^ 31) : int32 n = n := by
  unfold int32 signed
  rw [Nat.mod_eq_of_lt (by omega), if_pos (by simpa using h)]

-- The fields of `USBDevice` that the control pipe reads and writes.
structure USBDevice where
  setup_buf : List UInt8
  setup_state : SetupState
  setup_len : Int
  setup_index : Int
deriving DecidableEq, Repr

-- `USBPacket`: `iov` is the guest buffer, of `iov.size` bytes.
structure USBPacket where
  pid : Pid
  iov : List UInt8
  parameter : Nat
  status : UsbRet
  actual_length : Int
deriving DecidableEq, Repr

-- What a device's `handle_control` leaves in the packet.
structure Reply where
  status : UsbRet
  actual_length : Nat
deriving DecidableEq, Repr

-- The device, the packet being handled, and the ranges `(offset, bytes)` of `data_buf` that
-- `usb_packet_copy` has touched, latest first.
structure Pipe where
  dev : USBDevice
  p : USBPacket
  touched : List (Int × Nat)
deriving DecidableEq, Repr

-- `usb_packet_copy(p, ptr, bytes)`: its two assertions, then `actual_length += bytes`.
-- `none` is the abort of a failed assertion.
def usb_packet_copy (p : USBPacket) (bytes : Nat) : Option USBPacket :=
  if 0 ≤ p.actual_length ∧ p.actual_length + bytes ≤ p.iov.length then
    some { p with actual_length := p.actual_length + bytes }
  else none

-- A copy into or out of `data_buf + off`.
def copyData (s : Pipe) (off : Int) (bytes : Nat) : Option Pipe := do
  let p ← usb_packet_copy s.p bytes
  pure { s with p := p, touched := (off, bytes) :: s.touched }

theorem copyData_eq {s s' : Pipe} {off : Int} {n : Nat} (h : copyData s off n = some s') :
    s'.dev = s.dev ∧ s'.touched = (off, n) :: s.touched := by
  unfold copyData at h
  obtain ⟨p, -, h⟩ := Option.bind_eq_some_iff.mp h
  cases Option.some.inj h
  exact ⟨rfl, rfl⟩

def Pipe.setDev (s : Pipe) (f : USBDevice → USBDevice) : Pipe := { s with dev := f s.dev }

def Pipe.setP (s : Pipe) (f : USBPacket → USBPacket) : Pipe := { s with p := f s.p }

@[simp] theorem Pipe.setDev_dev (s : Pipe) (f) : (s.setDev f).dev = f s.dev := rfl
@[simp] theorem Pipe.setDev_p (s : Pipe) (f) : (s.setDev f).p = s.p := rfl
@[simp] theorem Pipe.setDev_touched (s : Pipe) (f) : (s.setDev f).touched = s.touched := rfl
@[simp] theorem Pipe.setP_dev (s : Pipe) (f) : (s.setP f).dev = s.dev := rfl
@[simp] theorem Pipe.setP_p (s : Pipe) (f) : (s.setP f).p = f s.p := rfl
@[simp] theorem Pipe.setP_touched (s : Pipe) (f) : (s.setP f).touched = s.touched := rfl

-- `usb_device_handle_control`: the device answers with `r`.
def handleControl (s : Pipe) (r : Reply) : Pipe :=
  s.setP fun p => { p with status := r.status, actual_length := r.actual_length }

@[simp] theorem handleControl_dev (s : Pipe) (r) : (handleControl s r).dev = s.dev := rfl
@[simp] theorem handleControl_touched (s : Pipe) (r) : (handleControl s r).touched = s.touched :=
  rfl
@[simp] theorem handleControl_p_status (s : Pipe) (r : Reply) :
    (handleControl s r).p.status = r.status := rfl
@[simp] theorem handleControl_p_actual (s : Pipe) (r : Reply) :
    (handleControl s r).p.actual_length = r.actual_length := rfl

-- `if (p->actual_length < s->setup_len) s->setup_len = p->actual_length;`, which four
-- handlers share.
def clipSetupLen (s : Pipe) : Pipe :=
  s.setDev fun d =>
    { d with setup_len := if s.p.actual_length < d.setup_len then s.p.actual_length else d.setup_len }

@[simp] theorem clipSetupLen_p (s : Pipe) : (clipSetupLen s).p = s.p := rfl
@[simp] theorem clipSetupLen_touched (s : Pipe) : (clipSetupLen s).touched = s.touched := rfl
@[simp] theorem clipSetupLen_state (s : Pipe) :
    (clipSetupLen s).dev.setup_state = s.dev.setup_state := rfl
@[simp] theorem clipSetupLen_index (s : Pipe) :
    (clipSetupLen s).dev.setup_index = s.dev.setup_index := rfl

-- The clipped length is the smaller of the two.
theorem clipSetupLen_len (s : Pipe) :
    (clipSetupLen s).dev.setup_len = min s.p.actual_length s.dev.setup_len := by
  simp only [clipSetupLen, Pipe.setDev_dev]
  split_ifs with h
  · exact (min_eq_left h.le).symm
  · exact (min_eq_right (not_lt.mp h)).symm

def setupByte (buf : List UInt8) (i : Nat) : Nat := (buf.getD i 0).toNat

def wLength (buf : List UInt8) : Nat := (setupByte buf 7 <<< 8) ||| setupByte buf 6

theorem wLength_nonneg (buf : List UInt8) : (0 : Int) ≤ wLength buf := by positivity

theorem wLength_lt (buf : List UInt8) : wLength buf < 2 ^ 16 := by
  have h6 : setupByte buf 6 < 2 ^ 8 := (buf.getD 6 0).toNat_lt
  have h7 : setupByte buf 7 < 2 ^ 8 := (buf.getD 7 0).toNat_lt
  unfold wLength
  rw [Nat.shiftLeft_eq]
  exact Nat.or_lt_two_pow (by omega) (by omega)

def dirIn (buf : List UInt8) : Bool := setupByte buf 0 &&& USB_DIR_IN != 0

def do_token_setup (s : Pipe) (r : Reply) : Option Pipe := do
  if s.p.iov.length ≠ 8 then
    return s.setP fun p => { p with status := .STALL }
  let p ← usb_packet_copy s.p s.p.iov.length
  let buf := s.p.iov
  let s := { s with p := { p with actual_length := 0 } }
  let s := s.setDev fun d => { d with setup_buf := buf, setup_len := wLength buf, setup_index := 0 }
  if dirIn buf then
    let s := handleControl s r
    let s := s.setDev fun d =>
      { d with setup_state := if s.p.status = .ASYNC then .SETUP else d.setup_state }
    if s.p.status ≠ .SUCCESS then
      return s
    let s := clipSetupLen s
    let s := s.setDev fun d => { d with setup_state := .DATA }
    return s.setP fun p => { p with actual_length := 8 }
  else
    if sizeT s.dev.setup_len > DATA_BUF_SIZE then
      return s.setP fun p => { p with status := .STALL }
    let s := s.setDev fun d =>
      { d with setup_state := if d.setup_len = 0 then .ACK else .DATA }
    return s.setP fun p => { p with actual_length := 8 }

-- The DATA phase, shared by `do_token_in` and `do_token_out`: the direction of the packet
-- must be the direction of the transfer.
def dataPhase (s : Pipe) (dir : Bool) : Option Pipe := do
  if dirIn s.dev.setup_buf = dir then
    let len := s.dev.setup_len - s.dev.setup_index
    let len := if sizeT len > s.p.iov.length then int32 s.p.iov.length else len
    let s ← copyData s s.dev.setup_index (sizeT len)
    let s := s.setDev fun d => { d with setup_index := d.setup_index + len }
    return s.setDev fun d =>
      { d with setup_state := if d.setup_index ≥ d.setup_len then .ACK else d.setup_state }
  else
    let s := s.setDev fun d => { d with setup_state := .IDLE }
    return s.setP fun p => { p with status := .STALL }

def do_token_in (s : Pipe) (r : Reply) : Option Pipe :=
  match s.dev.setup_state with
  | .ACK =>
    if !dirIn s.dev.setup_buf then
      let s := handleControl s r
      if s.p.status = .ASYNC then some s
      else
        let s := s.setDev fun d => { d with setup_state := .IDLE }
        some (s.setP fun p => { p with actual_length := 0 })
    else some s
  | .DATA => dataPhase s true
  | _ => some (s.setP fun p => { p with status := .STALL })

def do_token_out (s : Pipe) : Option Pipe :=
  match s.dev.setup_state with
  | .ACK =>
    -- an OUT in the status phase of an IN transfer ends it; others are ignored
    if dirIn s.dev.setup_buf then some (s.setDev fun d => { d with setup_state := .IDLE })
    else some s
  | .DATA => dataPhase s false
  | _ => some (s.setP fun p => { p with status := .STALL })

-- `s->setup_buf[i] = p->parameter >> (i*8)`
def parameterBytes (parameter : Nat) : List UInt8 :=
  (List.range 8).map fun i => UInt8.ofNat (parameter >>> (i * 8))

def do_parameter (s : Pipe) (r : Reply) : Option Pipe := do
  let buf := parameterBytes s.p.parameter
  let s := s.setDev fun _ =>
    { setup_buf := buf, setup_state := .PARAM, setup_len := wLength buf, setup_index := 0 }
  if sizeT s.dev.setup_len > DATA_BUF_SIZE then
    return s.setP fun p => { p with status := .STALL }
  let s ← if s.p.pid = .OUT then copyData s 0 (sizeT s.dev.setup_len) else pure s
  let s := handleControl s r
  if s.p.status = .ASYNC then
    return s
  let s := clipSetupLen s
  if s.p.pid = .IN then
    copyData (s.setP fun p => { p with actual_length := 0 }) 0 (sizeT s.dev.setup_len)
  else
    return s

-- `usb_generic_async_ctrl_complete`: the device has finished the packet it answered with
-- `ASYNC`, leaving its status and length in it.
def usb_generic_async_ctrl_complete (s : Pipe) : Option Pipe := do
  let s := s.setDev fun d =>
    { d with setup_state := if s.p.status ≠ .SUCCESS then .IDLE else d.setup_state }
  match s.dev.setup_state with
  | .SETUP =>
    let s := clipSetupLen s
    let s := s.setDev fun d => { d with setup_state := .DATA }
    return s.setP fun p => { p with actual_length := 8 }
  | .ACK =>
    let s := s.setDev fun d => { d with setup_state := .IDLE }
    return s.setP fun p => { p with actual_length := 0 }
  | .PARAM =>
    let s := clipSetupLen s
    if s.p.pid = .IN then
      copyData (s.setP fun p => { p with actual_length := 0 }) 0 (sizeT s.dev.setup_len)
    else return s
  | _ => return s

-- `usb_process_one` on the control endpoint, for a packet set up by `usb_packet_setup`.
def usb_process_one (s : Pipe) (r : Reply) : Option Pipe :=
  let s := s.setP fun p => { p with status := .SUCCESS }
  if s.p.parameter ≠ 0 then do_parameter s r
  else
    match s.p.pid with
    | .SETUP => do_token_setup s r
    | .IN => do_token_in s r
    | .OUT => do_token_out s

-- What the guest and the device do next: a packet with the device's answer, or the
-- completion of an asynchronous packet with the status and length the device left in it.
inductive Event
  | packet (pid : Pid) (iov : List UInt8) (parameter : Nat) (r : Reply)
  | complete (pid : Pid) (iov : List UInt8) (parameter : Nat) (status : UsbRet) (actual : Nat)
deriving DecidableEq, Repr

def step (dev : USBDevice) (touched : List (Int × Nat)) : Event → Option Pipe
  | .packet pid iov parameter r =>
    usb_process_one ⟨dev, ⟨pid, iov, parameter, .SUCCESS, 0⟩, touched⟩ r
  | .complete pid iov parameter status actual =>
    usb_generic_async_ctrl_complete ⟨dev, ⟨pid, iov, parameter, status, actual⟩, touched⟩

-- A run from `dev`: the device after every event and all the ranges touched; `none` when an
-- assertion fails.
def run (dev : USBDevice) (touched : List (Int × Nat)) : List Event → Option (USBDevice × List (Int × Nat))
  | [] => some (dev, touched)
  | e :: es => do
    let s ← step dev touched e
    run s.dev s.touched es

-- A device after reset: the control state is zero.
def USBDevice.init : USBDevice := ⟨List.replicate 8 0, .IDLE, 0, 0⟩

end Qemu.Usb

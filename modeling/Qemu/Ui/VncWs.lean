import Qemu.Lib.ByteMem
import Qemu.Lib.ByteWord
import Qemu.Lib.CInt

/-!
Decoding of the WebSocket frames a VNC client sends (`ui/vnc-ws.c`). The frame is decoded in
place in `vs->ws_input`: a two-byte head, a 7-, 16- or 64-bit payload length, a four-byte
mask, then the masked payload, which is unmasked in 32-bit words and a byte tail. `size_t`
is 64 bits; the host is little-endian, so the bytes of `payload32[i]` meet those of
`mask.u` in address order.
-/

namespace Qemu.Ui

open ByteMem

-- `sizeof(uint16_t)`
def WS_HEAD_MIN_LEN : Nat := 2

def WS_OPCODE_BINARY_FRAME : Nat := 0x2

def WS_OPCODE_CLOSE : Nat := 0x8

-- A `Buffer`: its bytes, and how many of them hold data.
structure Buffer where
  buffer : Mem
  offset : Nat

-- `be16_to_cpu` and `be64_to_cpu` of the `n` bytes at `pos`.
def loadBE (m : Mem) (pos n : Nat) : Nat := ByteWord.val (read m pos n).reverse

-- `payload32[i] ^= mask.u` for the word at `pos`.
def xorWord (buf : Mem) (pos : Nat) (mask : Mem) : Mem :=
  fun k => if pos ≤ k ∧ k < pos + 4 then buf k ^^^ mask (k - pos) else buf k

-- `for (i = 0; i < *payload_size / 4; i++) payload32[i] ^= mask.u;` for `n` words. `i` is an
-- `int`: it is the round's number here, which it is in C while the payload is shorter than
-- `2 ^ 31` bytes; past that `i++` and `i *= 4` overflow.
def unmaskWords (payload : Nat) (mask : Mem) : Nat → Mem → Mem
  | 0, buf => buf
  | n + 1, buf => xorWord (unmaskWords payload mask n buf) (payload + 4 * n) mask

-- `for (i *= 4; i < *payload_size; i++) (*payload)[i] ^= mask.c[i % 4];`, `n` bytes from `i`.
def unmaskBytes (payload : Nat) (mask : Mem) : Nat → Nat → Mem → Mem
  | _, 0, buf => buf
  | i, n + 1, buf =>
    unmaskBytes payload mask (i + 1) n
      (Function.update buf (payload + i) (buf (payload + i) ^^^ mask (i % 4)))

-- What `vncws_decode_frame` returns: `0`, `-1` or `-2`, or `1` with the unmasked buffer,
-- `*payload` (as an index into the buffer), `*payload_size` and `*frame_size`.
inductive WsDecode where
  | ret (v : Int)
  | frame (buffer : Mem) (payload payload_size frame_size : Nat)

-- The part of `vncws_decode_frame` after the header is read: the completeness check on
-- `*frame_size`, then the unmasking of the payload. The mask is a copy of the header's.
def decodeFrameBody (input : Buffer) (payload_size header_size : Nat) (mask : Mem) : WsDecode :=
  let frame_size := (header_size + payload_size) % 2 ^ 64
  if input.offset < frame_size then .ret 0
  else
    let words := unmaskWords header_size mask (payload_size / 4) input.buffer
    .frame (unmaskBytes header_size mask (payload_size / 4 * 4) (payload_size - payload_size / 4 * 4) words)
      header_size payload_size frame_size

-- `int vncws_decode_frame(Buffer *input, uint8_t **payload, size_t *payload_size,
-- size_t *frame_size)`
def vncws_decode_frame (input : Buffer) : WsDecode :=
  let b := input.buffer
  if input.offset < WS_HEAD_MIN_LEN + 4 then .ret 0
  else
    let fin := (b 0 &&& 0x80) >>> 7
    let opcode := b 0 &&& 0x0f
    let has_mask := (b 1 &&& 0x80) >>> 7
    let payload_size := (b 1 &&& 0x7f).toNat
    if opcode.toNat = WS_OPCODE_CLOSE then .ret (-1)
    else if fin = 0 ∨ has_mask = 0 ∨ opcode.toNat ≠ WS_OPCODE_BINARY_FRAME then .ret (-2)
    else if payload_size < 126 then decodeFrameBody input payload_size 6 (view b 2)
    else if payload_size = 126 ∧ input.offset ≥ 8 then
      decodeFrameBody input (loadBE b 2 2) 8 (view b 4)
    else if payload_size = 127 ∧ input.offset ≥ 14 then
      decodeFrameBody input (loadBE b 2 8) 14 (view b 10)
    else .ret 0

/-! ### The unmasking loops -/

-- The bytes `[payload, payload + n)` each meet the mask byte of their position modulo 4.
def unmasked (buf : Mem) (payload n : Nat) (mask : Mem) : Mem :=
  fun k => if payload ≤ k ∧ k < payload + n then buf k ^^^ mask ((k - payload) % 4) else buf k

theorem unmasked_zero (buf : Mem) (payload : Nat) (mask : Mem) : unmasked buf payload 0 mask = buf := by
  funext k
  simp only [unmasked]
  split_ifs <;> first | omega | rfl

-- The word loop unmasks four bytes a round.
theorem unmaskWords_eq (payload : Nat) (mask : Mem) (n : Nat) (buf : Mem) :
    unmaskWords payload mask n buf = unmasked buf payload (4 * n) mask := by
  induction n with
  | zero => rw [unmaskWords, Nat.mul_zero, unmasked_zero]
  | succ n ih =>
    rw [unmaskWords, ih]
    funext k
    simp only [xorWord, unmasked]
    by_cases hw : payload + 4 * n ≤ k ∧ k < payload + 4 * n + 4
    · -- the word of round `n`: its byte `k - (payload + 4n)` is `(k - payload) % 4`
      rw [if_pos hw, if_neg (by omega), if_pos (by omega)]
      congr 2
      omega
    · rw [if_neg hw]
      split_ifs <;> first | omega | rfl

-- The byte loop unmasks the tail from `i` on.
theorem unmaskBytes_eq (payload : Nat) (mask : Mem) (i n : Nat) (buf : Mem) :
    unmaskBytes payload mask i n (unmasked buf payload i mask) = unmasked buf payload (i + n) mask := by
  induction n generalizing i with
  | zero => rfl
  | succ n ih =>
    rw [unmaskBytes, show i + (n + 1) = i + 1 + n by omega, ← ih (i + 1)]
    congr 1
    funext k
    simp only [Function.update, unmasked]
    by_cases hk : k = payload + i
    · subst hk
      simp only [dite_true, if_neg (show ¬(payload ≤ payload + i ∧ payload + i < payload + i) by omega),
        if_pos (show payload ≤ payload + i ∧ payload + i < payload + (i + 1) by omega), Nat.add_sub_cancel_left]
    · rw [dif_neg hk]
      split_ifs <;> first | omega | rfl

theorem decodeFrameBody_eq (input : Buffer) (payload_size header_size : Nat) (mask : Mem) :
    decodeFrameBody input payload_size header_size mask =
      if input.offset < (header_size + payload_size) % 2 ^ 64 then .ret 0
      else .frame (unmasked input.buffer header_size payload_size mask) header_size payload_size
        ((header_size + payload_size) % 2 ^ 64) := by
  rw [decodeFrameBody, unmaskWords_eq, Nat.mul_comm]
  dsimp only
  rw [unmaskBytes_eq, Nat.add_sub_cancel' (Nat.div_mul_le_self _ _)]

/-! ### Decoded frames -/

-- A decoded frame: its payload starts after the header and its mask, the header lies in the
-- data, and the payload is unmasked in place; `*frame_size` is the sum modulo `2^64`.
theorem vncws_decode_frame_frame {input : Buffer} {buf : Mem} {payload payload_size frame_size : Nat}
    (h : vncws_decode_frame input = .frame buf payload payload_size frame_size) :
    4 ≤ payload ∧ payload ≤ input.offset ∧ frame_size = (payload + payload_size) % 2 ^ 64 ∧
      frame_size ≤ input.offset ∧
      buf = unmasked input.buffer payload payload_size (view input.buffer (payload - 4)) := by
  -- the three length encodings share the body
  have body : ∀ ps hs, 4 ≤ hs → hs ≤ input.offset →
      decodeFrameBody input ps hs (view input.buffer (hs - 4)) = .frame buf payload payload_size frame_size →
      4 ≤ payload ∧ payload ≤ input.offset ∧ frame_size = (payload + payload_size) % 2 ^ 64 ∧
        frame_size ≤ input.offset ∧
        buf = unmasked input.buffer payload payload_size (view input.buffer (payload - 4)) := by
    intro ps hs h4 hle hb
    rw [decodeFrameBody_eq] at hb
    split_ifs at hb with hlt
    simp only [WsDecode.frame.injEq] at hb
    obtain ⟨rfl, rfl, rfl, rfl⟩ := hb
    exact ⟨h4, hle, rfl, by omega, rfl⟩
  unfold vncws_decode_frame at h
  split_ifs at h with h0
  dsimp only at h
  split_ifs at h with h1 h2 h3 h4 h5
  · exact body _ 6 (by decide) (by simp only [WS_HEAD_MIN_LEN] at h0; omega) h
  · exact body _ 8 (by decide) h4.2 h
  · exact body _ 14 (by decide) h5.2 h

-- Where `*frame_size` does not wrap, a decoded frame lies in the data and only its payload is
-- touched, each byte unmasked with the mask byte of its position.
theorem vncws_decode_frame_in_data {input : Buffer} {buf : Mem} {payload payload_size frame_size : Nat}
    (h : vncws_decode_frame input = .frame buf payload payload_size frame_size)
    (hfit : payload + payload_size < 2 ^ 64) :
    payload + payload_size = frame_size ∧ frame_size ≤ input.offset ∧
      ∀ k, buf k = if payload ≤ k ∧ k < frame_size then
        input.buffer k ^^^ input.buffer (payload - 4 + (k - payload) % 4) else input.buffer k := by
  obtain ⟨-, -, hfs, hle, rfl⟩ := vncws_decode_frame_frame h
  rw [Nat.mod_eq_of_lt hfit] at hfs
  subst hfs
  exact ⟨rfl, hle, fun k => rfl⟩

-- A masked binary frame with FIN set goes on to the body, with the length its second byte
-- selects.
theorem vncws_decode_frame_masked (input : Buffer) (h6 : 6 ≤ input.offset)
    (hb0 : input.buffer 0 = 0x82) (hb1 : input.buffer 1 &&& 0x80 = 0x80) :
    vncws_decode_frame input =
      if (input.buffer 1 &&& 0x7f).toNat < 126 then
        decodeFrameBody input (input.buffer 1 &&& 0x7f).toNat 6 (view input.buffer 2)
      else if (input.buffer 1 &&& 0x7f).toNat = 126 ∧ input.offset ≥ 8 then
        decodeFrameBody input (loadBE input.buffer 2 2) 8 (view input.buffer 4)
      else if (input.buffer 1 &&& 0x7f).toNat = 127 ∧ input.offset ≥ 14 then
        decodeFrameBody input (loadBE input.buffer 2 8) 14 (view input.buffer 10)
      else .ret 0 := by
  unfold vncws_decode_frame
  rw [if_neg (by simp only [WS_HEAD_MIN_LEN]; omega)]
  dsimp only
  rw [hb0, hb1]
  rfl

/-! ### A length that wraps -/

-- The head of a frame that announces `2^64 - 1` bytes in the 64-bit length, with mask 1,1,1,1.
def wrapHead : List UInt8 := [0x82, 0xff, 0xff, 0xff, 0xff, 0xff, 0xff, 0xff, 0xff, 0xff, 1, 1, 1, 1]

theorem vncws_decode_frame_wraps (m : Mem) :
    ∃ buf, vncws_decode_frame ⟨write m 0 wrapHead, 14⟩ = .frame buf 14 (2 ^ 64 - 1) 13 ∧
      13 < 14 + (2 ^ 64 - 1) ∧ buf 14 ≠ write m 0 wrapHead 14 := by
  have hhead := holds_write m 0 wrapHead
  have hb0 : write m 0 wrapHead 0 = 0x82 := hhead 0 (by decide)
  have hb1 : write m 0 wrapHead 1 = 0xff := hhead 1 (by decide)
  have hb10 : write m 0 wrapHead 10 = 1 := hhead 10 (by decide)
  have hlen : loadBE (write m 0 wrapHead) 2 8 = 2 ^ 64 - 1 := by
    rw [loadBE, ← Nat.zero_add 2, hhead.read_slice (by decide)]
    decide
  -- a binary frame, masked, with the 64-bit length
  have hbody : vncws_decode_frame ⟨write m 0 wrapHead, 14⟩ =
      decodeFrameBody ⟨write m 0 wrapHead, 14⟩ (2 ^ 64 - 1) 14 (view (write m 0 wrapHead) 10) := by
    rw [vncws_decode_frame_masked ⟨write m 0 wrapHead, 14⟩ (show 6 ≤ 14 by decide) hb0
      (show write m 0 wrapHead 1 &&& 0x80 = 0x80 by rw [hb1]; rfl)]
    simp only [hb1, hlen]
    rfl
  have hflip : ∀ x : UInt8, x ^^^ 1 ≠ x := by decide +kernel
  have hwrap : (14 + (2 ^ 64 - 1)) % 2 ^ 64 = 13 := by norm_num
  rw [hbody, decodeFrameBody_eq, hwrap, if_neg (show ¬(14 : Nat) < 13 by decide)]
  refine ⟨_, rfl, by norm_num, ?_⟩
  -- the first payload byte lies past the data and is unmasked all the same
  simp only [unmasked, view, Nat.add_zero, Nat.sub_self, Nat.zero_mod, hb10,
    if_pos (show 14 ≤ 14 ∧ 14 < 14 + (2 ^ 64 - 1) by norm_num)]
  exact hflip _

/-! ### Frames a client sends -/

-- The `n` low bytes of `v`, least significant first.
def leBytes : Nat → Nat → List UInt8
  | 0, _ => []
  | n + 1, v => UInt8.ofNat v :: leBytes n (v / 256)

@[simp] theorem leBytes_length (n v : Nat) : (leBytes n v).length = n := by
  induction n generalizing v with
  | zero => rfl
  | succ n ih => simp [leBytes, ih]

theorem val_leBytes (n v : Nat) : ByteWord.val (leBytes n v) = v % 256 ^ n := by
  induction n generalizing v with
  | zero => simp [leBytes, Nat.mod_one]
  | succ n ih =>
    have hb : (UInt8.ofNat v).toNat = v % 256 := UInt8.toNat_ofNat ..
    rw [leBytes, ByteWord.val_cons, ih, hb, Nat.pow_succ, Nat.mul_comm _ 256, Nat.mod_mul]

-- The head of a frame a client sends: FIN with the binary opcode, then the mask bit with the
-- shortest encoding of the length.
def clientHead (len : Nat) : List UInt8 :=
  if len < 126 then [0x82, UInt8.ofNat (0x80 + len)]
  else if len < 2 ^ 16 then [0x82, 0xfe] ++ (leBytes 2 len).reverse
  else [0x82, 0xff] ++ (leBytes 8 len).reverse

-- Each payload byte meets the mask byte of its position modulo 4.
def maskPayload (mask payload : List UInt8) : List UInt8 :=
  payload.mapIdx fun i b => b ^^^ mask[i % 4]!

def clientFrame (mask payload : List UInt8) : List UInt8 :=
  clientHead payload.length ++ mask ++ maskPayload mask payload

theorem clientFrame_length (mask payload : List UInt8) (hmask : mask.length = 4) :
    (clientFrame mask payload).length = (clientHead payload.length).length + 4 + payload.length := by
  simp only [clientFrame, maskPayload, List.length_append, List.length_mapIdx, hmask]

-- The second byte of a short head: the mask bit and the length.
theorem shortLenByte {len : Nat} (h : len < 126) :
    UInt8.ofNat (0x80 + len) &&& 0x80 = 0x80 ∧ (UInt8.ofNat (0x80 + len) &&& 0x7f).toNat = len := by
  have key : ∀ n : Fin 126, UInt8.ofNat (0x80 + n.val) &&& 0x80 = 0x80 ∧
      (UInt8.ofNat (0x80 + n.val) &&& 0x7f).toNat = n.val := by decide +kernel
  exact key ⟨len, h⟩

-- The head of a client frame selects the body at the end of the head and the mask.
theorem vncws_decode_clientFrame_head (m : Mem) (mask payload : List UInt8)
    (hmask : mask.length = 4) (hlen : (clientFrame mask payload).length < 2 ^ 64) :
    vncws_decode_frame ⟨write m 0 (clientFrame mask payload), (clientFrame mask payload).length⟩ =
      decodeFrameBody ⟨write m 0 (clientFrame mask payload), (clientFrame mask payload).length⟩
        payload.length ((clientHead payload.length).length + 4)
        (view (write m 0 (clientFrame mask payload)) (clientHead payload.length).length) := by
  have hb := holds_write m 0 (clientFrame mask payload)
  have hflen := clientFrame_length mask payload hmask
  have hb0 : write m 0 (clientFrame mask payload) 0 = 0x82 := by
    rw [hb 0 (by omega)]
    unfold clientFrame clientHead
    split_ifs <;> rfl
  by_cases h1 : payload.length < 126
  · -- the length in the second byte
    have hhd : clientHead payload.length = [0x82, UInt8.ofNat (0x80 + payload.length)] := if_pos h1
    have hb1 : write m 0 (clientFrame mask payload) 1 = UInt8.ofNat (0x80 + payload.length) := by
      rw [hb 1 (by omega)]
      simp [clientFrame, hhd]
    obtain ⟨hm, hc⟩ := shortLenByte h1
    rw [vncws_decode_frame_masked ⟨write m 0 (clientFrame mask payload), _⟩
      (show 6 ≤ (clientFrame mask payload).length by simp [hflen, hhd])
      hb0 (show write m 0 (clientFrame mask payload) 1 &&& 0x80 = 0x80 by rw [hb1]; exact hm)]
    simp only [hb1, hc, if_pos h1, hhd]
    rfl
  by_cases h2 : payload.length < 2 ^ 16
  · -- the length in the 16 bits after it
    have hhd : clientHead payload.length = [0x82, 0xfe] ++ (leBytes 2 payload.length).reverse := by
      rw [clientHead, if_neg h1, if_pos h2]
    have hb1 : write m 0 (clientFrame mask payload) 1 = 0xfe := by
      rw [hb 1 (by omega)]
      simp [clientFrame, hhd]
    have hld : loadBE (write m 0 (clientFrame mask payload)) 2 2 = payload.length := by
      rw [loadBE, ← Nat.zero_add 2, hb.read_slice (by omega)]
      simp [clientFrame, hhd, val_leBytes]
      omega
    have hoff : (clientFrame mask payload).length = 8 + payload.length := by simp [hflen, hhd]
    rw [vncws_decode_frame_masked ⟨write m 0 (clientFrame mask payload), _⟩
      (show 6 ≤ (clientFrame mask payload).length by omega)
      hb0 (show write m 0 (clientFrame mask payload) 1 &&& 0x80 = 0x80 by rw [hb1]; rfl)]
    simp only [hb1, hld, hhd]
    rw [if_neg (show ¬((0xfe : UInt8) &&& 0x7f).toNat < 126 by decide),
      if_pos (show ((0xfe : UInt8) &&& 0x7f).toNat = 126 ∧ (clientFrame mask payload).length ≥ 8 from
        ⟨by decide, by omega⟩)]
    rfl
  · -- the length in the 64 bits after it
    have hhd : clientHead payload.length = [0x82, 0xff] ++ (leBytes 8 payload.length).reverse := by
      rw [clientHead, if_neg h1, if_neg h2]
    have hb1 : write m 0 (clientFrame mask payload) 1 = 0xff := by
      rw [hb 1 (by omega)]
      simp [clientFrame, hhd]
    have hld : loadBE (write m 0 (clientFrame mask payload)) 2 8 = payload.length := by
      rw [loadBE, ← Nat.zero_add 2, hb.read_slice (by omega)]
      simp [clientFrame, hhd, val_leBytes]
      omega
    have hoff : (clientFrame mask payload).length = 14 + payload.length := by simp [hflen, hhd]
    rw [vncws_decode_frame_masked ⟨write m 0 (clientFrame mask payload), _⟩
      (show 6 ≤ (clientFrame mask payload).length by omega)
      hb0 (show write m 0 (clientFrame mask payload) 1 &&& 0x80 = 0x80 by rw [hb1]; rfl)]
    simp only [hb1, hld, hhd]
    rw [if_neg (show ¬((0xff : UInt8) &&& 0x7f).toNat < 126 by decide),
      if_neg (show ¬(((0xff : UInt8) &&& 0x7f).toNat = 126 ∧ (clientFrame mask payload).length ≥ 8) from
        fun h => absurd h.1 (by decide)),
      if_pos (show ((0xff : UInt8) &&& 0x7f).toNat = 127 ∧ (clientFrame mask payload).length ≥ 14 from
        ⟨by decide, by omega⟩)]
    rfl

-- Unmasking the masked payload gives the payload back.
theorem read_unmasked_clientFrame (m : Mem) (mask payload : List UInt8) (hmask : mask.length = 4) :
    read (unmasked (write m 0 (clientFrame mask payload)) ((clientHead payload.length).length + 4)
        payload.length (view (write m 0 (clientFrame mask payload)) (clientHead payload.length).length))
      ((clientHead payload.length).length + 4) payload.length = payload := by
  have hb := holds_write m 0 (clientFrame mask payload)
  have hflen := clientFrame_length mask payload hmask
  apply List.ext_getElem (by simp)
  intro k hk _
  have hk' : k < payload.length := by simpa using hk
  have hm4 : k % 4 < 4 := Nat.mod_lt _ (by decide)
  rw [← getElem!_pos (read _ _ _) k hk, read_getElem _ _ _ _ hk']
  simp only [unmasked, view, Nat.add_sub_cancel_left,
    if_pos (show (clientHead payload.length).length + 4 ≤ (clientHead payload.length).length + 4 + k ∧
      (clientHead payload.length).length + 4 + k < (clientHead payload.length).length + 4 + payload.length by omega)]
  -- byte `k` of the payload as sent, then byte `k % 4` of the mask
  have hp : write m 0 (clientFrame mask payload) ((clientHead payload.length).length + 4 + k) =
      payload[k] ^^^ mask[k % 4]! := by
    rw [← Nat.zero_add ((clientHead payload.length).length + 4 + k), hb _ (by omega), clientFrame,
      get_append_right _ _ (by simp [hmask])]
    simp [maskPayload, hmask, List.getElem?_eq_getElem hk', List.getElem!_eq_getElem?_getD]
  have hmk : write m 0 (clientFrame mask payload) ((clientHead payload.length).length + k % 4) =
      mask[k % 4]! := by
    rw [← Nat.zero_add ((clientHead payload.length).length + k % 4), hb _ (by omega), clientFrame,
      List.append_assoc, get_append_right _ _ (by simp), Nat.add_sub_cancel_left,
      get_append_left _ _ (by omega)]
  rw [hp, hmk, UInt8.xor_assoc, UInt8.xor_self, UInt8.xor_zero]

-- A client's frame decodes to its payload, at the end of its head and mask, with the
-- frame's own length.
theorem vncws_decode_client_frame (m : Mem) (mask payload : List UInt8) (hmask : mask.length = 4)
    (hsmall : payload.length < 2 ^ 31) :
    (∀ i ≤ payload.length, CInt.Fits 32 i) ∧
    ∃ buf, vncws_decode_frame ⟨write m 0 (clientFrame mask payload), (clientFrame mask payload).length⟩ =
        .frame buf ((clientHead payload.length).length + 4) payload.length
          (clientFrame mask payload).length ∧
      read buf ((clientHead payload.length).length + 4) payload.length = payload := by
  -- every value the loops give `int i` is at most the payload's length
  have hidx : ∀ i ≤ payload.length, CInt.Fits 32 i := fun i hi =>
    (CInt.fits_natCast_iff i).mpr (by omega)
  have hlen : (clientFrame mask payload).length < 2 ^ 64 := by
    rw [clientFrame_length mask payload hmask]
    have : (clientHead payload.length).length ≤ 10 := by
      unfold clientHead
      split_ifs <;> simp [leBytes]
    omega
  refine ⟨hidx, ?_⟩
  have hflen := clientFrame_length mask payload hmask
  have hmod : ((clientHead payload.length).length + 4 + payload.length) % 2 ^ 64 =
      (clientFrame mask payload).length := by
    rw [← hflen]
    exact Nat.mod_eq_of_lt hlen
  rw [vncws_decode_clientFrame_head m mask payload hmask hlen, decodeFrameBody_eq, hmod,
    if_neg (Nat.lt_irrefl _)]
  exact ⟨_, rfl, read_unmasked_clientFrame m mask payload hmask⟩

theorem vncws_decode_client_frame_short :
    (∀ i ≤ [(5 : UInt8), 6].length, CInt.Fits 32 i) ∧
    ∃ buf, vncws_decode_frame ⟨write (fun _ => 0) 0 (clientFrame [1, 2, 3, 4] [5, 6]),
        (clientFrame [1, 2, 3, 4] [5, 6]).length⟩ =
        .frame buf ((clientHead [5, 6].length).length + 4) [5, 6].length
          (clientFrame [1, 2, 3, 4] [5, 6]).length ∧
      read buf ((clientHead [5, 6].length).length + 4) [5, 6].length = [5, 6] :=
  vncws_decode_client_frame (fun _ => 0) [1, 2, 3, 4] [5, 6] rfl (by decide)

end Qemu.Ui

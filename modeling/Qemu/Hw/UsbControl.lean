import Qemu.Hw.UsbCore

/-!
What the control pipe keeps over a whole run of packets: in the DATA and ACK states the
transfer's index and length lie in `data_buf`, and every `usb_packet_copy` into or out of
`data_buf` stays inside it. It is kept from every state by every packet and completion, as long
as the device answers with at most `sizeof(data_buf)` bytes and no SETUP packet is stalled for
its length: `do_token_setup` stores the guest's `wLength` before it compares it with
`data_buf`, and the stall leaves that length beside the state of the transfer before it.
-/

namespace Qemu.Usb

structure CtlInv (d : USBDevice) : Prop where
  data : d.setup_state = .DATA ∨ d.setup_state = .ACK →
    0 ≤ d.setup_index ∧ d.setup_index ≤ d.setup_len ∧ d.setup_len ≤ DATA_BUF_SIZE
  setup : d.setup_state = .SETUP → d.setup_index = 0 ∧ 0 ≤ d.setup_len
  param : d.setup_state = .PARAM → 0 ≤ d.setup_len

-- A transfer that starts at index 0 keeps the invariant when its length fits `data_buf` in
-- the DATA and ACK states.
theorem CtlInv.of_index_zero {d : USBDevice} (hidx : d.setup_index = 0) (hl0 : 0 ≤ d.setup_len)
    (hl : d.setup_state = .DATA ∨ d.setup_state = .ACK → d.setup_len ≤ DATA_BUF_SIZE) :
    CtlInv d :=
  ⟨fun h => ⟨hidx ▸ le_rfl, hidx ▸ hl0, hl h⟩, fun _ => ⟨hidx, hl0⟩, fun _ => hl0⟩

theorem CtlInv.idle (d : USBDevice) : CtlInv { d with setup_state := .IDLE } :=
  ⟨fun hs => by simp at hs, fun hs => by simp at hs, fun hs => by simp at hs⟩

theorem CtlInv.of_param {d : USBDevice} (hs : d.setup_state = .PARAM) (hl : 0 ≤ d.setup_len) :
    CtlInv d :=
  ⟨fun h => by rw [hs] at h; simp at h, fun h => by rw [hs] at h; simp at h, fun _ => hl⟩

-- `usb_generic_async_ctrl_complete` first ends the transfer when the status is not SUCCESS.
theorem CtlInv.of_status {d : USBDevice} (hI : CtlInv d) (st : UsbRet) :
    CtlInv { d with setup_state := if st ≠ .SUCCESS then .IDLE else d.setup_state } := by
  by_cases hst : st = .SUCCESS
  · simpa [hst] using hI
  · simpa [hst] using CtlInv.idle d

def InBuffer (touched : List (Int × Nat)) : Prop :=
  ∀ t ∈ touched, 0 ≤ t.1 ∧ t.1 + t.2 ≤ DATA_BUF_SIZE

theorem InBuffer.cons {t : List (Int × Nat)} {off : Int} {n : Nat} (hb : InBuffer t)
    (h0 : 0 ≤ off) (h : off + n ≤ DATA_BUF_SIZE) : InBuffer ((off, n) :: t) := by
  intro x hx
  rcases List.mem_cons.mp hx with rfl | hx
  · exact ⟨h0, h⟩
  · exact hb x hx

-- A copy at offset 0 of at most the whole buffer.
theorem copyData_zero_inBuffer {s s' : Pipe} {len : Int} (hb : InBuffer s.touched)
    (h0 : 0 ≤ len) (hlen : len ≤ DATA_BUF_SIZE) (h : copyData s 0 (sizeT len) = some s') :
    s'.dev = s.dev ∧ InBuffer s'.touched := by
  obtain ⟨hdev, ht⟩ := copyData_eq h
  have hsz : (sizeT len : Int) = len := sizeT_of_nonneg h0 (by unfold DATA_BUF_SIZE at hlen; omega)
  exact ⟨hdev, ht ▸ hb.cons le_rfl (by omega)⟩

-- A SETUP packet that `do_token_setup` stalls for its length after it has stored that length:
-- an OUT transfer longer than `data_buf`, or an IN one that the device fails.
def rejectsLength (iov : List UInt8) (r : Reply) : Prop :=
  iov.length = 8 ∧ DATA_BUF_SIZE < wLength iov ∧
    (dirIn iov = true → r.status ≠ .SUCCESS ∧ r.status ≠ .ASYNC)

instance (iov : List UInt8) (r : Reply) : Decidable (rejectsLength iov r) :=
  inferInstanceAs (Decidable (_ ∧ _ ∧ _))

theorem do_token_setup_inv {s s' : Pipe} {r : Reply} (hI : CtlInv s.dev)
    (hr : r.actual_length ≤ DATA_BUF_SIZE) (hrej : ¬ rejectsLength s.p.iov r)
    (h : do_token_setup s r = some s') : CtlInv s'.dev ∧ s'.touched = s.touched := by
  unfold do_token_setup at h
  by_cases h8 : s.p.iov.length = 8
  swap
  · rw [if_pos h8] at h
    cases h
    exact ⟨hI, rfl⟩
  rw [if_neg (not_not.mpr h8)] at h
  obtain ⟨p, -, h⟩ := Option.bind_eq_some_iff.mp h
  have hw := wLength_nonneg s.p.iov
  have hfit : r.status ≠ .SUCCESS ∧ r.status ≠ .ASYNC ∨ dirIn s.p.iov = false →
      (wLength s.p.iov : Int) ≤ DATA_BUF_SIZE := by
    intro hst
    by_contra hgt
    refine hrej ⟨h8, by omega, fun hin => ?_⟩
    simpa [hin] using hst
  by_cases hin : dirIn s.p.iov = true
  · by_cases hasync : r.status = .ASYNC
    · simp [hin, hasync] at h
      subst h
      exact ⟨CtlInv.of_index_zero rfl (by simp) (by simp), rfl⟩
    by_cases hsucc : r.status = .SUCCESS
    · -- the device answered at once: the length is cut to its answer
      simp [hin, hsucc] at h
      subst h
      refine ⟨CtlInv.of_index_zero rfl ?_ fun _ => ?_, rfl⟩
      · simp [clipSetupLen_len, hw]
      · simp only [Pipe.setP_dev, Pipe.setDev_dev, clipSetupLen_len]
        simp
        omega
    · simp [hin, hsucc, hasync] at h
      subst h
      exact ⟨CtlInv.of_index_zero rfl (by simp)
        fun _ => by simpa using hfit (.inl ⟨hsucc, hasync⟩), rfl⟩
  · have hin : dirIn s.p.iov = false := by simpa using hin
    have hsmall := hfit (.inr hin)
    have hsz : sizeT (wLength s.p.iov) = wLength s.p.iov :=
      sizeT_natCast (lt_trans (wLength_lt _) (by norm_num))
    simp [hin, hsz, not_lt.mpr (show wLength s.p.iov ≤ DATA_BUF_SIZE by exact_mod_cast hsmall)] at h
    subst h
    exact ⟨CtlInv.of_index_zero rfl (by simp) fun _ => by simpa using hsmall, rfl⟩

-- The length a DATA-phase packet moves: what is left of the transfer, cut to the packet.
theorem clip_bounds {len : Int} (m : Nat) (h0 : 0 ≤ len) (h : len ≤ DATA_BUF_SIZE) :
    let L := if sizeT len > m then int32 m else len
    0 ≤ L ∧ L ≤ len ∧ (sizeT L : Int) = L := by
  have hlen : (sizeT len : Int) = len := sizeT_of_nonneg h0 (by unfold DATA_BUF_SIZE at h; omega)
  intro L
  by_cases hc : sizeT len > m
  · have hm : int32 m = m := int32_of_lt (by unfold DATA_BUF_SIZE at h; omega)
    have hL : L = m := by simp only [L, if_pos hc, hm]
    rw [hL, sizeT_natCast (by unfold DATA_BUF_SIZE at h; omega)]
    omega
  · have hL : L = len := by simp only [L, if_neg hc]
    rw [hL, hlen]
    omega

theorem dataPhase_inv {s s' : Pipe} {dir : Bool} (hI : CtlInv s.dev)
    (hd : s.dev.setup_state = .DATA) (hb : InBuffer s.touched) (h : dataPhase s dir = some s') :
    CtlInv s'.dev ∧ InBuffer s'.touched := by
  obtain ⟨h0, hle, hbuf⟩ := hI.data (.inl hd)
  unfold dataPhase at h
  by_cases hdir : dirIn s.dev.setup_buf = dir
  · rw [if_pos hdir] at h
    dsimp only at h
    obtain ⟨hL0, hLle, hLsz⟩ := clip_bounds s.p.iov.length (sub_nonneg.mpr hle)
      (by omega : s.dev.setup_len - s.dev.setup_index ≤ DATA_BUF_SIZE)
    generalize hL : (if sizeT (s.dev.setup_len - s.dev.setup_index) > s.p.iov.length then
      int32 s.p.iov.length else s.dev.setup_len - s.dev.setup_index) = L at h hL0 hLle hLsz
    obtain ⟨s1, hc, h⟩ := Option.bind_eq_some_iff.mp h
    cases Option.some.inj h
    obtain ⟨hdev, htouched⟩ := copyData_eq hc
    refine ⟨⟨fun _ => ?_, fun hs => ?_, fun hs => ?_⟩, ?_⟩
    · simp [hdev]
      omega
    · simp only [Pipe.setDev_dev, hdev, hd] at hs
      split_ifs at hs
    · simp only [Pipe.setDev_dev, hdev, hd] at hs
      split_ifs at hs
    · simp only [Pipe.setDev_touched, htouched]
      exact hb.cons h0 (by omega)
  · rw [if_neg hdir] at h
    cases h
    exact ⟨CtlInv.idle _, hb⟩

theorem do_token_in_inv {s s' : Pipe} {r : Reply} (hI : CtlInv s.dev) (hb : InBuffer s.touched)
    (h : do_token_in s r = some s') : CtlInv s'.dev ∧ InBuffer s'.touched := by
  unfold do_token_in at h
  split at h
  · -- the status phase of an OUT transfer: the device acknowledges it
    by_cases hdir : dirIn s.dev.setup_buf = true
    · simp only [hdir, Bool.not_true] at h
      cases h
      exact ⟨hI, hb⟩
    by_cases hasync : r.status = .ASYNC
    · simp [hdir, hasync, handleControl] at h
      subst h
      exact ⟨hI, hb⟩
    · simp [hdir, hasync, handleControl] at h
      subst h
      exact ⟨CtlInv.idle _, hb⟩
  · rename_i hst
    exact dataPhase_inv hI hst hb h
  · cases h
    exact ⟨hI, hb⟩

theorem do_token_out_inv {s s' : Pipe} (hI : CtlInv s.dev) (hb : InBuffer s.touched)
    (h : do_token_out s = some s') : CtlInv s'.dev ∧ InBuffer s'.touched := by
  unfold do_token_out at h
  split at h
  · split_ifs at h
    · cases h
      exact ⟨CtlInv.idle _, hb⟩
    · cases h
      exact ⟨hI, hb⟩
  · rename_i hst
    exact dataPhase_inv hI hst hb h
  · cases h
    exact ⟨hI, hb⟩

-- What `do_parameter` and the completion of a parameter packet share: the length is cut to
-- what the device answered, and an IN transfer copies that much of `data_buf` to the packet.
theorem clip_copy_inv {s s' : Pipe} (hs : s.dev.setup_state = .PARAM) (hl0 : 0 ≤ s.dev.setup_len)
    (hl : min s.p.actual_length s.dev.setup_len ≤ DATA_BUF_SIZE) (ha : 0 ≤ s.p.actual_length)
    (hb : InBuffer s.touched)
    (h : (if (clipSetupLen s).p.pid = .IN then
      copyData ((clipSetupLen s).setP fun p => { p with actual_length := 0 }) 0
        (sizeT (clipSetupLen s).dev.setup_len)
      else pure (clipSetupLen s)) = some s') : CtlInv s'.dev ∧ InBuffer s'.touched := by
  have hlen0 : 0 ≤ (clipSetupLen s).dev.setup_len := by
    rw [clipSetupLen_len]
    exact le_min ha hl0
  have hlen : (clipSetupLen s).dev.setup_len ≤ DATA_BUF_SIZE := by
    rw [clipSetupLen_len]
    exact hl
  split at h
  · obtain ⟨hdev, hb'⟩ := copyData_zero_inBuffer (by simpa using hb) hlen0 hlen h
    exact ⟨CtlInv.of_param (by simp [hdev, hs]) (by simpa [hdev] using hlen0), hb'⟩
  · cases h
    exact ⟨CtlInv.of_param (by simp [hs]) hlen0, hb⟩

theorem do_parameter_inv {s s' : Pipe} {r : Reply} (hb : InBuffer s.touched)
    (h : do_parameter s r = some s') : CtlInv s'.dev ∧ InBuffer s'.touched := by
  unfold do_parameter at h
  dsimp only at h
  have hW0 := wLength_nonneg (parameterBytes s.p.parameter)
  split at h
  · cases h
    exact ⟨CtlInv.of_param rfl hW0, hb⟩
  rename_i hsmall
  simp only [Pipe.setDev_dev, not_lt] at hsmall
  have hWle : (wLength (parameterBytes s.p.parameter) : Int) ≤ DATA_BUF_SIZE := by
    have := wLength_lt (parameterBytes s.p.parameter)
    rw [sizeT_natCast (by omega)] at hsmall
    exact_mod_cast hsmall
  -- the do block puts what follows the OUT copy in both branches of its `if`
  have htail : ∀ s1 : Pipe, s1.dev.setup_state = .PARAM →
      s1.dev.setup_len = wLength (parameterBytes s.p.parameter) → InBuffer s1.touched →
      (if (handleControl s1 r).p.status = .ASYNC then pure (handleControl s1 r)
        else if (clipSetupLen (handleControl s1 r)).p.pid = .IN then
          copyData ((clipSetupLen (handleControl s1 r)).setP fun p => { p with actual_length := 0 })
            0 (sizeT (clipSetupLen (handleControl s1 r)).dev.setup_len)
        else pure (clipSetupLen (handleControl s1 r))) = some s' →
      CtlInv s'.dev ∧ InBuffer s'.touched := by
    intro s1 hs1 hl1 hb1 h
    split at h
    · cases h
      exact ⟨CtlInv.of_param hs1 (hl1 ▸ hW0), hb1⟩
    · exact clip_copy_inv (s := handleControl s1 r) hs1 (hl1 ▸ hW0)
        (le_trans (min_le_right _ _) (hl1 ▸ hWle)) (by simp) hb1 h
  split at h
  · obtain ⟨s1, hs1, h⟩ := Option.bind_eq_some_iff.mp h
    obtain ⟨hdev, hb1⟩ := copyData_zero_inBuffer (by simpa using hb) hW0 hWle hs1
    exact htail s1 (by simp [hdev]) (by simp [hdev]) hb1 h
  · exact htail (s.setDev fun _ => ⟨parameterBytes s.p.parameter, .PARAM,
      wLength (parameterBytes s.p.parameter), 0⟩) rfl rfl hb h

theorem usb_generic_async_ctrl_complete_inv {s s' : Pipe} (hI : CtlInv s.dev)
    (hb : InBuffer s.touched) (ha0 : 0 ≤ s.p.actual_length) (ha : s.p.actual_length ≤ DATA_BUF_SIZE)
    (h : usb_generic_async_ctrl_complete s = some s') : CtlInv s'.dev ∧ InBuffer s'.touched := by
  unfold usb_generic_async_ctrl_complete at h
  dsimp only at h
  have h0 := hI.of_status s.p.status
  split at h
  · -- the device has answered the SETUP of an IN transfer: the DATA phase starts
    rename_i hs
    cases h
    obtain ⟨hidx, hlen0⟩ := h0.setup hs
    refine ⟨CtlInv.of_index_zero (by simpa using hidx) ?_ fun _ => ?_, hb⟩
    · simpa [clipSetupLen_len] using le_min ha0 hlen0
    · simpa [clipSetupLen_len] using min_le_left _ _ |>.trans ha
  · cases h
    exact ⟨CtlInv.idle _, hb⟩
  · rename_i hs
    exact clip_copy_inv (s := s.setDev _) hs (h0.param hs) (min_le_left _ _ |>.trans ha) ha0 hb h
  · cases h
    exact ⟨h0, hb⟩

-- The device answers with at most `sizeof(data_buf)` bytes, and no SETUP is stalled for its
-- length.
def Event.Admissible : Event → Prop
  | .packet pid iov parameter r =>
    r.actual_length ≤ DATA_BUF_SIZE ∧ (parameter = 0 → pid = .SETUP → ¬ rejectsLength iov r)
  | .complete _ _ _ _ actual => actual ≤ DATA_BUF_SIZE

instance : (e : Event) → Decidable e.Admissible
  | .packet .. => inferInstanceAs (Decidable (_ ∧ _))
  | .complete .. => inferInstanceAs (Decidable (_ ≤ _))

theorem step_inv {dev : USBDevice} {touched : List (Int × Nat)} {e : Event} {s' : Pipe}
    (hI : CtlInv dev) (hb : InBuffer touched) (he : e.Admissible)
    (h : step dev touched e = some s') : CtlInv s'.dev ∧ InBuffer s'.touched := by
  cases e with
  | packet pid iov parameter r =>
    obtain ⟨hr, hrej⟩ := he
    unfold step usb_process_one at h
    dsimp only at h
    split at h
    · exact do_parameter_inv hb h
    rename_i hp
    simp only [Pipe.setP_p, ne_eq, not_not] at hp
    cases pid with
    | SETUP =>
      obtain ⟨hI', ht⟩ := do_token_setup_inv hI hr (hrej hp rfl) h
      exact ⟨hI', ht ▸ hb⟩
    | IN => exact do_token_in_inv hI hb h
    | OUT => exact do_token_out_inv hI hb h
  | complete pid iov parameter status actual =>
    have ha : actual ≤ DATA_BUF_SIZE := he
    exact usb_generic_async_ctrl_complete_inv hI hb (by simp)
      (show (actual : Int) ≤ DATA_BUF_SIZE by exact_mod_cast ha) h

-- Induction on the events, from any device that satisfies the invariant.
theorem run_inv {es : List Event} {dev d' : USBDevice} {touched t' : List (Int × Nat)}
    (hI : CtlInv dev) (hb : InBuffer touched) (hes : ∀ e ∈ es, e.Admissible)
    (h : run dev touched es = some (d', t')) : CtlInv d' ∧ InBuffer t' := by
  induction es generalizing dev touched with
  | nil =>
    cases h
    exact ⟨hI, hb⟩
  | cons e es ih =>
    rw [run] at h
    obtain ⟨s, hs, h⟩ := Option.bind_eq_some_iff.mp h
    obtain ⟨hI', hb'⟩ := step_inv hI hb (hes e (.head _)) hs
    exact ih hI' hb' (fun e' he' => hes e' (.tail _ he')) h

-- A SETUP packet of an OUT request for `len` bytes, which the device does not see.
def setupOut (len : Nat) : Event :=
  .packet .SETUP [0x00, 0x09, 0x01, 0x00, 0x00, 0x00, UInt8.ofNat len, UInt8.ofNat (len >>> 8)] 0
    ⟨.SUCCESS, 0⟩

-- After a SETUP for 8 bytes, a SETUP for 4097 bytes is stalled but leaves its length in the
-- DATA state of the first; an OUT packet of 4097 bytes is then copied to all of
-- `data_buf[0, 4097)`. A parameter packet for one OUT byte with an empty buffer fails the
-- assertion of `usb_packet_copy`.
theorem stalled_setup_overflow :
    run USBDevice.init [] [setupOut 8, setupOut 4097] =
      some (⟨[0x00, 0x09, 0x01, 0x00, 0x00, 0x00, 0x01, 0x10], .DATA, 4097, 0⟩, []) ∧
    run USBDevice.init [] [setupOut 8, setupOut 4097, .packet .OUT (List.replicate 4097 0) 0 ⟨.SUCCESS, 0⟩] =
      some (⟨[0x00, 0x09, 0x01, 0x00, 0x00, 0x00, 0x01, 0x10], .ACK, 4097, 4097⟩, [(0, 4097)]) ∧
    run USBDevice.init [] [.packet .OUT [] (1 <<< 48) ⟨.SUCCESS, 0⟩] = none :=
  ⟨by decide, by decide +kernel, by decide⟩

end Qemu.Usb

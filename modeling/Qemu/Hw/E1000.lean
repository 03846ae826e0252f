import Mathlib.Data.List.Basic
import Mathlib.Logic.Function.Iterate

/-!
The transmit path of the e1000 network card (`hw/e1000.c`): `start_xmit` walks the descriptor
ring from `TDH` to `TDT`, and `process_tx_desc` takes each descriptor in, a context descriptor
setting up TCP segmentation, a data or legacy descriptor adding its bytes to the frame, cut into
segments of `hdr_len + mss` bytes when segmentation is on. The model keeps what decides sizes and
segments: the bytes of the frame, its checksums and the VLAN tag's contents are left out, and
`xmit_seg` records the length of each frame it sends. Guest memory holds a descriptor at each
address. Both loops run on fuel; `none` is fuel run out.
-/

namespace Qemu.Hw.E1000

def E1000_TXD_DTYP_D : UInt32 := 0x00100000
def E1000_TXD_CMD_EOP : UInt32 := 0x01000000
def E1000_TXD_CMD_RS : UInt32 := 0x08000000
def E1000_TXD_CMD_RPS : UInt32 := 0x10000000
def E1000_TXD_CMD_DEXT : UInt32 := 0x20000000
def E1000_TXD_CMD_VLE : UInt32 := 0x40000000
def E1000_TXD_CMD_TCP : UInt32 := 0x01000000
def E1000_TXD_CMD_IP : UInt32 := 0x02000000
def E1000_TXD_CMD_TSE : UInt32 := 0x04000000
def E1000_TXD_STAT_DD : UInt32 := 0x00000001
def E1000_TXD_STAT_EC : UInt32 := 0x00000002
def E1000_TXD_STAT_LC : UInt32 := 0x00000004
def E1000_TXD_STAT_TU : UInt32 := 0x00000008
def E1000_ICR_TXDW : UInt32 := 0x00000001
def E1000_ICS_TXQE : UInt32 := 0x00000002
def E1000_TCTL_EN : UInt32 := 0x00000002

-- `sizeof(tp->data)`
def TX_DATA_SIZE : UInt32 := 0x10000

-- `struct e1000_tx_desc`; a context descriptor is the same 16 bytes, its `cmd_and_length` in
-- `lower` and its `tcp_seg_setup` in `upper`.
structure E1000TxDesc where
  buffer_addr : UInt64
  lower : UInt32
  upper : UInt32
deriving DecidableEq, Repr

-- The fields of `struct e1000_tx` that sizes and segments depend on, and `sent`, the lengths of
-- the frames `xmit_seg` has sent, oldest first.
structure E1000Tx where
  size : UInt16
  sum_needed : UInt8
  vlan_needed : Bool
  hdr_len : UInt8
  mss : UInt16
  paylen : UInt32
  tso_frames : UInt16
  tse : Bool
  ip : Bool
  tcp : Bool
  cptse : Bool
  sent : List Nat
deriving DecidableEq, Repr

-- `static void xmit_seg(E1000State *s)`: the frame goes out with 4 more bytes when tagged.
def xmit_seg (tp : E1000Tx) : E1000Tx :=
  let tp := if tp.tse && tp.cptse then { tp with tso_frames := tp.tso_frames + 1 } else tp
  { tp with sent := tp.sent ++ [if tp.vlan_needed then tp.size.toNat + 4 else tp.size.toNat] }

/-! ### Segmentation -/

-- One pass of the `do { ... } while (split_size -= bytes)` loop of `process_tx_desc`, with
-- `split_size` the bytes of the descriptor left.
def tsoPass (hdr msh : UInt32) (st : E1000Tx × UInt32) : E1000Tx × UInt32 :=
  let tp := st.1
  let split_size := st.2
  let bytes := if tp.size.toUInt32 + split_size > msh then msh - tp.size.toUInt32 else split_size
  let bytes := min (TX_DATA_SIZE - tp.size.toUInt32) bytes
  let sz := tp.size.toUInt32 + bytes
  -- `tp->size = sz` keeps the low 16 bits
  let tp := { tp with size := sz.toUInt16 }
  let tp := if sz = msh then { xmit_seg tp with size := hdr.toUInt16 } else tp
  (tp, split_size - bytes)

def tsoLoop (hdr msh : UInt32) : Nat → E1000Tx × UInt32 → Option E1000Tx
  | 0, _ => none
  | fuel + 1, st =>
      let st := tsoPass hdr msh st
      if st.2 = 0 then some st.1 else tsoLoop hdr msh fuel st

-- `static void process_tx_desc(E1000State *s, struct e1000_tx_desc *dp)`; `vlan_enabled` is
-- `CTRL & E1000_CTRL_VME`.
def process_tx_desc (vlan_enabled : Bool) (fuel : Nat) (tp : E1000Tx) (dp : E1000TxDesc) :
    Option E1000Tx :=
  let txd_lower := dp.lower
  let dtype := txd_lower &&& (E1000_TXD_CMD_DEXT ||| E1000_TXD_DTYP_D)
  let split_size : UInt32 := txd_lower &&& 0xffff
  if dtype = E1000_TXD_CMD_DEXT then
    -- context descriptor
    let op := dp.lower
    some { tp with paylen := op &&& 0xfffff, hdr_len := (dp.upper >>> 8).toUInt8,
                   mss := (dp.upper >>> 16).toUInt16, ip := op &&& E1000_TXD_CMD_IP ≠ 0,
                   tcp := op &&& E1000_TXD_CMD_TCP ≠ 0, tse := op &&& E1000_TXD_CMD_TSE ≠ 0,
                   tso_frames := 0 }
  else
    let tp :=
      if dtype = E1000_TXD_CMD_DEXT ||| E1000_TXD_DTYP_D then
        -- data descriptor
        let tp := if tp.size = 0 then { tp with sum_needed := (dp.upper >>> 8).toUInt8 } else tp
        { tp with cptse := txd_lower &&& E1000_TXD_CMD_TSE ≠ 0 }
      -- legacy descriptor
      else { tp with cptse := false }
    let tp :=
      if vlan_enabled ∧ txd_lower &&& E1000_TXD_CMD_VLE ≠ 0 ∧
          (tp.cptse ∨ txd_lower &&& E1000_TXD_CMD_EOP ≠ 0) then { tp with vlan_needed := true }
      else tp
    -- the frame so far and `hdr`
    let body : Option (E1000Tx × UInt32) :=
      if tp.tse && tp.cptse then
        let hdr := tp.hdr_len.toUInt32
        (tsoLoop hdr (hdr + tp.mss.toUInt32) fuel (tp, split_size)).map (·, hdr)
      -- context descriptor TSE is not set, while data descriptor TSE is set
      else if !tp.tse && tp.cptse then some (tp, 0)
      else
        let split_size := min (TX_DATA_SIZE - tp.size.toUInt32) split_size
        some ({ tp with size := tp.size + split_size.toUInt16 }, 0)
    body.map fun r =>
      let tp := r.1
      if txd_lower &&& E1000_TXD_CMD_EOP = 0 then tp
      else
        let tp := if !(tp.tse && tp.cptse && tp.size.toUInt32 < r.2) then xmit_seg tp else tp
        { tp with tso_frames := 0, sum_needed := 0, vlan_needed := false, size := 0,
                  cptse := false }

-- `static uint32_t txdesc_writeback(E1000State *s, dma_addr_t base, struct e1000_tx_desc *dp)`:
-- the descriptor written back, if any, and the interrupt cause.
def txdesc_writeback (dp : E1000TxDesc) : Option E1000TxDesc × UInt32 :=
  if dp.lower &&& (E1000_TXD_CMD_RS ||| E1000_TXD_CMD_RPS) = 0 then (none, 0)
  else
    (some { dp with upper := (dp.upper ||| E1000_TXD_STAT_DD) &&&
              ~~~(E1000_TXD_STAT_EC ||| E1000_TXD_STAT_LC ||| E1000_TXD_STAT_TU) },
      E1000_ICR_TXDW)

/-! ### The descriptor ring -/

-- The registers `start_xmit` reads; `vlan_enabled` is `CTRL & E1000_CTRL_VME`.
structure E1000Regs where
  TCTL : UInt32
  TDBAL : UInt32
  TDBAH : UInt32
  TDLEN : UInt32
  TDH : UInt32
  TDT : UInt32
  vlan_enabled : Bool
deriving DecidableEq, Repr

structure E1000State where
  regs : E1000Regs
  tx : E1000Tx
  -- the descriptor at each guest-physical address
  mem : UInt64 → E1000TxDesc

def tx_desc_base (r : E1000Regs) : UInt64 :=
  (r.TDBAH.toUInt64 <<< 32) + (r.TDBAL &&& ~~~0xf).toUInt64

-- The loop of `start_xmit` from `TDH` on, with the cause so far.
def startXmitLoop (tdh_start : UInt32) : Nat → E1000State → UInt32 → Option (E1000State × UInt32)
  | 0, _, _ => none
  | fuel + 1, s, cause =>
      if s.regs.TDH = s.regs.TDT then some (s, cause)
      else
        let base := tx_desc_base s.regs + 16 * s.regs.TDH.toUInt64
        let desc := s.mem base
        match process_tx_desc s.regs.vlan_enabled fuel s.tx desc with
        | none => none
        | some tx =>
            let wb := txdesc_writeback desc
            let mem := match wb.1 with
              | some d => fun a => if a = base then d else s.mem a
              | none => s.mem
            let tdh := s.regs.TDH + 1
            -- `++s->mac_reg[TDH] * sizeof(desc) >= s->mac_reg[TDLEN]`, in 64 bits
            let tdh := if tdh.toNat * 16 ≥ s.regs.TDLEN.toNat then 0 else tdh
            let s := { s with regs := { s.regs with TDH := tdh }, tx := tx, mem := mem }
            -- TDH wraparound
            if tdh = tdh_start then some (s, cause ||| wb.2)
            else startXmitLoop tdh_start fuel s (cause ||| wb.2)

-- `static void start_xmit(E1000State *s)`: the state after it and the cause it gives `set_ics`,
-- `none` when transmission is disabled and it returns before.
def start_xmit (fuel : Nat) (s : E1000State) : Option (E1000State × Option UInt32) :=
  if s.regs.TCTL &&& E1000_TCTL_EN = 0 then some (s, none)
  else (startXmitLoop s.regs.TDH fuel s E1000_ICS_TXQE).map fun r => (r.1, some r.2)

/-! ### A segment of no bytes -/

-- With `hdr_len` and `mss` zero and nothing buffered, a pass moves no byte: it sends an empty
-- segment and leaves the frame empty and the descriptor's bytes as they were.
theorem tsoPass_zero_msh (tp : E1000Tx) (hsize : tp.size = 0) (split_size : UInt32) :
    tsoPass 0 0 (tp, split_size) = ({ xmit_seg tp with size := 0 }, split_size) := by
  -- the segment is full before a byte is taken
  have hbytes : min (TX_DATA_SIZE - tp.size.toUInt32)
      (if tp.size.toUInt32 + split_size > 0 then 0 - tp.size.toUInt32 else split_size) = 0 := by
    rw [hsize]
    split
    · decide
    · simp_all [UInt32.min_def]
  have hself : { tp with size := 0 } = tp := by
    cases tp
    simp_all
  unfold tsoPass
  dsimp only
  rw [hbytes]
  simp [hsize, hself]

-- Every pass sends one more segment and the loop goes on.
theorem tsoPass_zero_msh_iterate (tp : E1000Tx) (hsize : tp.size = 0) (split_size : UInt32)
    (n : Nat) :
    ((tsoPass 0 0)^[n] (tp, split_size)).2 = split_size ∧
      ((tsoPass 0 0)^[n] (tp, split_size)).1.size = 0 ∧
      ((tsoPass 0 0)^[n] (tp, split_size)).1.sent.length = tp.sent.length + n := by
  induction n generalizing tp with
  | zero => exact ⟨rfl, hsize, rfl⟩
  | succ n ih =>
      rw [Function.iterate_succ_apply, tsoPass_zero_msh tp hsize]
      obtain ⟨h1, h2, h3⟩ := ih { xmit_seg tp with size := 0 } rfl
      refine ⟨h1, h2, ?_⟩
      rw [h3]
      simp only [xmit_seg]
      split <;> simp <;> omega

-- So a descriptor with bytes left never leaves the loop, whatever the fuel.
theorem tsoLoop_zero_msh (fuel : Nat) (tp : E1000Tx) (hsize : tp.size = 0) (split_size : UInt32)
    (hsplit : split_size ≠ 0) : tsoLoop 0 0 fuel (tp, split_size) = none := by
  induction fuel generalizing tp with
  | zero => rfl
  | succ fuel ih =>
      rw [tsoLoop, tsoPass_zero_msh tp hsize, if_neg hsplit]
      exact ih _ rfl

/-! ### A ring head beyond the ring -/

-- The registers of a ring of no descriptor (`TDLEN` 0, which `set_dlen` stores for a write of 0)
-- with its tail at 7, transmission on.
def ringRegs (tdh : UInt32) : E1000Regs := ⟨E1000_TCTL_EN, 0, 0, 0, tdh, 7, false⟩

-- Guest memory of zero descriptors.
def zeroDescs : UInt64 → E1000TxDesc := fun _ => ⟨0, 0, 0⟩

-- A zero descriptor is a legacy descriptor of no bytes, not the end of a packet.
theorem process_tx_desc_zero (vlan_enabled : Bool) (fuel : Nat) (tx : E1000Tx) :
    process_tx_desc vlan_enabled fuel tx ⟨0, 0, 0⟩ = some { tx with cptse := false } := by
  simp +decide [process_tx_desc, UInt32.min_def]
  split <;> simp_all

-- From the head at 0 each descriptor sends the head back to 0, which is never the start 5.
theorem startXmitLoop_beyond (fuel : Nat) (tx : E1000Tx) (cause : UInt32) :
    startXmitLoop 5 fuel ⟨ringRegs 0, tx, zeroDescs⟩ cause = none := by
  induction fuel generalizing tx cause with
  | zero => rfl
  | succ fuel ih =>
      rw [startXmitLoop]
      simp only [ringRegs, zeroDescs, process_tx_desc_zero]
      exact ih _ _

-- A context descriptor turning segmentation on with `hdr_len` and `mss` zero.
def zeroMssContext : E1000TxDesc := ⟨0, E1000_TXD_CMD_DEXT ||| E1000_TXD_CMD_TSE, 0⟩

-- A data descriptor of one byte with TSE set.
def oneByteTsoData : E1000TxDesc :=
  ⟨0x1000, E1000_TXD_CMD_DEXT ||| E1000_TXD_DTYP_D ||| E1000_TXD_CMD_TSE ||| 1, 0⟩

def idleTx : E1000Tx := ⟨0, 0, false, 0, 0, 0, 0, false, false, false, false, []⟩

-- A data descriptor after a context descriptor with a zero segment size runs out of every fuel,
-- and so does `start_xmit` on a ring of no descriptor whose head is 5.
theorem e1000_tx_unbounded :
    (∀ fuel, (process_tx_desc false fuel idleTx zeroMssContext).bind
        (fun tp => process_tx_desc false fuel tp oneByteTsoData) = none) ∧
      (∀ fuel, start_xmit fuel ⟨ringRegs 5, idleTx, zeroDescs⟩ = none) := by
  refine ⟨fun fuel => ?_, fun fuel => ?_⟩
  · -- the context descriptor turns segmentation on with a segment of `0 + 0` bytes
    have hctx : process_tx_desc false fuel idleTx zeroMssContext =
        some { idleTx with tse := true } := by
      simp +decide [process_tx_desc, zeroMssContext, idleTx]
    -- and the data descriptor's byte goes into the segmentation loop
    rw [hctx, Option.bind_some]
    simp +decide [process_tx_desc, oneByteTsoData, idleTx, tsoLoop_zero_msh]
  · -- the first descriptor, at 5, sends the head to 0
    cases fuel with
    | zero => rfl
    | succ fuel =>
        have hwb : txdesc_writeback ⟨0, 0, 0⟩ = (none, 0) := by decide
        have hloop := startXmitLoop_beyond fuel { idleTx with cptse := false } E1000_ICS_TXQE
        simp only [ringRegs] at hloop
        simp +decide only [start_xmit, startXmitLoop, ringRegs, zeroDescs, process_tx_desc_zero,
          hwb]
        simp [hloop]

end Qemu.Hw.E1000

import Mathlib.Data.List.Basic

/-!
Receive filtering of the virtio network device (`hw/virtio-net.c`): the commands of the control
queue that set the receive mode, the MAC table and the VLAN table, and `receive_filter`, which
decides from them whether a frame is taken. A command's header and payload are the bytes of its
out buffers, one after another (`iov_to_buf` and `iov_discard_front` see nothing else of the
iovec); the target is little-endian, so `ldl_p` and `lduw_p` read little-endian words. The
multiqueue command changes nothing the filter reads; its answer is a parameter.
-/

namespace Qemu.Hw.VirtioNet

def ETH_ALEN : Nat := 6
def MAC_TABLE_ENTRIES : Nat := 64
-- Per 802.1Q definition
def MAX_VLAN : Nat := 1 <<< 12

def VIRTIO_NET_OK : UInt8 := 0
def VIRTIO_NET_ERR : UInt8 := 1

def VIRTIO_NET_CTRL_RX : UInt8 := 0
def VIRTIO_NET_CTRL_RX_PROMISC : UInt8 := 0
def VIRTIO_NET_CTRL_RX_ALLMULTI : UInt8 := 1
def VIRTIO_NET_CTRL_RX_ALLUNI : UInt8 := 2
def VIRTIO_NET_CTRL_RX_NOMULTI : UInt8 := 3
def VIRTIO_NET_CTRL_RX_NOUNI : UInt8 := 4
def VIRTIO_NET_CTRL_RX_NOBCAST : UInt8 := 5

def VIRTIO_NET_CTRL_MAC : UInt8 := 1
def VIRTIO_NET_CTRL_MAC_TABLE_SET : UInt8 := 0
def VIRTIO_NET_CTRL_MAC_ADDR_SET : UInt8 := 1

def VIRTIO_NET_CTRL_VLAN : UInt8 := 2
def VIRTIO_NET_CTRL_VLAN_ADD : UInt8 := 0
def VIRTIO_NET_CTRL_VLAN_DEL : UInt8 := 1

def VIRTIO_NET_CTRL_MQ : UInt8 := 4

structure MacTable where
  in_use : Int32
  first_multi : Int32
  multi_overflow : UInt8
  uni_overflow : UInt8
  -- the `MAC_TABLE_ENTRIES * ETH_ALEN` bytes of `macs`
  macs : List UInt8
deriving DecidableEq, Repr

-- The fields of `VirtIONet` the control commands and the filter use.
structure VirtIONet where
  mac : List UInt8
  host_hdr_len : Nat
  promisc : UInt8
  allmulti : UInt8
  alluni : UInt8
  nomulti : UInt8
  nouni : UInt8
  nobcast : UInt8
  mac_table : MacTable
  -- the `MAX_VLAN >> 5` words of `vlans`
  vlans : List UInt32
deriving DecidableEq, Repr

-- `ldl_p` of the first four bytes.
def ldl_p (bytes : List UInt8) : UInt32 :=
  (bytes.take 4).foldr (fun b acc => b.toUInt32 + (acc <<< 8)) 0

-- `lduw_p` of the first two bytes.
def lduw_p (bytes : List UInt8) : UInt16 :=
  (bytes.getD 0 0).toUInt16 + ((bytes.getD 1 0).toUInt16 <<< 8)

-- `iov_to_buf(iov, iov_cnt, 0, buf, size)` into the front of `buf`: `buf` after the copy of what
-- there is of the first `size` bytes.
def copyFront (buf iov : List UInt8) (size : Nat) : List UInt8 :=
  iov.take size ++ buf.drop (iov.take size).length

/-! ### Control commands -/

-- `static int virtio_net_handle_rx_mode(VirtIONet *n, uint8_t cmd, struct iovec *iov,
-- unsigned int iov_cnt)`.
def virtio_net_handle_rx_mode (n : VirtIONet) (cmd : UInt8) (iov : List UInt8) :
    VirtIONet × UInt8 :=
  match iov with
  | [] => (n, VIRTIO_NET_ERR)
  | on :: _ =>
      if cmd = VIRTIO_NET_CTRL_RX_PROMISC then ({ n with promisc := on }, VIRTIO_NET_OK)
      else if cmd = VIRTIO_NET_CTRL_RX_ALLMULTI then ({ n with allmulti := on }, VIRTIO_NET_OK)
      else if cmd = VIRTIO_NET_CTRL_RX_ALLUNI then ({ n with alluni := on }, VIRTIO_NET_OK)
      else if cmd = VIRTIO_NET_CTRL_RX_NOMULTI then ({ n with nomulti := on }, VIRTIO_NET_OK)
      else if cmd = VIRTIO_NET_CTRL_RX_NOUNI then ({ n with nouni := on }, VIRTIO_NET_OK)
      else if cmd = VIRTIO_NET_CTRL_RX_NOBCAST then ({ n with nobcast := on }, VIRTIO_NET_OK)
      else (n, VIRTIO_NET_ERR)

-- The multicast half of `virtio_net_handle_mac` with the table after the unicast half, from the
-- second `entries` on.
def handleMacMulti (t : MacTable) (iov : List UInt8) : MacTable × UInt8 :=
  if iov.length < 4 then (t, VIRTIO_NET_ERR)
  else
    let entries := ldl_p iov
    let iov := iov.drop 4
    -- `mac_data.entries * ETH_ALEN` in 32 bits
    let size := (entries * 6).toNat
    if size ≠ iov.length then (t, VIRTIO_NET_ERR)
    else if t.in_use.toUInt32 + entries ≤ 64 then
      -- copied to the start of `macs`
      let s := (iov.take size).length
      if s ≠ size then (t, VIRTIO_NET_ERR)
      else
        ({ t with macs := copyFront t.macs iov size, in_use := t.in_use + entries.toInt32 },
          VIRTIO_NET_OK)
    else ({ t with multi_overflow := 1 }, VIRTIO_NET_OK)

-- The table half of `virtio_net_handle_mac`: the cleared table, then the unicast entries.
def handleMacTable (iov : List UInt8) : MacTable × UInt8 :=
  let t : MacTable := ⟨0, 0, 0, 0, List.replicate (MAC_TABLE_ENTRIES * ETH_ALEN) 0⟩
  if iov.length < 4 then (t, VIRTIO_NET_ERR)
  else
    let entries := ldl_p iov
    let iov := iov.drop 4
    let size := (entries * 6).toNat
    if size > iov.length then (t, VIRTIO_NET_ERR)
    else
      let unicast : Option MacTable :=
        if entries.toNat ≤ MAC_TABLE_ENTRIES then
          if (iov.take size).length ≠ size then none
          else some { t with macs := copyFront t.macs iov size, in_use := t.in_use + entries.toInt32 }
        else some { t with uni_overflow := 1 }
      match unicast with
      | none => (t, VIRTIO_NET_ERR)
      | some t => handleMacMulti { t with first_multi := t.in_use } (iov.drop size)

-- `static int virtio_net_handle_mac(VirtIONet *n, uint8_t cmd, struct iovec *iov,
-- unsigned int iov_cnt)`.
def virtio_net_handle_mac (n : VirtIONet) (cmd : UInt8) (iov : List UInt8) : VirtIONet × UInt8 :=
  if cmd = VIRTIO_NET_CTRL_MAC_ADDR_SET then
    if iov.length ≠ ETH_ALEN then (n, VIRTIO_NET_ERR)
    else ({ n with mac := iov }, VIRTIO_NET_OK)
  else if cmd ≠ VIRTIO_NET_CTRL_MAC_TABLE_SET then (n, VIRTIO_NET_ERR)
  else
    let r := handleMacTable iov
    ({ n with mac_table := r.1 }, r.2)

-- Whether `vid` is set in the VLAN table.
def vlanSet (vlans : List UInt32) (vid : Nat) : Bool :=
  (vlans.getD (vid >>> 5) 0) &&& ((1 : UInt32) <<< (UInt32.ofNat (vid &&& 0x1f))) ≠ 0

-- `static int virtio_net_handle_vlan_table(VirtIONet *n, uint8_t cmd, struct iovec *iov,
-- unsigned int iov_cnt)`.
def virtio_net_handle_vlan_table (n : VirtIONet) (cmd : UInt8) (iov : List UInt8) :
    VirtIONet × UInt8 :=
  if iov.length < 2 then (n, VIRTIO_NET_ERR)
  else
    let vid := (lduw_p iov).toNat
    if vid ≥ MAX_VLAN then (n, VIRTIO_NET_ERR)
    else
      let bit : UInt32 := (1 : UInt32) <<< (UInt32.ofNat (vid &&& 0x1f))
      if cmd = VIRTIO_NET_CTRL_VLAN_ADD then
        ({ n with vlans := n.vlans.modify (vid >>> 5) (· ||| bit) }, VIRTIO_NET_OK)
      else if cmd = VIRTIO_NET_CTRL_VLAN_DEL then
        ({ n with vlans := n.vlans.modify (vid >>> 5) (· &&& ~~~bit) }, VIRTIO_NET_OK)
      else (n, VIRTIO_NET_ERR)

-- One element of `virtio_net_handle_ctrl`'s loop, from the status the element before it left:
-- the device after it and the status written back, `none` where QEMU exits for want of headers.
-- `out` is the bytes of the out buffers. The status is declared before the loop, so a class no
-- branch handles writes back the status as the element before it left it.
def ctrlElem (handle_mq : UInt8 → UInt8) (n : VirtIONet) (status : UInt8) (in_size : Nat)
    (out : List UInt8) : Option (VirtIONet × UInt8) :=
  if in_size < 1 ∨ out.length < 2 then none
  else
    match out with
    | class_ :: cmd :: iov =>
        if class_ = VIRTIO_NET_CTRL_RX then some (virtio_net_handle_rx_mode n cmd iov)
        else if class_ = VIRTIO_NET_CTRL_MAC then some (virtio_net_handle_mac n cmd iov)
        else if class_ = VIRTIO_NET_CTRL_VLAN then some (virtio_net_handle_vlan_table n cmd iov)
        else if class_ = VIRTIO_NET_CTRL_MQ then some (n, handle_mq cmd)
        else some (n, status)
    | _ => none

-- The loop over the elements `virtqueue_pop` hands out, each its in size and out bytes: the
-- device after them and the statuses written back, in order.
def ctrlLoop (handle_mq : UInt8 → UInt8) (n : VirtIONet) (status : UInt8) :
    List (Nat × List UInt8) → Option (VirtIONet × List UInt8)
  | [] => some (n, [])
  | (in_size, out) :: elems => do
      let (n, status) ← ctrlElem handle_mq n status in_size out
      let (n, written) ← ctrlLoop handle_mq n status elems
      return (n, status :: written)

-- `static void virtio_net_handle_ctrl(VirtIODevice *vdev, VirtQueue *vq)`, its status starting
-- at `VIRTIO_NET_ERR`.
def virtio_net_handle_ctrl (handle_mq : UInt8 → UInt8) (n : VirtIONet)
    (elems : List (Nat × List UInt8)) : Option (VirtIONet × List UInt8) :=
  ctrlLoop handle_mq n VIRTIO_NET_ERR elems

-- `virtio_net_reset`: back to compatibility mode, tables cleared, the configured address.
def virtio_net_reset (n : VirtIONet) (macaddr : List UInt8) : VirtIONet :=
  { n with promisc := 1, allmulti := 0, alluni := 0, nomulti := 0, nouni := 0, nobcast := 0,
           mac_table := ⟨0, 0, 0, 0, List.replicate (MAC_TABLE_ENTRIES * ETH_ALEN) 0⟩,
           mac := macaddr, vlans := List.replicate (MAX_VLAN >>> 5) 0 }

/-! ### The filter -/

-- Whether entry `i` of `macs` is the destination `dst`.
def macEntry (macs dst : List UInt8) (i : Int) : Bool :=
  (macs.drop (i * ETH_ALEN).toNat).take ETH_ALEN == dst

-- The entries `[lo, hi)` of the table, as the loops over them count.
def entries (lo hi : Int32) : List Int :=
  (List.range (hi.toInt - lo.toInt).toNat).map fun k => lo.toInt + k

-- `static int receive_filter(VirtIONet *n, const uint8_t *buf, int size)`.
def receive_filter (n : VirtIONet) (buf : List UInt8) : Bool :=
  if n.promisc ≠ 0 then true
  else
    let ptr := buf.drop n.host_hdr_len
    let dst := ptr.take ETH_ALEN
    let tagged := ptr.getD 12 0 = 0x81 ∧ ptr.getD 13 0 = 0x00
    let vid := ((ptr.getD 14 0).toNat * 256 + (ptr.getD 15 0).toNat) &&& 0xfff
    if tagged ∧ !vlanSet n.vlans vid then false
    else if (ptr.getD 0 0) &&& 1 ≠ 0 then
      -- multicast
      if dst = List.replicate ETH_ALEN 0xff then n.nobcast = 0
      else if n.nomulti ≠ 0 then false
      else if n.allmulti ≠ 0 ∨ n.mac_table.multi_overflow ≠ 0 then true
      else (entries n.mac_table.first_multi n.mac_table.in_use).any (macEntry n.mac_table.macs dst)
    else
      -- unicast
      if n.nouni ≠ 0 then false
      else if n.alluni ≠ 0 ∨ n.mac_table.uni_overflow ≠ 0 then true
      else if dst = n.mac then true
      else (entries 0 n.mac_table.first_multi).any (macEntry n.mac_table.macs dst)

-- The device after reset, with the address 52:54:00:12:34:56 and frames without a header.
def resetNet : VirtIONet :=
  virtio_net_reset ⟨[], 0, 0, 0, 0, 0, 0, 0, ⟨0, 0, 0, 0, []⟩, []⟩ [0x52, 0x54, 0, 0x12, 0x34, 0x56]

-- An untagged 16-byte IPv4 frame to `dst`.
def frameTo (dst : List UInt8) : List UInt8 := dst ++ [0x52, 0x54, 0, 0, 0, 1, 0x08, 0x00, 0, 0]

-- With promiscuous mode off, a table of the unicast address 52:54:00:ab:cd:ef and the multicast
-- address 01:00:5e:00:00:01 is taken with `VIRTIO_NET_OK`, and then a frame to either is
-- refused: the multicast entry went to the start of `macs`, over the unicast one.
theorem virtio_net_handle_mac_multicast_overwrite :
    ∃ n1 n2, virtio_net_handle_ctrl (fun _ => VIRTIO_NET_ERR) resetNet [(1, [0, 0, 0])] =
        some (n1, [VIRTIO_NET_OK]) ∧
      virtio_net_handle_ctrl (fun _ => VIRTIO_NET_ERR) n1 [(1,
        [1, 0, 1, 0, 0, 0, 0x52, 0x54, 0, 0xab, 0xcd, 0xef, 1, 0, 0, 0, 0x01, 0, 0x5e, 0, 0, 1])] =
        some (n2, [VIRTIO_NET_OK]) ∧
      receive_filter n2 (frameTo [0x52, 0x54, 0, 0xab, 0xcd, 0xef]) = false ∧
      receive_filter n2 (frameTo [0x01, 0, 0x5e, 0, 0, 1]) = false := by
  refine ⟨_, _, rfl, rfl, ?_⟩
  decide

end Qemu.Hw.VirtioNet

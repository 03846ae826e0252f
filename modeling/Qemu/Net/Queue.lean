import Mathlib.Data.List.Basic
import Mathlib.Data.List.Perm.Subperm

/-!
The packet queue of a network client (`net/queue.c`). A sender's packet either goes straight to
the delivery handler or waits in the queue for `qemu_net_queue_flush`. The handler
(`qemu_deliver_packet` and the receiver behind it) is a parameter: it sees the calls made so far
and the packet, and answers with what it took, 0 for "not now". So is `qemu_can_send_packet`,
whose answer each send is given. A run records the handler's calls and the sent callbacks,
oldest first. An iovec goes through `qemu_net_queue_send_iov` as its bytes.
-/

namespace Qemu.Net

structure NetPacket where
  sender : Nat
  flags : Nat
  data : List UInt8
  -- `NetPacketSent *sent_cb`, by name; `none` is `NULL`
  sent_cb : Option Nat
deriving DecidableEq, Repr

-- A call of the delivery handler with what it returned, or of a packet's sent callback.
inductive NetEvent
  | deliver (packet : NetPacket) (ret : Int)
  | sent (cb sender : Nat) (ret : Int)
deriving DecidableEq, Repr

structure NetQueue where
  packets : List NetPacket
  delivering : Bool
deriving DecidableEq, Repr

section Queue

variable (deliver : List NetEvent → NetPacket → Int)

-- `static void qemu_net_queue_append(...)`: the packet goes at the tail, whatever its
-- `sent_cb`.
def qemu_net_queue_append (queue : NetQueue) (packet : NetPacket) : NetQueue :=
  { queue with packets := queue.packets ++ [packet] }

-- The loop of `bool qemu_net_queue_flush(NetQueue *queue)` over the packets left, with the
-- calls so far: the packets it leaves, the calls after it and what it returns.
def flushLoop (events : List NetEvent) : List NetPacket → List NetPacket × List NetEvent × Bool
  | [] => ([], events, true)
  | packet :: rest =>
      let ret := deliver events packet
      let events := events ++ [.deliver packet ret]
      -- a refused packet goes back at the head
      if ret = 0 then (packet :: rest, events, false)
      else
        let events := match packet.sent_cb with
          | some cb => events ++ [.sent cb packet.sender ret]
          | none => events
        flushLoop events rest

def qemu_net_queue_flush (queue : NetQueue) (events : List NetEvent) :
    NetQueue × List NetEvent × Bool :=
  let r := flushLoop deliver events queue.packets
  ({ queue with packets := r.1 }, r.2.1, r.2.2)

-- `ssize_t qemu_net_queue_send(NetQueue *queue, NetClientState *sender, unsigned flags,
-- const uint8_t *data, size_t size, NetPacketSent *sent_cb)`; `can_send` is
-- `qemu_can_send_packet(sender)`. `qemu_net_queue_deliver` sets `delivering` around the
-- handler's call only.
def qemu_net_queue_send (can_send : Bool) (queue : NetQueue) (events : List NetEvent)
    (sender flags : Nat) (data : List UInt8) (sent_cb : Option Nat) :
    NetQueue × List NetEvent × Int :=
  let packet : NetPacket := ⟨sender, flags, data, sent_cb⟩
  if queue.delivering || !can_send then (qemu_net_queue_append queue packet, events, 0)
  else
    let ret := deliver events packet
    let events := events ++ [.deliver packet ret]
    if ret = 0 then (qemu_net_queue_append queue packet, events, 0)
    else
      let flushed := qemu_net_queue_flush deliver queue events
      (flushed.1, flushed.2.1, ret)

-- `ssize_t qemu_net_queue_send_iov(...)`: the same paths, with the packet the iovec's bytes.
def qemu_net_queue_send_iov (can_send : Bool) (queue : NetQueue) (events : List NetEvent)
    (sender flags : Nat) (iov : List (List UInt8)) (sent_cb : Option Nat) :
    NetQueue × List NetEvent × Int :=
  qemu_net_queue_send deliver can_send queue events sender flags iov.flatten sent_cb

-- `void qemu_net_queue_purge(NetQueue *queue, NetClientState *from)`.
def qemu_net_queue_purge (queue : NetQueue) (sender : Nat) : NetQueue :=
  { queue with packets := queue.packets.filter fun packet => packet.sender ≠ sender }

-- The calls a client makes on the queue.
inductive QueueCall
  | send (can_send : Bool) (sender flags : Nat) (data : List UInt8) (sent_cb : Option Nat)
  | send_iov (can_send : Bool) (sender flags : Nat) (iov : List (List UInt8))
      (sent_cb : Option Nat)
  | flush
  | purge (sender : Nat)

def queueStep (st : NetQueue × List NetEvent) : QueueCall → NetQueue × List NetEvent
  | .send can_send sender flags data sent_cb =>
      let r := qemu_net_queue_send deliver can_send st.1 st.2 sender flags data sent_cb
      (r.1, r.2.1)
  | .send_iov can_send sender flags iov sent_cb =>
      let r := qemu_net_queue_send_iov deliver can_send st.1 st.2 sender flags iov sent_cb
      (r.1, r.2.1)
  | .flush =>
      let r := qemu_net_queue_flush deliver st.1 st.2
      (r.1, r.2.1)
  | .purge sender => (qemu_net_queue_purge st.1 sender, st.2)

def queueRun (st : NetQueue × List NetEvent) (calls : List QueueCall) : NetQueue × List NetEvent :=
  calls.foldl (queueStep deliver) st

end Queue

-- `qemu_new_net_queue`: empty, not delivering, nothing called yet.
def qemu_new_net_queue : NetQueue × List NetEvent := (⟨[], false⟩, [])

/-! ### No packet lost or duplicated

Every packet a client sends is, at any later point, either consumed by the handler (a call that
returned nonzero: taken, or dropped on an error) or still in the queue, and only once: the
handler's calls and the queue together account for the sent packets. `qemu_net_queue_purge`
drops packets, so over runs with purges the account is only an upper bound.
-/

-- The packets the handler consumed, oldest first; a call that returned 0 left its packet to
-- the queue.
def consumed : List NetEvent → List NetPacket :=
  List.filterMap fun
    | .deliver packet ret => if ret ≠ 0 then some packet else none
    | .sent .. => none

-- The packet a call hands to the queue.
def QueueCall.packets : QueueCall → List NetPacket
  | .send _ sender flags data sent_cb => [⟨sender, flags, data, sent_cb⟩]
  | .send_iov _ sender flags iov sent_cb => [⟨sender, flags, iov.flatten, sent_cb⟩]
  | .flush | .purge _ => []

def QueueCall.isPurge : QueueCall → Bool
  | .purge _ => true
  | _ => false

@[simp] theorem consumed_append (a b : List NetEvent) :
    consumed (a ++ b) = consumed a ++ consumed b := List.filterMap_append

@[simp] theorem consumed_nil : consumed [] = [] := rfl

@[simp] theorem consumed_deliver (packet : NetPacket) (ret : Int) (events : List NetEvent) :
    consumed (.deliver packet ret :: events) = (if ret ≠ 0 then [packet] else []) ++ consumed events := by
  by_cases h : ret = 0 <;> simp [consumed, h]

@[simp] theorem consumed_sent (cb sender : Nat) (ret : Int) (events : List NetEvent) :
    consumed (.sent cb sender ret :: events) = consumed events := rfl

section Queue

variable (deliver : List NetEvent → NetPacket → Int)

-- The flush consumes a prefix of the queue and leaves the rest, in order.
theorem flushLoop_conserves (events : List NetEvent) (packets : List NetPacket) :
    consumed (flushLoop deliver events packets).2.1 ++ (flushLoop deliver events packets).1 =
      consumed events ++ packets := by
  induction packets generalizing events with
  | nil => simp [flushLoop]
  | cons packet rest ih =>
      rw [flushLoop]
      dsimp only
      split
      · rename_i hret
        simp [hret]
      · -- the taken packet is consumed, and its sent callback adds nothing
        rename_i hret
        split <;> rw [ih] <;> simp [hret]

theorem qemu_net_queue_send_conserves (can_send : Bool) (queue : NetQueue)
    (events : List NetEvent) (sender flags : Nat) (data : List UInt8) (sent_cb : Option Nat) :
    (consumed (qemu_net_queue_send deliver can_send queue events sender flags data sent_cb).2.1 ++
        (qemu_net_queue_send deliver can_send queue events sender flags data sent_cb).1.packets).Perm
      (consumed events ++ queue.packets ++ [⟨sender, flags, data, sent_cb⟩]) := by
  unfold qemu_net_queue_send qemu_net_queue_append
  dsimp only
  split
  · simp
  · split
    · rename_i hret
      simp [hret]
    · -- the handler took the packet ahead of the queued ones, which the flush then moves
      rename_i hret
      rw [qemu_net_queue_flush, flushLoop_conserves]
      simpa [hret] using (@List.perm_append_comm _ [_] queue.packets).append_left (consumed events)

-- What a state accounts for: the packets the handler consumed, then those still queued.
def account (st : NetQueue × List NetEvent) : List NetPacket := consumed st.2 ++ st.1.packets

-- A call other than a purge adds its packet to the account.
theorem queueStep_perm (st : NetQueue × List NetEvent) {call : QueueCall}
    (hcall : call.isPurge = false) :
    (account (queueStep deliver st call)).Perm (account st ++ call.packets) := by
  cases call with
  | send can_send sender flags data sent_cb =>
      exact qemu_net_queue_send_conserves deliver can_send st.1 st.2 sender flags data sent_cb
  | send_iov can_send sender flags iov sent_cb =>
      exact qemu_net_queue_send_conserves deliver can_send st.1 st.2 sender flags iov.flatten sent_cb
  | flush =>
      simp only [account, queueStep, qemu_net_queue_flush, flushLoop_conserves, QueueCall.packets,
        List.append_nil]
      exact List.Perm.refl _
  | purge sender => cases hcall

-- One call: the account grows by the call's packet, or shrinks by what a purge drops.
theorem queueStep_subperm (st : NetQueue × List NetEvent) (call : QueueCall) :
    (account (queueStep deliver st call)).Subperm (account st ++ call.packets) := by
  cases hpurge : call.isPurge
  · exact (queueStep_perm deliver st hpurge).subperm
  · obtain ⟨sender, rfl⟩ : ∃ sender, call = .purge sender := by
      cases call <;> simp_all [QueueCall.isPurge]
    -- the purge keeps a sublist of the queue
    simp only [account, queueStep, qemu_net_queue_purge, QueueCall.packets, List.append_nil]
    exact (List.filter_sublist.append_left _).subperm

-- The run lemmas: a fold of calls from any state adds the calls' packets to its account.
theorem foldl_queueStep_subperm (calls : List QueueCall) :
    ∀ (st : NetQueue × List NetEvent) (sent : List NetPacket), (account st).Subperm sent →
      (account (calls.foldl (queueStep deliver) st)).Subperm
        (sent ++ calls.flatMap QueueCall.packets) := by
  induction calls with
  | nil => intro st sent h; simpa using h
  | cons call calls ih =>
      intro st sent h
      have h' := (queueStep_subperm deliver st call).trans ((List.subperm_append_right _).mpr h)
      simpa [List.append_assoc] using ih _ _ h'

theorem foldl_queueStep_perm (calls : List QueueCall) (hcalls : ∀ call ∈ calls, call.isPurge = false) :
    ∀ (st : NetQueue × List NetEvent) (sent : List NetPacket), (account st).Perm sent →
      (account (calls.foldl (queueStep deliver) st)).Perm
        (sent ++ calls.flatMap QueueCall.packets) := by
  induction calls with
  | nil => intro st sent h; simpa using h
  | cons call calls ih =>
      intro st sent h
      have h' := (queueStep_perm deliver st (hcalls call List.mem_cons_self)).trans
        (h.append_right call.packets)
      simpa [List.append_assoc] using
        ih (fun c hc => hcalls c (List.mem_cons_of_mem call hc)) _ _ h'

end Queue

-- Over every run from a new queue, the packets the handler consumed and those still queued are
-- among the sent packets, each at most once; with no purge, they are exactly the sent packets.
theorem queueRun_conserves (deliver : List NetEvent → NetPacket → Int) (calls : List QueueCall) :
    (account (queueRun deliver qemu_new_net_queue calls)).Subperm
        (calls.flatMap QueueCall.packets) ∧
      ((∀ call ∈ calls, call.isPurge = false) →
        (account (queueRun deliver qemu_new_net_queue calls)).Perm
          (calls.flatMap QueueCall.packets)) := by
  have hempty : account qemu_new_net_queue = [] := rfl
  unfold queueRun
  constructor
  · simpa using foldl_queueStep_subperm deliver calls _ [] (hempty ▸ .refl _)
  · intro hcalls
    simpa using foldl_queueStep_perm deliver calls hcalls _ [] (hempty ▸ .refl _)

-- A handler that takes every packet whole.
def takeAll (_ : List NetEvent) (packet : NetPacket) : Int := packet.data.length

-- A packet queued while the receiver cannot take it, a second one taken directly, then a
-- flush: both are consumed, each once.
theorem queueRun_conserves_flush :
    account (queueRun takeAll qemu_new_net_queue
        [.send false 1 0 [7] (some 9), .send true 2 0 [8] none, .flush]) =
      [⟨2, 0, [8], none⟩, ⟨1, 0, [7], some 9⟩] ∧
    ((account (queueRun takeAll qemu_new_net_queue
        [.send false 1 0 [7] (some 9), .send true 2 0 [8] none, .flush])).Subperm
      ([QueueCall.send false 1 0 [7] (some 9), .send true 2 0 [8] none, .flush].flatMap
        QueueCall.packets) ∧
      ((∀ call ∈ [QueueCall.send false 1 0 [7] (some 9), .send true 2 0 [8] none, .flush],
          call.isPurge = false) →
        (account (queueRun takeAll qemu_new_net_queue
            [.send false 1 0 [7] (some 9), .send true 2 0 [8] none, .flush])).Perm
          ([QueueCall.send false 1 0 [7] (some 9), .send true 2 0 [8] none, .flush].flatMap
            QueueCall.packets))) :=
  ⟨by decide, queueRun_conserves takeAll _⟩

-- A packet without a sent callback, sent while the receiver cannot take it, stays in the
-- queue; and a later packet of the same sender, sent when it can, reaches the handler first.
theorem qemu_net_queue_send_keeps_null_cb :
    queueRun takeAll qemu_new_net_queue [.send false 1 0 [1] none] =
        (⟨[⟨1, 0, [1], none⟩], false⟩, []) ∧
      queueRun takeAll qemu_new_net_queue [.send false 1 0 [1] none, .send true 1 0 [2] none] =
        (⟨[], false⟩, [.deliver ⟨1, 0, [2], none⟩ 1, .deliver ⟨1, 0, [1], none⟩ 1]) := by
  decide

end Qemu.Net

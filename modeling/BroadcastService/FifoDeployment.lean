import BroadcastService.FifoAgreement
import BroadcastService.MessageCodec
import BroadcastService.TransportStack
import BroadcastService.UrbWire

/-!
# FIFO broadcast over a lossy network

All layers of FIFO broadcast together: `FIFOBroadcast` over `UniformReliableBroadcast`, whose
messages are marshalled and sent over the reliable transport, whose packets are marshalled into
datagrams that the network may lose, duplicate and reorder. If every datagram is read on the channel
of its sender, every process delivers at every moment a beginning of what a source broadcast
(`fifo_over_datagrams`).
-/

namespace BroadcastService
open MessagePassing Transport TransitionSystem

variable {n : ℕ}

def hostIds (n : ℕ) (hn : n < 256) : PeerIds (Fin n) where
  peerId p := UInt8.ofNat (p + 1)
  host x := if h : x.toNat - 1 < n ∧ 0 < x.toNat then some ⟨x.toNat - 1, h.1⟩ else none
  host_iff {x p} := by
    constructor
    · intro h
      split_ifs at h with hx
      have hp : x.toNat - 1 = p := congrArg Fin.val (Option.some.inj h)
      rw [← hp, Nat.sub_add_cancel hx.2, UInt8.ofNat_toNat]
    · rintro rfl
      have hp : (UInt8.ofNat (p + 1)).toNat = p + 1 := by
        rw [UInt8.toNat_ofNat']
        omega
      simp only [hp, Nat.add_sub_cancel, p.isLt, Nat.succ_pos, and_self, dite_true]

namespace UrbWire.URBMessage

/-- `Broadcast` of the URB layer fills a buffer of the size of the message. -/
def encode (ids : PeerIds (Fin n)) (message : BroadcastService.URBMessage (Fin n)) : Bytes :=
  let wire := narrowed ⟨ids.peerId message.source, message.urbId, message.message⟩
  wire.marshal (List.replicate wire.size 0)

def decode (ids : PeerIds (Fin n)) (bytes : Bytes) :
    Option (BroadcastService.URBMessage (Fin n)) :=
  (unmarshal bytes).bind fun wire => (ids.host wire.source).map fun source =>
    ⟨source, wire.urbId.toNat, wire.message⟩

theorem decode_encode (ids : PeerIds (Fin n)) {message : BroadcastService.URBMessage (Fin n)}
    (hid : message.urbId < idSpace) : decode ids (encode ids message) = some message := by
  have hnarrow : (UInt32.ofNat message.urbId).toNat = message.urbId :=
    UInt32.toNat_ofNat_of_lt' hid
  rw [decode, encode, unmarshal_marshal _ List.length_replicate]
  simp [narrowed, ids.host_peerId, hnarrow]

end UrbWire.URBMessage

open UrbWire.URBMessage (encode decode decode_encode)

/-- The processes of the FIFO application, with the messages of the URB layer as bytes. -/
def fifoBytes (n : ℕ) (ids : PeerIds (Fin n)) :
    Program (Fin n) (FIFOBroadcast (Fin n)) Bytes Bytes (FIFOOutput (Fin n)) :=
  (fifoProgram n).encoded (encode ids) (decode ids)

theorem urbId_lt_of_inflight {w : FifoWorld n} (hw : (fifoProgram n).Reachable w)
    {m : MessagePassing.Packet (Fin n) (URBMessage (Fin n))} (hm : m ∈ w.inflight) :
    m.body.urbId < idSpace := by
  have hurb := (fifo_urb_reachable hw).1
  have hbeb : .beb m.body ∈ ((fifoProjection n).world w).trace m.src := by
    apply beb_of_inflight hurb (q := m.dst)
    exact List.mem_filterMap.2 ⟨m, hm, rfl⟩
  have hid : m.body.identifier ∈ bebIds (((fifoProjection n).world w).trace m.src) :=
    mem_bebIds.2 ⟨m.body.message, hbeb⟩
  exact (urbOrigin hurb).urbId_lt hid

/-- Over datagrams that may be lost, duplicated and reordered, but are read on the channels of their
senders, every process has at every moment delivered a beginning of what a source has broadcast. -/
theorem fifo_over_datagrams {ids : PeerIds (Fin n)} {config : UInt8 → TransportConfig}
    {route : UInt8 → UInt8 → UInt8}
    {h : StackHistory (Fin n) (FIFOBroadcast (Fin n)) (FIFOOutput (Fin n))}
    (hr : ReachableIn (stackProgram (fifoBytes n ids) ids config route).step
      (fun _ => StackRouted ids route)
      (stackProgram (fifoBytes n ids) ids config route).initial h) (p s : Fin n) :
    deliveredFrom s (h.node p).outputs <+: broadcastMessages (h.node s).outputs := by
  obtain ⟨w, hw, hlinks⟩ := links_of_stack hr
  obtain ⟨v, hv, rfl⟩ := Program.reachable_of_encoded hw fun v hv m hm =>
    decode_encode ids (urbId_lt_of_inflight hv hm)
  rw [← hlinks.trace, ← hlinks.trace]
  exact delivered_isPrefix hv p s

def firstBroadcast : Bytes :=
  let message : UrbWire.URBMessage := ⟨1, 0, [7]⟩
  let packet : Transport.Packet :=
    ⟨.payloadMessage, 0, 1, message.marshal (List.replicate message.size 0)⟩
  packet.datagram

/-- The first broadcast arrives twice; the other process relays it and delivers it with its own
copy. -/
def relayedTwice {P : Type*} (p q : P) : List (P × Transport.StackEvent P Bytes) :=
  [(p, .input [7]), (p, .send 0), (p, .send 0)] ++
    List.replicate 3 (p, .internal 2 (.write .writeReady .ok 0)) ++
    [(q, .read p firstBroadcast .ok), (q, .read p firstBroadcast .ok), (q, .callback 0),
      (q, .deliver), (q, .send 1), (q, .deliver)]

def twoIds : PeerIds (Fin 2) := hostIds 2 (by decide)

theorem fifo_over_datagrams_twice : ∃ h, ReachableIn
    (stackProgram (fifoBytes 2 twoIds) twoIds threeHosts fun _ q => q).step
    (fun _ => StackRouted twoIds fun _ q => q)
    (stackProgram (fifoBytes 2 twoIds) twoIds threeHosts fun _ q => q).initial h ∧
    deliveredFrom 0 (h.node 1).outputs = [(0, [7])] ∧
    deliveredFrom 0 (h.node 1).outputs <+: broadcastMessages (h.node 0).outputs := by
  obtain ⟨h, hr, houtputs⟩ : ∃ h, ReachableIn
      (stackProgram (fifoBytes 2 twoIds) twoIds threeHosts fun _ q => q).step
      (fun _ => StackRouted twoIds fun _ q => q)
      (stackProgram (fifoBytes 2 twoIds) twoIds threeHosts fun _ q => q).initial h ∧
      deliveredFrom 0 (h.node 1).outputs = [(0, [7])] :=
    exists_reachableIn (relayedTwice 0 1) (by decide +kernel)
  exact ⟨h, hr, houtputs, fifo_over_datagrams hr 1 0⟩

end BroadcastService

import BroadcastService.Payload
import BroadcastService.UniformReliableBroadcast

/-!
# Messages inside packets

`URBMessage` of `primitives/uniform_reliable_broadcast.hpp` as a byte string, and the round trips of
a packet with a broadcast message or an acknowledgement as its payload. A payload has no length of
its own on the wire: it reaches to the end of the buffer. `MarshalExtract` moves the payload, which
for bytes is a copy.

The buffer of an acknowledgement is longer than what `Marshal` writes to it; the bytes behind the
identifiers are sent along and never read.
-/

namespace BroadcastService

namespace Transport.Packet

def marshalExtract (packet : Packet) (bytes : Bytes) : Bytes := packet.marshal bytes

def written (packet : Packet) : Bytes :=
  binaryMarshalPrimitiveType 1 identifier ++
    (binaryMarshalPrimitiveType 1 packet.type.toByte.toNat ++
      (binaryMarshalPrimitiveType 4 packet.id.toNat ++
        (binaryMarshalPrimitiveType 1 packet.source.toNat ++ packet.message)))

theorem length_written (packet : Packet) : packet.written.length = packet.size := by
  simp only [written, List.length_append, length_binaryMarshalPrimitiveType, size, headerSize]
  omega

/-- In a longer buffer the bytes behind the packet would become part of its payload. -/
theorem unmarshal_written (packet : Packet) (rest : Bytes) :
    unmarshal (packet.written ++ rest) =
      some { packet with message := packet.message ++ rest } := by
  rw [unmarshal, written]
  simp

theorem unmarshal_marshal (packet : Packet) {bytes : Bytes} (hbytes : bytes.length = packet.size) :
    unmarshal (packet.marshal bytes) = some packet := by
  have hmarshal : packet.marshal bytes = packet.written :=
    overwrite_of_length (hbytes.trans packet.length_written.symm)
  have hread := packet.unmarshal_written []
  rw [List.append_nil, List.append_nil] at hread
  rw [hmarshal, hread]

end Transport.Packet

namespace UrbWire

open Transport

structure URBMessage where
  source : UInt8
  urbId : UInt32
  message : Bytes
  deriving DecidableEq

namespace URBMessage

def headerSize : ℕ := 1 + 4

def size (message : URBMessage) : ℕ := headerSize + message.message.length

def marshal (message : URBMessage) (bytes : Bytes) : Bytes :=
  overwrite bytes (binaryMarshalPrimitiveType 1 message.source.toNat ++
    (binaryMarshalPrimitiveType 4 message.urbId.toNat ++ message.message))

def marshalExtract (message : URBMessage) (bytes : Bytes) : Bytes := message.marshal bytes

def unmarshal (bytes : Bytes) : Option URBMessage := do
  let (source, bytes) ← binaryUnmarshalPrimitiveType 1 bytes
  let (urbId, bytes) ← binaryUnmarshalPrimitiveType 4 bytes
  return ⟨UInt8.ofNat source, UInt32.ofNat urbId, bytes⟩

theorem unmarshal_marshal (message : URBMessage) {bytes : Bytes}
    (hbytes : bytes.length = message.size) :
    unmarshal (message.marshal bytes) = some message := by
  have hmarshal : message.marshal bytes = binaryMarshalPrimitiveType 1 message.source.toNat ++
      (binaryMarshalPrimitiveType 4 message.urbId.toNat ++ message.message) := by
    apply overwrite_of_length
    rw [hbytes, List.length_append, List.length_append, length_binaryMarshalPrimitiveType,
      length_binaryMarshalPrimitiveType, size, headerSize, Nat.add_assoc]
  rw [unmarshal, hmarshal]
  simp

def narrowed (message : BroadcastService.URBMessage UInt8) : URBMessage :=
  ⟨message.source, UInt32.ofNat message.urbId, message.message⟩

theorem unmarshal_narrowed (message : BroadcastService.URBMessage UInt8)
    (hid : message.urbId < idSpace) {bytes : Bytes}
    (hbytes : bytes.length = (narrowed message).size) :
    (unmarshal ((narrowed message).marshal bytes)).map
        (fun m => (⟨m.source, m.urbId.toNat, m.message⟩ : BroadcastService.URBMessage UInt8)) =
      some message := by
  have hnarrow : (UInt32.ofNat message.urbId).toNat = message.urbId :=
    UInt32.toNat_ofNat_of_lt' hid
  rw [unmarshal_marshal _ hbytes, Option.map_some, narrowed, hnarrow]

end URBMessage

/-- The bytes that `Marshal` puts at the start of a buffer: seven fewer than `Size()`. -/
def ackWritten (message : AckMessage) : Bytes :=
  binaryMarshalPrimitiveType 1 (message.acks.length % 256) ++
    binaryMarshalArrayType 4 (message.acks.map UInt32.toNat)

theorem length_ackWritten {message : AckMessage} (hlength : message.acks.length < 256) :
    (ackWritten message).length + 7 = message.size := by
  rw [ackWritten, List.length_append, length_binaryMarshalPrimitiveType,
    length_binaryMarshalArrayType, List.length_map, AckMessage.size, Nat.mod_eq_of_lt hlength]
  omega

theorem transport_wire_round_trip :
    (∀ (packet : Packet) (bytes : Bytes), bytes.length = packet.size →
      Packet.unmarshal (packet.marshal bytes) = some packet ∧
        Packet.unmarshal (packet.marshalExtract bytes) = some packet) ∧
    (∀ (message : URBMessage) (packet : Packet) (inner outer : Bytes),
      inner.length = message.size →
      packet.message = message.marshal inner ∨ packet.message = message.marshalExtract inner →
      outer.length = packet.size →
      ∀ datagram, datagram = packet.marshal outer ∨ datagram = packet.marshalExtract outer →
        ∃ received, Packet.unmarshal datagram = some received ∧ received = packet ∧
          URBMessage.unmarshal received.message = some message) ∧
    ∀ message : AckMessage, message.acks.length < 255 →
      (∃ data : Bytes, data.length < message.size ∧
        ∀ bytes : Bytes, message.size ≤ bytes.length →
          message.marshal bytes = data ++ bytes.drop data.length ∧
            (message.marshal bytes).length = bytes.length) ∧
      ∀ (packet : Packet) (inner outer : Bytes), inner.length = message.size →
        packet.message = message.marshal inner → outer.length = packet.size →
        ∃ received, Packet.unmarshal (packet.marshal outer) = some received ∧ received = packet ∧
          AckMessage.unmarshal received.message = some message := by
  refine ⟨?_, ?_, ?_⟩
  · intro packet bytes hbytes
    exact ⟨packet.unmarshal_marshal hbytes, packet.unmarshal_marshal hbytes⟩
  · intro message packet inner outer hinner hpayload houter datagram hdatagram
    have hpayload : packet.message = message.marshal inner := by
      rcases hpayload with h | h
      · exact h
      · exact h
    have hdatagram : datagram = packet.marshal outer := by
      rcases hdatagram with h | h
      · exact h
      · exact h
    refine ⟨packet, ?_, rfl, ?_⟩
    · rw [hdatagram, packet.unmarshal_marshal houter]
    · rw [hpayload, message.unmarshal_marshal hinner]
  · intro message hcount
    have hlength := length_ackWritten (Nat.lt_succ_of_lt hcount)
    constructor
    · refine ⟨ackWritten message, by omega, ?_⟩
      intro bytes hbytes
      have hmarshal : message.marshal bytes =
          ackWritten message ++ bytes.drop (ackWritten message).length := rfl
      refine ⟨hmarshal, ?_⟩
      rw [hmarshal, List.length_append, List.length_drop]
      omega
    · intro packet inner outer hinner hpayload houter
      refine ⟨packet, packet.unmarshal_marshal houter, rfl, ?_⟩
      rw [hpayload, message.unmarshal_marshal inner (Nat.lt_succ_of_lt hcount)]

/-- An acknowledgement of two messages in a buffer that held something else before. -/
theorem transport_wire_round_trip_acks :
    (AckMessage.marshal ⟨[5, 300]⟩ (List.replicate 16 9)) =
      [2, 5, 0, 0, 0, 44, 1, 0, 0, 9, 9, 9, 9, 9, 9, 9] ∧
    ∃ received, Packet.unmarshal (Packet.marshal ⟨.ackMessage, 1, 2,
        AckMessage.marshal ⟨[5, 300]⟩ (List.replicate 16 9)⟩ (List.replicate 23 0)) =
          some received ∧
      received = ⟨.ackMessage, 1, 2, AckMessage.marshal ⟨[5, 300]⟩ (List.replicate 16 9)⟩ ∧
      AckMessage.unmarshal received.message = some ⟨[5, 300]⟩ :=
  ⟨by decide, (transport_wire_round_trip.2.2 ⟨[5, 300]⟩ (by decide)).2 _ _ _ (by decide) rfl
    (by decide)⟩

end UrbWire

end BroadcastService

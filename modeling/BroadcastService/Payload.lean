import Mathlib.Data.List.Basic
import Mathlib.Tactic

/-!
# Wire format of the transport

`io/transport/payload.hpp`. Integers are written least significant byte first. Unmarshalling reads
from the front of what is left of the buffer; `none` stands for a read past its end.
-/

namespace BroadcastService

abbrev Bytes := List UInt8

/-- The number of values of a `MessageID`. -/
def idSpace : ℕ := 2 ^ 32

def binaryMarshalPrimitiveType : (width : ℕ) → (value : ℕ) → Bytes
  | 0, _ => []
  | width + 1, value => UInt8.ofNat value :: binaryMarshalPrimitiveType width (value / 256)

def binaryUnmarshalPrimitiveType : (width : ℕ) → Bytes → Option (ℕ × Bytes)
  | 0, bytes => some (0, bytes)
  | _ + 1, [] => none
  | width + 1, byte :: bytes =>
      (binaryUnmarshalPrimitiveType width bytes).map fun (value, rest) =>
        (byte.toNat + 256 * value, rest)

def binaryMarshalArrayType (width : ℕ) (values : List ℕ) : Bytes :=
  values.flatMap (binaryMarshalPrimitiveType width)

def binaryUnmarshalArrayType (width : ℕ) : (size : ℕ) → Bytes → Option (List ℕ × Bytes)
  | 0, bytes => some ([], bytes)
  | size + 1, bytes => do
      let (value, bytes) ← binaryUnmarshalPrimitiveType width bytes
      let (values, rest) ← binaryUnmarshalArrayType width size bytes
      return (value :: values, rest)

theorem length_binaryMarshalPrimitiveType (width value : ℕ) :
    (binaryMarshalPrimitiveType width value).length = width := by
  induction width generalizing value with
  | zero => rfl
  | succ width ih => rw [binaryMarshalPrimitiveType, List.length_cons, ih]

theorem length_binaryMarshalArrayType (width : ℕ) (values : List ℕ) :
    (binaryMarshalArrayType width values).length = width * values.length := by
  induction values with
  | nil => rfl
  | cons value values ih =>
      have hcons : binaryMarshalArrayType width (value :: values) =
          binaryMarshalPrimitiveType width value ++ binaryMarshalArrayType width values := by
        simp [binaryMarshalArrayType]
      rw [hcons, List.length_append, length_binaryMarshalPrimitiveType, ih, List.length_cons,
        Nat.mul_succ, Nat.add_comm]

@[simp] theorem unmarshal_marshalPrimitiveType (width value : ℕ) (rest : Bytes) :
    binaryUnmarshalPrimitiveType width (binaryMarshalPrimitiveType width value ++ rest) =
      some (value % 256 ^ width, rest) := by
  induction width generalizing value with
  | zero => simp [binaryMarshalPrimitiveType, binaryUnmarshalPrimitiveType, Nat.mod_one]
  | succ width ih =>
      rw [binaryMarshalPrimitiveType, List.cons_append, binaryUnmarshalPrimitiveType, ih,
        Option.map_some, pow_succ', Nat.mod_mul, UInt8.toNat_ofNat']

theorem unmarshal_marshalArrayType (width : ℕ) (values : List ℕ) (rest : Bytes) :
    binaryUnmarshalArrayType width values.length
        (binaryMarshalArrayType width values ++ rest) =
      some (values.map (· % 256 ^ width), rest) := by
  induction values with
  | nil => rfl
  | cons value values ih =>
      have hsplit : binaryMarshalArrayType width (value :: values) ++ rest =
          binaryMarshalPrimitiveType width value ++
            (binaryMarshalArrayType width values ++ rest) := by
        simp [binaryMarshalArrayType]
      rw [hsplit, List.length_cons, binaryUnmarshalArrayType, unmarshal_marshalPrimitiveType]
      simp [ih]

theorem unmarshal_marshalUInt32s (values : List UInt32) (rest : Bytes) :
    binaryUnmarshalArrayType 4 values.length
        (binaryMarshalArrayType 4 (values.map UInt32.toNat) ++ rest) =
      some (values.map UInt32.toNat, rest) := by
  have hvalues : (values.map UInt32.toNat).map (· % 256 ^ 4) = values.map UInt32.toNat := by
    rw [List.map_map]
    apply List.map_congr_left
    intro value _
    exact Nat.mod_eq_of_lt value.toNat_lt
  have harray := unmarshal_marshalArrayType 4 (values.map UInt32.toNat) rest
  rwa [List.length_map, hvalues] at harray

theorem map_ofNat_toNat (values : List UInt32) :
    (values.map UInt32.toNat).map UInt32.ofNat = values := by
  rw [List.map_map]
  conv_rhs => rw [← List.map_id values]
  apply List.map_congr_left
  intro value _
  exact UInt32.ofNat_toNat

theorem lt_of_unmarshalPrimitiveType {width value : ℕ} {bytes rest : Bytes}
    (h : binaryUnmarshalPrimitiveType width bytes = some (value, rest)) : value < 256 ^ width := by
  induction width generalizing bytes value rest with
  | zero =>
      obtain ⟨rfl, -⟩ := Prod.mk.inj (Option.some.inj h)
      exact Nat.one_pos
  | succ width ih =>
      cases bytes with
      | nil => cases h
      | cons byte bytes =>
          obtain ⟨⟨high, rest'⟩, hhigh, heq⟩ := Option.map_eq_some_iff.1 h
          obtain ⟨rfl, -⟩ := Prod.mk.inj heq
          have hlt := ih hhigh
          have hbyte := byte.toNat_lt
          rw [pow_succ']
          omega

theorem length_of_unmarshalArrayType {width size : ℕ} {bytes rest : Bytes} {values : List ℕ}
    (h : binaryUnmarshalArrayType width size bytes = some (values, rest)) :
    values.length = size := by
  induction size generalizing bytes values rest with
  | zero =>
      obtain ⟨rfl, -⟩ := Prod.mk.inj (Option.some.inj h)
      rfl
  | succ size ih =>
      simp only [binaryUnmarshalArrayType, Option.bind_eq_bind, Option.bind_eq_some_iff] at h
      obtain ⟨⟨value, bytes'⟩, -, ⟨values', rest'⟩, hvalues, heq⟩ := h
      obtain ⟨rfl, -⟩ := Prod.mk.inj (Option.some.inj heq)
      rw [List.length_cons, ih hvalues]

/-- What a buffer holds after `data` was written to its start. -/
def overwrite (buffer data : Bytes) : Bytes := data ++ buffer.drop data.length

theorem overwrite_of_length {buffer data : Bytes} (h : buffer.length = data.length) :
    overwrite buffer data = data := by
  rw [overwrite, ← h, List.drop_length, List.append_nil]

namespace Transport

/-- A packet type read from the network may be none of the two named ones. -/
inductive PacketType
  | ackMessage
  | payloadMessage
  | other (value : UInt8) (h : 2 ≤ value)
  deriving DecidableEq

def PacketType.toByte : PacketType → UInt8
  | .ackMessage => 0
  | .payloadMessage => 1
  | .other value _ => value

def PacketType.ofByte (value : UInt8) : PacketType :=
  if h : 2 ≤ value then .other value h
  else if value = 0 then .ackMessage
  else .payloadMessage

@[simp] theorem PacketType.ofByte_toByte (type : PacketType) : ofByte type.toByte = type := by
  cases type with
  | ackMessage => rfl
  | payloadMessage => rfl
  | other value h => rw [toByte, ofByte, dif_pos h]

structure Packet where
  type : PacketType
  id : UInt32
  source : UInt8
  message : Bytes
  deriving DecidableEq

namespace Packet

def identifier : ℕ := 67

def headerSize : ℕ := 1 + 1 + 4 + 1

def size (packet : Packet) : ℕ := headerSize + packet.message.length

def marshal (packet : Packet) (bytes : Bytes) : Bytes :=
  overwrite bytes (binaryMarshalPrimitiveType 1 identifier ++
    (binaryMarshalPrimitiveType 1 packet.type.toByte.toNat ++
      (binaryMarshalPrimitiveType 4 packet.id.toNat ++
        (binaryMarshalPrimitiveType 1 packet.source.toNat ++ packet.message))))

def unmarshal (bytes : Bytes) : Option Packet := do
  let (_, bytes) ← binaryUnmarshalPrimitiveType 1 bytes
  let (type, bytes) ← binaryUnmarshalPrimitiveType 1 bytes
  let (id, bytes) ← binaryUnmarshalPrimitiveType 4 bytes
  let (source, bytes) ← binaryUnmarshalPrimitiveType 1 bytes
  return ⟨PacketType.ofByte (UInt8.ofNat type), UInt32.ofNat id, UInt8.ofNat source, bytes⟩

def datagram (packet : Packet) : Bytes := packet.marshal (List.replicate packet.size 0)

theorem unmarshal_datagram (packet : Packet) : unmarshal packet.datagram = some packet := by
  have hbytes : packet.datagram = binaryMarshalPrimitiveType 1 identifier ++
      (binaryMarshalPrimitiveType 1 packet.type.toByte.toNat ++
        (binaryMarshalPrimitiveType 4 packet.id.toNat ++
          (binaryMarshalPrimitiveType 1 packet.source.toNat ++ packet.message))) := by
    apply overwrite_of_length
    simp only [List.length_replicate, List.length_append, length_binaryMarshalPrimitiveType, size,
      headerSize]
    omega
  rw [unmarshal, hbytes]
  simp

end Packet

structure AckMessage where
  acks : List UInt32
  deriving DecidableEq

namespace AckMessage

/-- The size counts `sizeof(acks.size())`, eight bytes, for a length that takes one. -/
def size (message : AckMessage) : ℕ := 8 + message.acks.length % 256 * 4

def marshal (message : AckMessage) (bytes : Bytes) : Bytes :=
  overwrite bytes (binaryMarshalPrimitiveType 1 (message.acks.length % 256) ++
    binaryMarshalArrayType 4 (message.acks.map UInt32.toNat))

def unmarshal (bytes : Bytes) : Option AckMessage := do
  let (numElements, bytes) ← binaryUnmarshalPrimitiveType 1 bytes
  let (acks, _) ← binaryUnmarshalArrayType 4 numElements bytes
  return ⟨acks.map UInt32.ofNat⟩

theorem unmarshal_marshal (message : AckMessage) (bytes : Bytes)
    (hlength : message.acks.length < 256) :
    unmarshal (message.marshal bytes) = some message := by
  have harray := unmarshal_marshalUInt32s message.acks
    (bytes.drop (1 + (binaryMarshalArrayType 4 (message.acks.map UInt32.toNat)).length))
  rw [unmarshal, marshal, overwrite, List.append_assoc, unmarshal_marshalPrimitiveType]
  have hcount : message.acks.length % 256 % 256 ^ 1 = message.acks.length := by omega
  simp only [Option.bind_eq_bind, Option.bind_some, hcount, List.length_append,
    length_binaryMarshalPrimitiveType, harray, map_ofNat_toNat]
  rfl

end AckMessage

end Transport

end BroadcastService

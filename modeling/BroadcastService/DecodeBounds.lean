import BroadcastService.LatticeWire
import BroadcastService.SizedReader
import BroadcastService.UrbWire

/-!
# Reads past the end of a datagram

Every decoder asserts that its header is there. Those of `Packet`, `URBMessage` and `LAMessage` take
the rest of the buffer for the payload and read nothing else. Those of `AckMessage`,
`ProposalMessage` and `AcceptMessage` take counts from the buffer, which nothing compares with its
size: they stay inside of it exactly if it is as long as its counts announce (`announced`).
-/

namespace BroadcastService
open SizedReader

/-- A number at the start of a buffer, without its bytes that are missing. -/
def littleEndian : ℕ → Bytes → ℕ
  | 0, _ => 0
  | _ + 1, [] => 0
  | width + 1, byte :: bytes => byte.toNat + 256 * littleEndian width bytes

theorem unmarshalPrimitiveType_eq (width : ℕ) (bytes : Bytes) :
    binaryUnmarshalPrimitiveType width bytes =
      if width ≤ bytes.length then some (littleEndian width bytes, bytes.drop width) else none := by
  induction width generalizing bytes with
  | zero => rw [if_pos (Nat.zero_le _)]; rfl
  | succ width ih =>
      cases bytes with
      | nil => rfl
      | cons byte bytes =>
          simp only [binaryUnmarshalPrimitiveType, ih, List.length_cons, Nat.add_le_add_iff_right]
          split_ifs <;> rfl

theorem reads_primitiveType (width : ℕ) :
    Reads (binaryUnmarshalPrimitiveType width) (fun _ => width) (littleEndian width) :=
  unmarshalPrimitiveType_eq width

def littleEndians (width : ℕ) : ℕ → Bytes → List ℕ
  | 0, _ => []
  | size + 1, bytes => littleEndian width bytes :: littleEndians width size (bytes.drop width)

theorem reads_arrayType (width size : ℕ) :
    Reads (binaryUnmarshalArrayType width size) (fun _ => width * size)
      (littleEndians width size) := by
  induction size with
  | zero =>
      intro bytes
      rw [Nat.mul_zero, if_pos (Nat.zero_le _)]
      rfl
  | succ size ih =>
      have hcons := (reads_primitiveType width).bind fun value =>
        ih.bind fun values => Reads.pure (value :: values)
      refine hcons.of_eq ?_ ?_
      · intro bytes
        rfl
      · intro bytes
        rw [Nat.mul_succ, Nat.add_comm, Nat.add_zero]

theorem Transport.Packet.unmarshal_isSome_iff (bytes : Bytes) :
    (unmarshal bytes).isSome ↔ headerSize ≤ bytes.length := by
  simp only [unmarshal, Option.bind_eq_bind, (reads_primitiveType 1).bind_isSome_iff,
    (reads_primitiveType 4).bind_isSome_iff, List.length_drop, headerSize, Option.pure_def,
    Option.isSome_some, and_true]
  omega

theorem UrbWire.URBMessage.unmarshal_isSome_iff (bytes : Bytes) :
    (unmarshal bytes).isSome ↔ headerSize ≤ bytes.length := by
  simp only [unmarshal, Option.bind_eq_bind, (reads_primitiveType 1).bind_isSome_iff,
    (reads_primitiveType 4).bind_isSome_iff, List.length_drop, headerSize, Option.pure_def,
    Option.isSome_some, and_true]
  omega

theorem LatticeWire.LAMessage.unmarshal_isSome_iff (bytes : Bytes) :
    (unmarshal bytes).isSome ↔ headerSize ≤ bytes.length := by
  simp only [unmarshal, Option.bind_eq_bind, (reads_primitiveType 1).bind_isSome_iff, headerSize,
    Option.pure_def, Option.isSome_some, and_true]

namespace Transport.AckMessage

def headerSize : ℕ := 1

def announced (bytes : Bytes) : ℕ := 1 + 4 * littleEndian 1 bytes

theorem unmarshal_isSome_iff (bytes : Bytes) :
    (unmarshal bytes).isSome ↔ announced bytes ≤ bytes.length := by
  simp only [unmarshal, Option.bind_eq_bind, (reads_primitiveType 1).bind_isSome_iff,
    (reads_arrayType 4 _).bind_isSome_iff, List.length_drop, announced, Option.pure_def,
    Option.isSome_some, and_true]
  omega

end Transport.AckMessage

namespace LatticeWire

theorem reads_values (size : ℕ) :
    Reads (unmarshalValues size) (fun _ => 4 * size)
      fun bytes => (littleEndians 4 size bytes).map UInt32.ofNat :=
  (reads_arrayType 4 size).map fun values => values.map UInt32.ofNat

theorem length_resize {α : Type*} (entries : List α) (size : ℕ) (fresh : α) :
    (resize entries size fresh).length = size := by
  rw [resize, List.length_append, List.length_take, List.length_replicate]
  omega

/-- Each entry of a vector takes what its own counts announce. -/
theorem reads_each {α : Type*} {unmarshal : α → Bytes → Option (α × Bytes)}
    {announced : Bytes → ℕ} {value : α → Bytes → α}
    (h : ∀ object, Reads (unmarshal object) announced (value object)) (objects : List α) :
    Reads (unmarshalEach unmarshal objects) (sizeEach announced objects.length)
      (valueEach announced value objects) := by
  induction objects with
  | nil => exact Reads.pure []
  | cons object objects ih =>
      have hcons := (h object).bind fun entry =>
        ih.bind fun entries => Reads.pure (entry :: entries)
      refine hcons.of_eq ?_ ?_
      · intro bytes
        rfl
      · intro bytes
        rfl

namespace Proposal

def announced (bytes : Bytes) : ℕ := 4 + 4 * littleEndian 4 bytes + 4

theorem reads (object : Proposal) : ∃ value, Reads (unmarshal object) announced value := by
  have hproposal := (reads_primitiveType 4).bind fun numElements =>
    (reads_values numElements).bind fun proposedValue => (reads_primitiveType 4).bind fun number =>
      Reads.pure (⟨proposedValue, UInt32.ofNat number⟩ : Proposal)
  refine ⟨_, hproposal.of_eq ?_ ?_⟩
  · intro bytes
    rfl
  · intro bytes
    rw [announced]
    omega

end Proposal

namespace ProposalMessage

def announced (bytes : Bytes) : ℕ :=
  headerSize + sizeEach Proposal.announced (littleEndian 1 (bytes.drop 4)) (bytes.drop headerSize)

theorem unmarshal_isSome_iff (object : ProposalMessage) (bytes : Bytes) :
    (unmarshal object bytes).isSome ↔ announced bytes ≤ bytes.length := by
  choose value hvalue using Proposal.reads
  have hproposals := reads_each hvalue
  simp only [unmarshal, Option.bind_eq_bind, (reads_primitiveType 4).bind_isSome_iff,
    (reads_primitiveType 1).bind_isSome_iff, (hproposals _).bind_isSome_iff, length_resize,
    List.length_drop, List.drop_drop, announced, headerSize, Option.pure_def, Option.isSome_some,
    and_true]
  omega

end ProposalMessage

namespace Accept

/-- The size of an answer by its status and, for a nack, the count of its value. -/
def announced (bytes : Bytes) : ℕ :=
  1 + 4 + if AcceptStatus.ofByte (UInt8.ofNat (littleEndian 1 bytes)) = .nack then
    4 + 4 * littleEndian 4 (bytes.drop (1 + 4)) else 0

theorem reads (object : Accept) : ∃ value, Reads (unmarshal object) announced value := by
  have hvalue := fun (status : AcceptStatus) (number : ℕ) =>
    (reads_primitiveType 4).bind fun size => (reads_values size).bind fun acceptedValue =>
      Reads.pure (⟨status, UInt32.ofNat number, acceptedValue⟩ : Accept)
  have haccept := (reads_primitiveType 1).bind fun status => (reads_primitiveType 4).bind
    fun number => Reads.ite (AcceptStatus.ofByte (UInt8.ofNat status) = .nack)
      (hvalue (AcceptStatus.ofByte (UInt8.ofNat status)) number)
      (Reads.pure ⟨AcceptStatus.ofByte (UInt8.ofNat status), UInt32.ofNat number,
        object.acceptedValue⟩)
  refine ⟨_, haccept.of_eq ?_ ?_⟩
  · intro bytes
    rfl
  · intro bytes
    simp only [announced, List.drop_drop]
    split_ifs <;> omega

end Accept

namespace AcceptMessage

def announced (bytes : Bytes) : ℕ :=
  headerSize + sizeEach Accept.announced (littleEndian 1 (bytes.drop 4)) (bytes.drop headerSize)

theorem unmarshal_isSome_iff (object : AcceptMessage) (bytes : Bytes) :
    (unmarshal object bytes).isSome ↔ announced bytes ≤ bytes.length := by
  choose value hvalue using Accept.reads
  have haccepts := reads_each hvalue
  simp only [unmarshal, Option.bind_eq_bind, (reads_primitiveType 4).bind_isSome_iff,
    (reads_primitiveType 1).bind_isSome_iff, (haccepts _).bind_isSome_iff, length_resize,
    List.length_drop, List.drop_drop, announced, headerSize, Option.pure_def, Option.isSome_some,
    and_true]
  omega

end AcceptMessage

end LatticeWire

open Transport

/-- On a byte string that passes its assert, a decoder with a count stays inside of the string
exactly if that is as long as announced; the others always do. -/
theorem decoding_in_bounds (bytes : Bytes) (proposalObject : LatticeWire.ProposalMessage)
    (acceptObject : LatticeWire.AcceptMessage) :
    (Packet.headerSize ≤ bytes.length → (Packet.unmarshal bytes).isSome) ∧
    (UrbWire.URBMessage.headerSize ≤ bytes.length →
      (UrbWire.URBMessage.unmarshal bytes).isSome) ∧
    (LatticeWire.LAMessage.headerSize ≤ bytes.length →
      (LatticeWire.LAMessage.unmarshal bytes).isSome) ∧
    (AckMessage.headerSize ≤ bytes.length →
      ((AckMessage.unmarshal bytes).isSome ↔ AckMessage.announced bytes ≤ bytes.length)) ∧
    (LatticeWire.ProposalMessage.headerSize ≤ bytes.length →
      ((proposalObject.unmarshal bytes).isSome ↔
        LatticeWire.ProposalMessage.announced bytes ≤ bytes.length)) ∧
    (LatticeWire.AcceptMessage.headerSize ≤ bytes.length →
      ((acceptObject.unmarshal bytes).isSome ↔
        LatticeWire.AcceptMessage.announced bytes ≤ bytes.length)) := by
  refine ⟨?_, ?_, ?_, ?_, ?_, ?_⟩
  · exact (Packet.unmarshal_isSome_iff bytes).2
  · exact (UrbWire.URBMessage.unmarshal_isSome_iff bytes).2
  · exact (LatticeWire.LAMessage.unmarshal_isSome_iff bytes).2
  · exact fun _ => AckMessage.unmarshal_isSome_iff bytes
  · exact fun _ => LatticeWire.ProposalMessage.unmarshal_isSome_iff proposalObject bytes
  · exact fun _ => LatticeWire.AcceptMessage.unmarshal_isSome_iff acceptObject bytes

/-- An acknowledgement of one message, without the rest of the buffer that is sent with it. -/
theorem decoding_in_bounds_ack :
    AckMessage.announced [1, 5, 0, 0, 0] ≤ 5 ∧ (AckMessage.unmarshal [1, 5, 0, 0, 0]).isSome := by
  have hannounced : AckMessage.announced [1, 5, 0, 0, 0] ≤ 5 := by decide
  have hbounds := decoding_in_bounds [1, 5, 0, 0, 0] ⟨0, []⟩ ⟨0, []⟩
  exact ⟨hannounced, (hbounds.2.2.2.1 (by decide)).2 hannounced⟩

/-- A datagram of eight bytes decodes to a packet whose payload announces 255 acknowledgements and
holds none. A proposal message and an answer may announce an entry and end there. -/
theorem decoding_past_end :
    Packet.unmarshal [67, 0, 0, 0, 0, 0, 1, 255] = some ⟨.ackMessage, 0, 1, [255]⟩ ∧
    (AckMessage.headerSize ≤ [255].length ∧ AckMessage.unmarshal [255] = none) ∧
    (LatticeWire.ProposalMessage.headerSize ≤ [0, 0, 0, 0, 1].length ∧
      LatticeWire.ProposalMessage.unmarshal ⟨0, []⟩ [0, 0, 0, 0, 1] = none) ∧
    (LatticeWire.AcceptMessage.headerSize ≤ [0, 0, 0, 0, 1].length ∧
      LatticeWire.AcceptMessage.unmarshal ⟨0, []⟩ [0, 0, 0, 0, 1] = none) ∧
    ¬ ∀ bytes : Bytes, AckMessage.headerSize ≤ bytes.length →
      (AckMessage.unmarshal bytes).isSome := by
  refine ⟨by decide, ⟨by decide, by decide⟩, ⟨by decide, by decide⟩, ⟨by decide, by decide⟩, ?_⟩
  intro hall
  exact absurd (hall [255] (by decide)) (by decide)

end BroadcastService

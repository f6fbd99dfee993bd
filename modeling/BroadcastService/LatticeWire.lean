import BroadcastService.LatticeAgreement
import BroadcastService.Payload

/-!
# Wire format of lattice agreement

`LAMessage`, `ProposalMessage` and `AcceptMessage` of `primitives/lattice_agreement.hpp` as byte
strings. Fields have the width they have in the source. `Unmarshal` writes into an object that
exists already, entry by entry over a resized vector, so the object is an argument; the second
result of `unmarshal` is what the buffer holds behind the last byte that was read. `marshal` is
`Marshal` into a given buffer and `written` is what it puts at the start of it.

`unmarshal_marshal` for both messages holds for any number of entries: what is decoded is the
`onWire` of the handlers' model. With at most 255 entries nothing is cut off.
-/

namespace BroadcastService.LatticeWire

section Entries
variable {α : Type*}

def resize (entries : List α) (size : ℕ) (fresh : α) : List α :=
  entries.take size ++ List.replicate (size - entries.length) fresh

@[simp] theorem resize_nil (size : ℕ) (fresh : α) :
    resize [] size fresh = List.replicate size fresh := by
  simp [resize]

/-- The loop over the entries of a resized vector, each of which is unmarshalled in place. -/
def unmarshalEach (unmarshal : α → Bytes → Option (α × Bytes)) :
    List α → Bytes → Option (List α × Bytes)
  | [], bytes => some ([], bytes)
  | object :: objects, bytes => do
      let (entry, bytes) ← unmarshal object bytes
      let (entries, rest) ← unmarshalEach unmarshal objects bytes
      return (entry :: entries, rest)

theorem unmarshalEach_replicate {unmarshal : α → Bytes → Option (α × Bytes)} {fresh : α}
    {written : α → Bytes} {entries : List α} (rest : Bytes)
    (h : ∀ entry ∈ entries, ∀ rest,
      unmarshal fresh (written entry ++ rest) = some (entry, rest)) :
    unmarshalEach unmarshal (List.replicate entries.length fresh)
      (entries.flatMap written ++ rest) = some (entries, rest) := by
  induction entries with
  | nil => rfl
  | cons entry entries ih =>
      have hentry := h entry List.mem_cons_self
      have hentries := ih fun e he => h e (List.mem_cons_of_mem entry he)
      rw [List.length_cons, List.replicate_succ, List.flatMap_cons, List.append_assoc,
        unmarshalEach, hentry]
      simp [hentries]

/-- A count that is too small leaves the later entries in the buffer. -/
theorem unmarshalEach_take {unmarshal : α → Bytes → Option (α × Bytes)} {fresh : α}
    {written : α → Bytes} {entries : List α} {count : ℕ} (hcount : count ≤ entries.length)
    (rest : Bytes)
    (h : ∀ entry ∈ entries, ∀ rest,
      unmarshal fresh (written entry ++ rest) = some (entry, rest)) :
    unmarshalEach unmarshal (List.replicate count fresh) (entries.flatMap written ++ rest) =
      some (entries.take count, (entries.drop count).flatMap written ++ rest) := by
  have hlength : (entries.take count).length = count := by
    rw [List.length_take, Nat.min_eq_left hcount]
  have hsplit : entries.flatMap written ++ rest = (entries.take count).flatMap written ++
      ((entries.drop count).flatMap written ++ rest) := by
    rw [← List.append_assoc, ← List.flatMap_append, List.take_append_drop]
  have htake := unmarshalEach_replicate ((entries.drop count).flatMap written ++ rest)
    fun entry (hentry : entry ∈ entries.take count) => h entry (List.mem_of_mem_take hentry)
  rwa [hlength, ← hsplit] at htake

end Entries

def marshalValues (values : List UInt32) : Bytes :=
  binaryMarshalArrayType 4 (values.map UInt32.toNat)

def unmarshalValues (size : ℕ) (bytes : Bytes) : Option (List UInt32 × Bytes) :=
  (binaryUnmarshalArrayType 4 size bytes).map fun (values, rest) =>
    (values.map UInt32.ofNat, rest)

theorem length_marshalValues (values : List UInt32) :
    (marshalValues values).length = 4 * values.length := by
  rw [marshalValues, length_binaryMarshalArrayType, List.length_map]

@[simp] theorem unmarshalValues_marshalValues (values : List UInt32) (rest : Bytes) :
    unmarshalValues values.length (marshalValues values ++ rest) = some (values, rest) := by
  rw [unmarshalValues, marshalValues, unmarshal_marshalUInt32s]
  exact congrArg (fun decoded => some (decoded, rest)) (map_ofNat_toNat values)

theorem unmarshal_marshal_uint32 (value : UInt32) (rest : Bytes) :
    binaryUnmarshalPrimitiveType 4 (binaryMarshalPrimitiveType 4 value.toNat ++ rest) =
      some (value.toNat, rest) := by
  have hvalue : value.toNat % 256 ^ 4 = value.toNat := Nat.mod_eq_of_lt value.toNat_lt
  rw [unmarshal_marshalPrimitiveType, hvalue]

theorem unmarshal_marshal_uint8 (value : UInt8) (rest : Bytes) :
    binaryUnmarshalPrimitiveType 1 (binaryMarshalPrimitiveType 1 value.toNat ++ rest) =
      some (value.toNat, rest) := by
  have hvalue : value.toNat % 256 ^ 1 = value.toNat := Nat.mod_eq_of_lt value.toNat_lt
  rw [unmarshal_marshalPrimitiveType, hvalue]

theorem unmarshal_marshal_count (width size : ℕ) (rest : Bytes) :
    binaryUnmarshalPrimitiveType width
        (binaryMarshalPrimitiveType width (size % 256 ^ width) ++ rest) =
      some (size % 256 ^ width, rest) := by
  rw [unmarshal_marshalPrimitiveType, Nat.mod_mod]

/-- A type read from the network may be none of the three named ones. -/
inductive LAMessageType
  | proposal
  | accept
  | decide
  | other (value : UInt8) (h : 3 ≤ value)
  deriving DecidableEq

def LAMessageType.toByte : LAMessageType → UInt8
  | .proposal => 0
  | .accept => 1
  | .decide => 2
  | .other value _ => value

def LAMessageType.ofByte (value : UInt8) : LAMessageType :=
  if h : 3 ≤ value then .other value h
  else if value = 0 then .proposal
  else if value = 1 then .accept
  else .decide

@[simp] theorem LAMessageType.ofByte_toByte (type : LAMessageType) : ofByte type.toByte = type := by
  cases type with
  | proposal => rfl
  | accept => rfl
  | decide => rfl
  | other value h => rw [toByte, ofByte, dif_pos h]

structure LAMessage where
  type : LAMessageType
  message : Bytes
  deriving DecidableEq

namespace LAMessage

def headerSize : ℕ := 1

def size (message : LAMessage) : ℕ := headerSize + message.message.length

def marshal (message : LAMessage) (bytes : Bytes) : Bytes :=
  overwrite bytes (binaryMarshalPrimitiveType 1 message.type.toByte.toNat ++ message.message)

def unmarshal (bytes : Bytes) : Option LAMessage := do
  let (type, bytes) ← binaryUnmarshalPrimitiveType 1 bytes
  return ⟨LAMessageType.ofByte (UInt8.ofNat type), bytes⟩

/-- What is handed to the transport: a buffer of `Size()` bytes, marshalled into. -/
def buffer (message : LAMessage) : Bytes := message.marshal (List.replicate message.size 0)

theorem unmarshal_buffer (message : LAMessage) : unmarshal message.buffer = some message := by
  have hbytes : message.buffer =
      binaryMarshalPrimitiveType 1 message.type.toByte.toNat ++ message.message := by
    apply overwrite_of_length
    rw [List.length_replicate, List.length_append, length_binaryMarshalPrimitiveType, size,
      headerSize]
  rw [unmarshal, hbytes, unmarshal_marshal_uint8]
  simp

end LAMessage

/-- What `WrapMessage` and its callers use of an `ISerializable`, with the type it is sent under. -/
structure WireFormat (M : Type*) where
  type : LAMessageType
  size : M → ℕ
  marshal : M → Bytes → Bytes
  unmarshal : M → Bytes → Option (M × Bytes)

namespace WireFormat
variable {M : Type*}

def wrapMessage (format : WireFormat M) (message : M) : LAMessage :=
  ⟨format.type, format.marshal message (List.replicate (format.size message) 0)⟩

/-- `Marshal` fills the first `Size()` bytes of a buffer, and a fresh object decodes the message
from them and reads no other byte. -/
structure RoundTrip (format : WireFormat M) (Fresh : M → Prop) (message : M) : Prop where
  written : ∃ data : Bytes, data.length = format.size message ∧
    ∀ bytes : Bytes, format.size message ≤ bytes.length →
      format.marshal message bytes = data ++ bytes.drop (format.size message)
  consumed : ∀ (object : M) (bytes : Bytes), Fresh object → format.size message ≤ bytes.length →
    format.unmarshal object (format.marshal message bytes) =
      some (message, bytes.drop (format.size message))
  unwrapped : ∀ object : M, Fresh object → ∃ received : LAMessage,
    LAMessage.unmarshal (format.wrapMessage message).buffer = some received ∧
      received.type = format.type ∧ format.unmarshal object received.message = some (message, [])

theorem roundTrip_of_consumed {format : WireFormat M} {Fresh : M → Prop} {message : M}
    {data : Bytes} (hlength : data.length = format.size message)
    (hmarshal : ∀ bytes, format.marshal message bytes = overwrite bytes data)
    (hconsumed : ∀ (object : M) (bytes : Bytes), Fresh object →
      format.unmarshal object (format.marshal message bytes) =
        some (message, bytes.drop (format.size message))) :
    format.RoundTrip Fresh message where
  written := by
    refine ⟨data, hlength, ?_⟩
    intro bytes _
    rw [hmarshal, overwrite, hlength]
  consumed := fun object bytes hfresh _ => hconsumed object bytes hfresh
  unwrapped := by
    intro object hfresh
    refine ⟨format.wrapMessage message, LAMessage.unmarshal_buffer _, rfl, ?_⟩
    rw [wrapMessage, hconsumed object _ hfresh, List.drop_eq_nil_of_le]
    rw [List.length_replicate]

theorem eq_of_buffer_eq {format : WireFormat M} {Fresh : M → Prop} {message message' object : M}
    (hfresh : Fresh object) (h : format.RoundTrip Fresh message)
    (h' : format.RoundTrip Fresh message')
    (hbuffer : (format.wrapMessage message).buffer = (format.wrapMessage message').buffer) :
    message = message' := by
  obtain ⟨received, hreceived, -, hmessage⟩ := h.unwrapped object hfresh
  obtain ⟨received', hreceived', -, hmessage'⟩ := h'.unwrapped object hfresh
  rw [hbuffer, hreceived'] at hreceived
  obtain rfl := Option.some_inj.1 hreceived
  rw [hmessage] at hmessage'
  exact congrArg Prod.fst (Option.some_inj.1 hmessage')

end WireFormat

structure Proposal where
  proposedValue : List UInt32
  activeProposalNumber : UInt32
  deriving DecidableEq

namespace Proposal

def written (proposal : Proposal) : Bytes :=
  binaryMarshalPrimitiveType 4 (proposal.proposedValue.length % 256 ^ 4) ++
    (marshalValues proposal.proposedValue ++
      binaryMarshalPrimitiveType 4 proposal.activeProposalNumber.toNat)

def size (proposal : Proposal) : ℕ := 4 + 4 * proposal.proposedValue.length + 4

/-- Every field of the object is overwritten. -/
def unmarshal (_ : Proposal) (bytes : Bytes) : Option (Proposal × Bytes) := do
  let (numElements, bytes) ← binaryUnmarshalPrimitiveType 4 bytes
  let (proposedValue, bytes) ← unmarshalValues numElements bytes
  let (activeProposalNumber, bytes) ← binaryUnmarshalPrimitiveType 4 bytes
  return (⟨proposedValue, UInt32.ofNat activeProposalNumber⟩, bytes)

theorem length_written (proposal : Proposal) : proposal.written.length = proposal.size := by
  simp only [written, size, List.length_append, length_binaryMarshalPrimitiveType,
    length_marshalValues]
  omega

theorem unmarshal_written {proposal : Proposal} (hlength : proposal.proposedValue.length < 2 ^ 32)
    (object : Proposal) (rest : Bytes) :
    unmarshal object (proposal.written ++ rest) = some (proposal, rest) := by
  have hcount : proposal.proposedValue.length % 256 ^ 4 = proposal.proposedValue.length :=
    Nat.mod_eq_of_lt hlength
  rw [unmarshal, written, List.append_assoc, List.append_assoc, unmarshal_marshal_count, hcount]
  simp

end Proposal

structure ProposalMessage where
  firstRoundId : UInt32
  proposals : List Proposal
  deriving DecidableEq

namespace ProposalMessage

def headerSize : ℕ := 4 + 1

def size (message : ProposalMessage) : ℕ :=
  headerSize + (message.proposals.map Proposal.size).sum

def written (message : ProposalMessage) : Bytes :=
  binaryMarshalPrimitiveType 4 message.firstRoundId.toNat ++
    (binaryMarshalPrimitiveType 1 (message.proposals.length % 256 ^ 1) ++
      message.proposals.flatMap Proposal.written)

def marshal (message : ProposalMessage) (bytes : Bytes) : Bytes := overwrite bytes message.written

def unmarshal (object : ProposalMessage) (bytes : Bytes) : Option (ProposalMessage × Bytes) := do
  let (firstRoundId, bytes) ← binaryUnmarshalPrimitiveType 4 bytes
  let (numProposals, bytes) ← binaryUnmarshalPrimitiveType 1 bytes
  let (proposals, bytes) ←
    unmarshalEach Proposal.unmarshal (resize object.proposals numProposals ⟨[], 0⟩) bytes
  return (⟨UInt32.ofNat firstRoundId, proposals⟩, bytes)

def format : WireFormat ProposalMessage := ⟨.proposal, size, marshal, unmarshal⟩

theorem length_written (message : ProposalMessage) : message.written.length = message.size := by
  have hproposals : (message.proposals.flatMap Proposal.written).length =
      (message.proposals.map Proposal.size).sum := by
    rw [List.length_flatMap]
    simp only [Proposal.length_written]
  rw [written, List.length_append, List.length_append, length_binaryMarshalPrimitiveType,
    length_binaryMarshalPrimitiveType, hproposals, size, headerSize]
  omega

def Sized (message : ProposalMessage) : Prop :=
  ∀ proposal ∈ message.proposals, proposal.proposedValue.length < 2 ^ 32

theorem unmarshal_marshal {message : ProposalMessage} (hsized : message.Sized)
    {object : ProposalMessage} (hfresh : object.proposals = []) (bytes : Bytes) :
    unmarshal object (message.marshal bytes) =
      some ({ message with
          proposals := message.proposals.take (message.proposals.length % 256) },
        (message.proposals.drop (message.proposals.length % 256)).flatMap Proposal.written ++
          bytes.drop message.size) := by
  have heach := unmarshalEach_take (Nat.mod_le message.proposals.length 256)
    (bytes.drop message.size) fun proposal hproposal =>
      Proposal.unmarshal_written (hsized proposal hproposal) ⟨[], 0⟩
  rw [marshal, overwrite, length_written, unmarshal, written, List.append_assoc, List.append_assoc,
    unmarshal_marshal_uint32]
  simp [hfresh, heach]

end ProposalMessage

/-- A status read from the network may be none of the two named ones. -/
inductive AcceptStatus
  | ack
  | nack
  | other (value : UInt8) (h : 2 ≤ value)

def AcceptStatus.toByte : AcceptStatus → UInt8
  | .ack => 0
  | .nack => 1
  | .other value _ => value

def AcceptStatus.ofByte (value : UInt8) : AcceptStatus :=
  if h : 2 ≤ value then .other value h
  else if value = 0 then .ack
  else .nack

@[simp] theorem AcceptStatus.ofByte_toByte (status : AcceptStatus) :
    ofByte status.toByte = status := by
  cases status with
  | ack => rfl
  | nack => rfl
  | other value h => rw [toByte, ofByte, dif_pos h]

theorem AcceptStatus.toByte_injective : Function.Injective AcceptStatus.toByte :=
  Function.LeftInverse.injective ofByte_toByte

instance : DecidableEq AcceptStatus := AcceptStatus.toByte_injective.decidableEq

structure Accept where
  status : AcceptStatus
  proposalNumber : UInt32
  acceptedValue : List UInt32
  deriving DecidableEq

namespace Accept

/-- The value is copied up to the narrowed count. -/
def written (accept : Accept) : Bytes :=
  binaryMarshalPrimitiveType 1 accept.status.toByte.toNat ++
    (binaryMarshalPrimitiveType 4 accept.proposalNumber.toNat ++
      if accept.status = .nack then
        binaryMarshalPrimitiveType 4 (accept.acceptedValue.length % 256 ^ 4) ++
          marshalValues (accept.acceptedValue.take (accept.acceptedValue.length % 256 ^ 4))
      else [])

def size (accept : Accept) : ℕ :=
  1 + 4 + if accept.status = .nack then 4 + 4 * accept.acceptedValue.length else 0

/-- Without a value on the wire the object keeps the one it has. -/
def unmarshal (object : Accept) (bytes : Bytes) : Option (Accept × Bytes) := do
  let (status, bytes) ← binaryUnmarshalPrimitiveType 1 bytes
  let status := AcceptStatus.ofByte (UInt8.ofNat status)
  let (proposalNumber, bytes) ← binaryUnmarshalPrimitiveType 4 bytes
  if status = .nack then
    let (acceptedValueSize, bytes) ← binaryUnmarshalPrimitiveType 4 bytes
    let (acceptedValue, bytes) ← unmarshalValues acceptedValueSize bytes
    return (⟨status, UInt32.ofNat proposalNumber, acceptedValue⟩, bytes)
  else
    return (⟨status, UInt32.ofNat proposalNumber, object.acceptedValue⟩, bytes)

/-- The answers of `HandlePropose`: an ack has no value, and the length of the value of a nack fits
`Accept::SizeT`. -/
def AsBuilt (accept : Accept) : Prop :=
  accept.status = .ack ∧ accept.acceptedValue = [] ∨
    accept.status = .nack ∧ accept.acceptedValue.length < 2 ^ 32

theorem length_written {accept : Accept} (h : accept.AsBuilt) :
    accept.written.length = accept.size := by
  obtain ⟨hstatus, -⟩ | ⟨hstatus, hlength⟩ := h
  · simp [written, size, hstatus, length_binaryMarshalPrimitiveType]
  · have hcount : accept.acceptedValue.length % 256 ^ 4 = accept.acceptedValue.length :=
      Nat.mod_eq_of_lt hlength
    rw [written, size, if_pos hstatus, if_pos hstatus, hcount, List.take_length]
    simp only [List.length_append, length_binaryMarshalPrimitiveType, length_marshalValues]
    omega

theorem unmarshal_written {accept : Accept} (h : accept.AsBuilt) {object : Accept}
    (hfresh : object.acceptedValue = []) (rest : Bytes) :
    unmarshal object (accept.written ++ rest) = some (accept, rest) := by
  obtain ⟨status, proposalNumber, acceptedValue⟩ := accept
  obtain ⟨hstatus, hvalue⟩ | ⟨hstatus, hlength⟩ := h
  · simp only at hstatus hvalue
    subst hstatus hvalue
    rw [unmarshal, written, List.append_assoc, List.append_assoc, unmarshal_marshal_uint8]
    simp [hfresh]
  · simp only at hstatus hlength
    subst hstatus
    have hcount : acceptedValue.length % 256 ^ 4 = acceptedValue.length := Nat.mod_eq_of_lt hlength
    rw [unmarshal, written, List.append_assoc, List.append_assoc, unmarshal_marshal_uint8]
    simp only [Option.bind_eq_bind, Option.bind_some, UInt8.ofNat_toNat, AcceptStatus.ofByte_toByte,
      unmarshal_marshal_uint32, UInt32.ofNat_toNat, if_true, List.append_assoc,
      unmarshal_marshal_count]
    rw [hcount, List.take_length, unmarshalValues_marshalValues]
    rfl

end Accept

structure AcceptMessage where
  firstRoundId : UInt32
  accepts : List Accept
  deriving DecidableEq

namespace AcceptMessage

def headerSize : ℕ := 4 + 1

def size (message : AcceptMessage) : ℕ := headerSize + (message.accepts.map Accept.size).sum

def written (message : AcceptMessage) : Bytes :=
  binaryMarshalPrimitiveType 4 message.firstRoundId.toNat ++
    (binaryMarshalPrimitiveType 1 (message.accepts.length % 256 ^ 1) ++
      message.accepts.flatMap Accept.written)

def marshal (message : AcceptMessage) (bytes : Bytes) : Bytes := overwrite bytes message.written

def unmarshal (object : AcceptMessage) (bytes : Bytes) : Option (AcceptMessage × Bytes) := do
  let (firstRoundId, bytes) ← binaryUnmarshalPrimitiveType 4 bytes
  let (numAccepts, bytes) ← binaryUnmarshalPrimitiveType 1 bytes
  let (accepts, bytes) ←
    unmarshalEach Accept.unmarshal (resize object.accepts numAccepts ⟨.ack, 0, []⟩) bytes
  return (⟨UInt32.ofNat firstRoundId, accepts⟩, bytes)

def format : WireFormat AcceptMessage := ⟨.accept, size, marshal, unmarshal⟩

def AsBuilt (message : AcceptMessage) : Prop := ∀ accept ∈ message.accepts, accept.AsBuilt

theorem length_written {message : AcceptMessage} (h : message.AsBuilt) :
    message.written.length = message.size := by
  have haccepts : (message.accepts.flatMap Accept.written).length =
      (message.accepts.map Accept.size).sum := by
    rw [List.length_flatMap]
    congr 1
    apply List.map_congr_left
    intro accept haccept
    exact Accept.length_written (h accept haccept)
  rw [written, List.length_append, List.length_append, length_binaryMarshalPrimitiveType,
    length_binaryMarshalPrimitiveType, haccepts, size, headerSize]
  omega

/-- What is decoded from a message with any number of answers. -/
theorem unmarshal_marshal {message : AcceptMessage} (h : message.AsBuilt) {object : AcceptMessage}
    (hfresh : object.accepts = []) (bytes : Bytes) :
    unmarshal object (message.marshal bytes) =
      some ({ message with accepts := message.accepts.take (message.accepts.length % 256) },
        (message.accepts.drop (message.accepts.length % 256)).flatMap Accept.written ++
          bytes.drop message.size) := by
  have heach := unmarshalEach_take (Nat.mod_le message.accepts.length 256)
    (bytes.drop message.size) fun accept haccept =>
      @Accept.unmarshal_written accept (h accept haccept) ⟨.ack, 0, []⟩ rfl
  rw [marshal, overwrite, length_written h, unmarshal, written, List.append_assoc,
    List.append_assoc, unmarshal_marshal_uint32]
  simp [hfresh, heach]

end AcceptMessage

/-- A message of the handlers with its numbers narrowed to the 32 bits of the wire. -/
def ProposalMessage.narrowed (message : BroadcastService.ProposalMessage) : ProposalMessage :=
  ⟨UInt32.ofNat message.firstRoundId,
    message.proposals.map fun proposal =>
      ⟨proposal.proposedValue, UInt32.ofNat proposal.activeProposalNumber⟩⟩

def AcceptStatus.narrowed : BroadcastService.AcceptStatus → AcceptStatus
  | .ack => .ack
  | .nack => .nack

def AcceptMessage.narrowed (message : BroadcastService.AcceptMessage) : AcceptMessage :=
  ⟨UInt32.ofNat message.firstRoundId,
    message.accepts.map fun accept =>
      ⟨AcceptStatus.narrowed accept.status, UInt32.ofNat accept.proposalNumber,
        accept.acceptedValue⟩⟩

/-- The handlers' `onWire` is what the bytes carry. -/
theorem ProposalMessage.unmarshal_narrowed {message : BroadcastService.ProposalMessage}
    (hsized : (narrowed message).Sized) {object : ProposalMessage} (hfresh : object.proposals = [])
    (bytes : Bytes) :
    (unmarshal object ((narrowed message).marshal bytes)).map Prod.fst =
      some (narrowed message.onWire) := by
  rw [unmarshal_marshal hsized hfresh]
  simp [narrowed, BroadcastService.ProposalMessage.onWire, List.map_take]

theorem AcceptMessage.unmarshal_narrowed {message : BroadcastService.AcceptMessage}
    (h : (narrowed message).AsBuilt) {object : AcceptMessage} (hfresh : object.accepts = [])
    (bytes : Bytes) :
    (unmarshal object ((narrowed message).marshal bytes)).map Prod.fst =
      some (narrowed message.onWire) := by
  rw [unmarshal_marshal h hfresh]
  simp [narrowed, BroadcastService.AcceptMessage.onWire, List.map_take]

/-- The answer to a proposal is one that `Marshal` writes whole, as long as the accepted set has
fewer than `2 ^ 32` elements. -/
theorem handlePropose_asBuilt (proposal : BroadcastService.Proposal) (state : RoundState)
    (hlength : (vectorSetUnion state.acceptedValue proposal.proposedValue).length < 2 ^ 32) :
    let accept := (state.handlePropose proposal).2
    Accept.AsBuilt ⟨AcceptStatus.narrowed accept.status, UInt32.ofNat accept.proposalNumber,
      accept.acceptedValue⟩ := by
  simp only [RoundState.handlePropose]
  split
  · exact .inl ⟨rfl, rfl⟩
  · exact .inr ⟨rfl, hlength⟩

theorem ProposalMessage.roundTrip {message : ProposalMessage}
    (hcount : message.proposals.length ≤ 255) (hsized : message.Sized) :
    format.RoundTrip (fun object => object.proposals = []) message := by
  refine WireFormat.roundTrip_of_consumed (length_written message) (fun _ => rfl) ?_
  intro object bytes hfresh
  have hmod : message.proposals.length % 256 = message.proposals.length :=
    Nat.mod_eq_of_lt (Nat.lt_succ_of_le hcount)
  have hdecoded := unmarshal_marshal hsized hfresh bytes
  rw [hmod, List.take_length, List.drop_length] at hdecoded
  exact hdecoded

theorem AcceptMessage.roundTrip {message : AcceptMessage} (hcount : message.accepts.length ≤ 255)
    (h : message.AsBuilt) : format.RoundTrip (fun object => object.accepts = []) message := by
  refine WireFormat.roundTrip_of_consumed (length_written h) (fun _ => rfl) ?_
  intro object bytes hfresh
  have hmod : message.accepts.length % 256 = message.accepts.length :=
    Nat.mod_eq_of_lt (Nat.lt_succ_of_le hcount)
  have hdecoded := unmarshal_marshal h hfresh bytes
  rw [hmod, List.take_length, List.drop_length] at hdecoded
  exact hdecoded

theorem buffer_proposal_ne_accept (message : ProposalMessage) (message' : AcceptMessage) :
    (ProposalMessage.format.wrapMessage message).buffer ≠
      (AcceptMessage.format.wrapMessage message').buffer := by
  intro hbuffer
  have hreceived := LAMessage.unmarshal_buffer (ProposalMessage.format.wrapMessage message)
  rw [hbuffer, LAMessage.unmarshal_buffer] at hreceived
  have htype : LAMessageType.accept = LAMessageType.proposal :=
    congrArg LAMessage.type (Option.some_inj.1 hreceived)
  cases htype

theorem lattice_wire_round_trip :
    (∀ message : ProposalMessage, message.proposals.length ≤ 255 → message.Sized →
      ProposalMessage.format.RoundTrip (fun object => object.proposals = []) message ∧
        ∀ message' : ProposalMessage, message'.proposals.length ≤ 255 → message'.Sized →
          (ProposalMessage.format.wrapMessage message).buffer =
            (ProposalMessage.format.wrapMessage message').buffer → message = message') ∧
    (∀ message : AcceptMessage, message.accepts.length ≤ 255 → message.AsBuilt →
      AcceptMessage.format.RoundTrip (fun object => object.accepts = []) message ∧
        ∀ message' : AcceptMessage, message'.accepts.length ≤ 255 → message'.AsBuilt →
          (AcceptMessage.format.wrapMessage message).buffer =
            (AcceptMessage.format.wrapMessage message').buffer → message = message') ∧
    ∀ (message : ProposalMessage) (message' : AcceptMessage),
      (ProposalMessage.format.wrapMessage message).buffer ≠
        (AcceptMessage.format.wrapMessage message').buffer := by
  refine ⟨?_, ?_, buffer_proposal_ne_accept⟩
  · intro message hcount hsized
    have hround := ProposalMessage.roundTrip hcount hsized
    refine ⟨hround, ?_⟩
    intro message' hcount' hsized' hbuffer
    have hfresh : (⟨0, []⟩ : ProposalMessage).proposals = [] := rfl
    have hround' := ProposalMessage.roundTrip hcount' hsized'
    exact WireFormat.eq_of_buffer_eq hfresh hround hround' hbuffer
  · intro message hcount h
    have hround := AcceptMessage.roundTrip hcount h
    refine ⟨hround, ?_⟩
    intro message' hcount' h' hbuffer
    have hfresh : (⟨0, []⟩ : AcceptMessage).accepts = [] := rfl
    have hround' := AcceptMessage.roundTrip hcount' h'
    exact WireFormat.eq_of_buffer_eq hfresh hround hround' hbuffer

def mixedAnswer : AcceptMessage := ⟨7, [⟨.ack, 1, []⟩, ⟨.nack, 2, [5, 300]⟩]⟩

theorem mixedAnswer_round_trip :
    mixedAnswer.written = [7, 0, 0, 0, 2, 0, 1, 0, 0, 0, 1, 2, 0, 0, 0, 2, 0, 0, 0,
      5, 0, 0, 0, 44, 1, 0, 0] ∧
    AcceptMessage.format.RoundTrip (fun object => object.accepts = []) mixedAnswer := by
  have hbuilt : mixedAnswer.AsBuilt := by
    intro accept haccept
    simp only [mixedAnswer, List.mem_cons, List.not_mem_nil, or_false] at haccept
    obtain rfl | rfl := haccept
    · exact .inl ⟨rfl, rfl⟩
    · exact .inr ⟨rfl, by decide⟩
  exact ⟨by decide, (lattice_wire_round_trip.2.1 mixedAnswer (by decide) hbuilt).1⟩

end BroadcastService.LatticeWire

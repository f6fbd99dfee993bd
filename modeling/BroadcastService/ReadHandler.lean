import BroadcastService.PerfectLinks

/-!
# The read handler

`ReadEventHandler` of `io/transport/fairloss_channel.hpp` with the `Read` of
`io/transport/udp_socket.hpp`, under a reliable channel. `Handle` reads until the socket would block
or reports that the peer refuses, always into the same buffer, and gives every datagram that is not
empty to the channel. An error is retried with the error policy. Between any two reads datagrams may
arrive and other things may happen to the channel.

The channel gets each datagram once, in the order of arrival, cut to the size of the buffer and with
nothing of the one before (`reads_in_order`), so it behaves as the model of the channel does with
one event for each datagram.
-/

namespace BroadcastService.Transport
open TransitionSystem

/-- The kernel fills the buffer and drops the rest of the datagram. -/
def UDPSocket.read (datagram bytes : Bytes) : ℕ × Bytes :=
  let data := datagram.take bytes.length
  (data.length, overwrite bytes data)

/-- `bytes` is the buffer of a running call of `Handle`. -/
structure ReadSystem where
  channel : ReliableChannel
  errorPolicy : RetryPolicy
  socket : List Bytes := []
  bytes : Option Bytes := none
  armed : Bool := true
  scheduled : Bool := false
  received : List Bytes := []
  events : List ChannelEvent := []
  outputs : List ChannelOutput := []

inductive ReadLabel
  | receive (datagram : Bytes)
  | handle (isError : Bool) (draw : ℕ)
  | read (status : WriteStatus)
  | refused
  | retry
  | other (event : ChannelEvent)

def ChannelEvent.datagram : ChannelEvent → Option Bytes
  | .read datagram _ => some datagram
  | _ => none

namespace ReadSystem

variable (kReadBufferSize : ℕ) (s : ReadSystem)

/-- The call up to its loop, with `Reschedule` for an error. -/
def handle (isError : Bool) (draw : ℕ) : Option ReadSystem :=
  if s.armed then
    if isError then
      if s.errorPolicy.isValid then
        some { s with armed := false, scheduled := true, errorPolicy := s.errorPolicy.next draw }
      else some { s with armed := false }
    else
      some { s with
        armed := false
        errorPolicy := s.errorPolicy.reset
        bytes := some (List.replicate kReadBufferSize 0) }
  else none

def onChannel (event : ChannelEvent) : Option ReadSystem :=
  (s.channel.onEvent event).map fun p =>
    { s with channel := p.1, events := s.events ++ [event], outputs := s.outputs ++ p.2 }

def rearm : ReadSystem := { s with bytes := none, armed := true }

/-- A round of the loop. -/
def read (bytes : Bytes) (status : WriteStatus) : Option ReadSystem :=
  match s.socket with
  | [] => some s.rearm
  | datagram :: socket =>
      let p := UDPSocket.read datagram bytes
      let s := { s with socket, bytes := some p.2 }
      if p.1 = 0 then some s else s.onChannel (.read (p.2.take p.1) status)

def step : ReadLabel → Option ReadSystem
  | .receive datagram =>
      some { s with socket := s.socket ++ [datagram], received := s.received ++ [datagram] }
  | .handle isError draw => s.handle kReadBufferSize isError draw
  | .read status => s.bytes.bind fun bytes => s.read bytes status
  | .refused => s.bytes.map fun _ => s.rearm
  | .retry => if s.scheduled then some { s with scheduled := false, armed := true } else none
  | .other event => if event.datagram = none then s.onChannel event else none

end ReadSystem

def ReliableChannel.onEvents :
    List ChannelEvent → ReliableChannel → Option (ReliableChannel × List ChannelOutput)
  | [], channel => some (channel, [])
  | event :: events, channel => (channel.onEvent event).bind fun p =>
      (ReliableChannel.onEvents events p.1).map fun q => (q.1, p.2 ++ q.2)

theorem ReliableChannel.onEvents_append {events : List ChannelEvent} {event : ChannelEvent}
    {channel channel' channel'' : ReliableChannel} {outs outs' : List ChannelOutput}
    (hevents : onEvents events channel = some (channel', outs))
    (hevent : channel'.onEvent event = some (channel'', outs')) :
    onEvents (events ++ [event]) channel = some (channel'', outs ++ outs') := by
  induction events generalizing channel outs with
  | nil =>
      obtain ⟨rfl, rfl⟩ := Prod.mk.inj (Option.some.inj hevents)
      simp [onEvents, hevent]
  | cons first events ih =>
      obtain ⟨⟨channel₁, outs₁⟩, hfirst, hrest⟩ := Option.bind_eq_some_iff.1 hevents
      obtain ⟨⟨channel₂, outs₂⟩, hsecond, he⟩ := Option.map_eq_some_iff.1 hrest
      obtain ⟨rfl, rfl⟩ := Prod.mk.inj he
      rw [List.cons_append, onEvents, hfirst, Option.bind_some, ih hsecond, Option.map_some,
        List.append_assoc]

def readable (kReadBufferSize : ℕ) (datagrams : List Bytes) : List Bytes :=
  (datagrams.filter fun datagram => !datagram.isEmpty).map (List.take kReadBufferSize)

section Buffer

variable {datagram bytes : Bytes}

theorem UDPSocket.length_read : (UDPSocket.read datagram bytes).2.length = bytes.length := by
  simp only [UDPSocket.read, overwrite, List.length_append, List.length_take, List.length_drop]
  omega

theorem UDPSocket.take_read :
    (UDPSocket.read datagram bytes).2.take (UDPSocket.read datagram bytes).1 =
      datagram.take bytes.length := by
  simp only [UDPSocket.read, overwrite, List.take_left]

theorem UDPSocket.read_eq_zero_iff (h : 0 < bytes.length) :
    (UDPSocket.read datagram bytes).1 = 0 ↔ datagram = [] := by
  simp only [UDPSocket.read, List.length_eq_zero_iff, List.take_eq_nil_iff]
  exact or_iff_right (List.length_pos_iff.1 h)

end Buffer

variable {kReadBufferSize : ℕ} {channel₀ : ReliableChannel} {s s' : ReadSystem}

structure ReadInv (kReadBufferSize : ℕ) (channel₀ : ReliableChannel) (s : ReadSystem) : Prop where
  bytes : ∀ bytes, s.bytes = some bytes → bytes.length = kReadBufferSize
  one : s.armed.toNat + s.scheduled.toNat + s.bytes.isSome.toNat ≤ 1
  events : channel₀.onEvents s.events = some (s.channel, s.outputs)
  order : readable kReadBufferSize s.received =
    s.events.filterMap ChannelEvent.datagram ++ readable kReadBufferSize s.socket

theorem ReadInv.rearm (h : ReadInv kReadBufferSize channel₀ s) {bytes : Bytes}
    (hbytes : s.bytes = some bytes) : ReadInv kReadBufferSize channel₀ s.rearm := by
  have hone := h.one
  rw [hbytes, Option.isSome_some, Bool.toNat_true] at hone
  refine ⟨fun bytes' he => ?_, ?_, h.events, h.order⟩
  · cases he
  · simp only [ReadSystem.rearm, Bool.toNat_true, Option.isSome_none, Bool.toNat_false]
    omega

theorem ReadInv.handle (h : ReadInv kReadBufferSize channel₀ s) {isError : Bool} {draw : ℕ}
    (hs : s.handle kReadBufferSize isError draw = some s') :
    ReadInv kReadBufferSize channel₀ s' := by
  obtain ⟨harmed, hs⟩ := Option.ite_none_right_eq_some.1 hs
  have hone := h.one
  rw [harmed, Bool.toNat_true] at hone
  split_ifs at hs
  · obtain rfl := Option.some.inj hs
    refine ⟨h.bytes, ?_, h.events, h.order⟩
    simp only [Bool.toNat_true, Bool.toNat_false]
    omega
  · obtain rfl := Option.some.inj hs
    refine ⟨h.bytes, ?_, h.events, h.order⟩
    simp only [Bool.toNat_false]
    omega
  · obtain rfl := Option.some.inj hs
    refine ⟨fun bytes he => ?_, ?_, h.events, h.order⟩
    · obtain rfl := Option.some.inj he
      exact List.length_replicate
    · simp only [Bool.toNat_true, Bool.toNat_false, Option.isSome_some]
      omega

theorem ReadInv.onChannel {event : ChannelEvent}
    (hbytes : ∀ bytes, s.bytes = some bytes → bytes.length = kReadBufferSize)
    (hone : s.armed.toNat + s.scheduled.toNat + s.bytes.isSome.toNat ≤ 1)
    (hevents : channel₀.onEvents s.events = some (s.channel, s.outputs))
    (horder : readable kReadBufferSize s.received =
      (s.events ++ [event]).filterMap ChannelEvent.datagram ++ readable kReadBufferSize s.socket)
    (hs : s.onChannel event = some s') : ReadInv kReadBufferSize channel₀ s' := by
  obtain ⟨⟨channel, outs⟩, hevent, rfl⟩ := Option.map_eq_some_iff.1 hs
  exact ⟨hbytes, hone, ReliableChannel.onEvents_append hevents hevent, horder⟩

theorem ReadInv.read (h : ReadInv kReadBufferSize channel₀ s) (hsize : 0 < kReadBufferSize)
    {bytes : Bytes} {status : WriteStatus} (hbytes : s.bytes = some bytes)
    (hs : s.read bytes status = some s') : ReadInv kReadBufferSize channel₀ s' := by
  have hlength := h.bytes bytes hbytes
  have hone : s.armed.toNat + s.scheduled.toNat + (s.bytes.isSome).toNat ≤ 1 := h.one
  rw [hbytes] at hone
  have hpos : 0 < bytes.length := hlength ▸ hsize
  unfold ReadSystem.read at hs
  split at hs
  · obtain rfl := Option.some.inj hs
    exact h.rearm hbytes
  · rename_i datagram socket hsocket
    have horder := h.order
    rw [hsocket] at horder
    have hkept : ∀ bytes', some (UDPSocket.read datagram bytes).2 = some bytes' →
        bytes'.length = kReadBufferSize := by
      intro bytes' he
      rw [← Option.some.inj he, UDPSocket.length_read, hlength]
    dsimp only at hs
    split_ifs at hs with hzero
    · obtain rfl := Option.some.inj hs
      rw [UDPSocket.read_eq_zero_iff hpos] at hzero
      subst hzero
      exact ⟨hkept, hone, h.events, horder⟩
    · rw [UDPSocket.read_eq_zero_iff hpos] at hzero
      rw [UDPSocket.take_read, hlength] at hs
      refine ReadInv.onChannel ?_ ?_ ?_ ?_ hs
      · exact hkept
      · exact hone
      · exact h.events
      · simpa [readable, hzero, ChannelEvent.datagram] using horder

theorem ReadInv.step (h : ReadInv kReadBufferSize channel₀ s) (hsize : 0 < kReadBufferSize)
    {label : ReadLabel} (hs : s.step kReadBufferSize label = some s') :
    ReadInv kReadBufferSize channel₀ s' := by
  cases label with
  | receive datagram =>
      obtain rfl := Option.some.inj hs
      refine ⟨h.bytes, h.one, h.events, ?_⟩
      have happend : ∀ datagrams, readable kReadBufferSize (datagrams ++ [datagram]) =
          readable kReadBufferSize datagrams ++ readable kReadBufferSize [datagram] := by
        intro datagrams
        rw [readable, List.filter_append, List.map_append]
        rfl
      rw [happend, happend, h.order, List.append_assoc]
  | handle isError draw => exact h.handle hs
  | read status =>
      obtain ⟨bytes, hbytes, hs⟩ := Option.bind_eq_some_iff.1 hs
      exact h.read hsize hbytes hs
  | refused =>
      obtain ⟨bytes, hbytes, rfl⟩ := Option.map_eq_some_iff.1 hs
      exact h.rearm hbytes
  | retry =>
      obtain ⟨hscheduled, he⟩ := Option.ite_none_right_eq_some.1 hs
      obtain rfl := Option.some.inj he
      have hone := h.one
      rw [hscheduled, Bool.toNat_true] at hone
      refine ⟨h.bytes, ?_, h.events, h.order⟩
      simp only [Bool.toNat_true, Bool.toNat_false]
      omega
  | other event =>
      obtain ⟨hdatagram, hs⟩ := Option.ite_none_right_eq_some.1 hs
      refine ReadInv.onChannel h.bytes h.one h.events ?_ hs
      rw [List.filterMap_append, List.filterMap_cons_none hdatagram, List.filterMap_nil,
        List.append_nil]
      exact h.order

/-- The channel under the read handler is the channel after the events made so far. They read the
datagrams that are not empty once and in the order of arrival, as far as these have left the socket,
and the handler is armed, running or scheduled at most once. -/
theorem reads_in_order (hsize : 0 < kReadBufferSize) {errorPolicy : RetryPolicy}
    (hr : Reachable (fun (s : ReadSystem) => s.step kReadBufferSize)
      { channel := channel₀, errorPolicy } s) :
    channel₀.onEvents s.events = some (s.channel, s.outputs) ∧
    readable kReadBufferSize s.received =
      s.events.filterMap ChannelEvent.datagram ++ readable kReadBufferSize s.socket ∧
    s.armed.toNat + s.scheduled.toNat + s.bytes.isSome.toNat ≤ 1 := by
  have h : ReadInv kReadBufferSize channel₀ s := by
    apply hr.invariant (I := ReadInv kReadBufferSize channel₀)
    · refine ⟨fun bytes he => ?_, le_rfl, rfl, rfl⟩
      cases he
    · exact fun _ _ _ _ h _ hs => h.step hsize hs
  exact ⟨h.events, h.order, h.one⟩

def sevenPacket : Packet := ⟨.payloadMessage, 0, 0, [7]⟩

def messageReadTwice : List ReadLabel :=
  [.receive sevenPacket.datagram, .receive [], .handle false 0, .read .ok,
    .receive sevenPacket.datagram, .read .ok, .read .ok, .read .ok]

theorem reads_in_order_twice : ∃ s : ReadSystem, s.armed = true ∧
    s.events.filterMap ChannelEvent.datagram = [sevenPacket.datagram, sevenPacket.datagram] ∧
    (exampleConfig true).start.onEvents s.events = some (s.channel, s.outputs) := by
  obtain ⟨s, hr, harmed, hsocket, hreceived⟩ : ∃ s, Reachable (fun (s : ReadSystem) => s.step 100)
      { channel := (exampleConfig true).start, errorPolicy := (exampleConfig true).errorPolicy } s ∧
      s.armed = true ∧ s.socket = [] ∧
      s.received = [sevenPacket.datagram, [], sevenPacket.datagram] :=
    exists_reachable messageReadTwice (by decide +kernel)
  obtain ⟨hevents, horder, -⟩ := reads_in_order (by decide) hr
  have hreadable : readable 100 [sevenPacket.datagram, [], sevenPacket.datagram] =
      [sevenPacket.datagram, sevenPacket.datagram] := by decide
  rw [hsocket, hreceived, hreadable] at horder
  exact ⟨s, harmed, by rw [horder]; exact (List.append_nil _).symm, hevents⟩

end BroadcastService.Transport

import BroadcastService.PerfectLinks

/-!
# The reliable transport

`io/transport/reliable_transport.hpp`: a process with a reliable channel for each of the other hosts
of its `HostsTable`. The channels draw their identifiers from one instance of `UniqueID`, so a
channel takes an event with the count of the process. They also share a timer service, where each of
them sees the others as the other users of `ReliableChannel`.

A channel acknowledges a payload packet before it invokes the callback that passes the packet to the
packet batcher; in between the packet is in `callbacks`. The kernel of a process chooses the socket,
and with it the channel, that a datagram arrives on: `route q p` is the channel of `q` that reads
the datagrams of `p`. An acknowledgement leaves on the socket of the channel that read the packet.
-/

namespace BroadcastService.Transport
open MessagePassing

structure ReliableTransport where
  localId : UInt8
  peers : List UInt8
  channels : UInt8 → ReliableChannel
  messageIds : ℕ := 0
  callbacks : List Packet := []

inductive TransportEvent
  | send (peer : UInt8) (message : Bytes)
  | read (sender : UInt8) (datagram : Bytes) (status : WriteStatus)
  | callback (index : ℕ)
  | internal (peer : UInt8) (event : ChannelEvent)

/-- `justValue` is the future that `Send` returns for a message to the process itself. -/
inductive TransportOutput
  | channel (peer : UInt8) (output : ChannelOutput)
  | addPacket (packet : Packet)
  | justValue (packet : Packet)
  deriving DecidableEq

/-- The events of a channel that need no other process and no user. -/
def ChannelEvent.isInternal : ChannelEvent → Bool
  | .send _ | .read _ _ | .otherMessageId => false
  | _ => true

def ChannelOutput.calledBack : ChannelOutput → Option Packet
  | .callback packet => some packet
  | _ => none

namespace ReliableTransport

variable (transport : ReliableTransport)

/-- A channel as it takes its next event. -/
def channel (peer : UInt8) : ReliableChannel :=
  { transport.channels peer with messageIds := transport.messageIds }

def update (peer : UInt8) (channel : ReliableChannel) (outs : List ChannelOutput) :
    ReliableTransport :=
  { transport with
    channels := Function.update transport.channels peer channel
    messageIds := channel.messageIds
    callbacks := transport.callbacks ++ outs.filterMap ChannelOutput.calledBack }

/-- Accessing a channel that does not exist ends the process. -/
def onChannel (peer : UInt8) (event : ChannelEvent) :
    Option (ReliableTransport × List TransportOutput) :=
  if peer ∈ transport.peers then
    ((transport.channel peer).onEvent event).map fun (channel, outs) =>
      (transport.update peer channel outs, outs.map (.channel peer))
  else none

def sendLocal (message : Bytes) : ReliableTransport × List TransportOutput :=
  let packet : Packet := ⟨.payloadMessage, 0, transport.localId, message⟩
  (transport, [.addPacket packet, .justValue packet])

def send (peer : UInt8) (message : Bytes) : Option (ReliableTransport × List TransportOutput) :=
  if peer = transport.localId then some (transport.sendLocal message)
  else transport.onChannel peer (.send message)

/-- `GetReliableChannelCallback`: a packet with another source than the peer of the channel is
logged and passed on as well. -/
def callback (index : ℕ) : Option (ReliableTransport × List TransportOutput) :=
  transport.callbacks[index]?.map fun packet =>
    ({ transport with callbacks := transport.callbacks.eraseIdx index }, [.addPacket packet])

def onEvent (route : UInt8 → UInt8) :
    TransportEvent → Option (ReliableTransport × List TransportOutput)
  | .send peer message => transport.send peer message
  | .read sender datagram status => transport.onChannel (route sender) (.read datagram status)
  | .callback index => transport.callback index
  | .internal peer event => if event.isInternal then transport.onChannel peer event else none

end ReliableTransport

/-- The hosts of the `HostsTable` and the parameters of the channels. -/
structure TransportConfig where
  hosts : List UInt8
  channel : ChannelConfig

def TransportConfig.start (config : TransportConfig) (localId : UInt8) : ReliableTransport where
  localId
  peers := config.hosts.filter (· ≠ localId)
  channels _ := { config.channel with localId }.start

/-- Processes over a lossy network, each with the routing of its kernel. -/
def transportProgram (config : UInt8 → TransportConfig) (route : UInt8 → UInt8 → UInt8) :
    DatagramProgram UInt8 ReliableTransport Bytes TransportEvent TransportOutput where
  start p := (config p).start p
  onEvent p transport event := transport.onEvent (route p) event
  read
    | _, .read sender datagram _ => some (sender, datagram)
    | _, _ => none
  written
    | _, .channel peer (.write datagram) => [(peer, datagram)]
    | _, _ => []

abbrev TransportHistory := History UInt8 ReliableTransport Bytes TransportOutput

def channelTrace (t : List TransportOutput) (peer : UInt8) : List ChannelOutput :=
  t.filterMap fun o => match o with
    | .channel peer' output => if peer' = peer then some output else none
    | _ => none

@[simp] theorem channelTrace_append (t t' : List TransportOutput) (peer : UInt8) :
    channelTrace (t ++ t') peer = channelTrace t peer ++ channelTrace t' peer :=
  List.filterMap_append

theorem channelTrace_map (outs : List ChannelOutput) (peer peer' : UInt8) :
    channelTrace (outs.map (.channel peer)) peer' = if peer = peer' then outs else [] := by
  rw [channelTrace, List.filterMap_map]
  split_ifs with h
  · simp [h]
  · simp [h]

theorem mem_channelTrace {t : List TransportOutput} {peer : UInt8} {output : ChannelOutput} :
    output ∈ channelTrace t peer ↔ .channel peer output ∈ t := by
  simp only [channelTrace, List.mem_filterMap]
  constructor
  · rintro ⟨o, ho, h⟩
    cases o with
    | channel peer' output' =>
        obtain ⟨rfl, rfl⟩ : peer' = peer ∧ output' = output := by simpa using h
        exact ho
    | _ => cases h
  · intro h
    exact ⟨_, h, by simp⟩

namespace ReliableTransport

variable {transport transport' : ReliableTransport} {outs : List TransportOutput}

/-- Everything an event can do to a process. -/
inductive Step (route : UInt8 → UInt8) (transport : ReliableTransport) :
    TransportEvent → ReliableTransport → List TransportOutput → Prop
  | sendLocal (message : Bytes) :
      Step route transport (.send transport.localId message) (transport.sendLocal message).1
        (transport.sendLocal message).2
  | callback {index : ℕ} {packet : Packet} (h : transport.callbacks[index]? = some packet) :
      Step route transport (.callback index)
        { transport with callbacks := transport.callbacks.eraseIdx index } [.addPacket packet]
  | channel {event : TransportEvent} {peer : UInt8} {channelEvent : ChannelEvent}
      {channel' : ReliableChannel} {outs : List ChannelOutput} (hpeer : peer ∈ transport.peers)
      (hread : ∀ datagram status, channelEvent = .read datagram status →
        ∃ sender, event = .read sender datagram status ∧ peer = route sender)
      (h : (transport.channel peer).onEvent channelEvent = some (channel', outs)) :
      Step route transport event (transport.update peer channel' outs) (outs.map (.channel peer))

theorem onChannel_step {route : UInt8 → UInt8} {event : TransportEvent} {peer : UInt8}
    {channelEvent : ChannelEvent} (hs : transport.onChannel peer channelEvent =
      some (transport', outs))
    (hread : ∀ datagram status, channelEvent = .read datagram status →
      ∃ sender, event = .read sender datagram status ∧ peer = route sender) :
    Step route transport event transport' outs := by
  unfold onChannel at hs
  split_ifs at hs with hpeer
  obtain ⟨⟨channel', outs'⟩, hevent, he⟩ := Option.map_eq_some_iff.1 hs
  obtain ⟨rfl, rfl⟩ := Prod.mk.inj he
  exact .channel hpeer hread hevent

theorem onEvent_step {route : UInt8 → UInt8} {event : TransportEvent}
    (hs : transport.onEvent route event = some (transport', outs)) :
    Step route transport event transport' outs := by
  cases event with
  | send peer message =>
      simp only [onEvent, send] at hs
      split_ifs at hs with hlocal
      · obtain ⟨rfl, rfl⟩ := Prod.mk.inj (Option.some.inj hs)
        subst hlocal
        exact .sendLocal message
      · exact onChannel_step hs (by simp)
  | read sender datagram status =>
      apply onChannel_step hs
      intro datagram' status' he
      obtain ⟨rfl, rfl⟩ := ChannelEvent.read.inj he
      exact ⟨sender, rfl, rfl⟩
  | callback index =>
      obtain ⟨packet, hpacket, he⟩ := Option.map_eq_some_iff.1 hs
      obtain ⟨rfl, rfl⟩ := Prod.mk.inj he
      exact .callback hpacket
  | internal peer event =>
      simp only [onEvent] at hs
      split_ifs at hs with hinternal
      apply onChannel_step hs
      rintro datagram status rfl
      cases hinternal

theorem channel_update_self (peer : UInt8) (channel' : ReliableChannel)
    (outs : List ChannelOutput) :
    (transport.update peer channel' outs).channel peer = channel' := by
  simp [channel, update]

theorem channel_update_ne {peer peer' : UInt8} (h : peer' ≠ peer) (channel' : ReliableChannel)
    (outs : List ChannelOutput) : (transport.update peer channel' outs).channel peer' =
      { transport.channel peer' with messageIds := channel'.messageIds } := by
  simp [channel, update, h]

end ReliableTransport

end BroadcastService.Transport

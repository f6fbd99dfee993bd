import BroadcastService.FairLossChannel
import BroadcastService.LossyNetwork
import BroadcastService.UnorderedMap

/-!
# The reliable channel

`io/transport/reliable_channel.hpp` and `BackoffRetryTimer` on an explicit state. Next to the
members of the channel the state holds what it shares with the rest of its process: the timer
service with the timers that the current `Tick` still has to fire, the instance of `UniqueID` (a
count of draws), the number of contracts made so far, and the timer identifiers of other users of
the timer service. A promise is the number of its contract; a promise that was moved from has none.

`ChannelEvent` lists what can happen to a channel. `ChannelOutput` records the calls of `Send`, the
datagrams written, the payload packets handled, the invocations of the callback and the promises
set. A result of `none` stands for a call that ends the process or that cannot happen in this state.
A call is one step here; `ReliableCalls` cuts it at its accesses to what other threads use.
-/

namespace BroadcastService.Transport
open MessagePassing

inductive TimerTask
  | backoffRetry (packet : Packet) (retryPolicy : RetryPolicy)
  | retryFunction
  | other

structure MessageEntry where
  timerId : ℕ
  promise : Option ℕ
  credits : ℕ
  deriving DecidableEq

structure ReliableChannel where
  timerService : TimerService TimerTask
  localId : UInt8
  fairLoss : FairLossChannel
  retryPolicy : RetryPolicy
  messageEntries : MRMWUnorderedMap UInt32 MessageEntry := {}
  delivered : Finset UInt32 := ∅
  firedTimers : List (Timer TimerTask) := []
  messageIds : ℕ := 0
  contracts : ℕ := 0
  otherTimers : Finset ℕ := ∅

inductive ChannelEvent
  | send (message : Bytes)
  | read (datagram : Bytes) (status : WriteStatus)
  | tick (elapsed : ℕ)
  | fire (draw : ℕ)
  | write (type : EventType) (status : WriteStatus) (draw : ℕ)
  | stop
  | otherMessageId
  | otherTimerId
  | otherAddTimer (id duration : ℕ)
  | otherCancelTimer (id : ℕ)

inductive ChannelOutput
  | send (contract : ℕ) (packet : Packet)
  | write (datagram : Bytes)
  | handle (packet : Packet)
  | callback (packet : Packet)
  | resolve (contract : ℕ) (hasValue : Bool)
  deriving DecidableEq

namespace ReliableChannel

variable (channel : ReliableChannel)

def createPacket (payload : Bytes) (type : PacketType) (id : UInt32) : Packet :=
  ⟨type, id, channel.localId, payload⟩

def send (message : Bytes) : ReliableChannel × List ChannelOutput :=
  let contract := channel.contracts
  let (timerId, timerService) := channel.timerService.getID
  let messageId := UInt32.ofNat channel.messageIds
  let entry : MessageEntry := ⟨timerId, some contract, 1⟩
  let packet := channel.createPacket message .payloadMessage messageId
  ({ channel with
      contracts := contract + 1
      messageIds := channel.messageIds + 1
      messageEntries := channel.messageEntries.set messageId entry
      timerService := timerService.addTimer (.backoffRetry packet channel.retryPolicy) timerId
        channel.retryPolicy.timeoutMs
      fairLoss := channel.fairLoss.send packet },
    [.send contract packet])

/-- `Set` on a promise does nothing if the promise was moved from. -/
def resolve (promise : Option ℕ) (hasValue : Bool) : List ChannelOutput :=
  promise.elim [] fun contract => [.resolve contract hasValue]

def handleAckMessage : List UInt32 → ReliableChannel → ReliableChannel × List ChannelOutput
  | [], channel => (channel, [])
  | messageId :: acks, channel =>
      match channel.messageEntries.take messageId with
      | (none, _) => handleAckMessage acks channel
      | (some entry, messageEntries) =>
          let channel :=
            { channel with
              messageEntries
              timerService := channel.timerService.cancelTimer entry.timerId
              fairLoss := channel.fairLoss.addSendCredits entry.credits }
          let (channel, outs) := handleAckMessage acks channel
          (channel, resolve entry.promise true ++ outs)

/-- `status` is the status of writing the acknowledgement directly to the socket. -/
def handlePayloadMessage (packet : Packet) (status : WriteStatus) :
    Option (ReliableChannel × List ChannelOutput) :=
  if channel.fairLoss.socketOpen then
    let ackMessage : AckMessage := ⟨[packet.id]⟩
    let ackPayload := ackMessage.marshal (List.replicate ackMessage.size 0)
    let ackPacket :=
      channel.createPacket ackPayload .ackMessage (UInt32.ofNat channel.messageIds)
    let channel' :=
      { channel with
        messageIds := channel.messageIds + 1
        delivered := insert packet.id channel.delivered }
    let callback := if packet.id ∈ channel.delivered then [] else [.callback packet]
    if status = .ok then
      some (channel', .handle packet :: .write ackPacket.datagram :: callback)
    else
      some ({ channel' with fairLoss := channel.fairLoss.send ackPacket },
        .handle packet :: callback)
  else none

def handlePacket (packet : Packet) (status : WriteStatus) :
    Option (ReliableChannel × List ChannelOutput) :=
  match packet.type with
  | .ackMessage =>
      (AckMessage.unmarshal packet.message).map fun message =>
        handleAckMessage message.acks channel
  | .payloadMessage => channel.handlePayloadMessage packet status
  | .other _ _ => none

def read (datagram : Bytes) (status : WriteStatus) :
    Option (ReliableChannel × List ChannelOutput) :=
  (Packet.unmarshal datagram).bind fun packet => channel.handlePacket packet status

/-- `BackoffRetryTimer::Fire`: retry, then rearm under the same identifier while the policy is
valid. -/
def fireBackoffRetry (packet : Packet) (retryPolicy : RetryPolicy) (id draw : ℕ) :
    ReliableChannel :=
  let channel :=
    { channel with fairLoss := (channel.fairLoss.addSendCredits 1).send packet }
  let retryPolicy := retryPolicy.next draw
  if retryPolicy.isValid then
    { channel with
      timerService := channel.timerService.addTimer (.backoffRetry packet retryPolicy) id
        retryPolicy.timeoutMs }
  else channel

def fire (draw : ℕ) : Option ReliableChannel :=
  match channel.firedTimers with
  | [] => none
  | timer :: firedTimers =>
      let channel := { channel with firedTimers }
      match timer.task with
      | .backoffRetry packet retryPolicy =>
          some (channel.fireBackoffRetry packet retryPolicy timer.id draw)
      | .retryFunction =>
          some { channel with fairLoss := { channel.fairLoss with writeArmed := true } }
      | .other => some channel

/-- The part of `Tick` that collects the timers. The next `Tick` starts after the last timer of this
one was fired. -/
def tick (elapsed : ℕ) : Option ReliableChannel :=
  if channel.firedTimers.isEmpty then
    let (_, firedTimers, timerService) := channel.timerService.collect elapsed
    some { channel with firedTimers, timerService }
  else none

/-- `ScheduleAfter` is the only thing the write handler does to the timer service. -/
def applyEffect (timerService : TimerService TimerTask) : WriteEffect → TimerService TimerTask
  | .schedule timeoutMs =>
      let (id, timerService) := timerService.getID
      timerService.addTimer .retryFunction id timeoutMs
  | .write _ => timerService

def writtenBy : WriteEffect → List ChannelOutput
  | .write packet => [.write packet.datagram]
  | .schedule _ => []

def write (type : EventType) (status : WriteStatus) (draw : ℕ) :
    Option (ReliableChannel × List ChannelOutput) :=
  (channel.fairLoss.advance type status draw).map fun (fairLoss, effects) =>
    ({ channel with
        fairLoss
        timerService := effects.foldl applyEffect channel.timerService },
      effects.flatMap writtenBy)

/-- The entries that `Drain` leaves in the map have lost their promises. -/
def stop : Option (ReliableChannel × List ChannelOutput) :=
  channel.fairLoss.stop.map fun fairLoss =>
    let (entries, messageEntries) :=
      channel.messageEntries.drain fun entry => { entry with promise := none }
    ({ channel with
        fairLoss
        messageEntries
        timerService := entries.foldl (fun timerService entry =>
          timerService.cancelTimer entry.timerId) channel.timerService },
      entries.flatMap fun entry => resolve entry.promise false)

def onEvent : ChannelEvent → Option (ReliableChannel × List ChannelOutput)
  | .send message => some (channel.send message)
  | .read datagram status => channel.read datagram status
  | .tick elapsed => (channel.tick elapsed).map fun channel => (channel, [])
  | .fire draw => (channel.fire draw).map fun channel => (channel, [])
  | .write type status draw => channel.write type status draw
  | .stop => channel.stop
  | .otherMessageId => some ({ channel with messageIds := channel.messageIds + 1 }, [])
  | .otherTimerId =>
      let (id, timerService) := channel.timerService.getID
      some ({ channel with timerService, otherTimers := insert id channel.otherTimers }, [])
  | .otherAddTimer id duration =>
      if id ∈ channel.otherTimers then
        some ({ channel with timerService := channel.timerService.addTimer .other id duration }, [])
      else none
  | .otherCancelTimer id =>
      if id ∈ channel.otherTimers then
        some ({ channel with timerService := channel.timerService.cancelTimer id }, [])
      else none

end ReliableChannel

/-- The arguments of the constructors of a channel and its timer service. -/
structure ChannelConfig where
  tickDuration : ℕ
  localId : UInt8
  msgPolicy : RetryPolicy
  errorPolicy : RetryPolicy
  emptyWritePolicy : RetryPolicy
  maxSendBudget : ℕ

def ChannelConfig.start (config : ChannelConfig) : ReliableChannel where
  timerService := { tickDuration := config.tickDuration }
  localId := config.localId
  fairLoss :=
    { sendBudget := ⟨config.maxSendBudget, config.maxSendBudget⟩
      errorPolicy := config.errorPolicy
      emptyWritePolicy := config.emptyWritePolicy }
  retryPolicy := config.msgPolicy

def linkProgram (config : Bool → ChannelConfig) :
    DatagramProgram Bool ReliableChannel Bytes ChannelEvent ChannelOutput where
  start p := (config p).start
  onEvent _ channel event := channel.onEvent event
  read
    | p, .read datagram _ => some (!p, datagram)
    | _, _ => none
  written
    | p, .write datagram => [(!p, datagram)]
    | _, _ => []

end BroadcastService.Transport

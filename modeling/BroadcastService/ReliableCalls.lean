import BroadcastService.ReliableChannel
import BroadcastService.WriteHandler

/-!
# The calls of a reliable channel, one shared access at a time

`ReliableChannel::Send`, the read handler and `BackoffRetryTimer::Fire` run on different threads and
take no common lock, so each of them is cut at its accesses to what the others use: the timer
service, the message identifiers, `message_entries_` and the fair-loss channel below. Any number of
calls of `Send` are under way at once. The read event is one-shot and the timers of a `Tick` fire
one after the other, so there is one datagram and one timer at a time.

The fair-loss channel is a `WriteSystem`, in which the calls of `FairLossChannel::Send` and `Handle`
take their own steps. The retry timers are timers of others in its wheel; `retryTimers` has the
objects that the timer service owns for them. `delivered_`, the callback, the promises that are set
and `Stop` are left out: nothing here depends on them.
-/

namespace BroadcastService.Transport.ReliableCalls
open TransitionSystem WriteHandler

/-- Where a call of `Send` stands: the next access is
* `started`: `GetID`,
* `timed`: `Get` of the message identifier,
* `numbered`: `Set`,
* `registered`: `AddTimer`,
* `armed`: `FairLossChannel::Send`. -/
inductive SendStage
  | started
  | timed (timerId : ℕ)
  | numbered (timerId : ℕ) (messageId : UInt32)
  | registered (timerId : ℕ) (messageId : UInt32)
  | armed (messageId : UInt32)
  deriving DecidableEq

/-- A call is named by its contract. -/
structure SendCall where
  contract : ℕ
  message : Bytes
  stage : SendStage := .started
  deriving DecidableEq

/-- Where the callback of the read handler stands: the next access is
* `taking`: `Take` of the next acknowledged message,
* `cancelling`: `CancelTimer`,
* `crediting`: `AddSendCredits`,
* `acknowledging`: `Get` of an identifier for the acknowledgement,
* `writingAck`: the write to the socket,
* `queueingAck`: `FairLossChannel::Send`,
* `sendingAck`: the end of that call. -/
inductive ReadCall
  | taking (acks : List UInt32)
  | cancelling (entry : MessageEntry) (acks : List UInt32)
  | crediting (entry : MessageEntry) (acks : List UInt32)
  | acknowledging (id : UInt32)
  | writingAck (packet : Packet)
  | queueingAck (packet : Packet)
  | sendingAck (linked : PacketLinked)

structure RetryTimer where
  timerId : ℕ
  packet : Packet
  retryPolicy : RetryPolicy

/-- Where a call of `Fire` stands: the next access is
* `crediting`: `AddSendCredits`,
* `sending`: `FairLossChannel::Send`,
* `rearming`: the end of that call, and `Rearm`. -/
inductive FireCall
  | crediting (timer : RetryTimer)
  | sending (timer : RetryTimer)
  | rearming (timer : RetryTimer) (linked : PacketLinked)

/-- The entry that was taken and whose credits are not returned yet. -/
def ReadCall.taken : ReadCall → Option MessageEntry
  | .cancelling entry _ => some entry
  | .crediting entry _ => some entry
  | _ => none

def FireCall.timer : FireCall → RetryTimer
  | .crediting timer => timer
  | .sending timer => timer
  | .rearming timer _ => timer

/-- `otherTimers` are the timer identifiers that other users of the timer service have drawn. -/
structure ReliableSystem where
  fairLoss : WriteSystem
  localId : UInt8
  retryPolicy : RetryPolicy
  messageEntries : MRMWUnorderedMap UInt32 MessageEntry := {}
  messageIds : ℕ := 0
  contracts : ℕ := 0
  sends : List SendCall := []
  reading : Option ReadCall := none
  firing : Option FireCall := none
  retryTimers : List RetryTimer := []
  otherTimers : Finset ℕ := ∅

def initial (fairLoss : WriteSystem) (localId : UInt8) (retryPolicy : RetryPolicy) :
    ReliableSystem where
  fairLoss
  localId
  retryPolicy

namespace ReliableSystem

variable (s : ReliableSystem)

def createPacket (payload : Bytes) (type : PacketType) (id : UInt32) : Packet :=
  ⟨type, id, s.localId, payload⟩

def UnderWay (linked : PacketLinked) : Prop :=
  linked ∈ s.fairLoss.started ∨ linked ∈ s.fairLoss.checked ∨ linked ∈ s.fairLoss.registered

instance (linked : PacketLinked) : Decidable (s.UnderWay linked) :=
  inferInstanceAs (Decidable (_ ∨ _ ∨ _))

def link (packet : Packet) : PacketLinked := ⟨s.fairLoss.history.sendCalls, packet⟩

def send (message : Bytes) : ReliableSystem :=
  { s with
    contracts := s.contracts + 1
    sends := ⟨s.contracts, message, .started⟩ :: s.sends }

def sendNext (contract : ℕ) (message : Bytes) : SendStage → Option ReliableSystem
  | .started =>
      some { s with
        fairLoss := s.fairLoss.getTimerID
        sends := ⟨contract, message, .timed s.fairLoss.timerService.getID.1⟩ :: s.sends }
  | .timed timerId =>
      some { s with
        messageIds := s.messageIds + 1
        sends := ⟨contract, message, .numbered timerId (UInt32.ofNat s.messageIds)⟩ :: s.sends }
  | .numbered timerId messageId =>
      some { s with
        messageEntries := s.messageEntries.set messageId ⟨timerId, some contract, 1⟩
        sends := ⟨contract, message, .registered timerId messageId⟩ :: s.sends }
  | .registered timerId messageId =>
      let packet := s.createPacket message .payloadMessage messageId
      (s.fairLoss.addTimer timerId s.retryPolicy.timeoutMs).map fun fairLoss =>
        { s with
          fairLoss
          retryTimers := ⟨timerId, packet, s.retryPolicy⟩ :: s.retryTimers
          sends := ⟨contract, message, .armed messageId⟩ :: s.sends }
  | .armed messageId =>
      let packet := s.createPacket message .payloadMessage messageId
      some { s with fairLoss := s.fairLoss.send packet }

def advanceSend (call : SendCall) : Option ReliableSystem :=
  if call ∈ s.sends then
    { s with sends := s.sends.erase call }.sendNext call.contract call.message call.stage
  else none

def read (datagram : Bytes) : Option ReliableSystem :=
  if s.reading.isNone then
    (Packet.unmarshal datagram).bind fun packet => match packet.type with
      | .ackMessage => (AckMessage.unmarshal packet.message).map fun message =>
          { s with reading := some (.taking message.acks) }
      | .payloadMessage => some { s with reading := some (.acknowledging packet.id) }
      | .other _ _ => none
  else none

/-- `status` is the status of writing the acknowledgement directly to the socket. -/
def readNext (status : WriteStatus) : ReadCall → Option ReliableSystem
  | .taking [] => some { s with reading := none }
  | .taking (messageId :: acks) =>
      match s.messageEntries.take messageId with
      | (none, _) => some { s with reading := some (.taking acks) }
      | (some entry, messageEntries) =>
          some { s with messageEntries, reading := some (.cancelling entry acks) }
  | .cancelling entry acks =>
      (s.fairLoss.cancelTimer entry.timerId).map fun fairLoss =>
        { s with fairLoss, reading := some (.crediting entry acks) }
  | .crediting entry acks =>
      some { s with
        fairLoss := s.fairLoss.addSendCredits (UInt64.ofNat entry.credits)
        reading := some (.taking acks) }
  | .acknowledging id =>
      let ackMessage : AckMessage := ⟨[id]⟩
      let ackPayload := ackMessage.marshal (List.replicate ackMessage.size 0)
      let ackPacket := s.createPacket ackPayload .ackMessage (UInt32.ofNat s.messageIds)
      some { s with messageIds := s.messageIds + 1, reading := some (.writingAck ackPacket) }
  | .writingAck packet =>
      some { s with reading := if status = .ok then none else some (.queueingAck packet) }
  | .queueingAck packet =>
      some { s with
        fairLoss := s.fairLoss.send packet
        reading := some (.sendingAck (s.link packet)) }
  | .sendingAck linked => if s.UnderWay linked then none else some { s with reading := none }

def advanceRead (status : WriteStatus) : Option ReliableSystem :=
  s.reading.bind (s.readNext status)

/-- `Tick` up to the first timer to fire. The timers that it cancels are deleted. -/
def tick (elapsed : ℕ) : Option ReliableSystem :=
  if s.firing.isNone then
    (s.fairLoss.tick elapsed).map fun fairLoss =>
      { s with
        fairLoss
        retryTimers := s.retryTimers.filter fun timer =>
          timer.timerId ∉ (s.fairLoss.timerService.collect elapsed).1.map (·.id) }
  else none

/-- The next timer of the `Tick` begins to fire; it is no retry timer if it has no object here. -/
def fire : Option ReliableSystem :=
  if s.firing.isNone then
    match s.fairLoss.firedTimers with
    | [] => none
    | fired :: _ =>
        s.fairLoss.fire.map fun fairLoss =>
          { s with
            fairLoss
            firing := (s.retryTimers.find? fun timer => timer.timerId = fired.id).map .crediting
            retryTimers := s.retryTimers.filter fun timer => timer.timerId ≠ fired.id }
  else none

/-- `draw` is what the random device of the policy answers. -/
def fireNext (draw : ℕ) : FireCall → Option ReliableSystem
  | .crediting timer =>
      some { s with
        fairLoss := s.fairLoss.addSendCredits 1
        firing := some (.sending timer) }
  | .sending timer =>
      some { s with
        fairLoss := s.fairLoss.send timer.packet
        firing := some (.rearming timer (s.link timer.packet)) }
  | .rearming timer linked =>
      if s.UnderWay linked then none
      else
        let retryPolicy := timer.retryPolicy.next draw
        if retryPolicy.isValid then
          (s.fairLoss.addTimer timer.timerId retryPolicy.timeoutMs).map fun fairLoss =>
            { s with
              fairLoss
              firing := none
              retryTimers := { timer with retryPolicy } :: s.retryTimers }
        else some { s with firing := none }

def advanceFire (draw : ℕ) : Option ReliableSystem := s.firing.bind (s.fireNext draw)

/-- A step of a call of `FairLossChannel::Send` or `Handle`, or the delivery of the write event. -/
def advanceWrite (label : WriteLabel) : Option ReliableSystem :=
  match label with
  | .checkCap _ | .insertId _ | .push _ | .event _ | .handle _ _ =>
      (WriteHandler.step s.fairLoss label).map fun fairLoss => { s with fairLoss }
  | _ => none

def otherTimerId : ReliableSystem :=
  { s with
    fairLoss := s.fairLoss.getTimerID
    otherTimers := insert s.fairLoss.timerService.getID.1 s.otherTimers }

def otherAddTimer (id duration : ℕ) : Option ReliableSystem :=
  if id ∈ s.otherTimers then
    (s.fairLoss.addTimer id duration).map fun fairLoss => { s with fairLoss }
  else none

def otherCancelTimer (id : ℕ) : Option ReliableSystem :=
  if id ∈ s.otherTimers then
    (s.fairLoss.cancelTimer id).map fun fairLoss => { s with fairLoss }
  else none

end ReliableSystem

inductive ReliableLabel
  | send (message : Bytes)
  | advanceSend (call : SendCall)
  | read (datagram : Bytes)
  | advanceRead (status : WriteStatus)
  | tick (elapsed : ℕ)
  | fire
  | advanceFire (draw : ℕ)
  | write (label : WriteLabel)
  | otherMessageId
  | otherTimerId
  | otherAddTimer (id duration : ℕ)
  | otherCancelTimer (id : ℕ)

def step (s : ReliableSystem) : ReliableLabel → Option ReliableSystem
  | .send message => some (s.send message)
  | .advanceSend call => s.advanceSend call
  | .read datagram => s.read datagram
  | .advanceRead status => s.advanceRead status
  | .tick elapsed => s.tick elapsed
  | .fire => s.fire
  | .advanceFire draw => s.advanceFire draw
  | .write label => s.advanceWrite label
  | .otherMessageId => some { s with messageIds := s.messageIds + 1 }
  | .otherTimerId => some s.otherTimerId
  | .otherAddTimer id duration => s.otherAddTimer id duration
  | .otherCancelTimer id => s.otherCancelTimer id

variable {s s' : ReliableSystem}

/-- The accesses of a call of `Send`, on the state without the call. -/
inductive SendStep (s : ReliableSystem) (contract : ℕ) (message : Bytes) :
    SendStage → ReliableSystem → Prop
  | drawTimer : SendStep s contract message .started
      { s with
        fairLoss := s.fairLoss.getTimerID
        sends := ⟨contract, message, .timed s.fairLoss.timerService.getID.1⟩ :: s.sends }
  | drawMessage (timerId : ℕ) : SendStep s contract message (.timed timerId)
      { s with
        messageIds := s.messageIds + 1
        sends := ⟨contract, message, .numbered timerId (UInt32.ofNat s.messageIds)⟩ :: s.sends }
  | register (timerId : ℕ) (messageId : UInt32) :
      SendStep s contract message (.numbered timerId messageId)
        { s with
          messageEntries := s.messageEntries.set messageId ⟨timerId, some contract, 1⟩
          sends := ⟨contract, message, .registered timerId messageId⟩ :: s.sends }
  | arm (timerId : ℕ) (messageId : UInt32) {fairLoss : WriteSystem}
      (h : s.fairLoss.addTimer timerId s.retryPolicy.timeoutMs = some fairLoss) :
      SendStep s contract message (.registered timerId messageId)
        { s with
          fairLoss
          retryTimers := ⟨timerId, s.createPacket message .payloadMessage messageId,
            s.retryPolicy⟩ :: s.retryTimers
          sends := ⟨contract, message, .armed messageId⟩ :: s.sends }
  | doSend (messageId : UInt32) : SendStep s contract message (.armed messageId)
      { s with
        fairLoss := s.fairLoss.send (s.createPacket message .payloadMessage messageId) }

theorem sendNext_cases {contract : ℕ} {message : Bytes} {stage : SendStage}
    (hs : s.sendNext contract message stage = some s') :
    SendStep s contract message stage s' := by
  cases stage with
  | started =>
      obtain rfl := Option.some.inj hs
      exact .drawTimer
  | timed timerId =>
      obtain rfl := Option.some.inj hs
      exact .drawMessage timerId
  | numbered timerId messageId =>
      obtain rfl := Option.some.inj hs
      exact .register timerId messageId
  | registered timerId messageId =>
      obtain ⟨fairLoss, hadd, rfl⟩ := Option.map_eq_some_iff.1 hs
      exact .arm timerId messageId hadd
  | armed messageId =>
      obtain rfl := Option.some.inj hs
      exact .doSend messageId

theorem advanceSend_cases {call : SendCall} (hs : s.advanceSend call = some s') :
    call ∈ s.sends ∧ SendStep { s with sends := s.sends.erase call } call.contract call.message
      call.stage s' := by
  unfold ReliableSystem.advanceSend at hs
  split_ifs at hs with hcall
  exact ⟨hcall, sendNext_cases hs⟩

/-- The accesses of the callback of the read handler. -/
inductive ReadStep (s : ReliableSystem) (status : WriteStatus) : ReadCall → ReliableSystem → Prop
  | finish : ReadStep s status (.taking []) { s with reading := none }
  | miss (messageId : UInt32) (acks : List UInt32) (h : s.messageEntries.get messageId = none) :
      ReadStep s status (.taking (messageId :: acks)) { s with reading := some (.taking acks) }
  | take (messageId : UInt32) (acks : List UInt32) {entry : MessageEntry}
      (h : s.messageEntries.get messageId = some entry) :
      ReadStep s status (.taking (messageId :: acks))
        { s with
          messageEntries := (s.messageEntries.take messageId).2
          reading := some (.cancelling entry acks) }
  | cancel (entry : MessageEntry) (acks : List UInt32) {fairLoss : WriteSystem}
      (h : s.fairLoss.cancelTimer entry.timerId = some fairLoss) :
      ReadStep s status (.cancelling entry acks)
        { s with fairLoss, reading := some (.crediting entry acks) }
  | credit (entry : MessageEntry) (acks : List UInt32) :
      ReadStep s status (.crediting entry acks)
        { s with
          fairLoss := s.fairLoss.addSendCredits (UInt64.ofNat entry.credits)
          reading := some (.taking acks) }
  | acknowledge (id : UInt32) {packet : Packet} (h : packet.type = .ackMessage) :
      ReadStep s status (.acknowledging id)
        { s with messageIds := s.messageIds + 1, reading := some (.writingAck packet) }
  | writeAck (packet : Packet) : ReadStep s status (.writingAck packet)
      { s with reading := if status = .ok then none else some (.queueingAck packet) }
  | queueAck (packet : Packet) : ReadStep s status (.queueingAck packet)
      { s with
        fairLoss := s.fairLoss.send packet
        reading := some (.sendingAck (s.link packet)) }
  | return (linked : PacketLinked) (h : ¬s.UnderWay linked) :
      ReadStep s status (.sendingAck linked) { s with reading := none }

theorem readNext_cases {status : WriteStatus} {call : ReadCall}
    (hs : s.readNext status call = some s') : ReadStep s status call s' := by
  cases call with
  | taking acks =>
      cases acks with
      | nil =>
          obtain rfl := Option.some.inj hs
          exact .finish
      | cons messageId acks =>
          simp only [ReliableSystem.readNext] at hs
          split at hs
          · rename_i htake
            obtain rfl := Option.some.inj hs
            exact .miss messageId acks (congrArg Prod.fst htake)
          · rename_i entry messageEntries htake
            obtain rfl := Option.some.inj hs
            obtain rfl : messageEntries = (s.messageEntries.take messageId).2 :=
              (congrArg Prod.snd htake).symm
            exact .take messageId acks (congrArg Prod.fst htake)
  | cancelling entry acks =>
      obtain ⟨fairLoss, hcancel, rfl⟩ := Option.map_eq_some_iff.1 hs
      exact .cancel entry acks hcancel
  | crediting entry acks =>
      obtain rfl := Option.some.inj hs
      exact .credit entry acks
  | acknowledging id =>
      obtain rfl := Option.some.inj hs
      exact .acknowledge id rfl
  | writingAck packet =>
      obtain rfl := Option.some.inj hs
      exact .writeAck packet
  | queueingAck packet =>
      obtain rfl := Option.some.inj hs
      exact .queueAck packet
  | sendingAck linked =>
      simp only [ReliableSystem.readNext] at hs
      split_ifs at hs with hunderway
      obtain rfl := Option.some.inj hs
      exact .return linked hunderway

theorem advanceRead_cases {status : WriteStatus} (hs : s.advanceRead status = some s') :
    ∃ call, s.reading = some call ∧ ReadStep s status call s' := by
  obtain ⟨call, hreading, hnext⟩ := Option.bind_eq_some_iff.1 hs
  exact ⟨call, hreading, readNext_cases hnext⟩

theorem read_cases {datagram : Bytes} (hs : s.read datagram = some s') :
    s.reading = none ∧ ((∃ acks, s' = { s with reading := some (.taking acks) }) ∨
      ∃ id, s' = { s with reading := some (.acknowledging id) }) := by
  unfold ReliableSystem.read at hs
  split_ifs at hs with hreading
  refine ⟨Option.isNone_iff_eq_none.1 hreading, ?_⟩
  obtain ⟨packet, _, hs⟩ := Option.bind_eq_some_iff.1 hs
  split at hs
  · obtain ⟨message, _, rfl⟩ := Option.map_eq_some_iff.1 hs
    exact .inl ⟨_, rfl⟩
  · exact .inr ⟨_, (Option.some.inj hs).symm⟩
  · cases hs

/-- The accesses of `Fire`. -/
inductive FireStep (s : ReliableSystem) (draw : ℕ) : FireCall → ReliableSystem → Prop
  | credit (timer : RetryTimer) : FireStep s draw (.crediting timer)
      { s with
        fairLoss := s.fairLoss.addSendCredits 1
        firing := some (.sending timer) }
  | doSend (timer : RetryTimer) : FireStep s draw (.sending timer)
      { s with
        fairLoss := s.fairLoss.send timer.packet
        firing := some (.rearming timer (s.link timer.packet)) }
  | rearm (timer : RetryTimer) (linked : PacketLinked) {fairLoss : WriteSystem}
      (h : s.fairLoss.addTimer timer.timerId (timer.retryPolicy.next draw).timeoutMs =
        some fairLoss) :
      FireStep s draw (.rearming timer linked)
        { s with
          fairLoss
          firing := none
          retryTimers := { timer with retryPolicy := timer.retryPolicy.next draw } ::
            s.retryTimers }
  | giveUp (timer : RetryTimer) (linked : PacketLinked) :
      FireStep s draw (.rearming timer linked) { s with firing := none }

theorem fireNext_cases {draw : ℕ} {call : FireCall} (hs : s.fireNext draw call = some s') :
    FireStep s draw call s' := by
  cases call with
  | crediting timer =>
      obtain rfl := Option.some.inj hs
      exact .credit timer
  | sending timer =>
      obtain rfl := Option.some.inj hs
      exact .doSend timer
  | rearming timer linked =>
      simp only [ReliableSystem.fireNext] at hs
      split_ifs at hs
      · obtain ⟨fairLoss, hadd, rfl⟩ := Option.map_eq_some_iff.1 hs
        exact .rearm timer linked hadd
      · obtain rfl := Option.some.inj hs
        exact .giveUp timer linked

theorem advanceFire_cases {draw : ℕ} (hs : s.advanceFire draw = some s') :
    ∃ call, s.firing = some call ∧ FireStep s draw call s' := by
  obtain ⟨call, hfiring, hnext⟩ := Option.bind_eq_some_iff.1 hs
  exact ⟨call, hfiring, fireNext_cases hnext⟩

theorem tick_cases {elapsed : ℕ} (hs : s.tick elapsed = some s') :
    ∃ fairLoss, s.fairLoss.tick elapsed = some fairLoss ∧ ∃ retryTimers ⊆ s.retryTimers,
      s' = { s with fairLoss, retryTimers } := by
  unfold ReliableSystem.tick at hs
  split_ifs at hs
  obtain ⟨fairLoss, htick, rfl⟩ := Option.map_eq_some_iff.1 hs
  exact ⟨fairLoss, htick, _, List.filter_sublist.subset, rfl⟩

theorem fire_cases (hs : s.fire = some s') :
    s.firing = none ∧ ∃ fairLoss, s.fairLoss.fire = some fairLoss ∧
      ∃ retryTimers ⊆ s.retryTimers, ∃ fired, (∀ timer ∈ fired, timer ∈ s.retryTimers) ∧
        s' = { s with fairLoss, retryTimers, firing := Option.map .crediting fired } := by
  unfold ReliableSystem.fire at hs
  split_ifs at hs with hfiring
  split at hs
  · cases hs
  · obtain ⟨fairLoss, hfire, rfl⟩ := Option.map_eq_some_iff.1 hs
    refine ⟨Option.isNone_iff_eq_none.1 hfiring, fairLoss, hfire, _, List.filter_sublist.subset, _,
      ?_, rfl⟩
    intro timer htimer
    exact List.mem_of_find?_eq_some htimer

theorem advanceWrite_cases {label : WriteLabel} (hs : s.advanceWrite label = some s') :
    ∃ fairLoss, WriteHandler.step s.fairLoss label = some fairLoss ∧ s' = { s with fairLoss } := by
  cases label with
  | checkCap _ | insertId _ | push _ | event _ | handle _ _ =>
      obtain ⟨fairLoss, hstep, rfl⟩ := Option.map_eq_some_iff.1 hs
      exact ⟨fairLoss, hstep, rfl⟩
  | _ => cases hs

/-- Every step is one of the write path, or leaves it alone. -/
theorem fairLoss_of_step {label : ReliableLabel} (hs : step s label = some s') :
    s'.fairLoss = s.fairLoss ∨ ∃ l, WriteHandler.step s.fairLoss l = some s'.fairLoss := by
  cases label with
  | send message =>
      obtain rfl := Option.some.inj hs
      exact .inl rfl
  | advanceSend call =>
      obtain ⟨-, hsend⟩ := advanceSend_cases hs
      generalize call.stage = stage at hsend
      cases hsend with
      | drawTimer => exact .inr ⟨.getTimerID, rfl⟩
      | drawMessage timerId => exact .inl rfl
      | register timerId messageId => exact .inl rfl
      | arm timerId messageId h => exact .inr ⟨.addTimer _ _, h⟩
      | doSend messageId => exact .inr ⟨.send _, rfl⟩
  | read datagram =>
      obtain ⟨-, ⟨acks, rfl⟩ | ⟨id, rfl⟩⟩ := read_cases hs
      · exact .inl rfl
      · exact .inl rfl
  | advanceRead status =>
      obtain ⟨call, -, hread⟩ := advanceRead_cases hs
      cases hread with
      | cancel entry acks h => exact .inr ⟨.cancelTimer _, h⟩
      | credit entry acks => exact .inr ⟨.addSendCredits _, rfl⟩
      | queueAck packet => exact .inr ⟨.send _, rfl⟩
      | _ => exact .inl rfl
  | tick elapsed =>
      obtain ⟨fairLoss, htick, _, _, rfl⟩ := tick_cases hs
      exact .inr ⟨.tick elapsed, htick⟩
  | fire =>
      obtain ⟨-, fairLoss, hfire, _, _, _, _, rfl⟩ := fire_cases hs
      exact .inr ⟨.fire, hfire⟩
  | advanceFire draw =>
      obtain ⟨call, -, hfire⟩ := advanceFire_cases hs
      cases hfire with
      | credit timer => exact .inr ⟨.addSendCredits 1, rfl⟩
      | doSend timer => exact .inr ⟨.send _, rfl⟩
      | rearm timer linked h => exact .inr ⟨.addTimer _ _, h⟩
      | giveUp timer linked => exact .inl rfl
  | write label =>
      obtain ⟨fairLoss, hstep, rfl⟩ := advanceWrite_cases hs
      exact .inr ⟨label, hstep⟩
  | otherMessageId =>
      obtain rfl := Option.some.inj hs
      exact .inl rfl
  | otherTimerId =>
      obtain rfl := Option.some.inj hs
      exact .inr ⟨.getTimerID, rfl⟩
  | otherAddTimer id duration =>
      simp only [step, ReliableSystem.otherAddTimer] at hs
      split_ifs at hs
      obtain ⟨fairLoss, hadd, rfl⟩ := Option.map_eq_some_iff.1 hs
      exact .inr ⟨.addTimer _ _, hadd⟩
  | otherCancelTimer id =>
      simp only [step, ReliableSystem.otherCancelTimer] at hs
      split_ifs at hs
      obtain ⟨fairLoss, hcancel, rfl⟩ := Option.map_eq_some_iff.1 hs
      exact .inr ⟨.cancelTimer _, hcancel⟩

/-- The write path of a channel in a run takes part in a run of its own. -/
theorem fairLoss_reachable {fairLoss : WriteSystem} {localId : UInt8} {retryPolicy : RetryPolicy}
    {ok : ReliableSystem → ReliableLabel → Prop}
    (hr : ReachableIn step ok (initial fairLoss localId retryPolicy) s) :
    Reachable WriteHandler.step fairLoss s.fairLoss := by
  apply hr.invariant (I := fun s => Reachable WriteHandler.step fairLoss s.fairLoss) .refl
  intro s label s' _ ih _ hs
  rcases fairLoss_of_step hs with hsame | ⟨l, hstep⟩
  · rw [hsame]
    exact ih
  · exact ih.tail trivial hstep

end BroadcastService.Transport.ReliableCalls

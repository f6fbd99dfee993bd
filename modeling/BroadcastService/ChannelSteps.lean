import BroadcastService.ReliableChannel

/-!
# What an event does to a reliable channel

`onEvent_outcome` lists what each event computes. Most events only move packets between the retry
timers, the outgoing queue and the network; such a step is `Passive`. `onEvent_step` lists the
others: a call of `Send`, an acknowledgement, a payload packet and `Stop`.
-/

namespace BroadcastService.Transport

namespace ReliableChannel

/-- What an event computes. -/
inductive Outcome (channel : ReliableChannel) :
    ChannelEvent → ReliableChannel → List ChannelOutput → Prop
  | send (message : Bytes) :
      Outcome channel (.send message) (channel.send message).1 (channel.send message).2
  | ack {datagram : Bytes} {status : WriteStatus} {packet : Packet} {message : AckMessage}
      (hpacket : Packet.unmarshal datagram = some packet) (htype : packet.type = .ackMessage)
      (hmessage : AckMessage.unmarshal packet.message = some message) :
      Outcome channel (.read datagram status) (handleAckMessage message.acks channel).1
        (handleAckMessage message.acks channel).2
  | payload {datagram : Bytes} {status : WriteStatus} {packet : Packet}
      {channel' : ReliableChannel} {outs : List ChannelOutput}
      (hpacket : Packet.unmarshal datagram = some packet) (htype : packet.type = .payloadMessage)
      (h : channel.handlePayloadMessage packet status = some (channel', outs)) :
      Outcome channel (.read datagram status) channel' outs
  | tick (elapsed : ℕ) (hfired : channel.firedTimers = []) :
      Outcome channel (.tick elapsed)
        { channel with
          firedTimers := (channel.timerService.collect elapsed).2.1
          timerService := (channel.timerService.collect elapsed).2.2 } []
  | retry {timer : Timer TimerTask} {firedTimers : List (Timer TimerTask)} {packet : Packet}
      {retryPolicy : RetryPolicy} (draw : ℕ) (hfired : channel.firedTimers = timer :: firedTimers)
      (htask : timer.task = .backoffRetry packet retryPolicy) :
      Outcome channel (.fire draw)
        ({ channel with firedTimers }.fireBackoffRetry packet retryPolicy timer.id draw) []
  | armWrite {timer : Timer TimerTask} {firedTimers : List (Timer TimerTask)} (draw : ℕ)
      (hfired : channel.firedTimers = timer :: firedTimers) (htask : timer.task = .retryFunction) :
      Outcome channel (.fire draw)
        { channel with firedTimers, fairLoss := { channel.fairLoss with writeArmed := true } } []
  | fireOther {timer : Timer TimerTask} {firedTimers : List (Timer TimerTask)} (draw : ℕ)
      (hfired : channel.firedTimers = timer :: firedTimers) (htask : timer.task = .other) :
      Outcome channel (.fire draw) { channel with firedTimers } []
  | write {type : EventType} {status : WriteStatus} {draw : ℕ} {fairLoss : FairLossChannel}
      {effects : List WriteEffect}
      (h : channel.fairLoss.advance type status draw = some (fairLoss, effects)) :
      Outcome channel (.write type status draw)
        { channel with
          fairLoss
          timerService := effects.foldl applyEffect channel.timerService }
        (effects.flatMap writtenBy)
  | stop {channel' : ReliableChannel} {outs : List ChannelOutput}
      (h : channel.stop = some (channel', outs)) : Outcome channel .stop channel' outs
  | otherMessageId :
      Outcome channel .otherMessageId { channel with messageIds := channel.messageIds + 1 } []
  | otherTimerId :
      Outcome channel .otherTimerId
        { channel with
          timerService := channel.timerService.getID.2
          otherTimers := insert channel.timerService.getID.1 channel.otherTimers } []
  | otherAddTimer {id : ℕ} (duration : ℕ) (hid : id ∈ channel.otherTimers) :
      Outcome channel (.otherAddTimer id duration)
        { channel with timerService := channel.timerService.addTimer .other id duration } []
  | otherCancelTimer {id : ℕ} (hid : id ∈ channel.otherTimers) :
      Outcome channel (.otherCancelTimer id)
        { channel with timerService := channel.timerService.cancelTimer id } []

theorem fire_outcome {channel channel' : ReliableChannel} {draw : ℕ}
    (h : channel.fire draw = some channel') : Outcome channel (.fire draw) channel' [] := by
  unfold fire at h
  cases hfired : channel.firedTimers with
  | nil => simp [hfired] at h
  | cons timer firedTimers =>
      rw [hfired] at h
      cases htask : timer.task with
      | backoffRetry packet retryPolicy =>
          simp only [htask] at h
          obtain rfl := Option.some.inj h
          exact .retry draw hfired htask
      | retryFunction =>
          simp only [htask] at h
          obtain rfl := Option.some.inj h
          exact .armWrite draw hfired htask
      | other =>
          simp only [htask] at h
          obtain rfl := Option.some.inj h
          exact .fireOther draw hfired htask

theorem onEvent_outcome {channel channel' : ReliableChannel} {event : ChannelEvent}
    {outs : List ChannelOutput} (h : channel.onEvent event = some (channel', outs)) :
    Outcome channel event channel' outs := by
  cases event with
  | send message =>
      obtain ⟨rfl, rfl⟩ := Prod.mk.inj (Option.some.inj h)
      exact .send message
  | read datagram status =>
      obtain ⟨packet, hpacket, h⟩ := Option.bind_eq_some_iff.1 h
      unfold handlePacket at h
      split at h
      · rename_i htype
        obtain ⟨message, hmessage, he⟩ := Option.map_eq_some_iff.1 h
        obtain ⟨rfl, rfl⟩ := Prod.mk.inj he
        exact .ack hpacket htype hmessage
      · rename_i htype
        exact .payload hpacket htype h
      · cases h
  | tick elapsed =>
      obtain ⟨_, htick, he⟩ := Option.map_eq_some_iff.1 h
      obtain ⟨rfl, rfl⟩ := Prod.mk.inj he
      unfold tick at htick
      split_ifs at htick with hfired
      obtain rfl := Option.some.inj htick
      exact .tick elapsed (List.isEmpty_iff.1 hfired)
  | fire draw =>
      obtain ⟨_, hfire, he⟩ := Option.map_eq_some_iff.1 h
      obtain ⟨rfl, rfl⟩ := Prod.mk.inj he
      exact fire_outcome hfire
  | write type status draw =>
      obtain ⟨⟨fairLoss, effects⟩, hadvance, he⟩ := Option.map_eq_some_iff.1 h
      obtain ⟨rfl, rfl⟩ := Prod.mk.inj he
      exact .write hadvance
  | stop => exact .stop h
  | otherMessageId =>
      obtain ⟨rfl, rfl⟩ := Prod.mk.inj (Option.some.inj h)
      exact .otherMessageId
  | otherTimerId =>
      obtain ⟨rfl, rfl⟩ := Prod.mk.inj (Option.some.inj h)
      exact .otherTimerId
  | otherAddTimer id duration =>
      simp only [onEvent] at h
      split_ifs at h with hid
      obtain ⟨rfl, rfl⟩ := Prod.mk.inj (Option.some.inj h)
      exact .otherAddTimer duration hid
  | otherCancelTimer id =>
      simp only [onEvent] at h
      split_ifs at h with hid
      obtain ⟨rfl, rfl⟩ := Prod.mk.inj (Option.some.inj h)
      exact .otherCancelTimer hid

def HasTimer (channel : ReliableChannel) (timer : Timer TimerTask) : Prop :=
  channel.timerService.Holds timer ∨ timer ∈ channel.firedTimers

def Retries (channel : ReliableChannel) (packet : Packet) : Prop :=
  ∃ timer retryPolicy, channel.HasTimer timer ∧ timer.task = .backoffRetry packet retryPolicy

/-- A step that neither sends nor handles a message. -/
structure Passive (channel channel' : ReliableChannel) (outs : List ChannelOutput) : Prop where
  messageEntries : channel'.messageEntries = channel.messageEntries
  delivered : channel'.delivered = channel.delivered
  contracts : channel'.contracts = channel.contracts
  messageIds : channel.messageIds ≤ channel'.messageIds
  outs : ∀ o ∈ outs, ∃ packet ∈ channel.fairLoss.packets, o = .write packet.datagram
  packets : ∀ packet ∈ channel'.fairLoss.packets,
    packet ∈ channel.fairLoss.packets ∨ channel.Retries packet
  retries : ∀ packet, channel'.Retries packet → channel.Retries packet

/-- Timers were added to the service, none of them for a retry. -/
structure Scheduled (service service' : TimerService TimerTask) : Prop where
  holds : ∀ timer, service.Holds timer → service'.Holds timer
  new : ∀ timer, service'.Holds timer → service.Holds timer ∨ timer.task = .retryFunction
  cancelledTimers : service'.cancelledTimers = service.cancelledTimers
  currentId : service.currentId ≤ service'.currentId

theorem scheduled_applyEffect (service : TimerService TimerTask) (effect : WriteEffect) :
    Scheduled service (applyEffect service effect) := by
  cases effect with
  | write packet => exact ⟨fun _ h => h, fun _ h => .inl h, rfl, le_rfl⟩
  | schedule timeoutMs =>
      have hholds : ∀ timer, (applyEffect service (.schedule timeoutMs)).Holds timer ↔
          service.Holds timer ∨ timer = ⟨service.ticks + timeoutMs / service.tickDuration,
            service.currentId, .retryFunction⟩ := by
        intro timer
        exact TimerService.holds_addTimer _
      refine ⟨fun timer h => (hholds timer).2 (.inl h), fun timer h => ?_, rfl, Nat.le_succ _⟩
      rcases (hholds timer).1 h with h | h
      · exact .inl h
      · exact .inr (by rw [h])

theorem scheduled_applyEffects (effects : List WriteEffect) (service : TimerService TimerTask) :
    Scheduled service (effects.foldl applyEffect service) := by
  induction effects generalizing service with
  | nil => exact ⟨fun _ h => h, fun _ h => .inl h, rfl, le_rfl⟩
  | cons effect effects ih =>
      have hfirst := scheduled_applyEffect service effect
      have hrest := ih (applyEffect service effect)
      refine ⟨fun timer h => hrest.holds timer (hfirst.holds timer h), fun timer h => ?_,
        hrest.cancelledTimers.trans hfirst.cancelledTimers,
        hfirst.currentId.trans hrest.currentId⟩
      rcases hrest.new timer h with h | h
      · exact hfirst.new timer h
      · exact .inr h

section Passive

variable {channel channel' : ReliableChannel} {outs : List ChannelOutput}

theorem tick_passive (elapsed : ℕ) :
    channel.Passive
      { channel with
        firedTimers := (channel.timerService.collect elapsed).2.1
        timerService := (channel.timerService.collect elapsed).2.2 } [] := by
  refine ⟨rfl, rfl, rfl, le_rfl, by simp, fun _ h => .inl h, ?_⟩
  rintro packet ⟨timer, retryPolicy, htimer, htask⟩
  refine ⟨timer, retryPolicy, .inl ?_, htask⟩
  rw [TimerService.holds_collect _ elapsed]
  exact .inr htimer.symm

theorem fireBackoffRetry_eq (packet : Packet) (retryPolicy : RetryPolicy) (id draw : ℕ) :
    channel.fireBackoffRetry packet retryPolicy id draw =
      { channel with
        fairLoss := (channel.fairLoss.addSendCredits 1).send packet
        timerService := if (retryPolicy.next draw).isValid then
            channel.timerService.addTimer (.backoffRetry packet (retryPolicy.next draw)) id
              (retryPolicy.next draw).timeoutMs
          else channel.timerService } := by
  unfold fireBackoffRetry
  dsimp only
  split_ifs <;> rfl

/-- A retry timer that fires is replaced, as long as its policy is valid, by one with the same
identifier and packet. -/
theorem fireBackoffRetry_timer {packet : Packet} {retryPolicy : RetryPolicy} {id draw : ℕ}
    {timer : Timer TimerTask} :
    (channel.fireBackoffRetry packet retryPolicy id draw).HasTimer timer ↔
      channel.HasTimer timer ∨ ((retryPolicy.next draw).isValid = true ∧
        timer = ⟨channel.timerService.ticks +
          (retryPolicy.next draw).timeoutMs / channel.timerService.tickDuration, id,
          .backoffRetry packet (retryPolicy.next draw)⟩) := by
  rw [fireBackoffRetry_eq]
  by_cases hvalid : (retryPolicy.next draw).isValid = true
  · simp only [hvalid, if_true, true_and, HasTimer, TimerService.holds_addTimer]
    tauto
  · simp [hvalid, HasTimer]

theorem hasTimer_of_popped {timer : Timer TimerTask} {firedTimers : List (Timer TimerTask)}
    {fairLoss : FairLossChannel} (hfired : channel.firedTimers = timer :: firedTimers)
    {t : Timer TimerTask} (ht : { channel with firedTimers, fairLoss }.HasTimer t) :
    channel.HasTimer t := by
  rcases ht with ht | ht
  · exact .inl ht
  · exact .inr (by rw [hfired]; exact List.mem_cons_of_mem _ ht)

theorem popped_passive {timer : Timer TimerTask} {firedTimers : List (Timer TimerTask)}
    {fairLoss : FairLossChannel} (hfired : channel.firedTimers = timer :: firedTimers)
    (hpackets : fairLoss.packets = channel.fairLoss.packets) :
    channel.Passive { channel with firedTimers, fairLoss } [] := by
  refine ⟨rfl, rfl, rfl, le_rfl, by simp, fun p hp => .inl (hpackets ▸ hp), ?_⟩
  rintro packet ⟨t, retryPolicy, ht, htask⟩
  exact ⟨t, retryPolicy, hasTimer_of_popped hfired ht, htask⟩

theorem retry_passive {timer : Timer TimerTask} {firedTimers : List (Timer TimerTask)}
    {packet : Packet} {retryPolicy : RetryPolicy} (draw : ℕ)
    (hfired : channel.firedTimers = timer :: firedTimers)
    (htask : timer.task = .backoffRetry packet retryPolicy) :
    channel.Passive
      ({ channel with firedTimers }.fireBackoffRetry packet retryPolicy timer.id draw) [] := by
  have hhead : channel.HasTimer timer := .inr (by rw [hfired]; exact List.mem_cons_self)
  have hretries : channel.Retries packet := ⟨timer, retryPolicy, hhead, htask⟩
  refine ⟨by rw [fireBackoffRetry_eq], by rw [fireBackoffRetry_eq], by rw [fireBackoffRetry_eq],
    by rw [fireBackoffRetry_eq], by simp, fun p hp => ?_, ?_⟩
  · rw [fireBackoffRetry_eq] at hp
    rcases FairLossChannel.mem_packets_send _ hp with hp | rfl
    · exact .inl hp
    · exact .inr hretries
  · rintro p ⟨t, policy, ht, hp⟩
    rcases fireBackoffRetry_timer.1 ht with ht | ⟨_, rfl⟩
    · exact ⟨t, policy, hasTimer_of_popped hfired ht, hp⟩
    · obtain ⟨rfl, _⟩ := TimerTask.backoffRetry.inj hp
      exact hretries

theorem write_passive {type : EventType} {status : WriteStatus} {draw : ℕ}
    {fairLoss : FairLossChannel} {effects : List WriteEffect}
    (hadvance : channel.fairLoss.advance type status draw = some (fairLoss, effects)) :
    channel.Passive
      { channel with
        fairLoss
        timerService := effects.foldl applyEffect channel.timerService }
      (effects.flatMap writtenBy) := by
  have hstep := FairLossChannel.advance_step hadvance
  refine ⟨rfl, rfl, rfl, le_rfl, fun o ho => ?_, fun packet hp => .inl (hstep.packets hp), ?_⟩
  · obtain ⟨effect, heffect, ho⟩ := List.mem_flatMap.1 ho
    cases effect with
    | write packet =>
        exact ⟨packet, hstep.written packet heffect, by simpa [writtenBy] using ho⟩
    | schedule timeoutMs => simp [writtenBy] at ho
  · rintro packet ⟨timer, retryPolicy, htimer | htimer, htask⟩
    · rcases (scheduled_applyEffects effects channel.timerService).new timer htimer with hold | hnew
      · exact ⟨timer, retryPolicy, .inl hold, htask⟩
      · rw [hnew] at htask
        cases htask
    · exact ⟨timer, retryPolicy, .inr htimer, htask⟩

theorem passive_of_timerService {service : TimerService TimerTask} {otherTimers : Finset ℕ}
    (h : ∀ timer, service.Holds timer →
      channel.timerService.Holds timer ∨ timer.task = .other) :
    channel.Passive { channel with timerService := service, otherTimers } [] := by
  refine ⟨rfl, rfl, rfl, le_rfl, by simp, fun p hp => .inl hp, ?_⟩
  rintro packet ⟨timer, retryPolicy, htimer | htimer, htask⟩
  · rcases h timer htimer with hold | hnew
    · exact ⟨timer, retryPolicy, .inl hold, htask⟩
    · rw [hnew] at htask
      cases htask
  · exact ⟨timer, retryPolicy, .inr htimer, htask⟩

end Passive

/-- Everything an event can do. -/
inductive Step (channel : ReliableChannel) :
    ChannelEvent → ReliableChannel → List ChannelOutput → Prop
  | passive {event : ChannelEvent} {channel' : ReliableChannel} {outs : List ChannelOutput}
      (h : channel.Passive channel' outs) : Step channel event channel' outs
  | send (message : Bytes) :
      Step channel (.send message) (channel.send message).1 (channel.send message).2
  | ack {datagram : Bytes} {status : WriteStatus} {packet : Packet} {message : AckMessage}
      (hpacket : Packet.unmarshal datagram = some packet) (htype : packet.type = .ackMessage)
      (hmessage : AckMessage.unmarshal packet.message = some message) :
      Step channel (.read datagram status) (handleAckMessage message.acks channel).1
        (handleAckMessage message.acks channel).2
  | payload {datagram : Bytes} {status : WriteStatus} {packet : Packet}
      {channel' : ReliableChannel} {outs : List ChannelOutput}
      (hpacket : Packet.unmarshal datagram = some packet) (htype : packet.type = .payloadMessage)
      (h : channel.handlePayloadMessage packet status = some (channel', outs)) :
      Step channel (.read datagram status) channel' outs
  | stop {channel' : ReliableChannel} {outs : List ChannelOutput}
      (h : channel.stop = some (channel', outs)) : Step channel .stop channel' outs

theorem onEvent_step {channel channel' : ReliableChannel} {event : ChannelEvent}
    {outs : List ChannelOutput} (h : channel.onEvent event = some (channel', outs)) :
    Step channel event channel' outs := by
  cases onEvent_outcome h with
  | send message => exact .send message
  | ack hpacket htype hmessage => exact .ack hpacket htype hmessage
  | payload hpacket htype h => exact .payload hpacket htype h
  | tick elapsed hfired => exact .passive (tick_passive elapsed)
  | retry draw hfired htask => exact .passive (retry_passive draw hfired htask)
  | armWrite draw hfired htask => exact .passive (popped_passive hfired rfl)
  | fireOther draw hfired htask => exact .passive (popped_passive hfired rfl)
  | write hadvance => exact .passive (write_passive hadvance)
  | stop h => exact .stop h
  | otherMessageId =>
      exact .passive ⟨rfl, rfl, rfl, Nat.le_succ _, by simp, fun p hp => .inl hp, fun p hp => hp⟩
  | otherTimerId => exact .passive (passive_of_timerService fun timer h => .inl h)
  | otherAddTimer duration hid =>
      apply Step.passive
      apply passive_of_timerService
      intro timer htimer
      rcases (TimerService.holds_addTimer _).1 htimer with htimer | htimer
      · exact .inl htimer
      · exact .inr (by rw [htimer])
  | otherCancelTimer hid => exact .passive (passive_of_timerService fun timer h => .inl h)

end ReliableChannel

end BroadcastService.Transport

import BroadcastService.ChannelInvariant

/-!
# Acknowledgements, payload packets and stopping

The events of a reliable channel that handle messages keep `ChannelLocal`, and with them every event
does (`ChannelLocal.step`). An acknowledgement takes at most one entry for each identifier it names;
`Stop` sets the promises of all entries and leaves the entries in the map, where a later
acknowledgement finds no promise any more.
-/

namespace BroadcastService.Transport

def ReliableChannel.acknowledged (channel : ReliableChannel) (id : UInt32) (entry : MessageEntry) :
    ReliableChannel :=
  { channel with
    messageEntries := (channel.messageEntries.take id).2
    timerService := channel.timerService.cancelTimer entry.timerId
    fairLoss := channel.fairLoss.addSendCredits entry.credits }

/-- What every acknowledgement keeps is kept by the loop over an acknowledgement message. -/
theorem handleAckMessage_induction {Q : ReliableChannel → List ChannelOutput → Prop}
    (acks : List UInt32) (channel : ReliableChannel) {t : List ChannelOutput} (h : Q channel t)
    (hstep : ∀ channel t id entry, Q channel t → id ∈ acks →
      channel.messageEntries.get id = some entry →
      Q (channel.acknowledged id entry) (t ++ ReliableChannel.resolve entry.promise true)) :
    Q (ReliableChannel.handleAckMessage acks channel).1
      (t ++ (ReliableChannel.handleAckMessage acks channel).2) := by
  induction acks generalizing channel t with
  | nil => simpa [ReliableChannel.handleAckMessage] using h
  | cons id acks ih =>
      have hrest : ∀ channel t id' entry, Q channel t → id' ∈ acks →
          channel.messageEntries.get id' = some entry →
          Q (channel.acknowledged id' entry) (t ++ ReliableChannel.resolve entry.promise true) :=
        fun channel t id' entry hQ hid' =>
          hstep channel t id' entry hQ (List.mem_cons_of_mem _ hid')
      cases hget : channel.messageEntries.get id with
      | none =>
          have hskip : ReliableChannel.handleAckMessage (id :: acks) channel =
              ReliableChannel.handleAckMessage acks channel := by
            rw [ReliableChannel.handleAckMessage, MRMWUnorderedMap.take, hget]
          rw [hskip]
          exact ih channel h hrest
      | some entry =>
          have htake : ReliableChannel.handleAckMessage (id :: acks) channel =
              ((ReliableChannel.handleAckMessage acks (channel.acknowledged id entry)).1,
                ReliableChannel.resolve entry.promise true ++
                  (ReliableChannel.handleAckMessage acks (channel.acknowledged id entry)).2) := by
            rw [ReliableChannel.handleAckMessage, MRMWUnorderedMap.take, hget]
            rfl
          rw [htake, ← List.append_assoc]
          exact ih _ (hstep channel t id entry h (by simp) hget) hrest

section Local

variable {channel channel' : ReliableChannel} {t outs : List ChannelOutput}

theorem Origins.resolve (h : Origins channel t) (hpackets : channel'.fairLoss.packets ⊆
      channel.fairLoss.packets)
    (htimers : ∀ timer, channel'.HasTimer timer → channel.HasTimer timer)
    (houts : ∀ o ∈ outs, ∃ contract hasValue, o = .resolve contract hasValue) :
    Origins channel' (t ++ outs) := by
  apply h.append
  · intro contract packet hm
    obtain ⟨_, _, he⟩ := houts _ hm
    cases he
  · exact fun packet hp => .inl (hpackets hp)
  · rintro packet ⟨timer, retryPolicy, htimer, htask⟩
    exact .inl ⟨timer, retryPolicy, htimers timer htimer, htask⟩
  · intro datagram hm
    obtain ⟨_, _, he⟩ := houts _ hm
    cases he

theorem mem_resolve {promise : Option ℕ} {hasValue : Bool} {o : ChannelOutput} :
    o ∈ ReliableChannel.resolve promise hasValue ↔
      ∃ contract, promise = some contract ∧ o = .resolve contract hasValue := by
  cases promise <;> simp [ReliableChannel.resolve]

theorem resolvedContracts_resolve (promise : Option ℕ) (hasValue : Bool) :
    resolvedContracts (ReliableChannel.resolve promise hasValue) = promise.toList := by
  cases promise <;> rfl

theorem Promises.transfer (h : Promises channel t)
    (hpending : (channel'.pendingContracts ++ resolvedContracts outs).Subperm
      channel.pendingContracts)
    (hcontracts : channel'.contracts = channel.contracts)
    (hentries : ∀ id entry contract, channel'.messageEntries.get id = some entry →
      entry.promise = some contract → channel.messageEntries.get id = some entry) :
    Promises channel' (t ++ outs) := by
  have hperm : (channel'.pendingContracts ++ resolvedContracts (t ++ outs)).Perm
      ((channel'.pendingContracts ++ resolvedContracts outs) ++ resolvedContracts t) := by
    rw [resolvedContracts_append, List.append_assoc]
    exact List.Perm.append_left _ List.perm_append_comm
  have hall : (channel'.pendingContracts ++ resolvedContracts (t ++ outs)).Subperm
      (channel.pendingContracts ++ resolvedContracts t) :=
    hperm.subperm.trans (hpending.append (List.Subperm.refl _))
  refine ⟨?_, fun contract hm => ?_, fun id entry contract hget hpromise => ?_⟩
  · obtain ⟨l, hl, hsub⟩ := hall
    exact hl.nodup_iff.1 (h.distinct.sublist hsub)
  · rw [hcontracts]
    exact h.made contract (hall.subset hm)
  · obtain ⟨packet, hm, hid⟩ :=
      h.entries id entry contract (hentries id entry contract hget hpromise) hpromise
    exact ⟨packet, List.mem_append_left _ hm, hid⟩

theorem Promises.acknowledged (h : Promises channel t) {id : UInt32} {entry : MessageEntry}
    (hget : channel.messageEntries.get id = some entry) :
    Promises (channel.acknowledged id entry)
      (t ++ ReliableChannel.resolve entry.promise true) := by
  have hbuffer := List.perm_cons_erase (MRMWUnorderedMap.mem_of_get hget)
  set erased := channel.messageEntries.buffer.erase (id, entry)
  have hkept : (channel.acknowledged id entry).pendingContracts.Perm
      ((erased.filter fun e => e.1 ≠ id).filterMap (·.2.promise)) := by
    apply List.Perm.filterMap
    apply (hbuffer.filter _).trans
    rw [List.filter_cons_of_neg (by simp)]
  have hpending : channel.pendingContracts.Perm
      (entry.promise.toList ++ erased.filterMap (·.2.promise)) := by
    apply (hbuffer.filterMap _).trans
    cases hp : entry.promise <;> simp [hp]
  apply h.transfer
  · rw [resolvedContracts_resolve]
    apply List.Subperm.trans _ hpending.symm.subperm
    apply List.Subperm.trans List.perm_append_comm.subperm
    apply List.Subperm.append (List.Subperm.refl _)
    exact hkept.subperm.trans (List.filter_sublist.filterMap _).subperm
  · rfl
  · intro id' entry' contract hget' _
    change (channel.messageEntries.take id).2.get id' = some entry' at hget'
    rw [MRMWUnorderedMap.get_take] at hget'
    split_ifs at hget'
    exact hget'

theorem ChannelLocal.acknowledged (h : ChannelLocal channel t) {id : UInt32}
    {entry : MessageEntry} (hget : channel.messageEntries.get id = some entry) :
    ChannelLocal (channel.acknowledged id entry)
      (t ++ ReliableChannel.resolve entry.promise true) := by
  constructor
  · apply h.origins.resolve
    · exact List.Subset.refl _
    · exact fun _ htimer => htimer
    · intro o ho
      obtain ⟨contract, _, he⟩ := mem_resolve.1 ho
      exact ⟨contract, true, he⟩
  · exact h.numbered.frame le_rfl rfl (by cases entry.promise <;> rfl)
  · exact h.promises.acknowledged hget
  · exact h.delivered.frame rfl (by cases entry.promise <;> rfl)

theorem cancelTimers_holds (entries : List MessageEntry) (service : TimerService TimerTask)
    (timer : Timer TimerTask) :
    (entries.foldl (fun service entry => service.cancelTimer entry.timerId) service).Holds timer ↔
      service.Holds timer := by
  induction entries generalizing service with
  | nil => rfl
  | cons entry entries ih => exact ih (service.cancelTimer entry.timerId)

theorem resolvedContracts_stop (entries : List MessageEntry) :
    resolvedContracts (entries.flatMap fun entry => ReliableChannel.resolve entry.promise false) =
      entries.filterMap MessageEntry.promise := by
  induction entries with
  | nil => rfl
  | cons entry entries ih =>
      rw [List.flatMap_cons, resolvedContracts_append, ih, resolvedContracts_resolve]
      cases hp : entry.promise <;> simp [hp]

theorem Promises.stop (h : Promises channel t) {fairLoss : FairLossChannel}
    {timerService : TimerService TimerTask} :
    Promises { channel with
        fairLoss
        timerService
        messageEntries := (channel.messageEntries.drain fun e => { e with promise := none }).2 }
      (t ++ (channel.messageEntries.drain fun e => { e with promise := none }).1.flatMap
        fun entry => ReliableChannel.resolve entry.promise false) := by
  apply h.transfer
  · rw [resolvedContracts_stop]
    apply List.Perm.subperm
    simp [ReliableChannel.pendingContracts, MRMWUnorderedMap.drain, List.filterMap_map]
  · rfl
  · intro id entry contract hget hpromise
    change (channel.messageEntries.drain fun e => { e with promise := none }).2.get id =
      some entry at hget
    rw [MRMWUnorderedMap.get_drain] at hget
    obtain ⟨old, _, rfl⟩ := Option.map_eq_some_iff.1 hget
    cases hpromise

theorem stop_outs (hs : channel.stop = some (channel', outs)) :
    ∀ o ∈ outs, ∃ contract, o = .resolve contract false := by
  obtain ⟨fairLoss, _, he⟩ := Option.map_eq_some_iff.1 hs
  obtain ⟨_, rfl⟩ := Prod.mk.inj he
  intro o ho
  obtain ⟨entry, _, ho⟩ := List.mem_flatMap.1 ho
  obtain ⟨contract, _, he⟩ := mem_resolve.1 ho
  exact ⟨contract, he⟩

theorem ChannelLocal.stop (h : ChannelLocal channel t)
    (hs : channel.stop = some (channel', outs)) : ChannelLocal channel' (t ++ outs) := by
  have houts := stop_outs hs
  have hnone : ∀ {α : Type} (f : ChannelOutput → Option α),
      (∀ contract, f (.resolve contract false) = none) → outs.filterMap f = [] := by
    intro α f hf
    apply List.filterMap_eq_nil_iff.2
    intro o ho
    obtain ⟨contract, rfl⟩ := houts o ho
    exact hf contract
  obtain ⟨fairLoss, hfair, he⟩ := Option.map_eq_some_iff.1 hs
  obtain ⟨rfl, rfl⟩ := Prod.mk.inj he
  constructor
  · apply h.origins.resolve _ _ fun o ho => ⟨_, _, (houts o ho).choose_spec⟩
    · unfold FairLossChannel.stop at hfair
      split_ifs at hfair
      obtain rfl := Option.some.inj hfair
      simp [FairLossChannel.packets]
    · rintro timer (htimer | htimer)
      · exact .inl ((cancelTimers_holds _ _ _).1 htimer)
      · exact .inr htimer
  · exact h.numbered.frame le_rfl rfl (hnone _ fun _ => rfl)
  · exact h.promises.stop
  · exact h.delivered.frame rfl (hnone _ fun _ => rfl)

def ReliableChannel.ackPacket (channel : ReliableChannel) (packet : Packet) : Packet :=
  channel.createPacket ((⟨[packet.id]⟩ : AckMessage).marshal
    (List.replicate (⟨[packet.id]⟩ : AckMessage).size 0)) .ackMessage
    (UInt32.ofNat channel.messageIds)

theorem origin_ackPacket {packet : Packet} (h : .handle packet ∈ t) :
    Origin t (channel.ackPacket packet) :=
  .inr ⟨rfl, packet, h, AckMessage.unmarshal_marshal _ _ (by simp)⟩

/-- What the handling of a payload packet does. -/
theorem handlePayloadMessage_cases {packet : Packet} {status : WriteStatus}
    (h : channel.handlePayloadMessage packet status = some (channel', outs)) :
    ∃ fairLoss writes, channel' = { channel with
        messageIds := channel.messageIds + 1
        delivered := insert packet.id channel.delivered
        fairLoss } ∧
      outs = .handle packet :: writes ++
        (if packet.id ∈ channel.delivered then [] else [.callback packet]) ∧
      (fairLoss = channel.fairLoss ∧ writes = [.write (channel.ackPacket packet).datagram] ∨
        fairLoss = channel.fairLoss.send (channel.ackPacket packet) ∧ writes = []) ∧
      channel.fairLoss.socketOpen = true := by
  unfold ReliableChannel.handlePayloadMessage at h
  generalize (if packet.id ∈ channel.delivered then [] else
    [ChannelOutput.callback packet]) = callback at h ⊢
  split_ifs at h with hopen hstatus
  · obtain ⟨rfl, rfl⟩ := Prod.mk.inj (Option.some.inj h)
    exact ⟨_, _, rfl, rfl, .inl ⟨rfl, rfl⟩, hopen⟩
  · obtain ⟨rfl, rfl⟩ := Prod.mk.inj (Option.some.inj h)
    exact ⟨_, _, rfl, rfl, .inr ⟨rfl, rfl⟩, hopen⟩

theorem handlePayloadMessage_outs {packet : Packet} {status : WriteStatus}
    (h : channel.handlePayloadMessage packet status = some (channel', outs)) :
    ∀ o ∈ outs, o = .handle packet ∨ o = .write (channel.ackPacket packet).datagram ∨
      o = .callback packet := by
  obtain ⟨fairLoss, writes, _, rfl, hfair, _⟩ := handlePayloadMessage_cases h
  intro o ho
  rcases List.mem_append.1 ho with ho | ho
  · rcases List.mem_cons.1 ho with ho | ho
    · exact .inl ho
    · rcases hfair with ⟨_, rfl⟩ | ⟨_, rfl⟩
      · exact .inr (.inl (List.mem_singleton.1 ho))
      · cases ho
  · split_ifs at ho
    · cases ho
    · exact .inr (.inr (List.mem_singleton.1 ho))

theorem Delivered.payload (h : Delivered channel t) {packet : Packet} {writes : List ChannelOutput}
    (hdelivered : channel'.delivered = insert packet.id channel.delivered)
    (hwrites : ∀ o ∈ writes, ∃ datagram, o = .write datagram) :
    Delivered channel' (t ++ (.handle packet :: writes ++
      (if packet.id ∈ channel.delivered then [] else [.callback packet]))) := by
  have hnone : callbackIds writes = [] := by
    apply List.filterMap_eq_nil_iff.2
    intro o ho
    obtain ⟨datagram, rfl⟩ := hwrites o ho
    rfl
  have hids : callbackIds (t ++ (.handle packet :: writes ++
      (if packet.id ∈ channel.delivered then [] else [.callback packet]))) =
      callbackIds t ++ (if packet.id ∈ channel.delivered then [] else [packet.id]) := by
    have hcons : callbackIds (.handle packet :: writes) = callbackIds writes := rfl
    rw [callbackIds_append, callbackIds_append, hcons, hnone]
    split_ifs <;> rfl
  refine ⟨fun id => ?_, ?_, fun packet' hm => ?_⟩
  · rw [hids, hdelivered, Finset.mem_insert, List.mem_append, ← h.delivered id]
    split_ifs with hold
    · constructor
      · rintro (rfl | hid)
        · exact .inl hold
        · exact .inl hid
      · rintro (hid | hid)
        · exact .inr hid
        · cases hid
    · rw [List.mem_singleton, or_comm]
  · rw [hids]
    split_ifs with hold
    · rw [List.append_nil]
      exact h.once
    · apply List.Nodup.append h.once (List.nodup_singleton _)
      rw [List.disjoint_singleton]
      exact mt (h.delivered _).2 hold
  · rcases List.mem_append.1 hm with hm | hm
    · exact List.mem_append_left _ (h.handled packet' hm)
    · apply List.mem_append_right
      rcases List.mem_append.1 hm with hm | hm
      · rcases List.mem_cons.1 hm with hm | hm
        · cases hm
        · obtain ⟨_, he⟩ := hwrites _ hm
          cases he
      · split_ifs at hm with hold
        · cases hm
        · obtain rfl := ChannelOutput.callback.inj (List.mem_singleton.1 hm)
          simp

theorem ChannelLocal.payload (h : ChannelLocal channel t) {packet : Packet} {status : WriteStatus}
    (hs : channel.handlePayloadMessage packet status = some (channel', outs)) :
    ChannelLocal channel' (t ++ outs) := by
  have houts := handlePayloadMessage_outs hs
  have hnone : ∀ {α : Type} (f : ChannelOutput → Option α), f (.handle packet) = none →
      f (.write (channel.ackPacket packet).datagram) = none → f (.callback packet) = none →
      outs.filterMap f = [] := by
    intro α f h₁ h₂ h₃
    apply List.filterMap_eq_nil_iff.2
    intro o ho
    rcases houts o ho with rfl | rfl | rfl <;> assumption
  obtain ⟨fairLoss, writes, rfl, rfl, hfair, _⟩ := handlePayloadMessage_cases hs
  have horigin : Origin (t ++ (.handle packet :: writes ++
      (if packet.id ∈ channel.delivered then [] else [.callback packet])))
      (channel.ackPacket packet) := origin_ackPacket (by simp)
  constructor
  · apply h.origins.append
    · intro contract packet' hm
      rcases houts _ hm with he | he | he <;> cases he
    · intro packet' hp
      rcases hfair with ⟨rfl, _⟩ | ⟨rfl, _⟩
      · exact .inl hp
      · rcases FairLossChannel.mem_packets_send _ hp with hp | rfl
        · exact .inl hp
        · exact .inr (.inr horigin)
    · exact fun packet' hp => .inl hp
    · intro datagram hm
      rcases houts _ hm with he | he | he
      · cases he
      · exact ⟨_, .inr horigin, ChannelOutput.write.inj he⟩
      · cases he
  · exact h.numbered.frame (Nat.le_succ _) rfl (hnone _ rfl rfl rfl)
  · exact h.promises.frame rfl rfl (hnone _ rfl rfl rfl)
  · apply h.delivered.payload rfl
    rcases hfair with ⟨_, rfl⟩ | ⟨_, rfl⟩ <;> simp

theorem ChannelLocal.step {event : ChannelEvent} (h : ChannelLocal channel t)
    (hs : channel.Step event channel' outs) : ChannelLocal channel' (t ++ outs) := by
  cases hs with
  | passive hs => exact h.passive hs
  | send message => exact h.send message
  | ack hpacket htype hmessage =>
      exact handleAckMessage_induction _ channel h
        fun channel t id entry h _ hget => h.acknowledged hget
  | payload hpacket htype hs => exact h.payload hs
  | stop hs => exact h.stop hs

theorem ChannelLocal.start (config : ChannelConfig) : ChannelLocal config.start [] := by
  have htimers : ∀ timer, ¬config.start.HasTimer timer := by
    rintro timer (⟨slot, htimer⟩ | htimer)
    · simp [ChannelConfig.start] at htimer
    · simp [ChannelConfig.start] at htimer
  refine ⟨⟨by simp, by simp [ChannelConfig.start, FairLossChannel.packets, WritePhase.batch],
    fun packet ⟨timer, _, htimer, _⟩ => absurd htimer (htimers timer), by simp⟩,
    ⟨fun _ => ⟨List.nodup_nil, by simp [sentIds]⟩, rfl⟩, ⟨List.nodup_nil, ?_, ?_⟩,
    ⟨?_, List.nodup_nil, ?_⟩⟩
  · simp [ReliableChannel.pendingContracts, ChannelConfig.start, resolvedContracts]
  · simp [ChannelConfig.start]
  · simp [ChannelConfig.start, callbackIds]
  · simp

end Local

end BroadcastService.Transport

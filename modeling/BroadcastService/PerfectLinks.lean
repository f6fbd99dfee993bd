import BroadcastService.ChannelEvents

/-!
# Safety of perfect links

Two reliable channels over a network that loses, duplicates and reorders datagrams. A channel
handles only packets that the other one sent, and an acknowledgement names a packet that was
handled, so a future is resolved with a value only after its message arrived.
-/

namespace BroadcastService.Transport
open MessagePassing

abbrev LinkHistory := History Bool ReliableChannel Bytes ChannelOutput

section Outputs

variable {channel channel' : ReliableChannel} {event : ChannelEvent} {outs : List ChannelOutput}

theorem mem_handleAckMessage {acks : List UInt32} {o : ChannelOutput}
    (h : o ∈ (ReliableChannel.handleAckMessage acks channel).2) :
    ∃ id ∈ acks, ∃ entry contract, channel.messageEntries.get id = some entry ∧
      entry.promise = some contract ∧ o = .resolve contract true := by
  have hall := handleAckMessage_induction acks channel (t := [])
    (Q := fun later outs =>
      (∀ id entry, later.messageEntries.get id = some entry →
        channel.messageEntries.get id = some entry) ∧
      ∀ o ∈ outs, ∃ id ∈ acks, ∃ entry contract, channel.messageEntries.get id = some entry ∧
        entry.promise = some contract ∧ o = .resolve contract true)
    ⟨fun _ _ hget => hget, by simp⟩ ?_
  · exact hall.2 o h
  · rintro later outs id entry ⟨hentries, houts⟩ hid hget
    refine ⟨fun id' entry' hget' => ?_, fun o ho => ?_⟩
    · change (later.messageEntries.take id).2.get id' = some entry' at hget'
      rw [MRMWUnorderedMap.get_take] at hget'
      split_ifs at hget'
      exact hentries id' entry' hget'
    · rcases List.mem_append.1 ho with ho | ho
      · exact houts o ho
      · obtain ⟨contract, hpromise, he⟩ := mem_resolve.1 ho
        exact ⟨id, hid, entry, contract, hentries id entry hget, hpromise, he⟩

theorem handle_mem (hs : channel.Step event channel' outs) {packet : Packet}
    (hm : .handle packet ∈ outs) : ∃ datagram status, event = .read datagram status ∧
      Packet.unmarshal datagram = some packet ∧ packet.type = .payloadMessage := by
  cases hs with
  | passive hs =>
      obtain ⟨_, _, he⟩ := hs.outs _ hm
      cases he
  | send message => cases List.mem_singleton.1 hm
  | ack hpacket htype hmessage =>
      obtain ⟨_, _, _, _, _, _, he⟩ := mem_handleAckMessage hm
      cases he
  | @payload datagram status packet' _ _ hpacket htype hs =>
      rcases handlePayloadMessage_outs hs _ hm with he | he | he
      · obtain rfl := ChannelOutput.handle.inj he
        exact ⟨datagram, status, rfl, hpacket, htype⟩
      · cases he
      · cases he
  | stop hs =>
      obtain ⟨_, he⟩ := stop_outs hs _ hm
      cases he

theorem resolve_mem (hs : channel.Step event channel' outs) {contract : ℕ}
    (hm : .resolve contract true ∈ outs) :
    ∃ datagram status packet message id entry, event = .read datagram status ∧
      Packet.unmarshal datagram = some packet ∧ packet.type = .ackMessage ∧
      AckMessage.unmarshal packet.message = some message ∧ id ∈ message.acks ∧
      channel.messageEntries.get id = some entry ∧ entry.promise = some contract := by
  cases hs with
  | passive hs =>
      obtain ⟨_, _, he⟩ := hs.outs _ hm
      cases he
  | send message => cases List.mem_singleton.1 hm
  | ack hpacket htype hmessage =>
      obtain ⟨id, hid, entry, contract', hget, hpromise, he⟩ := mem_handleAckMessage hm
      obtain ⟨rfl, _⟩ := ChannelOutput.resolve.inj he
      exact ⟨_, _, _, _, id, entry, rfl, hpacket, htype, hmessage, hid, hget, hpromise⟩
  | payload hpacket htype hs =>
      rcases handlePayloadMessage_outs hs _ hm with he | he | he <;> cases he
  | stop hs =>
      obtain ⟨_, he⟩ := stop_outs hs _ hm
      cases he

theorem messageIds_le (hs : channel.Step event channel' outs) :
    channel.messageIds ≤ channel'.messageIds := by
  cases hs with
  | passive hs => exact hs.messageIds
  | send message => exact Nat.le_succ _
  | @ack datagram status packet message hpacket htype hmessage =>
      have hkeep := handleAckMessage_induction message.acks channel (t := [])
        (Q := fun later _ => later.messageIds = channel.messageIds) rfl
        fun later t id entry h _ _ => h
      exact hkeep.symm.le
  | payload hpacket htype hs =>
      obtain ⟨_, _, rfl, _⟩ := handlePayloadMessage_cases hs
      exact Nat.le_succ _
  | stop hs =>
      obtain ⟨_, _, he⟩ := Option.map_eq_some_iff.1 hs
      obtain ⟨rfl, _⟩ := Prod.mk.inj he
      exact le_rfl

/-- The identifier of a packet that was handled is remembered. -/
theorem delivered_step (hs : channel.Step event channel' outs) :
    channel.delivered ⊆ channel'.delivered ∧
      ∀ packet, .handle packet ∈ outs → packet.id ∈ channel'.delivered := by
  have hnone : (∀ packet, .handle packet ∉ outs) → channel'.delivered = channel.delivered →
      channel.delivered ⊆ channel'.delivered ∧
        ∀ packet, .handle packet ∈ outs → packet.id ∈ channel'.delivered :=
    fun hhandle hdelivered => ⟨hdelivered.ge, fun packet hm => absurd hm (hhandle packet)⟩
  cases hs with
  | passive hs =>
      apply hnone _ hs.delivered
      intro packet hm
      obtain ⟨_, _, he⟩ := hs.outs _ hm
      cases he
  | send message => exact hnone (fun packet hm => by cases List.mem_singleton.1 hm) rfl
  | @ack datagram status packet message hpacket htype hmessage =>
      apply hnone
      · intro packet hm
        obtain ⟨_, _, _, _, _, _, he⟩ := mem_handleAckMessage hm
        cases he
      · exact handleAckMessage_induction message.acks channel (t := [])
          (Q := fun later _ => later.delivered = channel.delivered) rfl
          fun later t id entry h _ _ => h
  | payload hpacket htype hs =>
      have houts := handlePayloadMessage_outs hs
      obtain ⟨_, _, rfl, _⟩ := handlePayloadMessage_cases hs
      refine ⟨Finset.subset_insert _ _, fun packet hm => ?_⟩
      rcases houts _ hm with he | he | he
      · rw [ChannelOutput.handle.inj he]
        exact Finset.mem_insert_self _ _
      · cases he
      · cases he
  | stop hs =>
      have houts := stop_outs hs
      obtain ⟨_, _, he⟩ := Option.map_eq_some_iff.1 hs
      obtain ⟨rfl, _⟩ := Prod.mk.inj he
      apply hnone _ rfl
      intro packet hm
      obtain ⟨_, he⟩ := houts _ hm
      cases he

theorem onEvent_localId (hs : channel.onEvent event = some (channel', outs)) :
    channel'.localId = channel.localId := by
  cases ReliableChannel.onEvent_outcome hs with
  | @ack _ _ _ message _ _ _ =>
      exact handleAckMessage_induction message.acks channel (t := [])
        (Q := fun later _ => later.localId = channel.localId) rfl
        fun later t id entry h _ _ => h
  | payload _ _ hs =>
      obtain ⟨_, _, rfl, _⟩ := handlePayloadMessage_cases hs
      rfl
  | retry draw _ _ => rw [ReliableChannel.fireBackoffRetry_eq]
  | stop hs =>
      obtain ⟨fairLoss, _, he⟩ := Option.map_eq_some_iff.1 hs
      obtain ⟨rfl, _⟩ := Prod.mk.inj he
      rfl
  | _ => rfl

theorem source_of_send_mem (hs : channel.Step event channel' outs) {contract : ℕ} {packet : Packet}
    (hm : .send contract packet ∈ outs) : packet.source = channel.localId := by
  cases hs with
  | passive hs =>
      obtain ⟨_, _, he⟩ := hs.outs _ hm
      cases he
  | send message =>
      obtain ⟨_, rfl⟩ := ChannelOutput.send.inj (List.mem_singleton.1 hm)
      rfl
  | ack hpacket htype hmessage =>
      obtain ⟨_, _, _, _, _, _, he⟩ := mem_handleAckMessage hm
      cases he
  | payload hpacket htype hs =>
      rcases handlePayloadMessage_outs hs _ hm with he | he | he <;> cases he
  | stop hs =>
      obtain ⟨_, he⟩ := stop_outs hs _ hm
      cases he

end Outputs

variable {config : Bool → ChannelConfig} {h : LinkHistory}

/-- The datagram that an event reads was written by the other end. -/
def Unforged (h : LinkHistory) (p : Bool) (event : ChannelEvent) : Prop :=
  ∀ datagram status, event = .read datagram status → .write datagram ∈ h.trace (!p)

theorem link_invariant {I : LinkHistory → Prop} (hr : (linkProgram config).Reachable h)
    (h₀ : I (linkProgram config).initial)
    (hstep : ∀ (h : LinkHistory) p event channel' outs, (linkProgram config).Reachable h → I h →
      Unforged h p event → (h.node p).Step event channel' outs → I (h.act p (channel', outs)))
    (hreceive : ∀ (h : LinkHistory) m, I h → I (h.receive m)) : I h := by
  apply DatagramProgram.invariant hr h₀
  · intro h p event r hr ih hread hevent
    apply hstep h p event r.1 r.2 hr ih
    · rintro datagram status rfl
      cases hread
    · exact ReliableChannel.onEvent_step hevent
  · intro h p event q datagram r hr ih hread hwritten hevent
    apply hreceive (h.act p r)
    apply hstep h p event r.1 r.2 hr ih _ (ReliableChannel.onEvent_step hevent)
    rintro datagram' status rfl
    obtain ⟨rfl, rfl⟩ := Prod.mk.inj (Option.some.inj hread)
    obtain ⟨o, ho, hd⟩ := hwritten
    cases o with
    | write d =>
        obtain ⟨_, rfl⟩ := Prod.mk.inj (List.mem_singleton.1 hd)
        exact ho
    | _ => cases hd

theorem link_local (hr : (linkProgram config).Reachable h) :
    ∀ p, ChannelLocal (h.node p) (h.trace p) := by
  apply link_invariant (I := fun h => ∀ p, ChannelLocal (h.node p) (h.trace p)) hr
  · exact fun p => ChannelLocal.start (config p)
  · intro h p event channel' outs _ ih _ hs
    exact History.forall_act _ _ _ (Q := fun _ => ChannelLocal) ih ((ih p).step hs)
  · exact fun h m ih => ih

theorem origin_of_unforged (hr : (linkProgram config).Reachable h) {p : Bool}
    {event : ChannelEvent} (hu : Unforged h p event) {datagram : Bytes} {status : WriteStatus}
    {packet : Packet} (he : event = .read datagram status)
    (hpacket : Packet.unmarshal datagram = some packet) : Origin (h.trace (!p)) packet := by
  obtain ⟨packet', ho, rfl⟩ := (link_local hr (!p)).origins.written datagram (hu datagram status he)
  rw [Packet.unmarshal_datagram] at hpacket
  exact Option.some.inj hpacket ▸ ho

/-- Only packets that the other end sent are handled. -/
theorem sent_of_handled (hr : (linkProgram config).Reachable h) {p : Bool} {packet : Packet}
    (hm : .handle packet ∈ h.trace p) : ∃ contract, .send contract packet ∈ h.trace (!p) := by
  apply link_invariant (I := fun h => ∀ p packet, .handle packet ∈ h.trace p →
    ∃ contract, .send contract packet ∈ h.trace (!p)) hr
  · intro p packet hm
    cases hm
  · intro h q event channel' outs hr ih hu hs p packet hm
    have hmono : (∃ contract, .send contract packet ∈ h.trace (!p)) →
        ∃ contract, .send contract packet ∈ (h.act q (channel', outs)).trace (!p) :=
      fun ⟨contract, hm⟩ => ⟨contract, History.trace_subset_act _ _ _ _ hm⟩
    apply hmono
    rcases (History.mem_act_trace ..).1 hm with hold | ⟨rfl, hnew⟩
    · exact ih p packet hold
    · obtain ⟨datagram, status, he, hpacket, htype⟩ := handle_mem hs hnew
      rcases origin_of_unforged hr hu he hpacket with hsent | ⟨hack, _⟩
      · exact hsent
      · rw [htype] at hack
        cases hack
  · exact fun h m ih => ih
  · exact hm

theorem send_unique {channel : ReliableChannel} {t : List ChannelOutput}
    (hl : ChannelLocal channel t) (hids : channel.messageIds ≤ idSpace) {c c' : ℕ}
    {packet packet' : Packet} (hm : .send c packet ∈ t) (hm' : .send c' packet' ∈ t)
    (hid : packet.id = packet'.id) : c = c' ∧ packet = packet' := by
  have he := eq_of_nodup_filterMap (hl.numbered.ids hids).1 hm hm' rfl (congrArg some hid.symm)
  exact ChannelOutput.send.inj he

theorem packet_of_contract {channel : ReliableChannel} {t : List ChannelOutput}
    (hl : ChannelLocal channel t) {contract : ℕ} {packet packet' : Packet}
    (hm : .send contract packet ∈ t) (hm' : .send contract packet' ∈ t) : packet = packet' := by
  have hcontract : (sentContracts t).Nodup := by
    rw [hl.numbered.contracts]
    exact List.nodup_range
  exact (ChannelOutput.send.inj (eq_of_nodup_filterMap hcontract hm hm' rfl rfl)).2

/-- A future is resolved with a value only after the other end has handled its message. -/
theorem handled_of_resolved (hr : (linkProgram config).Reachable h)
    (hids : ∀ p, (h.node p).messageIds ≤ idSpace) {p : Bool} {contract : ℕ}
    (hm : .resolve contract true ∈ h.trace p) :
    ∃ packet, .send contract packet ∈ h.trace p ∧ .handle packet ∈ h.trace (!p) := by
  apply link_invariant (I := fun h => (∀ p, (h.node p).messageIds ≤ idSpace) → ∀ p contract,
    .resolve contract true ∈ h.trace p →
    ∃ packet, .send contract packet ∈ h.trace p ∧ .handle packet ∈ h.trace (!p)) hr
  · intro _ p contract hm
    cases hm
  · intro h q event channel' outs hr ih hu hs hids p contract hm
    have hold : ∀ p, (h.node p).messageIds ≤ idSpace := by
      intro p
      have hp := hids p
      by_cases hpq : p = q
      · subst hpq
        rw [History.act_node_self] at hp
        exact (messageIds_le hs).trans hp
      · rwa [History.act_node_ne _ _ _ _ hpq] at hp
    have hmono : (∃ packet, .send contract packet ∈ h.trace p ∧ .handle packet ∈ h.trace (!p)) →
        ∃ packet, .send contract packet ∈ (h.act q (channel', outs)).trace p ∧
          .handle packet ∈ (h.act q (channel', outs)).trace (!p) :=
      fun ⟨packet, h₁, h₂⟩ => ⟨packet, History.trace_subset_act _ _ _ _ h₁,
        History.trace_subset_act _ _ _ _ h₂⟩
    apply hmono
    rcases (History.mem_act_trace ..).1 hm with hm | ⟨rfl, hnew⟩
    · exact ih hold p contract hm
    · obtain ⟨datagram, status, packet, message, id, entry, he, hpacket, htype, hmessage, hid, hget,
        hpromise⟩ := resolve_mem hs hnew
      have hlocal := link_local hr p
      obtain ⟨sent, hsent, hsentId⟩ := hlocal.promises.entries id entry contract hget hpromise
      rcases origin_of_unforged hr hu he hpacket with ⟨c, hsend⟩ | ⟨_, handled, hhandled, hack⟩
      · rw [(link_local hr (!p)).origins.sent c packet hsend] at htype
        cases htype
      · -- The acknowledged packet was sent by this end, under the identifier of the entry.
        obtain ⟨c, hsend⟩ := sent_of_handled hr hhandled
        rw [Bool.not_not] at hsend
        rw [hmessage] at hack
        obtain rfl := Option.some.inj hack
        obtain rfl := List.mem_singleton.1 hid
        obtain ⟨_, rfl⟩ := send_unique hlocal (hold p) hsent hsend hsentId
        exact ⟨sent, hsent, hhandled⟩
  · exact fun h m ih => ih
  · exact hids
  · exact hm

/-- The callback was invoked with every packet that was handled. -/
theorem callback_of_handled (hr : (linkProgram config).Reachable h)
    (hids : ∀ p, (h.node p).messageIds ≤ idSpace) {p : Bool} {packet : Packet}
    (hm : .handle packet ∈ h.trace p) : .callback packet ∈ h.trace p := by
  have hdelivered : ∀ p packet, .handle packet ∈ h.trace p →
      packet.id ∈ (h.node p).delivered := by
    apply link_invariant (I := fun h => ∀ p packet, .handle packet ∈ h.trace p →
      packet.id ∈ (h.node p).delivered) hr
    · intro p packet hm
      cases hm
    · intro h q event channel' outs _ ih _ hs p packet hm
      obtain ⟨hkeep, hnew⟩ := delivered_step hs
      by_cases hp : p = q
      · subst hp
        rw [History.act_node_self]
        rw [History.act_trace_self] at hm
        rcases List.mem_append.1 hm with hm | hm
        · exact hkeep (ih p packet hm)
        · exact hnew packet hm
      · rw [History.act_node_ne _ _ _ _ hp]
        rw [History.act_trace_ne _ _ _ _ hp] at hm
        exact ih p packet hm
    · exact fun h m ih => ih
  have hlocal := link_local hr p
  obtain ⟨called, hcalled, hid⟩ :=
    mem_callbackIds.1 ((hlocal.delivered.delivered _).1 (hdelivered p packet hm))
  -- The packets of one identifier were sent by the same call.
  obtain ⟨c, hsend⟩ := sent_of_handled hr hm
  obtain ⟨c', hsend'⟩ := sent_of_handled hr (hlocal.delivered.handled called hcalled)
  obtain ⟨_, rfl⟩ := send_unique (link_local hr (!p)) (hids (!p)) hsend' hsend hid
  exact hcalled

theorem source_of_sent (hr : (linkProgram config).Reachable h) {p : Bool} {contract : ℕ}
    {packet : Packet} (hm : .send contract packet ∈ h.trace p) :
    packet.source = (config p).localId := by
  have hall : ∀ p, (h.node p).localId = (config p).localId ∧
      ∀ contract packet, .send contract packet ∈ h.trace p →
        packet.source = (config p).localId := by
    apply hr.invariant (I := fun h : LinkHistory => ∀ p, (h.node p).localId = (config p).localId ∧
      ∀ contract packet, .send contract packet ∈ h.trace p →
        packet.source = (config p).localId)
    · intro p
      exact ⟨rfl, fun contract packet hm => by cases hm⟩
    · rintro h ⟨q, event⟩ h' _ ih _ hs
      obtain ⟨⟨channel', outs⟩, hevent, _, hnode, htrace⟩ := DatagramProgram.step_cases hs
      rw [hnode, htrace]
      obtain ⟨hid, hsent⟩ := ih q
      apply History.forall_act h q (channel', outs)
        (Q := fun p channel t => channel.localId = (config p).localId ∧
          ∀ contract packet, .send contract packet ∈ t → packet.source = (config p).localId) ih
      refine ⟨(onEvent_localId hevent).trans hid, fun contract packet hm => ?_⟩
      rcases List.mem_append.1 hm with hm | hm
      · exact hsent contract packet hm
      · exact (source_of_send_mem (ReliableChannel.onEvent_step hevent) hm).trans hid
  exact (hall p).2 contract packet hm

/-- The callback of the other end is invoked at most once for a call of `Send` and with its packet,
and not otherwise; the future of a call is resolved at most once, with a value only if the other end
has handled the packet. -/
theorem perfect_links_safety (hr : (linkProgram config).Reachable h)
    (hids : ∀ p, (h.node p).messageIds < idSpace) (p : Bool) :
    (∀ contract packet, .send contract packet ∈ h.trace p →
      (callbackIds (h.trace (!p))).count packet.id ≤ 1 ∧
      (∀ received, .callback received ∈ h.trace (!p) → received.id = packet.id →
        received = packet) ∧
      (resolvedContracts (h.trace p)).count contract ≤ 1 ∧
      (.resolve contract true ∈ h.trace p → .handle packet ∈ h.trace (!p))) ∧
    ∀ received, .callback received ∈ h.trace (!p) →
      ∃! contract, .send contract received ∈ h.trace p := by
  have hlocal := link_local hr p
  have hother := link_local hr (!p)
  have hspace := (hids p).le
  have hsent : ∀ received, .callback received ∈ h.trace (!p) →
      ∃ contract, .send contract received ∈ h.trace p := by
    intro received hm
    have hsend := sent_of_handled hr (hother.delivered.handled received hm)
    rwa [Bool.not_not] at hsend
  refine ⟨fun contract packet hsend => ⟨?_, fun received hm hid => ?_, ?_, fun hm => ?_⟩,
    fun received hm => ?_⟩
  · exact List.nodup_iff_count_le_one.1 hother.delivered.once packet.id
  · obtain ⟨_, hm⟩ := hsent received hm
    exact (send_unique hlocal hspace hm hsend hid).2
  · apply List.nodup_iff_count_le_one.1
    exact (List.nodup_append.1 hlocal.promises.distinct).2.1
  · obtain ⟨packet', hsend', hhandled⟩ :=
      handled_of_resolved hr (fun p => (hids p).le) hm
    rw [packet_of_contract hlocal hsend hsend']
    exact hhandled
  · obtain ⟨contract, hsend⟩ := hsent received hm
    exact ⟨contract, hsend, fun c hc => (send_unique hlocal hspace hc hsend rfl).1⟩

def exampleConfig (p : Bool) : ChannelConfig where
  tickDuration := 100
  localId := if p then 1 else 0
  msgPolicy := { timeoutMs := 100, multiplier := 2, maxTimeoutMs := 800 }
  errorPolicy := { timeoutMs := 100, multiplier := 2, maxTimeoutMs := 100000 }
  emptyWritePolicy := { timeoutMs := 100, multiplier := 2, maxTimeoutMs := 100000 }
  maxSendBudget := 200

/-- A message is sent, arrives twice and is acknowledged twice; the second acknowledgement comes
after `Stop`. -/
def duplicatedMessage : List (Bool × ChannelEvent) :=
  let message : Packet := ⟨.payloadMessage, 0, 0, [7]⟩
  let ack : AckMessage := ⟨[0]⟩
  let ackPacket : Packet := ⟨.ackMessage, 0, 1, ack.marshal (List.replicate ack.size 0)⟩
  [(false, .send [7])] ++ List.replicate 3 (false, .write .writeReady .ok 0) ++
    List.replicate 2 (true, .read message.datagram .ok) ++
    [(false, .read ackPacket.datagram .ok), (false, .stop), (false, .read ackPacket.datagram .ok)]

theorem perfect_links_safety_duplicated : ∃ h : LinkHistory,
    (linkProgram exampleConfig).Reachable h ∧ (∀ p, (h.node p).messageIds < idSpace) ∧
    .resolve 0 true ∈ h.trace false ∧
    (∀ contract packet, .send contract packet ∈ h.trace false →
      (callbackIds (h.trace true)).count packet.id ≤ 1 ∧
      (∀ received, .callback received ∈ h.trace true → received.id = packet.id →
        received = packet) ∧
      (resolvedContracts (h.trace false)).count contract ≤ 1 ∧
      (.resolve contract true ∈ h.trace false → .handle packet ∈ h.trace true)) ∧
    ∀ received, .callback received ∈ h.trace true →
      ∃! contract, .send contract received ∈ h.trace false := by
  obtain ⟨h, hr, hids, hresolved⟩ : ∃ h, (linkProgram exampleConfig).Reachable h ∧
      (∀ p, (h.node p).messageIds < idSpace) ∧ .resolve 0 true ∈ h.trace false :=
    TransitionSystem.exists_reachable duplicatedMessage (by decide +kernel)
  exact ⟨h, hr, hids, hresolved, perfect_links_safety hr hids false⟩

end BroadcastService.Transport

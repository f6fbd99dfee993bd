import BroadcastService.ReliableTransport

/-!
# Demultiplexing in user space

A kernel that hands the datagrams of a peer to the socket of another one makes the wrong reliable
channel read them. The source in the packet tells the user above who sent it, but duplicates are
detected and acknowledgements are sent by the channel that reads. Identifiers of different processes
coincide, so an acknowledgement of the message of one peer fulfils the future of another one, whose
own message is later taken for a duplicate (`misrouting_visible`).

With kernels that route right, two processes are joined by a perfect link: the channels that two
processes have for each other behave like the two ends of `linkProgram` (`link_of_transport`), so
that the guarantees of perfect links apply (`misrouting_hidden`).
-/

namespace BroadcastService.Transport
open MessagePassing TransitionSystem

/-- A process reads the datagrams of a peer on the channel of that peer, and an acknowledgement is
not read before the callback of the packet it acknowledges has been invoked. -/
def RoutedRight (route : UInt8 → UInt8 → UInt8) (h : TransportHistory) :
    UInt8 × TransportEvent → Prop
  | (p, .read q datagram _) => route p q = q ∧
      ∀ packet ∈ Packet.unmarshal datagram, packet.type = .ackMessage →
        ∀ message ∈ AckMessage.unmarshal packet.message, ∀ called ∈ (h.node q).callbacks,
          called.source = p → called.id ∉ message.acks
  | _ => True

/-- The process of an end of the link between two processes, and the peer that its channel is
for. -/
def linkEnd (p q : UInt8) : Bool → UInt8 × UInt8
  | false => (p, q)
  | true => (q, p)

theorem linkEnd_not (p q : UInt8) (b : Bool) : linkEnd p q (!b) = (linkEnd p q b).swap := by
  cases b <;> rfl

def linkConfig (config : UInt8 → TransportConfig) (p q : UInt8) (b : Bool) : ChannelConfig :=
  { (config (linkEnd p q b).1).channel with localId := (linkEnd p q b).1 }

/-- The channels that two processes have for each other. -/
structure LinkView (h : TransportHistory) (p q : UInt8) (link : LinkHistory) : Prop where
  node : ∀ b, link.node b = (h.node (linkEnd p q b).1).channel (linkEnd p q b).2
  trace : ∀ b, link.trace b = channelTrace (h.trace (linkEnd p q b).1) (linkEnd p q b).2

section Link

variable {config : UInt8 → TransportConfig} {route : UInt8 → UInt8 → UInt8}
  {h h' : TransportHistory} {p q : UInt8} {link link' : LinkHistory}

theorem reachable_draws (hr : (linkProgram (linkConfig config p q)).Reachable link) (b : Bool)
    (n : ℕ) : ∃ link', (linkProgram (linkConfig config p q)).Reachable link' ∧
      link'.node = Function.update link.node b
        { link.node b with messageIds := (link.node b).messageIds + n } ∧
      link'.trace = link.trace := by
  induction n with
  | zero => exact ⟨link, hr, by simp, rfl⟩
  | succ n ih =>
      obtain ⟨link', hr', hnode, htrace⟩ := ih
      obtain ⟨link'', hstep, hnode', htrace'⟩ := DatagramProgram.exists_step
        (A := linkProgram (linkConfig config p q)) (h := link') (p := b) (e := .otherMessageId)
        (r := ({ link'.node b with messageIds := (link'.node b).messageIds + 1 }, [])) rfl
        (by simp [linkProgram])
      refine ⟨link'', hr'.tail trivial hstep, ?_, ?_⟩
      · rw [hnode']
        simp [History.act, hnode, Nat.add_assoc]
      · rw [htrace']
        simp [History.act, htrace]

theorem LinkView.other (hview : LinkView h p q link) {x : UInt8} (hx : ∀ b, (linkEnd p q b).1 ≠ x)
    {r : ReliableTransport × List TransportOutput} (hnode : h'.node = (h.act x r).node)
    (htrace : h'.trace = (h.act x r).trace) : LinkView h' p q link := by
  refine ⟨fun b => ?_, fun b => ?_⟩
  · rw [hnode, History.act_node_ne _ _ _ _ (hx b)]
    exact hview.node b
  · rw [htrace, History.act_trace_ne _ _ _ _ (hx b)]
    exact hview.trace b

theorem LinkView.act (hview : LinkView h p q link) (hpq : p ≠ q) {b : Bool}
    {r : ReliableTransport × List TransportOutput}
    (hnode : h'.node = (h.act (linkEnd p q b).1 r).node)
    (htrace : h'.trace = (h.act (linkEnd p q b).1 r).trace)
    (hnode' : link'.node = Function.update link.node b (r.1.channel (linkEnd p q b).2))
    (htrace' : link'.trace = Function.update link.trace b
      (link.trace b ++ channelTrace r.2 (linkEnd p q b).2)) :
    LinkView h' p q link' := by
  have hne : ∀ b', b' ≠ b → (linkEnd p q b').1 ≠ (linkEnd p q b).1 := by
    intro b' hb
    cases b <;> cases b'
    all_goals simp_all [linkEnd, Ne.symm]
  refine ⟨fun b' => ?_, fun b' => ?_⟩
  · by_cases hb : b' = b
    · subst hb
      rw [hnode, hnode', History.act_node_self, Function.update_self]
    · rw [hnode, hnode', History.act_node_ne _ _ _ _ (hne b' hb), Function.update_of_ne hb]
      exact hview.node b'
  · by_cases hb : b' = b
    · subst hb
      rw [htrace, htrace', History.act_trace_self, Function.update_self, channelTrace_append,
        hview.trace]
    · rw [htrace, htrace', History.act_trace_ne _ _ _ _ (hne b' hb), Function.update_of_ne hb]
      exact hview.trace b'

variable (config route) in
/-- A datagram that is read on the channel of its sender was written by the other end. -/
theorem LinkView.written (hview : LinkView h p q link) {b : Bool} {datagram : Bytes}
    (hwritten : ∃ o ∈ h.trace (linkEnd p q b).2, ((linkEnd p q b).1, datagram) ∈
      (transportProgram config route).written (linkEnd p q b).2 o) :
    ∃ o ∈ link.trace (!b), (b, datagram) ∈
      (linkProgram (linkConfig config p q)).written (!b) o := by
  obtain ⟨o, ho, hd⟩ := hwritten
  have hwrite : o = .channel (linkEnd p q b).1 (.write datagram) := by
    cases o with
    | channel peer output =>
        cases output with
        | write datagram' =>
            obtain ⟨rfl, rfl⟩ := Prod.mk.inj (List.mem_singleton.1 hd)
            rfl
        | _ => cases hd
    | _ => cases hd
  refine ⟨.write datagram, ?_, ?_⟩
  · rw [hview.trace, linkEnd_not]
    exact mem_channelTrace.2 (hwrite ▸ ho)
  · simp [linkProgram]

theorem link_step (hr : (linkProgram (linkConfig config p q)).Reachable link) (hpq : p ≠ q)
    (hview : LinkView h p q link) {x : UInt8} {event : TransportEvent}
    (hroute : ∀ sender datagram status, event = .read sender datagram status →
      route x sender = sender)
    (hs : (transportProgram config route).step h (x, event) = some h') :
    ∃ link', (linkProgram (linkConfig config p q)).Reachable link' ∧ LinkView h' p q link' := by
  obtain ⟨⟨transport', outs⟩, hevent, hread, hnode, htrace⟩ := DatagramProgram.step_cases hs
  by_cases hx : ∀ b, (linkEnd p q b).1 ≠ x
  · exact ⟨link, hr, hview.other hx hnode htrace⟩
  · simp only [not_forall, not_not] at hx
    obtain ⟨b, rfl⟩ := hx
    -- A step that does not change the channel and has no output of it.
    have hidle : transport'.channel (linkEnd p q b).2 = link.node b →
        channelTrace outs (linkEnd p q b).2 = [] →
        ∃ link', (linkProgram (linkConfig config p q)).Reachable link' ∧ LinkView h' p q link' := by
      intro hchannel hnone
      refine ⟨link, hr, hview.act hpq hnode htrace ?_ ?_⟩
      · rw [hchannel, Function.update_eq_self]
      · rw [hnone, List.append_nil, Function.update_eq_self]
    cases ReliableTransport.onEvent_step hevent with
    | sendLocal message => exact hidle (hview.node b).symm rfl
    | callback hcallback => exact hidle (hview.node b).symm rfl
    | @channel _ peer channelEvent channel' outs' hpeer hreads hchannel =>
        by_cases hp : peer = (linkEnd p q b).2
        · -- An event of the channel for the other process is an event of the link.
          subst hp
          have hstep : (linkProgram (linkConfig config p q)).onEvent b (link.node b) channelEvent =
              some (channel', outs') := by
            rw [hview.node]
            exact hchannel
          obtain ⟨link', hlink, hnode', htrace'⟩ := DatagramProgram.exists_step hstep (by
            intro b' datagram hlinkRead
            cases channelEvent with
            | read datagram' status =>
                obtain ⟨rfl, rfl⟩ := Prod.mk.inj (Option.some.inj hlinkRead)
                obtain ⟨sender, rfl, hchosen⟩ := hreads datagram' status rfl
                have hsender : sender = (linkEnd p q b).2 :=
                  (hchosen.trans (hroute sender datagram' status rfl)).symm
                apply hview.written config route
                rw [← hsender]
                exact hread sender datagram' rfl
            | _ => cases hlinkRead)
          refine ⟨link', hr.tail trivial hlink, hview.act hpq hnode htrace ?_ ?_⟩
          · rw [hnode', ReliableTransport.channel_update_self]
            rfl
          · rw [htrace', channelTrace_map, if_pos rfl]
            rfl
        · -- An event of another channel of the process may draw identifiers.
          have hdraws : (h.node (linkEnd p q b).1).messageIds ≤ channel'.messageIds :=
            messageIds_le (ReliableChannel.onEvent_step hchannel)
          obtain ⟨link', hr', hnode', htrace'⟩ :=
            reachable_draws hr b (channel'.messageIds - (h.node (linkEnd p q b).1).messageIds)
          refine ⟨link', hr', hview.act hpq hnode htrace ?_ ?_⟩
          · rw [hnode', ReliableTransport.channel_update_ne (Ne.symm hp), ← hview.node]
            have hcount : (link.node b).messageIds = (h.node (linkEnd p q b).1).messageIds := by
              rw [hview.node]
              rfl
            rw [hcount, Nat.add_sub_cancel' hdraws]
          · rw [htrace', channelTrace_map, if_neg hp, List.append_nil, Function.update_eq_self]

/-- With kernels that route right, the channels of two processes for each other are the ends of a
link. -/
theorem link_of_transport
    (hr : ReachableIn (transportProgram config route).step (RoutedRight route)
      (transportProgram config route).initial h) (hpq : p ≠ q) :
    ∃ link, (linkProgram (linkConfig config p q)).Reachable link ∧ LinkView h p q link := by
  apply hr.invariant (I := fun h => ∃ link,
    (linkProgram (linkConfig config p q)).Reachable link ∧ LinkView h p q link)
  · exact ⟨_, .refl, fun b => rfl, fun b => rfl⟩
  · rintro h ⟨x, event⟩ h' _ ⟨link, hlink, hview⟩ hok hs
    refine link_step hlink hpq hview ?_ hs
    rintro sender datagram status rfl
    exact hok.1

end Link

/-- Callbacks are on their way to the batcher or have reached it, and a process has no channel for
itself. -/
structure TransportLocal (p : UInt8) (transport : ReliableTransport) (t : List TransportOutput) :
    Prop where
  localId : transport.localId = p
  peers : p ∉ transport.peers
  channels : ∀ peer output, .channel peer output ∈ t → peer ≠ p
  passed : ∀ peer packet, .channel peer (.callback packet) ∈ t →
    packet ∈ transport.callbacks ∨ .addPacket packet ∈ t
  justValue : ∀ packet, .justValue packet ∈ t → packet.source = p ∧ .addPacket packet ∈ t

section Local

variable {p : UInt8} {transport transport' : ReliableTransport} {t outs : List TransportOutput}

theorem TransportLocal.append (h : TransportLocal p transport t)
    (hlocal : transport'.localId = transport.localId) (hpeers : transport'.peers = transport.peers)
    (hchannels : ∀ peer output, .channel peer output ∈ outs → peer ≠ p)
    (hkept : ∀ packet ∈ transport.callbacks,
      packet ∈ transport'.callbacks ∨ .addPacket packet ∈ outs)
    (hcalled : ∀ peer packet, .channel peer (.callback packet) ∈ outs →
      packet ∈ transport'.callbacks)
    (hvalue : ∀ packet, .justValue packet ∈ outs → packet.source = p ∧ .addPacket packet ∈ outs) :
    TransportLocal p transport' (t ++ outs) := by
  refine ⟨hlocal.trans h.localId, hpeers ▸ h.peers, fun peer output hm => ?_,
    fun peer packet hm => ?_, fun packet hm => ?_⟩
  · rcases List.mem_append.1 hm with hm | hm
    · exact h.channels peer output hm
    · exact hchannels peer output hm
  · rcases List.mem_append.1 hm with hm | hm
    · rcases h.passed peer packet hm with hpending | hadded
      · exact (hkept packet hpending).imp id (List.mem_append_right _)
      · exact .inr (List.mem_append_left _ hadded)
    · exact .inl (hcalled peer packet hm)
  · rcases List.mem_append.1 hm with hm | hm
    · exact (h.justValue packet hm).imp id (List.mem_append_left _)
    · exact (hvalue packet hm).imp id (List.mem_append_right _)

theorem TransportLocal.step {route : UInt8 → UInt8} {event : TransportEvent}
    (h : TransportLocal p transport t)
    (hs : ReliableTransport.Step route transport event transport' outs) :
    TransportLocal p transport' (t ++ outs) := by
  cases hs with
  | sendLocal message =>
      apply h.append
      · rfl
      · rfl
      · simp [ReliableTransport.sendLocal]
      · exact fun packet hm => .inl hm
      · simp [ReliableTransport.sendLocal]
      · intro packet hm
        obtain rfl : packet = ⟨.payloadMessage, 0, transport.localId, message⟩ := by
          simpa [ReliableTransport.sendLocal] using hm
        exact ⟨h.localId, by simp [ReliableTransport.sendLocal]⟩
  | @callback index packet hindex =>
      apply h.append
      · rfl
      · rfl
      · simp
      · intro packet' hm
        rcases List.mem_cons.1 ((Program.perm_cons_eraseIdx hindex).subset hm) with rfl | hrest
        · exact .inr (by simp)
        · exact .inl hrest
      · simp
      · simp
  | @channel _ peer _ channel' outs' hpeer _ hevent =>
      have hmap : ∀ peer' output, .channel peer' output ∈ outs'.map (TransportOutput.channel peer) →
          peer' = peer ∧ output ∈ outs' := by
        intro peer' output hm
        obtain ⟨_, ho, he⟩ := List.mem_map.1 hm
        obtain ⟨rfl, rfl⟩ := TransportOutput.channel.inj he
        exact ⟨rfl, ho⟩
      apply h.append
      · rfl
      · rfl
      · rintro peer' output hm rfl
        obtain ⟨rfl, _⟩ := hmap _ _ hm
        exact h.peers hpeer
      · exact fun packet hm => .inl (List.mem_append_left _ hm)
      · intro peer' packet hm
        exact List.mem_append_right _ (List.mem_filterMap.2 ⟨_, (hmap _ _ hm).2, rfl⟩)
      · simp

end Local

section Runs

variable {config : UInt8 → TransportConfig} {route : UInt8 → UInt8 → UInt8}
  {ok : TransportHistory → UInt8 × TransportEvent → Prop} {h : TransportHistory}

theorem transport_local (hr : ReachableIn (transportProgram config route).step ok
    (transportProgram config route).initial h) (p : UInt8) :
    TransportLocal p (h.node p) (h.trace p) := by
  apply hr.invariant (I := fun h : TransportHistory =>
    ∀ p, TransportLocal p (h.node p) (h.trace p))
  · intro p
    have hpeers : p ∉ ((config p).start p).peers := by simp [TransportConfig.start]
    have hnil : ∀ o : TransportOutput, o ∉ (transportProgram config route).initial.trace p := by
      intro o ho
      cases ho
    exact ⟨rfl, hpeers, fun _ _ hm => absurd hm (hnil _), fun _ _ hm => absurd hm (hnil _),
      fun _ hm => absurd hm (hnil _)⟩
  · rintro h ⟨x, event⟩ h' _ ih _ hs
    obtain ⟨⟨transport', outs⟩, hevent, _, hnode, htrace⟩ := DatagramProgram.step_cases hs
    rw [hnode, htrace]
    exact History.forall_act h x (transport', outs) (Q := TransportLocal) ih
      ((ih x).step (ReliableTransport.onEvent_step hevent))

theorem transport_messageIds_le {route : UInt8 → UInt8} {transport transport' : ReliableTransport}
    {event : TransportEvent} {outs : List TransportOutput}
    (hs : ReliableTransport.Step route transport event transport' outs) :
    transport.messageIds ≤ transport'.messageIds := by
  cases hs with
  | sendLocal message => exact le_rfl
  | callback hindex => exact le_rfl
  | channel hpeer _ hevent => exact messageIds_le (ReliableChannel.onEvent_step hevent)

theorem acknowledged_of_resolved {route : UInt8 → UInt8} {transport transport' : ReliableTransport}
    {event : TransportEvent} {outs : List TransportOutput} {q : UInt8} {contract : ℕ}
    (hs : ReliableTransport.Step route transport event transport' outs)
    (hm : .channel q (.resolve contract true) ∈ outs) :
    ∃ sender datagram status packet message id entry,
      event = .read sender datagram status ∧ q = route sender ∧
      Packet.unmarshal datagram = some packet ∧ packet.type = .ackMessage ∧
      AckMessage.unmarshal packet.message = some message ∧ id ∈ message.acks ∧
      (transport.channel q).messageEntries.get id = some entry ∧
      entry.promise = some contract := by
  cases hs with
  | sendLocal message => simp [ReliableTransport.sendLocal] at hm
  | callback hindex => simp at hm
  | channel hpeer hread hevent =>
      obtain ⟨_, ho, he⟩ := List.mem_map.1 hm
      obtain ⟨rfl, rfl⟩ := TransportOutput.channel.inj he
      obtain ⟨datagram, status, packet, message, id, entry, rfl, hpacket, htype, hmessage, hid,
        hget, hpromise⟩ := resolve_mem (ReliableChannel.onEvent_step hevent) ho
      obtain ⟨sender, hevent, hroute⟩ := hread datagram status rfl
      exact ⟨sender, datagram, status, packet, message, id, entry, hevent, hroute, hpacket, htype,
        hmessage, hid, hget, hpromise⟩

section Routed

variable {p q : UInt8} (hr : ReachableIn (transportProgram config route).step (RoutedRight route)
    (transportProgram config route).initial h) (hpq : p ≠ q)
include hr hpq

theorem channel_local :
    ChannelLocal ((h.node p).channel q) (channelTrace (h.trace p) q) := by
  obtain ⟨link, hlink, hview⟩ := link_of_transport hr hpq
  have hlocal := link_local hlink false
  rwa [hview.node, hview.trace] at hlocal

theorem called_of_handled (hids : ∀ p, (h.node p).messageIds ≤ idSpace) {packet : Packet}
    (hm : .channel q (.handle packet) ∈ h.trace p) :
    .channel q (.callback packet) ∈ h.trace p := by
  obtain ⟨link, hlink, hview⟩ := link_of_transport hr hpq
  have hhandled : .handle packet ∈ link.trace false := by
    rw [hview.trace]
    exact mem_channelTrace.2 hm
  have hcalled := callback_of_handled hlink (fun b => by rw [hview.node]; exact hids _) hhandled
  rw [hview.trace] at hcalled
  exact mem_channelTrace.1 hcalled

/-- The callback for the packet of a fulfilled future is under way or has been invoked. -/
theorem called_of_resolved (hids : ∀ p, (h.node p).messageIds ≤ idSpace) {contract : ℕ}
    (hm : .channel q (.resolve contract true) ∈ h.trace p) :
    ∃ packet, .channel q (.send contract packet) ∈ h.trace p ∧ packet.source = p ∧
      .channel p (.callback packet) ∈ h.trace q := by
  obtain ⟨link, hlink, hview⟩ := link_of_transport hr hpq
  have hlinkIds : ∀ b, (link.node b).messageIds ≤ idSpace := by
    intro b
    rw [hview.node]
    exact hids _
  have hresolved : .resolve contract true ∈ link.trace false := by
    rw [hview.trace]
    exact mem_channelTrace.2 hm
  obtain ⟨packet, hsend, hhandled⟩ := handled_of_resolved hlink hlinkIds hresolved
  have hcalled := callback_of_handled hlink hlinkIds hhandled
  have hsource := source_of_sent hlink hsend
  rw [hview.trace] at hsend hcalled
  exact ⟨packet, mem_channelTrace.1 hsend, hsource, mem_channelTrace.1 hcalled⟩

end Routed

/-- A future is fulfilled with a value only after the batcher of the receiver has got its packet. -/
theorem passed_of_resolved
    (hr : ReachableIn (transportProgram config route).step (RoutedRight route)
      (transportProgram config route).initial h)
    (hids : ∀ p, (h.node p).messageIds ≤ idSpace) {p q : UInt8} {contract : ℕ}
    (hm : .channel q (.resolve contract true) ∈ h.trace p) :
    ∃ packet, .channel q (.send contract packet) ∈ h.trace p ∧ packet.source = p ∧
      .addPacket packet ∈ h.trace q := by
  apply hr.invariant (I := fun h : TransportHistory => (∀ p, (h.node p).messageIds ≤ idSpace) →
    ∀ p q contract, .channel q (.resolve contract true) ∈ h.trace p →
      ∃ packet, .channel q (.send contract packet) ∈ h.trace p ∧ packet.source = p ∧
        .addPacket packet ∈ h.trace q)
  · intro _ p q contract hm
    cases hm
  · rintro h ⟨x, event⟩ h' hr ih hok hs hids p q contract hm
    have hr' := hr.tail hok hs
    obtain ⟨⟨transport', outs⟩, hevent, _, hnode, htrace⟩ := DatagramProgram.step_cases hs
    have hstep := ReliableTransport.onEvent_step hevent
    have hmono : ∀ y, h.trace y ⊆ h'.trace y := by
      intro y
      rw [htrace]
      exact History.trace_subset_act _ _ _ _
    have hold : ∀ p, (h.node p).messageIds ≤ idSpace := by
      intro y
      have hy := hids y
      rw [hnode] at hy
      by_cases hyx : y = x
      · subst hyx
        rw [History.act_node_self] at hy
        exact (transport_messageIds_le hstep).trans hy
      · rwa [History.act_node_ne _ _ _ _ hyx] at hy
    have hqp := (transport_local hr' p).channels q _ hm
    rw [htrace] at hm
    rcases (History.mem_act_trace ..).1 hm with hm | ⟨rfl, hnew⟩
    · obtain ⟨packet, hsend, hsource, hadded⟩ := ih hold p q contract hm
      exact ⟨packet, hmono p hsend, hsource, hmono q hadded⟩
    · obtain ⟨packet, hsend, hsource, hcalled⟩ := called_of_resolved hr' hqp.symm hids
        (by rw [htrace]; exact (History.mem_act_trace ..).2 (.inr ⟨rfl, hnew⟩))
      refine ⟨packet, hsend, hsource, ?_⟩
      rw [htrace, History.act_trace_ne _ _ _ _ hqp] at hcalled ⊢
      rcases (transport_local hr q).passed p packet hcalled with hpending | hadded
      · -- The packet is the one that the acknowledgement names, whose callback was invoked before.
        obtain ⟨sender, datagram, status, ackPacket, message, id, entry, rfl, hroute, hpacket,
          htype, hmessage, hid, hget, hpromise⟩ := acknowledged_of_resolved hstep hnew
        obtain ⟨hright, hinvoked⟩ := hok
        obtain rfl : q = sender := hroute.trans hright
        obtain ⟨sent, hsent, hsentId⟩ :=
          (channel_local hr hqp.symm).promises.entries id entry contract hget hpromise
        have hsame : sent = packet := by
          apply packet_of_contract (channel_local hr' hqp.symm) _ (mem_channelTrace.2 hsend)
          exact mem_channelTrace.2 (hmono p (mem_channelTrace.1 hsent))
        subst hsame
        subst hsentId
        exact absurd hid (hinvoked ackPacket hpacket htype message hmessage sent hpending hsource)
      · exact hadded
  · exact hids
  · exact hm

/-- The future of a call of `Send` for the packet has a value. -/
def Fulfilled (h : TransportHistory) (p q : UInt8) (packet : Packet) : Prop :=
  p = q ∧ .justValue packet ∈ h.trace p ∨
    ∃ contract, .channel q (.send contract packet) ∈ h.trace p ∧
      .channel q (.resolve contract true) ∈ h.trace p

/-- Copies of the packet arrived, and none of them, not even the first one, was passed on. -/
def Discarded (h : TransportHistory) (q : UInt8) (packet : Packet) : Prop :=
  (∃ peer, .channel peer (.handle packet) ∈ h.trace q) ∧
    ∀ peer, .channel peer (.callback packet) ∉ h.trace q

/-- If datagrams are read by the channels of their senders, acknowledgements are not read before the
packets they acknowledge are in the batcher, and identifiers do not wrap, then a future is fulfilled
only after the batcher of the receiver got the packet, and no packet is taken for a duplicate when
its first copy arrives. -/
theorem misrouting_hidden
    (hr : ReachableIn (transportProgram config route).step (RoutedRight route)
      (transportProgram config route).initial h)
    (hids : ∀ p, (h.node p).messageIds ≤ idSpace) :
    (∀ p q packet, Fulfilled h p q packet →
      packet.source = p ∧ .addPacket packet ∈ h.trace q) ∧
    ∀ q packet, ¬Discarded h q packet := by
  constructor
  · rintro p q packet (⟨rfl, hvalue⟩ | ⟨contract, hsend, hresolve⟩)
    · exact (transport_local hr p).justValue packet hvalue
    · have hqp := (transport_local hr p).channels q _ hsend
      obtain ⟨sent, hsent, hsource, hadded⟩ := passed_of_resolved hr hids hresolve
      have hsame : sent = packet := packet_of_contract (channel_local hr hqp.symm)
        (mem_channelTrace.2 hsent) (mem_channelTrace.2 hsend)
      subst hsame
      exact ⟨hsource, hadded⟩
  · rintro q packet ⟨⟨peer, hhandled⟩, hnot⟩
    have hpeer := (transport_local hr q).channels peer _ hhandled
    exact hnot peer (called_of_handled hr hpeer.symm hids hhandled)

end Runs

instance (route : UInt8 → UInt8 → UInt8) (h : TransportHistory) :
    (label : UInt8 × TransportEvent) → Decidable (RoutedRight route h label)
  | (_, .read _ _ _) => inferInstanceAs (Decidable (_ ∧ ∀ _ ∈ _, _ → ∀ _ ∈ _, ∀ _ ∈ _, _ → _))
  | (_, .send _ _) | (_, .callback _) | (_, .internal _ _) => inferInstanceAs (Decidable True)

def threeHosts (_ : UInt8) : TransportConfig where
  hosts := [1, 2, 3]
  channel := exampleConfig false

def firstMessage (p message : UInt8) : List (UInt8 × TransportEvent) :=
  (p, .send 2 [message]) :: List.replicate 3 (p, .internal 2 (.write .writeReady .ok 0))

def firstPacket (p message : UInt8) : Packet := ⟨.payloadMessage, 0, p, [message]⟩

def firstAck : Bytes :=
  let ack : AckMessage := ⟨[0]⟩
  let packet : Packet := ⟨.ackMessage, 0, 2, ack.marshal (List.replicate ack.size 0)⟩
  packet.datagram

/-- The kernel of process 2 hands the datagrams of process 3 to the socket for process 1. -/
def wrongRoute (p q : UInt8) : UInt8 := if p = 2 ∧ q = 3 then 1 else q

/-- The first message of process 3 is acknowledged to process 1, whose own one arrives later. -/
def wrongRun : List (UInt8 × TransportEvent) :=
  firstMessage 1 7 ++ firstMessage 3 8 ++
    [(2, .read 3 (firstPacket 3 8).datagram .ok), (2, .callback 0), (1, .read 2 firstAck .ok),
      (2, .read 1 (firstPacket 1 7).datagram .ok)]

/-- The future of process 1 is fulfilled although process 2 never passes its message on: when the
message arrives, it is taken for a duplicate of the message of process 3. -/
theorem misrouting_visible : ∃ h : TransportHistory,
    (transportProgram threeHosts wrongRoute).Reachable h ∧
    Fulfilled h 1 2 (firstPacket 1 7) ∧ .addPacket (firstPacket 1 7) ∉ h.trace 2 ∧
    (h.node 2).callbacks = [] ∧ Discarded h 2 (firstPacket 1 7) := by
  obtain ⟨h, hr, hsend, hresolve, hadd, hcallbacks, hhandled, hcalled⟩ : ∃ h,
      (transportProgram threeHosts wrongRoute).Reachable h ∧
      .channel 2 (.send 0 (firstPacket 1 7)) ∈ h.trace 1 ∧
      .channel 2 (.resolve 0 true) ∈ h.trace 1 ∧ .addPacket (firstPacket 1 7) ∉ h.trace 2 ∧
      (h.node 2).callbacks.isEmpty = true ∧ .channel 1 (.handle (firstPacket 1 7)) ∈ h.trace 2 ∧
      ∀ n : ℕ, n < 256 → .channel (UInt8.ofNat n) (.callback (firstPacket 1 7)) ∉ h.trace 2 :=
    exists_reachable wrongRun (by decide +kernel)
  refine ⟨h, hr, .inr ⟨0, hsend, hresolve⟩, hadd, List.isEmpty_iff.1 hcallbacks,
    ⟨1, hhandled⟩, fun peer hm => ?_⟩
  apply hcalled peer.toNat peer.toNat_lt
  rwa [UInt8.ofNat_toNat]

end BroadcastService.Transport

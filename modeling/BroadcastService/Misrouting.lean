import BroadcastService.Demultiplexing

/-!
# Misrouting kernels

The demultiplexing in user space hides nothing of a kernel that misroutes. If a host `q` reads the
datagrams of `p` on the channel of a third host `r`, there is a run in which a future is fulfilled
whose message nobody has passed on (`exists_visible`): `p` and `r` send their first messages, both
under the identifier 0, and the acknowledgement of the one of `p` goes to `r`. All runs hide the
routing of the kernels exactly if every kernel routes right (`misrouting_hidden_iff`).
-/

namespace BroadcastService.Transport
open MessagePassing TransitionSystem

/-- An acknowledgement is not read before the callback of the packet it acknowledges has been
invoked. -/
def AcksCalled (h : TransportHistory) : UInt8 × TransportEvent → Prop
  | (p, .read q datagram _) =>
      ∀ packet ∈ Packet.unmarshal datagram, packet.type = .ackMessage →
        ∀ message ∈ AckMessage.unmarshal packet.message, ∀ called ∈ (h.node q).callbacks,
          called.source = p → called.id ∉ message.acks
  | _ => True

/-- The batcher of the receiver has got every packet whose future is fulfilled, and no packet is
taken for a duplicate when its first copy arrives. -/
def Hidden (h : TransportHistory) : Prop :=
  (∀ p q packet, Fulfilled h p q packet → packet.source = p ∧ .addPacket packet ∈ h.trace q) ∧
    ∀ q packet, ¬Discarded h q packet

/-- The processes are the hosts of one table, they may write, and each kernel hands the datagrams of
another host to a socket that is connected to some other host. -/
structure Deployed (hosts : List UInt8) (config : UInt8 → TransportConfig)
    (route : UInt8 → UInt8 → UInt8) : Prop where
  table : ∀ p, (config p).hosts = if p ∈ hosts then hosts else []
  budget : ∀ p, 0 < (config p).channel.maxSendBudget
  socket : ∀ q ∈ hosts, ∀ p ∈ hosts, p ≠ q → route q p ∈ hosts ∧ route q p ≠ q

/-- The runs in which acknowledgements are read after the callbacks. -/
abbrev CalledRun (config : UInt8 → TransportConfig) (route : UInt8 → UInt8 → UInt8)
    (h : TransportHistory) : Prop :=
  ReachableIn (transportProgram config route).step AcksCalled
    (transportProgram config route).initial h

variable {hosts : List UInt8} {config : UInt8 → TransportConfig}
  {route : UInt8 → UInt8 → UInt8} {h : TransportHistory}

theorem Deployed.mem_peers (hd : Deployed hosts config route) {p q : UInt8} :
    q ∈ ((config p).start p).peers ↔ p ∈ hosts ∧ q ∈ hosts ∧ q ≠ p := by
  simp only [TransportConfig.start, hd.table p, ne_eq, decide_not, List.mem_filter,
    Bool.not_eq_eq_eq_not, Bool.not_true, decide_eq_false_iff_not]
  split_ifs with hp
  · simp [hp]
  · simp [hp]

theorem peers_of_run (hr : CalledRun config route h) (p : UInt8) :
    (h.node p).peers = ((config p).start p).peers ∧
      ∀ peer output, .channel peer output ∈ h.trace p → peer ∈ ((config p).start p).peers := by
  apply hr.invariant (I := fun h : TransportHistory => ∀ p,
    (h.node p).peers = ((config p).start p).peers ∧
      ∀ peer output, .channel peer output ∈ h.trace p → peer ∈ ((config p).start p).peers)
  · intro p
    refine ⟨rfl, fun peer output hm => ?_⟩
    cases hm
  · rintro h ⟨x, event⟩ h' _ ih _ hs
    obtain ⟨⟨transport', outs⟩, hevent, _, hnode, htrace⟩ := DatagramProgram.step_cases hs
    rw [hnode, htrace]
    apply History.forall_act h x (transport', outs) (Q := fun p transport t =>
      transport.peers = ((config p).start p).peers ∧
        ∀ peer output, .channel peer output ∈ t → peer ∈ ((config p).start p).peers) ih
    obtain ⟨hpeers, hold⟩ := ih x
    -- Only the outputs of the step are new.
    suffices hnew : transport'.peers = (h.node x).peers ∧
        ∀ peer output, .channel peer output ∈ outs → peer ∈ (h.node x).peers by
      refine ⟨hnew.1.trans hpeers, fun peer output hm => ?_⟩
      rcases List.mem_append.1 hm with hm | hm
      · exact hold peer output hm
      · exact hpeers ▸ hnew.2 peer output hm
    cases ReliableTransport.onEvent_step hevent with
    | sendLocal message => exact ⟨rfl, by simp [ReliableTransport.sendLocal]⟩
    | callback hindex => exact ⟨rfl, by simp⟩
    | channel hpeer _ _ =>
        refine ⟨rfl, fun peer output hm => ?_⟩
        obtain ⟨_, _, he⟩ := List.mem_map.1 hm
        obtain ⟨rfl, _⟩ := TransportOutput.channel.inj he
        exact hpeer

theorem hosts_of_read (hd : Deployed hosts config route) (hr : CalledRun config route h)
    {q p : UInt8} {datagram : Bytes} {status : WriteStatus} {h' : TransportHistory}
    (hs : (transportProgram config route).step h (q, .read p datagram status) = some h') :
    p ∈ hosts ∧ q ∈ hosts ∧ p ≠ q := by
  obtain ⟨_, _, hread, _⟩ := DatagramProgram.step_cases hs
  obtain ⟨o, ho, hwritten⟩ := hread p datagram rfl
  have hwrite : o = .channel q (.write datagram) := by
    cases o with
    | channel peer output =>
        cases output with
        | write datagram' =>
            obtain ⟨rfl, rfl⟩ := Prod.mk.inj (List.mem_singleton.1 hwritten)
            rfl
        | _ => cases hwritten
    | _ => cases hwritten
  obtain ⟨hp, hq, hne⟩ := hd.mem_peers.1 ((peers_of_run hr p).2 q _ (hwrite ▸ ho))
  exact ⟨hp, hq, hne.symm⟩

theorem routedRight_of_called (hd : Deployed hosts config route)
    (hright : ∀ q ∈ hosts, ∀ p ∈ hosts, p ≠ q → route q p = p) (hr : CalledRun config route h) :
    ReachableIn (transportProgram config route).step (RoutedRight route)
      (transportProgram config route).initial h := by
  apply hr.invariant (I := fun h => ReachableIn (transportProgram config route).step
    (RoutedRight route) (transportProgram config route).initial h)
  · exact .refl
  · rintro h ⟨q, event⟩ h' hr ih hok hs
    refine ih.tail ?_ hs
    cases event with
    | read p datagram status =>
        obtain ⟨hp, hq, hne⟩ := hosts_of_read hd hr hs
        exact ⟨hright q hq p hp hne, hok⟩
    | _ => exact trivial

theorem onEvent_write {channel : ReliableChannel} {type : EventType} {status : WriteStatus}
    {draw : ℕ} {fairLoss : FairLossChannel} {effects : List WriteEffect}
    (hs : channel.fairLoss.advance type status draw = some (fairLoss, effects)) :
    channel.onEvent (.write type status draw) = some
      ({ channel with
          fairLoss
          timerService := effects.foldl ReliableChannel.applyEffect channel.timerService },
        effects.flatMap ReliableChannel.writtenBy) := by
  simp only [ReliableChannel.onEvent, ReliableChannel.write, hs, Option.map_some]

theorem exists_written (config : ChannelConfig) (hbudget : 0 < config.maxSendBudget)
    (message : Bytes) :
    let packet : Packet := ⟨.payloadMessage, 0, config.localId, message⟩
    let sent : ReliableChannel := (config.start.send message).1
    ∃ credited writing written : ReliableChannel,
      config.start.onEvent (.send message) = some (sent, [.send 0 packet]) ∧
      sent.onEvent (.write .writeReady .ok 0) = some (credited, []) ∧
      credited.onEvent (.write .writeReady .ok 0) = some (writing, []) ∧
      writing.onEvent (.write .writeReady .ok 0) = some (written, [.write packet.datagram]) ∧
      written.messageIds = 1 ∧ written.messageEntries.get 0 = some ⟨0, some 0, 1⟩ := by
  intro packet sent
  obtain ⟨budget, hcredit⟩ : ∃ budget,
      min config.maxSendBudget (counterSpace - 1) = budget + 1 := by
    apply Nat.exists_eq_succ_of_ne_zero
    unfold counterSpace
    omega
  have htaken : sent.fairLoss.sendBudget.credit (counterSpace - 1) =
      (budget + 1, ⟨config.maxSendBudget - (budget + 1), config.maxSendBudget⟩) := by
    rw [SharedBudget.credit, ← hcredit]
    rfl
  have harmed : sent.fairLoss.writeArmed = true := rfl
  let credited : ReliableChannel := { sent with
    fairLoss := { sent.fairLoss with
      writeArmed := false
      sendBudget := ⟨config.maxSendBudget - (budget + 1), config.maxSendBudget⟩
      phase := .credited (budget + 1) } }
  let writing : ReliableChannel := { credited with
    fairLoss := { credited.fairLoss with
      outgoingPackets := []
      emptyWritePolicy := config.emptyWritePolicy.reset
      phase := .writing (budget + 1) [packet] .connRefused } }
  let written : ReliableChannel := { writing with
    fairLoss := { writing.fairLoss with
      outgoingMessageIds := sent.fairLoss.outgoingMessageIds.erase 0
      phase := .writing budget [] .ok } }
  have hcall : sent.fairLoss.advance .writeReady .ok 0 = some (credited.fairLoss, []) := by
    change sent.fairLoss.handle .writeReady 0 = _
    unfold FairLossChannel.handle
    rw [if_pos harmed]
    simp only [htaken, Nat.add_eq_zero_iff, one_ne_zero, and_false, if_false]
    rfl
  have hpop : credited.fairLoss.advance .writeReady .ok 0 = some (writing.fairLoss, []) := rfl
  have hwrite : writing.fairLoss.advance .writeReady .ok 0 =
      some (written.fairLoss, [.write packet]) := rfl
  exact ⟨credited, writing, written, rfl, onEvent_write hcall, onEvent_write hpop,
    onEvent_write hwrite, rfl, rfl⟩

theorem exists_channel_step (hr : CalledRun config route h) {p peer : UInt8}
    (event : TransportEvent) {channelEvent : ChannelEvent} {channel' : ReliableChannel}
    {outs : List ChannelOutput} (hpeer : peer ∈ (h.node p).peers)
    (hevent : (h.node p).onEvent (route p) event = (h.node p).onChannel peer channelEvent)
    (hread : ∀ q datagram, (transportProgram config route).read p event = some (q, datagram) →
      .channel p (.write datagram) ∈ h.trace q)
    (hok : AcksCalled h (p, event))
    (hchannel : ((h.node p).channel peer).onEvent channelEvent = some (channel', outs)) :
    ∃ h', CalledRun config route h' ∧
      h'.node = Function.update h.node p ((h.node p).update peer channel' outs) ∧
      h'.trace = Function.update h.trace p (h.trace p ++ outs.map (.channel peer)) := by
  obtain ⟨h', hstep, hnode, htrace⟩ := DatagramProgram.exists_step
    (A := transportProgram config route) (h := h) (p := p) (e := event)
    (r := ((h.node p).update peer channel' outs, outs.map (.channel peer)))
    (by
      change (h.node p).onEvent (route p) event = _
      rw [hevent, ReliableTransport.onChannel, if_pos hpeer, hchannel]
      rfl)
    (by
      intro q datagram he
      exact ⟨_, hread q datagram he, List.mem_singleton.2 rfl⟩)
  exact ⟨h', hr.tail hok hstep, hnode, htrace⟩

def openingPacket (p : UInt8) : Packet := ⟨.payloadMessage, 0, p, []⟩

/-- All that a process has done is to send a message to the peer and to write its packet. -/
structure Opened (h : TransportHistory) (p peer : UInt8) : Prop where
  connected : peer ∈ (h.node p).peers
  entry : ((h.node p).channel peer).messageEntries.get 0 = some ⟨0, some 0, 1⟩
  messageIds : (h.node p).messageIds = 1
  trace : h.trace p = [.channel peer (.send 0 (openingPacket p)),
    .channel peer (.write (openingPacket p).datagram)]

/-- The other processes are as they were. -/
def SameBut (p : UInt8) (h h' : TransportHistory) : Prop :=
  ∀ x, x ≠ p → h'.node x = h.node x ∧ h'.trace x = h.trace x

theorem sameBut_of_update {p : UInt8} {h h' : TransportHistory} {transport : ReliableTransport}
    {t : List TransportOutput} (hnode : h'.node = Function.update h.node p transport)
    (htrace : h'.trace = Function.update h.trace p t) : SameBut p h h' := by
  intro x hx
  rw [hnode, htrace]
  exact ⟨Function.update_of_ne hx _ _, Function.update_of_ne hx _ _⟩

theorem SameBut.trans {p : UInt8} {h h' h'' : TransportHistory} (h₁ : SameBut p h h')
    (h₂ : SameBut p h' h'') : SameBut p h h'' := by
  intro x hx
  obtain ⟨hnode, htrace⟩ := h₁ x hx
  obtain ⟨hnode', htrace'⟩ := h₂ x hx
  exact ⟨hnode'.trans hnode, htrace'.trans htrace⟩

/-- A step of the channel of a process that needs no datagram. -/
theorem exists_local_step (hr : CalledRun config route h) {p peer : UInt8}
    (event : TransportEvent) {channelEvent : ChannelEvent} {channel channel' : ReliableChannel}
    {outs : List ChannelOutput} (hpeer : peer ∈ (h.node p).peers)
    (hevent : (h.node p).onEvent (route p) event = (h.node p).onChannel peer channelEvent)
    (hlocal : ∀ sender datagram status, event ≠ .read sender datagram status)
    (hbefore : (h.node p).channel peer = channel)
    (hchannel : channel.onEvent channelEvent = some (channel', outs)) :
    ∃ h', CalledRun config route h' ∧ SameBut p h h' ∧
      (h'.node p).peers = (h.node p).peers ∧ (h'.node p).localId = (h.node p).localId ∧
      (h'.node p).channel peer = channel' ∧ (h'.node p).messageIds = channel'.messageIds ∧
      h'.trace p = h.trace p ++ outs.map (.channel peer) := by
  obtain ⟨h', hr', hnode, htrace⟩ := exists_channel_step hr event hpeer hevent
    (by
      intro q datagram he
      cases event with
      | read sender datagram' status => exact absurd rfl (hlocal sender datagram' status)
      | _ => cases he)
    (by
      cases event with
      | read sender datagram' status => exact absurd rfl (hlocal sender datagram' status)
      | _ => exact trivial)
    (by rw [hbefore]; exact hchannel)
  refine ⟨h', hr', sameBut_of_update hnode htrace, ?_⟩
  rw [hnode, htrace, Function.update_self, Function.update_self]
  exact ⟨rfl, rfl, ReliableTransport.channel_update_self .., rfl, rfl⟩

theorem exists_opened (hr : CalledRun config route h) {p peer : UInt8}
    (hbudget : 0 < (config p).channel.maxSendBudget) (hnode : h.node p = (config p).start p)
    (htrace : h.trace p = []) (hpeer : peer ∈ (h.node p).peers) :
    ∃ h', CalledRun config route h' ∧ SameBut p h h' ∧ Opened h' p peer := by
  have hlocal : peer ≠ (h.node p).localId := by
    rintro rfl
    rw [hnode] at hpeer
    simp [TransportConfig.start] at hpeer
  have hstart : (h.node p).channel peer = { (config p).channel with localId := p }.start := by
    rw [hnode]
    rfl
  obtain ⟨credited, writing, written, hsend, hcredit, hpop, hwrite, hids, hentry⟩ :=
    exists_written { (config p).channel with localId := p } hbudget []
  obtain ⟨h₁, hr₁, hsame₁, hpeers₁, _, hchannel₁, _, htrace₁⟩ := exists_local_step hr
    (.send peer []) hpeer (by simp only [ReliableTransport.onEvent,
      ReliableTransport.send, if_neg hlocal]) (by simp) hstart hsend
  obtain ⟨h₂, hr₂, hsame₂, hpeers₂, _, hchannel₂, _, htrace₂⟩ := exists_local_step hr₁
    (.internal peer (.write .writeReady .ok 0)) (hpeers₁ ▸ hpeer) rfl (by simp)
    hchannel₁ hcredit
  obtain ⟨h₃, hr₃, hsame₃, hpeers₃, _, hchannel₃, _, htrace₃⟩ := exists_local_step hr₂
    (.internal peer (.write .writeReady .ok 0)) (by rw [hpeers₂, hpeers₁]; exact hpeer)
    rfl (by simp) hchannel₂ hpop
  obtain ⟨h₄, hr₄, hsame₄, hpeers₄, _, hchannel₄, hids₄, htrace₄⟩ := exists_local_step hr₃
    (.internal peer (.write .writeReady .ok 0))
    (by rw [hpeers₃, hpeers₂, hpeers₁]; exact hpeer) rfl (by simp) hchannel₃ hwrite
  refine ⟨h₄, hr₄, ((hsame₁.trans hsame₂).trans hsame₃).trans hsame₄, ?_, ?_, ?_, ?_⟩
  · rw [hpeers₄, hpeers₃, hpeers₂, hpeers₁]
    exact hpeer
  · rw [hchannel₄, hentry]
  · rw [hids₄, hids]
  · rw [htrace₄, htrace₃, htrace₂, htrace₁, htrace]
    rfl

def openingAck (q : UInt8) : Packet :=
  let ack : AckMessage := ⟨[0]⟩
  ⟨.ackMessage, 0, q, ack.marshal (List.replicate ack.size 0)⟩

/-- A process that has done nothing yet reads the first message of `p` on the channel of `r`, passes
it on, and has written the acknowledgement to `r`. -/
theorem exists_acknowledged (hr : CalledRun config route h) {p q r : UInt8}
    (hnode : h.node q = (config q).start q) (htrace : h.trace q = []) (hroute : route q p = r)
    (hpeer : r ∈ (h.node q).peers)
    (hwritten : .channel q (.write (openingPacket p).datagram) ∈ h.trace p) :
    ∃ h', CalledRun config route h' ∧ SameBut q h h' ∧ (h'.node q).callbacks = [] ∧
      (h'.node q).messageIds = 1 ∧ h'.trace q = [.channel r (.handle (openingPacket p)),
        .channel r (.write (openingAck q).datagram), .channel r (.callback (openingPacket p)),
        .addPacket (openingPacket p)] := by
  have hstart : (h.node q).channel r = { (config q).channel with localId := q }.start := by
    rw [hnode]
    rfl
  let reading : ReliableChannel := { { (config q).channel with localId := q }.start with
    messageIds := 1
    delivered := insert 0 ∅ }
  have hread : ((h.node q).channel r).onEvent (.read (openingPacket p).datagram .ok) =
      some (reading, [.handle (openingPacket p), .write (openingAck q).datagram,
        .callback (openingPacket p)]) := by
    rw [hstart]
    simp only [ReliableChannel.onEvent, ReliableChannel.read, Packet.unmarshal_datagram,
      Option.bind_some]
    rfl
  obtain ⟨h₁, hr₁, hnode₁, htrace₁⟩ := exists_channel_step hr
    (.read p (openingPacket p).datagram .ok) hpeer (by rw [← hroute]; rfl)
    (by
      rintro _ _ ⟨⟩
      exact hwritten)
    (by
      intro packet hpacket htype
      rw [Packet.unmarshal_datagram] at hpacket
      obtain rfl := Option.some.inj hpacket
      cases htype)
    hread
  have hcallbacks : (h₁.node q).callbacks = [openingPacket p] := by
    rw [hnode₁, Function.update_self]
    have hnone : (h.node q).callbacks = [] := by rw [hnode]; rfl
    change (h.node q).callbacks ++ [openingPacket p] = _
    rw [hnone, List.nil_append]
  obtain ⟨h₂, hstep, hnode₂, htrace₂⟩ := DatagramProgram.exists_step
    (A := transportProgram config route) (h := h₁) (p := q) (e := .callback 0)
    (r := ({ h₁.node q with callbacks := [] }, [.addPacket (openingPacket p)]))
    (by
      change (h₁.node q).callback 0 = _
      simp only [ReliableTransport.callback, hcallbacks]
      rfl)
    (by rintro _ _ ⟨⟩)
  have hok : AcksCalled h₁ (q, .callback 0) := trivial
  refine ⟨h₂, hr₁.tail hok hstep, ?_, ?_, ?_, ?_⟩
  · exact (sameBut_of_update hnode₁ htrace₁).trans (sameBut_of_update hnode₂ htrace₂)
  · rw [hnode₂, History.act_node_self]
  · rw [hnode₂, History.act_node_self, hnode₁, Function.update_self]
    rfl
  · rw [htrace₂, History.act_trace_self, htrace₁, Function.update_self, htrace]
    rfl

/-- Reading that acknowledgement on the channel of its first message fulfils the future of a
process. -/
theorem exists_fulfilled (hr : CalledRun config route h) {q r x : UInt8} (hopened : Opened h r x)
    (hroute : route r q = x) (hcallbacks : (h.node q).callbacks = [])
    (hwritten : .channel r (.write (openingAck q).datagram) ∈ h.trace q) :
    ∃ h', CalledRun config route h' ∧ SameBut r h h' ∧ (h'.node r).messageIds = 1 ∧
      h'.trace r = h.trace r ++ [.channel x (.resolve 0 true)] := by
  let channel := (h.node r).channel x
  let later : ReliableChannel := { channel with
    messageEntries := (channel.messageEntries.take 0).2
    timerService := channel.timerService.cancelTimer 0
    fairLoss := channel.fairLoss.addSendCredits 1 }
  have hread : channel.onEvent (.read (openingAck q).datagram .ok) =
      some (later, [.resolve 0 true]) := by
    have htake : channel.messageEntries.take 0 =
        (some ⟨0, some 0, 1⟩, (channel.messageEntries.take 0).2) := by
      rw [← hopened.entry]
      rfl
    have hhandled : ReliableChannel.handleAckMessage [0] channel =
        (later, [.resolve 0 true]) := by
      rw [ReliableChannel.handleAckMessage, htake]
      rfl
    have hack : AckMessage.unmarshal (openingAck q).message = some ⟨[0]⟩ :=
      AckMessage.unmarshal_marshal ⟨[0]⟩ _ (by decide)
    simp only [ReliableChannel.onEvent, ReliableChannel.read, Packet.unmarshal_datagram,
      Option.bind_some, ReliableChannel.handlePacket]
    change (AckMessage.unmarshal (openingAck q).message).map _ = _
    rw [hack, Option.map_some, hhandled]
  obtain ⟨h', hr', hnode, htrace⟩ := exists_channel_step hr
    (.read q (openingAck q).datagram .ok) hopened.connected (by rw [← hroute]; rfl)
    (by
      rintro _ _ ⟨⟩
      exact hwritten)
    (by
      intro packet _ _ message _ called hcalled
      rw [hcallbacks] at hcalled
      cases hcalled)
    hread
  refine ⟨h', hr', sameBut_of_update hnode htrace, ?_, ?_⟩
  · rw [hnode, Function.update_self]
    exact hopened.messageIds
  · rw [htrace, Function.update_self]
    rfl

/-- A host whose kernel misroutes the datagrams of another one has a run that shows it. -/
theorem exists_visible (hd : Deployed hosts config route) {p q : UInt8} (hp : p ∈ hosts)
    (hq : q ∈ hosts) (hpq : p ≠ q) (hwrong : route q p ≠ p) :
    ∃ h, CalledRun config route h ∧ (∀ x, (h.node x).messageIds ≤ idSpace) ∧
      ∃ r x, Fulfilled h r x (openingPacket r) ∧ .addPacket (openingPacket r) ∉ h.trace x := by
  obtain ⟨hr, hrq⟩ := hd.socket q hq p hp hpq
  set r := route q p with hroute
  obtain ⟨hx, hxr⟩ := hd.socket r hr q hq hrq.symm
  set x := route r q with hroute'
  have hstart : CalledRun config route (transportProgram config route).initial := .refl
  obtain ⟨h₁, hr₁, hsame₁, hopened₁⟩ := exists_opened hstart (hd.budget r) rfl rfl
    (hd.mem_peers.2 ⟨hr, hx, hxr⟩)
  obtain ⟨hp₁, ht₁⟩ := hsame₁ p (Ne.symm hwrong)
  obtain ⟨h₂, hr₂, hsame₂, hopened₂⟩ := exists_opened hr₁ (p := p) (hd.budget p)
    hp₁ ht₁ (by rw [hp₁]; exact hd.mem_peers.2 ⟨hp, hq, hpq.symm⟩)
  have hq₂ : h₂.node q = (config q).start q ∧ h₂.trace q = [] := by
    obtain ⟨hn₁, ht₁⟩ := hsame₁ q hrq.symm
    obtain ⟨hn₂, ht₂⟩ := hsame₂ q hpq.symm
    exact ⟨hn₂.trans hn₁, ht₂.trans ht₁⟩
  obtain ⟨h₃, hr₃, hsame₃, hcallbacks, hids₃, htrace₃⟩ := exists_acknowledged hr₂ hq₂.1 hq₂.2
    hroute.symm (by rw [hq₂.1]; exact hd.mem_peers.2 ⟨hq, hr, hrq⟩)
    (by rw [hopened₂.trace]; simp)
  -- The process whose channel read the message is as it was after its own one.
  have hr₃' : h₃.node r = h₁.node r ∧ h₃.trace r = h₁.trace r := by
    obtain ⟨hn₂, ht₂⟩ := hsame₂ r hwrong
    obtain ⟨hn₃, ht₃⟩ := hsame₃ r hrq
    exact ⟨hn₃.trans hn₂, ht₃.trans ht₂⟩
  have hopened₃ : Opened h₃ r x := by
    obtain ⟨hpeer, hentry, hids, htrace⟩ := hopened₁
    exact ⟨hr₃'.1 ▸ hpeer, by rw [hr₃'.1]; exact hentry, by rw [hr₃'.1]; exact hids,
      by rw [hr₃'.2]; exact htrace⟩
  obtain ⟨h₄, hr₄, hsame₄, hids₄, htrace₄⟩ := exists_fulfilled hr₃ hopened₃ hroute'.symm
    hcallbacks (by rw [htrace₃]; simp)
  refine ⟨h₄, hr₄, fun y => ?_, r, x, .inr ⟨0, ?_, ?_⟩, ?_⟩
  · have hone : (1 : ℕ) ≤ idSpace := by decide
    by_cases hyr : y = r
    · rw [hyr, hids₄]
      exact hone
    · rw [(hsame₄ y hyr).1]
      by_cases hyq : y = q
      · rw [hyq, hids₃]
        exact hone
      · rw [(hsame₃ y hyq).1]
        by_cases hyp : y = p
        · rw [hyp, hopened₂.messageIds]
          exact hone
        · rw [(hsame₂ y hyp).1, (hsame₁ y hyr).1]
          exact Nat.zero_le _
  · rw [htrace₄, hopened₃.trace]
    simp
  · rw [htrace₄]
    simp
  · rw [(hsame₄ x hxr).2]
    by_cases hxq : x = q
    · rw [hxq, htrace₃]
      simp [openingPacket, hwrong]
    · rw [(hsame₃ x hxq).2]
      by_cases hxp : x = p
      · rw [hxp, hopened₂.trace]
        simp
      · rw [(hsame₂ x hxp).2, (hsame₁ x hxr).2]
        exact List.not_mem_nil

/-- Whatever the hosts are, runs with datagrams on the channels of their senders hide the routing.
All runs of the hosts of a table hide it exactly if no kernel misroutes. -/
theorem misrouting_hidden_iff (config : UInt8 → TransportConfig) (route : UInt8 → UInt8 → UInt8) :
    (∀ h, ReachableIn (transportProgram config route).step (RoutedRight route)
        (transportProgram config route).initial h →
      (∀ p, (h.node p).messageIds ≤ idSpace) → Hidden h) ∧
    ∀ hosts, Deployed hosts config route →
      ((∀ h, CalledRun config route h → (∀ p, (h.node p).messageIds ≤ idSpace) → Hidden h) ↔
        ∀ q ∈ hosts, ∀ p ∈ hosts, p ≠ q → route q p = p) := by
  refine ⟨fun h hr hids => misrouting_hidden hr hids, fun hosts hd => ⟨?_, ?_⟩⟩
  · intro hall q hq p hp hpq
    by_contra hwrong
    obtain ⟨h, hr, hids, r, x, hfulfilled, hmissing⟩ := exists_visible hd hp hq hpq hwrong
    exact hmissing ((hall h hr hids).1 r x _ hfulfilled).2
  · intro hright h hr hids
    exact misrouting_hidden (routedRight_of_called hd hright hr) hids

def sharedHosts (p : UInt8) : TransportConfig where
  hosts := if p ∈ [1, 2, 3] then [1, 2, 3] else []
  channel := exampleConfig false

theorem deployed_right : Deployed [1, 2, 3] sharedHosts fun _ q => q := by
  have hbudget : 0 < (exampleConfig false).maxSendBudget := by decide
  refine ⟨fun p => rfl, fun p => hbudget, ?_⟩
  intro q _ p hp hne
  exact ⟨hp, hne⟩

theorem deployed_wrong : Deployed [1, 2, 3] sharedHosts wrongRoute := by
  have hbudget : 0 < (exampleConfig false).maxSendBudget := by decide
  refine ⟨fun p => rfl, fun p => hbudget, ?_⟩
  intro q hq p hp hne
  unfold wrongRoute
  split_ifs with hwrong
  · obtain ⟨rfl, rfl⟩ := hwrong
    exact ⟨by decide, by decide⟩
  · exact ⟨hp, hne⟩

def rightRun : List (UInt8 × TransportEvent) :=
  firstMessage 1 7 ++ firstMessage 3 8 ++
    [(2, .read 1 (firstPacket 1 7).datagram .ok), (2, .callback 0),
      (2, .read 3 (firstPacket 3 8).datagram .ok), (1, .read 2 firstAck .ok)]

/-- The run above, and both directions for the hosts with one table. -/
theorem misrouting_hidden_right : (∃ h : TransportHistory,
      ReachableIn (transportProgram sharedHosts fun _ q => q).step (RoutedRight fun _ q => q)
        (transportProgram sharedHosts fun _ q => q).initial h ∧
      (∀ p, (h.node p).messageIds ≤ idSpace) ∧ Fulfilled h 1 2 (firstPacket 1 7) ∧ Hidden h) ∧
    (∀ h, CalledRun sharedHosts (fun _ q => q) h → (∀ p, (h.node p).messageIds ≤ idSpace) →
      Hidden h) ∧
    ∃ h, CalledRun sharedHosts wrongRoute h ∧ (∀ p, (h.node p).messageIds ≤ idSpace) ∧
      ¬Hidden h := by
  refine ⟨?_, ?_, ?_⟩
  · obtain ⟨h, hr, hcounts, hsend, hresolve⟩ : ∃ h,
        ReachableIn (transportProgram sharedHosts fun _ q => q).step (RoutedRight fun _ q => q)
          (transportProgram sharedHosts fun _ q => q).initial h ∧
        (List.range 256).all (fun n => (h.node (UInt8.ofNat n)).messageIds ≤ 2) = true ∧
        .channel 2 (.send 0 (firstPacket 1 7)) ∈ h.trace 1 ∧
        .channel 2 (.resolve 0 true) ∈ h.trace 1 :=
      exists_reachableIn rightRun (by decide +kernel)
    have hids : ∀ p, (h.node p).messageIds ≤ idSpace := by
      intro p
      have hp := List.all_eq_true.1 hcounts p.toNat (List.mem_range.2 p.toNat_lt)
      rw [UInt8.ofNat_toNat] at hp
      exact (of_decide_eq_true hp).trans (by decide)
    exact ⟨h, hr, hids, .inr ⟨0, hsend, hresolve⟩, (misrouting_hidden_iff _ _).1 h hr hids⟩
  · apply ((misrouting_hidden_iff _ _).2 _ deployed_right).2
    intro q _ p _ _
    rfl
  · by_contra hnone
    push Not at hnone
    have hroute := ((misrouting_hidden_iff _ _).2 _ deployed_wrong).1 hnone 2 (by decide) 3
      (by decide) (by decide)
    revert hroute
    decide

end BroadcastService.Transport

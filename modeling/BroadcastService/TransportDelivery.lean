import BroadcastService.Demultiplexing

/-!
# What the packet batcher gets

The callbacks of all channels of a process and the messages to the process itself meet in the packet
batcher. If every datagram is read on the channel of its sender, the batcher of a process gets a
message of another process at most as often as that process has called `Send` for it
(`countP_added_le`). Identifiers that wrap around do not matter here: a channel that takes a new
message for a duplicate loses it, but never passes a message on twice.
-/

namespace BroadcastService.Transport
open MessagePassing TransitionSystem

def RoutedToSender (route : UInt8 → UInt8 → UInt8) : UInt8 × TransportEvent → Prop
  | (p, .read q _ _) => route p q = q
  | _ => True

def addedPackets (t : List TransportOutput) : List Packet :=
  t.filterMap fun o => match o with
    | .addPacket packet => some packet
    | _ => none

def calledPackets (t : List TransportOutput) : List Packet :=
  t.filterMap fun o => match o with
    | .channel _ output => output.calledBack
    | _ => none

def localPackets (t : List TransportOutput) : List Packet :=
  t.filterMap fun o => match o with
    | .justValue packet => some packet
    | _ => none

def ChannelOutput.sent : ChannelOutput → Option Packet
  | .send _ packet => some packet
  | _ => none

def sentMessages (t : List TransportOutput) : List (UInt8 × Bytes) :=
  t.filterMap fun o => match o with
    | .channel peer output => output.sent.map fun packet => (peer, packet.message)
    | .justValue packet => some (packet.source, packet.message)
    | _ => none

section Traces

variable (t t' : List TransportOutput)

@[simp] theorem addedPackets_append :
    addedPackets (t ++ t') = addedPackets t ++ addedPackets t' := List.filterMap_append

@[simp] theorem calledPackets_append :
    calledPackets (t ++ t') = calledPackets t ++ calledPackets t' := List.filterMap_append

@[simp] theorem localPackets_append :
    localPackets (t ++ t') = localPackets t ++ localPackets t' := List.filterMap_append

@[simp] theorem sentMessages_append :
    sentMessages (t ++ t') = sentMessages t ++ sentMessages t' := List.filterMap_append

variable (peer : UInt8) (outs : List ChannelOutput)

@[simp] theorem addedPackets_map : addedPackets (outs.map (.channel peer)) = [] := by
  simp [addedPackets]

@[simp] theorem localPackets_map : localPackets (outs.map (.channel peer)) = [] := by
  simp [localPackets]

@[simp] theorem calledPackets_map :
    calledPackets (outs.map (.channel peer)) = outs.filterMap ChannelOutput.calledBack := by
  rw [calledPackets, List.filterMap_map]
  rfl

@[simp] theorem sentMessages_map : sentMessages (outs.map (.channel peer)) =
    (outs.filterMap ChannelOutput.sent).map fun packet => (peer, packet.message) := by
  rw [sentMessages, List.filterMap_map, List.map_filterMap]
  rfl

end Traces

theorem sent_eq_none {channel channel' : ReliableChannel} {event : ChannelEvent}
    {outs : List ChannelOutput} (hs : channel.Step event channel' outs)
    (hevent : ∀ message, event ≠ .send message) {o : ChannelOutput} (ho : o ∈ outs) :
    o.sent = none := by
  cases hs with
  | passive h =>
      obtain ⟨_, _, rfl⟩ := h.outs _ ho
      rfl
  | send message => exact absurd rfl (hevent message)
  | ack hpacket htype hmessage =>
      obtain ⟨_, _, _, _, _, _, rfl⟩ := mem_handleAckMessage ho
      rfl
  | payload hpacket htype h =>
      rcases handlePayloadMessage_outs h _ ho with rfl | rfl | rfl
      all_goals rfl
  | stop h =>
      obtain ⟨_, rfl⟩ := stop_outs h _ ho
      rfl

def TransportEvent.sends : TransportEvent → List (UInt8 × Bytes)
  | .send peer message => [(peer, message)]
  | _ => []

theorem sentMessages_onChannel {transport transport' : ReliableTransport} {peer : UInt8}
    {event : ChannelEvent} {outs : List TransportOutput}
    (hs : transport.onChannel peer event = some (transport', outs))
    (hevent : ∀ message, event ≠ .send message) : sentMessages outs = [] := by
  unfold ReliableTransport.onChannel at hs
  split_ifs at hs with hpeer
  obtain ⟨⟨channel', outs'⟩, hchannel, he⟩ := Option.map_eq_some_iff.1 hs
  obtain ⟨-, rfl⟩ := Prod.mk.inj he
  rw [sentMessages_map, List.map_eq_nil_iff, List.filterMap_eq_nil_iff]
  exact fun o ho => sent_eq_none (ReliableChannel.onEvent_step hchannel) hevent ho

theorem sentMessages_onEvent {route : UInt8 → UInt8} {transport transport' : ReliableTransport}
    {event : TransportEvent} {outs : List TransportOutput}
    (hs : transport.onEvent route event = some (transport', outs)) :
    sentMessages outs = event.sends := by
  cases event with
  | send peer message =>
      simp only [ReliableTransport.onEvent, ReliableTransport.send] at hs
      split_ifs at hs with hlocal
      · obtain ⟨-, rfl⟩ := Prod.mk.inj (Option.some.inj hs)
        rw [hlocal]
        rfl
      · unfold ReliableTransport.onChannel at hs
        split_ifs at hs with hpeer
        obtain ⟨⟨channel', outs'⟩, hchannel, he⟩ := Option.map_eq_some_iff.1 hs
        obtain ⟨-, rfl⟩ := Prod.mk.inj he
        obtain ⟨-, rfl⟩ := Prod.mk.inj (Option.some.inj hchannel)
        rfl
  | read sender datagram status => exact sentMessages_onChannel hs (by simp)
  | callback index =>
      obtain ⟨packet, -, he⟩ := Option.map_eq_some_iff.1 hs
      obtain ⟨-, rfl⟩ := Prod.mk.inj he
      rfl
  | internal peer event =>
      simp only [ReliableTransport.onEvent] at hs
      split_ifs at hs with hinternal
      apply sentMessages_onChannel hs
      rintro message rfl
      cases hinternal

/-- Every packet of a callback or of the process itself is in the batcher or on its way, once. -/
def BatcherLocal (transport : ReliableTransport) (t : List TransportOutput) : Prop :=
  (addedPackets t ++ transport.callbacks).Perm (calledPackets t ++ localPackets t)

theorem BatcherLocal.step {route : UInt8 → UInt8} {transport transport' : ReliableTransport}
    {event : TransportEvent} {t outs : List TransportOutput} (h : BatcherLocal transport t)
    (hs : ReliableTransport.Step route transport event transport' outs) :
    BatcherLocal transport' (t ++ outs) := by
  unfold BatcherLocal at h ⊢
  rw [addedPackets_append, calledPackets_append, localPackets_append]
  cases hs with
  | sendLocal message =>
      change (addedPackets t ++ [_] ++ transport.callbacks).Perm
        (calledPackets t ++ [] ++ (localPackets t ++ [_]))
      rw [List.append_nil, ← List.append_assoc (calledPackets t)]
      refine List.Perm.trans ?_ (h.append_right _)
      simp only [List.append_assoc]
      exact List.perm_append_comm.append_left _
  | @callback index packet hindex =>
      change (addedPackets t ++ [packet] ++ transport.callbacks.eraseIdx index).Perm
        (calledPackets t ++ [] ++ (localPackets t ++ []))
      rw [List.append_nil, List.append_nil, List.append_assoc]
      exact ((Program.perm_cons_eraseIdx hindex).symm.append_left _).trans h
  | @channel _ peer _ channel' outs' hpeer _ hevent =>
      rw [addedPackets_map, localPackets_map, calledPackets_map, List.append_nil, List.append_nil]
      change (addedPackets t ++ (transport.callbacks ++ _)).Perm _
      rw [← List.append_assoc]
      refine (h.append_right _).trans ?_
      simp only [List.append_assoc]
      exact List.perm_append_comm.append_left _

theorem filter_sentMessages {p : UInt8} {t : List TransportOutput}
    (hchannels : ∀ peer output, .channel peer output ∈ t → peer ≠ p)
    (hlocal : ∀ packet, .justValue packet ∈ t → packet.source = p) :
    (sentMessages t).filter (fun m => m.1 = p) =
      (localPackets t).map fun packet => (packet.source, packet.message) := by
  induction t with
  | nil => rfl
  | cons o t ih =>
      have ih := ih (fun peer output hm => hchannels peer output (List.mem_cons_of_mem _ hm))
        fun packet hm => hlocal packet (List.mem_cons_of_mem _ hm)
      cases o with
      | channel peer output =>
          have hne := hchannels peer output List.mem_cons_self
          cases output with
          | send contract packet =>
              change ((peer, packet.message) :: sentMessages t).filter _ = _
              rw [List.filter_cons_of_neg (by simpa using hne)]
              exact ih
          | _ => exact ih
      | addPacket packet => exact ih
      | justValue packet =>
          have hsource := hlocal packet List.mem_cons_self
          change ((packet.source, packet.message) :: sentMessages t).filter _ = _ :: _
          rw [List.filter_cons_of_pos (by simpa using hsource)]
          exact congrArg _ ih

theorem countP_calledPackets {y : UInt8} {f : Packet → Bool} (hf : ∀ packet, f packet = true →
    packet.source = y) {t : List TransportOutput}
    (hsource : ∀ peer packet, .channel peer (.callback packet) ∈ t → packet.source = peer) :
    (calledPackets t).countP f =
      ((channelTrace t y).filterMap ChannelOutput.calledBack).countP f := by
  induction t with
  | nil => rfl
  | cons o t ih =>
      have ih := ih fun peer packet hm => hsource peer packet (List.mem_cons_of_mem _ hm)
      cases o with
      | channel peer output =>
          rw [show TransportOutput.channel peer output :: t =
              [output].map (.channel peer) ++ t from rfl, calledPackets_append, channelTrace_append,
            calledPackets_map, channelTrace_map, List.filterMap_append, List.countP_append,
            List.countP_append, ih]
          congr 1
          split_ifs with hpeer
          · rfl
          · apply List.countP_eq_zero.2
            intro packet hm hpacket
            obtain ⟨o, ho, hcalled⟩ := List.mem_filterMap.1 hm
            obtain rfl := List.mem_singleton.1 ho
            cases o with
            | callback packet' =>
                obtain rfl := Option.some.inj hcalled
                exact hpeer ((hsource peer packet' List.mem_cons_self).symm.trans (hf _ hpacket))
            | _ => cases hcalled
      | _ => exact ih

theorem countP_sent_le (x : UInt8) (message : Bytes) (t : List TransportOutput) :
    ((channelTrace t x).filterMap ChannelOutput.sent).countP (fun packet =>
      packet.message = message) ≤ (sentMessages t).count (x, message) := by
  induction t with
  | nil => exact le_rfl
  | cons o t ih =>
      cases o with
      | channel peer output =>
          rw [show TransportOutput.channel peer output :: t =
              [output].map (.channel peer) ++ t from rfl, sentMessages_append, channelTrace_append,
            sentMessages_map, channelTrace_map, List.filterMap_append, List.countP_append,
            List.count_append]
          apply Nat.add_le_add _ ih
          split_ifs with hpeer
          · rw [List.count, List.countP_map, hpeer]
            apply List.countP_mono_left
            intro packet _ hpacket
            simpa using hpacket
          · exact Nat.zero_le _
      | justValue packet => exact ih.trans (List.count_le_count_cons)
      | addPacket packet => exact ih

section Runs

variable {config : UInt8 → TransportConfig} {route : UInt8 → UInt8 → UInt8} {h : TransportHistory}
  (hr : ReachableIn (transportProgram config route).step (fun _ => RoutedToSender route)
    (transportProgram config route).initial h)
include hr

theorem link_of_routed {p q : UInt8} (hpq : p ≠ q) :
    ∃ link, (linkProgram (linkConfig config p q)).Reachable link ∧ LinkView h p q link := by
  apply hr.invariant (I := fun h => ∃ link,
    (linkProgram (linkConfig config p q)).Reachable link ∧ LinkView h p q link)
  · exact ⟨_, .refl, fun b => rfl, fun b => rfl⟩
  · rintro h ⟨x, event⟩ h' _ ⟨link, hlink, hview⟩ hok hs
    refine link_step hlink hpq hview ?_ hs
    rintro sender datagram status rfl
    exact hok

theorem batcher_local (p : UInt8) : BatcherLocal (h.node p) (h.trace p) := by
  apply hr.invariant (I := fun h : TransportHistory => ∀ p, BatcherLocal (h.node p) (h.trace p))
  · intro p
    exact .refl _
  · rintro h ⟨x, event⟩ h' _ ih _ hs
    obtain ⟨⟨transport', outs⟩, hevent, _, hnode, htrace⟩ := DatagramProgram.step_cases hs
    rw [hnode, htrace]
    exact History.forall_act h x (transport', outs) (Q := fun _ => BatcherLocal) ih
      ((ih x).step (ReliableTransport.onEvent_step hevent))

/-- A packet is passed on by the channel for its source, which has sent it. -/
theorem sent_of_called {p peer : UInt8} {packet : Packet}
    (hm : .channel peer (.callback packet) ∈ h.trace p) :
    packet.source = peer ∧ ∃ contract, .channel p (.send contract packet) ∈ h.trace peer := by
  have hne := (transport_local hr p).channels peer _ hm
  obtain ⟨link, hlink, hview⟩ := link_of_routed hr hne.symm
  have hcalled : .callback packet ∈ link.trace false := by
    rw [hview.trace]
    exact mem_channelTrace.2 hm
  obtain ⟨contract, hsent⟩ := sent_of_handled hlink ((link_local hlink false).delivered.handled
    packet hcalled)
  refine ⟨source_of_sent hlink hsent, contract, ?_⟩
  rw [hview.trace] at hsent
  exact mem_channelTrace.1 hsent

theorem called_subperm {p peer : UInt8} (hne : p ≠ peer) :
    ((channelTrace (h.trace p) peer).filterMap ChannelOutput.calledBack).Subperm
      ((channelTrace (h.trace peer) p).filterMap ChannelOutput.sent) := by
  apply List.subperm_of_subset
  · obtain ⟨link, hlink, hview⟩ := link_of_routed hr hne
    have honce := (link_local hlink false).delivered.once
    rw [hview.trace] at honce
    apply List.Nodup.of_map Packet.id
    rw [List.map_filterMap]
    convert honce using 1
    apply List.filterMap_congr
    intro o _
    cases o <;> rfl
  · intro packet hm
    obtain ⟨o, ho, hcalled⟩ := List.mem_filterMap.1 hm
    cases o with
    | callback packet' =>
        obtain rfl := Option.some.inj hcalled
        obtain ⟨_, contract, hsent⟩ := sent_of_called hr (mem_channelTrace.1 ho)
        exact List.mem_filterMap.2 ⟨_, mem_channelTrace.2 hsent, rfl⟩
    | _ => cases hcalled

/-- The batcher of `p` gets a message of `q` at most as often as `q` has called `Send` for it. -/
theorem countP_added_le (p q : UInt8) (message : Bytes) :
    (addedPackets (h.trace p)).countP (fun packet => packet.source = q ∧ packet.message = message) ≤
      (sentMessages (h.trace q)).count (p, message) := by
  have hcalled : ∀ peer packet, .channel peer (.callback packet) ∈ h.trace p →
      packet.source = peer := fun peer packet hm => (sent_of_called hr hm).1
  have hlocal : ∀ packet ∈ localPackets (h.trace p), packet.source = p := by
    intro packet hm
    obtain ⟨o, ho, hpacket⟩ := List.mem_filterMap.1 hm
    cases o with
    | justValue packet' =>
        obtain rfl := Option.some.inj hpacket
        exact ((transport_local hr p).justValue _ ho).1
    | _ => cases hpacket
  have hsplit := (batcher_local hr p).countP_eq fun packet =>
    packet.source = q ∧ packet.message = message
  rw [List.countP_append, List.countP_append, countP_calledPackets (y := q) (by simp +contextual)
    hcalled] at hsplit
  have hadded := (Nat.le_add_right _ _).trans hsplit.le
  apply hadded.trans
  by_cases hpq : p = q
  · subst hpq
    have hnone : channelTrace (h.trace p) p = [] := by
      apply List.eq_nil_iff_forall_not_mem.2
      intro o ho
      exact (transport_local hr p).channels p o (mem_channelTrace.1 ho) rfl
    have hsent := filter_sentMessages (transport_local hr p).channels
      fun packet hm => ((transport_local hr p).justValue packet hm).1
    rw [hnone, List.filterMap_nil, List.countP_nil, Nat.zero_add]
    have hcount : (sentMessages (h.trace p)).count (p, message) =
        ((sentMessages (h.trace p)).filter fun m => m.1 = p).count (p, message) := by
      rw [List.count_filter (by simp)]
    rw [hcount, hsent, List.count, List.countP_map]
    apply List.countP_mono_left
    intro packet _ hpacket
    simpa using hpacket
  · have hnone : (localPackets (h.trace p)).countP (fun packet =>
        packet.source = q ∧ packet.message = message) = 0 := by
      apply List.countP_eq_zero.2
      intro packet hm hpacket
      exact hpq ((hlocal packet hm).symm.trans (of_decide_eq_true hpacket).1)
    rw [hnone, Nat.add_zero]
    calc
      _ ≤ ((channelTrace (h.trace p) q).filterMap ChannelOutput.calledBack).countP
          (fun packet => packet.message = message) := by
        apply List.countP_mono_left
        intro packet _ hpacket
        exact decide_eq_true (of_decide_eq_true hpacket).2
      _ ≤ ((channelTrace (h.trace q) p).filterMap ChannelOutput.sent).countP
          (fun packet => packet.message = message) := (called_subperm hr hpq).countP_le _
      _ ≤ _ := countP_sent_le p message _

end Runs

end BroadcastService.Transport

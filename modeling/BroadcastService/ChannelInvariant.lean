import BroadcastService.ChannelSteps

/-!
# One end of a reliable link

`Origins` says that every packet of a channel comes from a call of `Send` or acknowledges a packet
that was handled; `Numbered` that the calls of `Send` draw different identifiers as long as the
counter has not wrapped; `Promises` that a contract waits in at most one entry and is resolved at
most once; `Delivered` that the callback is invoked once for each identifier handled. A passive step
and a call of `Send` keep all four.
-/

namespace BroadcastService.Transport

def sentIds (t : List ChannelOutput) : List UInt32 :=
  t.filterMap fun o => match o with
    | .send _ packet => some packet.id
    | _ => none

def sentContracts (t : List ChannelOutput) : List ℕ :=
  t.filterMap fun o => match o with
    | .send contract _ => some contract
    | _ => none

def callbackIds (t : List ChannelOutput) : List UInt32 :=
  t.filterMap fun o => match o with
    | .callback packet => some packet.id
    | _ => none

def resolvedContracts (t : List ChannelOutput) : List ℕ :=
  t.filterMap fun o => match o with
    | .resolve contract _ => some contract
    | _ => none

@[simp] theorem sentIds_append (t t' : List ChannelOutput) :
    sentIds (t ++ t') = sentIds t ++ sentIds t' := List.filterMap_append

@[simp] theorem sentContracts_append (t t' : List ChannelOutput) :
    sentContracts (t ++ t') = sentContracts t ++ sentContracts t' := List.filterMap_append

@[simp] theorem callbackIds_append (t t' : List ChannelOutput) :
    callbackIds (t ++ t') = callbackIds t ++ callbackIds t' := List.filterMap_append

@[simp] theorem resolvedContracts_append (t t' : List ChannelOutput) :
    resolvedContracts (t ++ t') = resolvedContracts t ++ resolvedContracts t' :=
  List.filterMap_append

theorem mem_sentIds {t : List ChannelOutput} {id : UInt32} :
    id ∈ sentIds t ↔ ∃ contract packet, .send contract packet ∈ t ∧ packet.id = id := by
  simp only [sentIds, List.mem_filterMap]
  constructor
  · rintro ⟨o, ho, h⟩
    cases o with
    | send contract packet => exact ⟨contract, packet, ho, Option.some.inj h⟩
    | _ => simp at h
  · rintro ⟨contract, packet, ho, rfl⟩
    exact ⟨_, ho, rfl⟩

theorem sentContracts_eq_nil {t : List ChannelOutput} (h : sentIds t = []) :
    sentContracts t = [] := by
  apply List.filterMap_eq_nil_iff.2
  intro o ho
  cases o with
  | send contract packet =>
      have := mem_sentIds.2 ⟨contract, packet, ho, rfl⟩
      simp [h] at this
  | _ => rfl

theorem mem_callbackIds {t : List ChannelOutput} {id : UInt32} :
    id ∈ callbackIds t ↔ ∃ packet, .callback packet ∈ t ∧ packet.id = id := by
  simp only [callbackIds, List.mem_filterMap]
  constructor
  · rintro ⟨o, ho, h⟩
    cases o with
    | callback packet => exact ⟨packet, ho, Option.some.inj h⟩
    | _ => simp at h
  · rintro ⟨packet, ho, rfl⟩
    exact ⟨_, ho, rfl⟩

/-- A packet was sent, or acknowledges a packet that was handled. -/
def Origin (t : List ChannelOutput) (packet : Packet) : Prop :=
  (∃ contract, .send contract packet ∈ t) ∨
    packet.type = .ackMessage ∧ ∃ handled, .handle handled ∈ t ∧
      AckMessage.unmarshal packet.message = some ⟨[handled.id]⟩

theorem Origin.append {t : List ChannelOutput} {packet : Packet} (h : Origin t packet)
    (outs : List ChannelOutput) : Origin (t ++ outs) packet := by
  rcases h with ⟨contract, h⟩ | ⟨htype, handled, h, hack⟩
  · exact .inl ⟨contract, List.mem_append_left _ h⟩
  · exact .inr ⟨htype, handled, List.mem_append_left _ h, hack⟩

structure Origins (channel : ReliableChannel) (t : List ChannelOutput) : Prop where
  sent : ∀ contract packet, .send contract packet ∈ t → packet.type = .payloadMessage
  packets : ∀ packet ∈ channel.fairLoss.packets, Origin t packet
  retries : ∀ packet, channel.Retries packet → ∃ contract, .send contract packet ∈ t
  written : ∀ datagram, .write datagram ∈ t → ∃ packet, Origin t packet ∧ datagram = packet.datagram

theorem Origins.append {channel channel' : ReliableChannel} {t outs : List ChannelOutput}
    (h : Origins channel t)
    (hsent : ∀ contract packet, .send contract packet ∈ outs → packet.type = .payloadMessage)
    (hpackets : ∀ packet ∈ channel'.fairLoss.packets,
      packet ∈ channel.fairLoss.packets ∨ channel.Retries packet ∨ Origin (t ++ outs) packet)
    (hretries : ∀ packet, channel'.Retries packet →
      channel.Retries packet ∨ ∃ contract, .send contract packet ∈ outs)
    (hwritten : ∀ datagram, .write datagram ∈ outs →
      ∃ packet, (packet ∈ channel.fairLoss.packets ∨ Origin (t ++ outs) packet) ∧
        datagram = packet.datagram) :
    Origins channel' (t ++ outs) := by
  refine ⟨fun contract packet hm => ?_, fun packet hp => ?_, fun packet hp => ?_,
    fun datagram hm => ?_⟩
  · rcases List.mem_append.1 hm with hm | hm
    · exact h.sent contract packet hm
    · exact hsent contract packet hm
  · rcases hpackets packet hp with hp | hp | hp
    · exact (h.packets packet hp).append outs
    · obtain ⟨contract, hm⟩ := h.retries packet hp
      exact .inl ⟨contract, List.mem_append_left _ hm⟩
    · exact hp
  · rcases hretries packet hp with hp | ⟨contract, hm⟩
    · obtain ⟨contract, hm⟩ := h.retries packet hp
      exact ⟨contract, List.mem_append_left _ hm⟩
    · exact ⟨contract, List.mem_append_right _ hm⟩
  · rcases List.mem_append.1 hm with hm | hm
    · obtain ⟨packet, ho, he⟩ := h.written datagram hm
      exact ⟨packet, ho.append outs, he⟩
    · obtain ⟨packet, ho | ho, he⟩ := hwritten datagram hm
      · exact ⟨packet, (h.packets packet ho).append outs, he⟩
      · exact ⟨packet, ho, he⟩

structure Numbered (channel : ReliableChannel) (t : List ChannelOutput) : Prop where
  ids : channel.messageIds ≤ idSpace →
    (sentIds t).Nodup ∧ ∀ id ∈ sentIds t, id.toNat < channel.messageIds
  contracts : sentContracts t = List.range channel.contracts

def ReliableChannel.pendingContracts (channel : ReliableChannel) : List ℕ :=
  channel.messageEntries.buffer.filterMap (·.2.promise)

structure Promises (channel : ReliableChannel) (t : List ChannelOutput) : Prop where
  distinct : (channel.pendingContracts ++ resolvedContracts t).Nodup
  made : ∀ contract ∈ channel.pendingContracts ++ resolvedContracts t, contract < channel.contracts
  entries : ∀ id entry contract, channel.messageEntries.get id = some entry →
    entry.promise = some contract → ∃ packet, .send contract packet ∈ t ∧ packet.id = id

structure Delivered (channel : ReliableChannel) (t : List ChannelOutput) : Prop where
  delivered : ∀ id, id ∈ channel.delivered ↔ id ∈ callbackIds t
  once : (callbackIds t).Nodup
  handled : ∀ packet, .callback packet ∈ t → .handle packet ∈ t

structure ChannelLocal (channel : ReliableChannel) (t : List ChannelOutput) : Prop where
  origins : Origins channel t
  numbered : Numbered channel t
  promises : Promises channel t
  delivered : Delivered channel t

section Frame

variable {channel channel' : ReliableChannel} {t outs : List ChannelOutput}

theorem Numbered.frame (h : Numbered channel t) (hids : channel.messageIds ≤ channel'.messageIds)
    (hcontracts : channel'.contracts = channel.contracts) (hsent : sentIds outs = []) :
    Numbered channel' (t ++ outs) := by
  constructor
  · intro hspace
    obtain ⟨hnodup, hlt⟩ := h.ids (hids.trans hspace)
    rw [sentIds_append, hsent, List.append_nil]
    exact ⟨hnodup, fun id hid => (hlt id hid).trans_le hids⟩
  · rw [sentContracts_append, sentContracts_eq_nil hsent, List.append_nil, hcontracts]
    exact h.contracts

theorem Promises.frame (h : Promises channel t)
    (hentries : channel'.messageEntries = channel.messageEntries)
    (hcontracts : channel'.contracts = channel.contracts)
    (hresolved : resolvedContracts outs = []) : Promises channel' (t ++ outs) := by
  have hpending : channel'.pendingContracts = channel.pendingContracts := by
    rw [ReliableChannel.pendingContracts, hentries, ReliableChannel.pendingContracts]
  refine ⟨?_, ?_, fun id entry contract hget hpromise => ?_⟩
  · rw [resolvedContracts_append, hresolved, List.append_nil, hpending]
    exact h.distinct
  · rw [resolvedContracts_append, hresolved, List.append_nil, hpending, hcontracts]
    exact h.made
  · rw [hentries] at hget
    obtain ⟨packet, hm, hid⟩ := h.entries id entry contract hget hpromise
    exact ⟨packet, List.mem_append_left _ hm, hid⟩

theorem Delivered.frame (h : Delivered channel t)
    (hdelivered : channel'.delivered = channel.delivered) (hcallback : callbackIds outs = []) :
    Delivered channel' (t ++ outs) := by
  refine ⟨fun id => ?_, ?_, fun packet hm => ?_⟩
  · rw [callbackIds_append, hcallback, List.append_nil, hdelivered]
    exact h.delivered id
  · rw [callbackIds_append, hcallback, List.append_nil]
    exact h.once
  · rcases List.mem_append.1 hm with hm | hm
    · exact List.mem_append_left _ (h.handled packet hm)
    · have : packet.id ∈ callbackIds outs := mem_callbackIds.2 ⟨packet, hm, rfl⟩
      simp [hcallback] at this

theorem ChannelLocal.passive (h : ChannelLocal channel t) (hs : channel.Passive channel' outs) :
    ChannelLocal channel' (t ++ outs) := by
  have hwrites : ∀ o ∈ outs, ∃ datagram, o = .write datagram := by
    intro o ho
    obtain ⟨packet, _, rfl⟩ := hs.outs o ho
    exact ⟨_, rfl⟩
  have hnone : ∀ {α : Type} (f : ChannelOutput → Option α),
      (∀ datagram, f (.write datagram) = none) → outs.filterMap f = [] := by
    intro α f hf
    apply List.filterMap_eq_nil_iff.2
    intro o ho
    obtain ⟨datagram, rfl⟩ := hwrites o ho
    exact hf datagram
  constructor
  · apply h.origins.append
    · intro contract packet hm
      obtain ⟨_, he⟩ := hwrites _ hm
      cases he
    · intro packet hp
      exact (hs.packets packet hp).imp_right .inl
    · intro packet hp
      exact .inl (hs.retries packet hp)
    · intro datagram hm
      obtain ⟨packet, hp, he⟩ := hs.outs _ hm
      exact ⟨packet, .inl hp, ChannelOutput.write.inj he⟩
  · exact h.numbered.frame hs.messageIds hs.contracts (hnone _ fun _ => rfl)
  · exact h.promises.frame hs.messageEntries hs.contracts (hnone _ fun _ => rfl)
  · exact h.delivered.frame hs.delivered (hnone _ fun _ => rfl)

def ReliableChannel.newPacket (channel : ReliableChannel) (message : Bytes) : Packet :=
  channel.createPacket message .payloadMessage (UInt32.ofNat channel.messageIds)

theorem Origins.send (h : Origins channel t) (message : Bytes) :
    Origins (channel.send message).1 (t ++ (channel.send message).2) := by
  have hnew : .send channel.contracts (channel.newPacket message) ∈ (channel.send message).2 :=
    List.mem_singleton.2 rfl
  apply h.append
  · intro contract packet hm
    obtain ⟨_, rfl⟩ := ChannelOutput.send.inj (List.mem_singleton.1 hm)
    rfl
  · intro packet hp
    rcases FairLossChannel.mem_packets_send _ hp with hp | rfl
    · exact .inl hp
    · exact .inr (.inr (.inl ⟨_, List.mem_append_right _ hnew⟩))
  · rintro packet ⟨timer, retryPolicy, htimer | htimer, htask⟩
    · rcases (TimerService.holds_addTimer _).1 htimer with htimer | rfl
      · exact .inl ⟨timer, retryPolicy, .inl htimer, htask⟩
      · obtain ⟨rfl, _⟩ := TimerTask.backoffRetry.inj htask
        exact .inr ⟨_, hnew⟩
    · exact .inl ⟨timer, retryPolicy, .inr htimer, htask⟩
  · intro datagram hm
    cases List.mem_singleton.1 hm

theorem Numbered.send (h : Numbered channel t) (message : Bytes) :
    Numbered (channel.send message).1 (t ++ (channel.send message).2) := by
  constructor
  · intro hspace
    change channel.messageIds + 1 ≤ idSpace at hspace
    obtain ⟨hnodup, hlt⟩ := h.ids (by omega)
    have hid : (UInt32.ofNat channel.messageIds).toNat = channel.messageIds := by
      apply UInt32.toNat_ofNat_of_lt
      exact hspace
    have hsent : sentIds (t ++ (channel.send message).2) =
        sentIds t ++ [UInt32.ofNat channel.messageIds] := by
      rw [sentIds_append]
      rfl
    rw [hsent]
    constructor
    · apply List.Nodup.append hnodup (List.nodup_singleton _)
      rw [List.disjoint_singleton]
      intro hmem
      exact absurd (hlt _ hmem) (by rw [hid]; exact lt_irrefl _)
    · intro id hmem
      change id.toNat < channel.messageIds + 1
      rcases List.mem_append.1 hmem with hmem | hmem
      · exact Nat.lt_succ_of_lt (hlt id hmem)
      · rw [List.mem_singleton.1 hmem, hid]
        exact Nat.lt_succ_self _
  · rw [sentContracts_append, h.contracts]
    exact List.range_succ.symm

theorem Promises.send (h : Promises channel t) (message : Bytes) :
    Promises (channel.send message).1 (t ++ (channel.send message).2) := by
  have hresolved : resolvedContracts (t ++ (channel.send message).2) = resolvedContracts t := by
    rw [resolvedContracts_append]
    exact List.append_nil _
  have hpending : (channel.send message).1.pendingContracts.Sublist
      (channel.pendingContracts ++ [channel.contracts]) := by
    change ((channel.messageEntries.set (UInt32.ofNat channel.messageIds)
      ⟨channel.timerService.currentId, some channel.contracts, 1⟩).buffer.filterMap
        (·.2.promise)).Sublist _
    unfold MRMWUnorderedMap.set
    split_ifs
    · exact List.sublist_append_left _ _
    · rw [List.filterMap_append]
      exact List.Sublist.refl _
  have hfresh : channel.contracts ∉ channel.pendingContracts ++ resolvedContracts t :=
    fun hm => lt_irrefl _ (h.made _ hm)
  have hall : ((channel.pendingContracts ++ [channel.contracts]) ++ resolvedContracts t).Perm
      (channel.contracts :: (channel.pendingContracts ++ resolvedContracts t)) := by
    rw [List.append_assoc]
    exact List.perm_middle
  refine ⟨?_, fun contract hm => ?_, fun id entry contract hget hpromise => ?_⟩
  · rw [hresolved]
    apply List.Nodup.sublist (hpending.append_right _)
    rw [hall.nodup_iff, List.nodup_cons]
    exact ⟨hfresh, h.distinct⟩
  · rw [hresolved] at hm
    have hm := hall.mem_iff.1 ((hpending.append_right _).subset hm)
    change contract < channel.contracts + 1
    rcases List.mem_cons.1 hm with rfl | hm
    · exact Nat.lt_succ_self _
    · exact Nat.lt_succ_of_lt (h.made contract hm)
  · change (channel.messageEntries.set (UInt32.ofNat channel.messageIds)
      ⟨channel.timerService.currentId, some channel.contracts, 1⟩).get id = some entry at hget
    rw [MRMWUnorderedMap.get_set] at hget
    have hold : channel.messageEntries.get id = some entry →
        ∃ packet, .send contract packet ∈ t ++ (channel.send message).2 ∧ packet.id = id := by
      intro hget
      obtain ⟨packet, hm, hid⟩ := h.entries id entry contract hget hpromise
      exact ⟨packet, List.mem_append_left _ hm, hid⟩
    split_ifs at hget with hid
    · cases hk : channel.messageEntries.get (UInt32.ofNat channel.messageIds) with
      | some old =>
          rw [hk, Option.getD_some] at hget
          rw [← hid, hget] at hk
          exact hold hk
      | none =>
          rw [hk, Option.getD_none] at hget
          obtain rfl := Option.some.inj hget
          obtain rfl := Option.some.inj hpromise
          exact ⟨channel.newPacket message, List.mem_append_right _ (List.mem_singleton.2 rfl),
            hid.symm⟩
    · exact hold hget

theorem ChannelLocal.send (h : ChannelLocal channel t) (message : Bytes) :
    ChannelLocal (channel.send message).1 (t ++ (channel.send message).2) :=
  ⟨h.origins.send message, h.numbered.send message, h.promises.send message,
    h.delivered.frame rfl rfl⟩

end Frame

end BroadcastService.Transport

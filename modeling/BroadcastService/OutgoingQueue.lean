import BroadcastService.WritePath

/-!
# The outgoing queue of a fair-loss channel

A packet that `Send` has accepted is in the queue, in the batch of the write handler or written, and
in one place only. The identifiers in `outgoing_message_ids_` are those of the packets in the queue
and in the batch, of the calls of `Send` between their insertion and their push, and of the packet
between its write and the deletion of its identifier; no two of these packets share an identifier
(`QueueInv`). All of them are counted in multisets, since a push of the remaining batch and a pop of
the stack reorder packets.
-/

namespace BroadcastService.Transport.WriteHandler
open TransitionSystem

variable {s s' : WriteSystem}

def HandleStage.batch : HandleStage → List PacketLinked
  | .looping _ batch _ => batch
  | .spent _ next batch => next :: batch
  | .wrote _ _ batch => batch
  | .returning _ batch _ => batch
  | _ => []

/-- The packet that is written and whose identifier is not deleted yet. -/
def HandleStage.deleting : HandleStage → List PacketLinked
  | .wrote _ next _ => [next]
  | _ => []

def held (s : WriteSystem) : Multiset PacketLinked := s.outgoingPackets.stack + s.stage.batch

/-- The packets whose identifier is in `outgoing_message_ids_`. -/
def marked (s : WriteSystem) : Multiset PacketLinked := held s + s.stage.deleting + s.registered

/-- The calls of `Send` that may still be accepted, and those that were. -/
def numbered (s : WriteSystem) : Multiset PacketLinked :=
  s.started + s.checked + s.registered + s.history.accepted

structure QueueInv (s : WriteSystem) : Prop where
  accounted : (s.history.accepted : Multiset PacketLinked) = held s + s.history.written
  serials : ((numbered s).map (·.serial)).Nodup
  called : ∀ linked ∈ numbered s, linked.serial < s.history.sendCalls
  ids : ((marked s).map (·.packet.id)).Nodup
  idSet : ∀ id, id ∈ s.outgoingMessageIds ↔ id ∈ (marked s).map (·.packet.id)

/-- What `Handle` leaves to the calls of `Send`. -/
structure SendsKept (s s' : WriteSystem) : Prop where
  started : s'.started = s.started
  checked : s'.checked = s.checked
  registered : s'.registered = s.registered
  accepted : s'.history.accepted = s.history.accepted
  sendCalls : s'.history.sendCalls = s.history.sendCalls

/-- What one access of `Handle` can do to the queue, the batch and the identifiers. -/
inductive QueueEffect (s s' : WriteSystem) : Prop
  | keeps (hheld : held s' = held s) (hdeleting : s'.stage.deleting = s.stage.deleting)
      (hwritten : s'.history.written = s.history.written)
      (hids : s'.outgoingMessageIds = s.outgoingMessageIds)
  | writes (next : PacketLinked) (hheld : held s = next ::ₘ held s')
      (hbefore : s.stage.deleting = []) (hafter : s'.stage.deleting = [next])
      (hwritten : s'.history.written = next :: s.history.written)
      (hids : s'.outgoingMessageIds = s.outgoingMessageIds)
  | deletes (next : PacketLinked) (hheld : held s' = held s) (hbefore : s.stage.deleting = [next])
      (hafter : s'.stage.deleting = []) (hwritten : s'.history.written = s.history.written)
      (hids : s'.outgoingMessageIds = s.outgoingMessageIds.erase next.packet.id)

theorem queueEffect_of_empty (hbefore : s.stage.batch = [] ∧ s.stage.deleting = [])
    (hafter : s'.stage.batch = [] ∧ s'.stage.deleting = [])
    (hqueue : s'.outgoingPackets = s.outgoingPackets)
    (hids : s'.outgoingMessageIds = s.outgoingMessageIds)
    (hwritten : s'.history.written = s.history.written) : QueueEffect s s' := by
  apply QueueEffect.keeps
  · rw [held, held, hqueue, hbefore.1, hafter.1]
  · rw [hbefore.2, hafter.2]
  · exact hwritten
  · exact hids

theorem tryPopAll_queue {budget : ℕ} (hstage : s.stage = .credited budget) :
    QueueEffect s (s.tryPopAll budget) := by
  have hheld : held s = s.outgoingPackets.stack := by
    simp [held, hstage, HandleStage.batch]
  unfold WriteSystem.tryPopAll
  dsimp only [BatchedLFQueue.tryPopAll]
  split_ifs with hempty
  · apply QueueEffect.keeps
    · rw [hheld, List.reverse_eq_nil_iff.1 hempty]
      rfl
    · rw [hstage]
      rfl
    · rfl
    · rfl
  · apply QueueEffect.keeps
    · rw [hheld]
      simp [held, HandleStage.batch]
    · rw [hstage]
      rfl
    · rfl
    · rfl

theorem popFront_queue {budget : ℕ} {batch : List PacketLinked} {writeStatus : WriteStatus}
    (hstage : s.stage = .looping budget batch writeStatus) :
    QueueEffect s (s.popFront budget batch writeStatus) := by
  have hheld : held s = s.outgoingPackets.stack + batch := by simp [held, hstage, HandleStage.batch]
  have hdeleting : s.stage.deleting = [] := by rw [hstage]; rfl
  unfold WriteSystem.popFront
  split
  · exact .keeps hheld.symm hdeleting.symm rfl rfl
  · split_ifs
    all_goals exact .keeps hheld.symm hdeleting.symm rfl rfl

theorem write_queue {budget : ℕ} {next : PacketLinked} {batch : List PacketLinked}
    (status : WriteStatus) (hstage : s.stage = .spent budget next batch) :
    QueueEffect s (s.write budget next batch status) := by
  have hheld : held s = s.outgoingPackets.stack + (next :: batch : List PacketLinked) := by
    simp [held, hstage, HandleStage.batch]
  have hdeleting : s.stage.deleting = [] := by rw [hstage]; rfl
  unfold WriteSystem.write
  split_ifs
  · apply QueueEffect.writes next
    · rw [hheld, ← Multiset.cons_coe, Multiset.add_cons]
      rfl
    · exact hdeleting
    · rfl
    · rfl
    · rfl
  · exact .keeps hheld.symm hdeleting.symm rfl rfl
  · exact .keeps hheld.symm hdeleting.symm rfl rfl

theorem pushBatch_queue {budget : ℕ} {batch : List PacketLinked} {writeStatus : WriteStatus}
    (hstage : s.stage = .returning budget batch writeStatus) :
    QueueEffect s (s.pushBatch budget batch writeStatus) := by
  apply QueueEffect.keeps
  · simp [held, hstage, HandleStage.batch, WriteSystem.pushBatch, BatchedLFQueue.pushList,
      ← Multiset.coe_add, add_comm]
  · rw [hstage]
    rfl
  · rfl
  · rfl

theorem reschedule_queue {reason : RetryReason} (draw : ℕ)
    (hstage : s.stage = .rescheduling reason) :
    SendsKept s (s.reschedule reason draw) ∧ QueueEffect s (s.reschedule reason draw) := by
  have hbefore : s.stage.batch = [] ∧ s.stage.deleting = [] := by
    rw [hstage]
    exact ⟨rfl, rfl⟩
  unfold WriteSystem.reschedule
  dsimp only
  split_ifs
  · cases reason
    all_goals
      exact ⟨⟨rfl, rfl, rfl, rfl, rfl⟩, queueEffect_of_empty hbefore ⟨rfl, rfl⟩ rfl rfl rfl⟩
  · exact ⟨⟨rfl, rfl, rfl, rfl, rfl⟩, queueEffect_of_empty hbefore ⟨rfl, rfl⟩ rfl rfl rfl⟩

theorem handle_queue {status : WriteStatus} {draw : ℕ} (hs : s.handle status draw = some s') :
    SendsKept s s' ∧ QueueEffect s s' := by
  cases handle_cases hs with
  | credit h =>
      refine ⟨⟨rfl, rfl, rfl, rfl, rfl⟩, ?_⟩
      apply queueEffect_of_empty
      · rw [h]
        exact ⟨rfl, rfl⟩
      · simp only [WriteSystem.credit]
        split <;> exact ⟨rfl, rfl⟩
      · rfl
      · rfl
      · rfl
  | tryPopAll budget h =>
      refine ⟨?_, tryPopAll_queue h⟩
      unfold WriteSystem.tryPopAll
      dsimp only
      split <;> exact ⟨rfl, rfl, rfl, rfl, rfl⟩
  | returnBudget budget h =>
      refine ⟨⟨rfl, rfl, rfl, rfl, rfl⟩, ?_⟩
      exact queueEffect_of_empty (by rw [h]; exact ⟨rfl, rfl⟩) ⟨rfl, rfl⟩ rfl rfl rfl
  | popFront budget batch writeStatus h =>
      refine ⟨?_, popFront_queue h⟩
      unfold WriteSystem.popFront
      split
      · exact ⟨rfl, rfl, rfl, rfl, rfl⟩
      · split_ifs <;> exact ⟨rfl, rfl, rfl, rfl, rfl⟩
  | write budget next batch h =>
      refine ⟨?_, write_queue status h⟩
      unfold WriteSystem.write
      split_ifs <;> exact ⟨rfl, rfl, rfl, rfl, rfl⟩
  | deleteId budget next batch h =>
      refine ⟨⟨rfl, rfl, rfl, rfl, rfl⟩, ?_⟩
      apply QueueEffect.deletes next
      · simp [held, h, HandleStage.batch, WriteSystem.deleteId]
      · rw [h]
        rfl
      · rfl
      · rfl
      · rfl
  | pushBatch budget batch writeStatus h =>
      exact ⟨⟨rfl, rfl, rfl, rfl, rfl⟩, pushBatch_queue h⟩
  | topUp budget writeStatus h =>
      refine ⟨⟨rfl, rfl, rfl, rfl, rfl⟩, ?_⟩
      exact queueEffect_of_empty (by rw [h]; exact ⟨rfl, rfl⟩) ⟨rfl, rfl⟩ rfl rfl rfl
  | finish writeStatus h =>
      have hbefore : s.stage.batch = [] ∧ s.stage.deleting = [] := by
        rw [h]
        exact ⟨rfl, rfl⟩
      unfold WriteSystem.finish
      split_ifs
      · exact ⟨⟨rfl, rfl, rfl, rfl, rfl⟩, queueEffect_of_empty hbefore ⟨rfl, rfl⟩ rfl rfl rfl⟩
      · exact ⟨⟨rfl, rfl, rfl, rfl, rfl⟩, queueEffect_of_empty hbefore ⟨rfl, rfl⟩ rfl rfl rfl⟩
  | reschedule reason h => exact reschedule_queue draw h

theorem numbered_congr (h : SendsKept s s') : numbered s' = numbered s := by
  rw [numbered, h.started, h.checked, h.registered, h.accepted, numbered]

theorem QueueInv.keep (h : QueueInv s) (hsends : SendsKept s s') (hheld : held s' = held s)
    (hdeleting : s'.stage.deleting = s.stage.deleting)
    (hwritten : s'.history.written = s.history.written)
    (hids : s'.outgoingMessageIds = s.outgoingMessageIds) : QueueInv s' := by
  have hnumbered := numbered_congr hsends
  have hmarked : marked s' = marked s := by
    rw [marked, hheld, hdeleting, hsends.registered, marked]
  refine ⟨?_, ?_, ?_, ?_, ?_⟩
  · rw [hsends.accepted, hheld, hwritten]
    exact h.accounted
  · rw [hnumbered]
    exact h.serials
  · rw [hnumbered, hsends.sendCalls]
    exact h.called
  · rw [hmarked]
    exact h.ids
  · rw [hmarked, hids]
    exact h.idSet

theorem QueueInv.write (h : QueueInv s) (hsends : SendsKept s s') (next : PacketLinked)
    (hheld : held s = next ::ₘ held s') (hbefore : s.stage.deleting = [])
    (hafter : s'.stage.deleting = [next])
    (hwritten : s'.history.written = next :: s.history.written)
    (hids : s'.outgoingMessageIds = s.outgoingMessageIds) : QueueInv s' := by
  have hnumbered := numbered_congr hsends
  have hmarked : marked s' = marked s := by
    rw [marked, marked, hheld, hbefore, hafter, hsends.registered, Multiset.coe_singleton,
      Multiset.coe_nil, add_zero, ← Multiset.singleton_add, add_comm (held s')]
  refine ⟨?_, ?_, ?_, ?_, ?_⟩
  · rw [hsends.accepted, hwritten, h.accounted, hheld, ← Multiset.cons_coe, Multiset.add_cons,
      Multiset.cons_add]
  · rw [hnumbered]
    exact h.serials
  · rw [hnumbered, hsends.sendCalls]
    exact h.called
  · rw [hmarked]
    exact h.ids
  · rw [hmarked, hids]
    exact h.idSet

theorem QueueInv.delete (h : QueueInv s) (hsends : SendsKept s s') (next : PacketLinked)
    (hheld : held s' = held s) (hbefore : s.stage.deleting = [next])
    (hafter : s'.stage.deleting = []) (hwritten : s'.history.written = s.history.written)
    (hids : s'.outgoingMessageIds = s.outgoingMessageIds.erase next.packet.id) : QueueInv s' := by
  have hnumbered := numbered_congr hsends
  have hmarked : marked s = next ::ₘ marked s' := by
    rw [marked, marked, hheld, hbefore, hafter, hsends.registered, Multiset.coe_singleton,
      Multiset.coe_nil, add_zero, ← Multiset.singleton_add, ← add_assoc, add_comm (held s)]
  have hnodup := h.ids
  rw [hmarked, Multiset.map_cons, Multiset.nodup_cons] at hnodup
  refine ⟨?_, ?_, ?_, hnodup.2, ?_⟩
  · rw [hsends.accepted, hheld, hwritten]
    exact h.accounted
  · rw [hnumbered]
    exact h.serials
  · rw [hnumbered, hsends.sendCalls]
    exact h.called
  · intro id
    rw [hids, Finset.mem_erase, h.idSet, hmarked, Multiset.map_cons, Multiset.mem_cons]
    constructor
    · rintro ⟨hne, rfl | hid⟩
      · exact absurd rfl hne
      · exact hid
    · intro hid
      refine ⟨?_, .inr hid⟩
      rintro rfl
      exact hnodup.1 hid

theorem QueueInv.handle (h : QueueInv s) {status : WriteStatus} {draw : ℕ}
    (hs : s.handle status draw = some s') : QueueInv s' := by
  obtain ⟨hsends, heffect⟩ := handle_queue hs
  cases heffect with
  | keeps hheld hdeleting hwritten hids => exact h.keep hsends hheld hdeleting hwritten hids
  | writes next hheld hbefore hafter hwritten hids =>
      exact h.write hsends next hheld hbefore hafter hwritten hids
  | deletes next hheld hbefore hafter hwritten hids =>
      exact h.delete hsends next hheld hbefore hafter hwritten hids

theorem QueueInv.send (h : QueueInv s) (packet : Packet) : QueueInv (s.send packet) := by
  have hnumbered : numbered (s.send packet) = ⟨s.history.sendCalls, packet⟩ ::ₘ numbered s := by
    simp only [numbered, WriteSystem.send, ← Multiset.cons_coe, Multiset.cons_add]
  refine ⟨h.accounted, ?_, ?_, h.ids, h.idSet⟩
  · rw [hnumbered, Multiset.map_cons, Multiset.nodup_cons]
    refine ⟨?_, h.serials⟩
    intro hmem
    obtain ⟨linked, hlinked, hserial⟩ := Multiset.mem_map.1 hmem
    exact (h.called linked hlinked).ne hserial
  · rw [hnumbered]
    intro linked hlinked
    rcases Multiset.mem_cons.1 hlinked with rfl | hlinked
    · exact Nat.lt_succ_self _
    · exact Nat.lt_succ_of_lt (h.called linked hlinked)

theorem QueueInv.drop (h : QueueInv s) {linked : PacketLinked}
    (hnumbered : numbered s = linked ::ₘ numbered s') (hheld : held s' = held s)
    (hmarked : marked s' = marked s) (hhistory : s'.history = s.history)
    (hids : s'.outgoingMessageIds = s.outgoingMessageIds) : QueueInv s' := by
  have hserials := h.serials
  rw [hnumbered, Multiset.map_cons, Multiset.nodup_cons] at hserials
  refine ⟨?_, hserials.2, ?_, ?_, ?_⟩
  · rw [hhistory, hheld]
    exact h.accounted
  · intro linked' hlinked
    rw [hhistory]
    apply h.called
    rw [hnumbered]
    exact Multiset.mem_cons_of_mem hlinked
  · rw [hmarked]
    exact h.ids
  · rw [hmarked, hids]
    exact h.idSet

theorem QueueInv.checkCap (h : QueueInv s) {linked : PacketLinked}
    (hs : s.checkCap linked = some s') : QueueInv s' := by
  obtain ⟨hmem, hcases⟩ := checkCap_cases hs
  have hstarted : (s.started : Multiset PacketLinked) = linked ::ₘ (s.started.erase linked) :=
    Multiset.coe_eq_coe.2 (List.perm_cons_erase hmem)
  obtain rfl | rfl := hcases
  · have hnumbered : numbered s =
        linked ::ₘ numbered { s with started := s.started.erase linked } := by
      rw [numbered, numbered, hstarted, Multiset.cons_add, Multiset.cons_add, Multiset.cons_add]
    exact h.drop hnumbered rfl rfl rfl rfl
  · have hnumbered : numbered { s with
        started := s.started.erase linked, checked := linked :: s.checked } = numbered s := by
      simp only [numbered, hstarted, ← Multiset.cons_coe, Multiset.cons_add, Multiset.add_cons]
    refine ⟨h.accounted, ?_, ?_, h.ids, h.idSet⟩
    · rw [hnumbered]
      exact h.serials
    · rw [hnumbered]
      exact h.called

theorem QueueInv.insertId (h : QueueInv s) {linked : PacketLinked}
    (hs : s.insertId linked = some s') : QueueInv s' := by
  obtain ⟨hmem, hcases⟩ := insertId_cases hs
  have hchecked : (s.checked : Multiset PacketLinked) = linked ::ₘ (s.checked.erase linked) :=
    Multiset.coe_eq_coe.2 (List.perm_cons_erase hmem)
  obtain rfl | ⟨hid, rfl⟩ := hcases
  · have hnumbered : numbered s =
        linked ::ₘ numbered { s with checked := s.checked.erase linked } := by
      rw [numbered, numbered, hchecked, Multiset.add_cons, Multiset.cons_add, Multiset.cons_add]
    exact h.drop hnumbered rfl rfl rfl rfl
  · generalize hnew : { s with
      checked := s.checked.erase linked
      outgoingMessageIds := insert linked.packet.id s.outgoingMessageIds
      registered := linked :: s.registered } = s'
    have hnumbered : numbered s' = numbered s := by
      rw [← hnew]
      simp only [numbered, hchecked, ← Multiset.cons_coe, Multiset.cons_add, Multiset.add_cons]
    have hmarked : marked s' = linked ::ₘ marked s := by
      rw [← hnew]
      simp only [marked, held, ← Multiset.cons_coe, Multiset.add_cons]
    refine ⟨?_, ?_, ?_, ?_, ?_⟩
    · rw [← hnew]
      exact h.accounted
    · rw [hnumbered]
      exact h.serials
    · rw [hnumbered, ← hnew]
      exact h.called
    · rw [hmarked, Multiset.map_cons, Multiset.nodup_cons]
      exact ⟨fun hmarked => hid ((h.idSet _).2 hmarked), h.ids⟩
    · intro id
      rw [hmarked, Multiset.map_cons, Multiset.mem_cons, ← h.idSet, ← hnew]
      exact Finset.mem_insert

theorem QueueInv.pushPacket (h : QueueInv s) {linked : PacketLinked}
    (hs : s.pushPacket linked = some s') : QueueInv s' := by
  obtain ⟨hmem, rfl⟩ := pushPacket_cases hs
  have hregistered : (s.registered : Multiset PacketLinked) =
      linked ::ₘ (s.registered.erase linked) := Multiset.coe_eq_coe.2 (List.perm_cons_erase hmem)
  generalize hnew : { s with
    registered := s.registered.erase linked
    outgoingPackets := s.outgoingPackets.push linked
    history.accepted := linked :: s.history.accepted } = s'
  have hnumbered : numbered s' = numbered s := by
    rw [← hnew]
    simp only [numbered, hregistered, ← Multiset.cons_coe, Multiset.cons_add, Multiset.add_cons]
  have hheld : held s' = linked ::ₘ held s := by
    rw [← hnew]
    simp only [held, BatchedLFQueue.push, ← Multiset.cons_coe, Multiset.cons_add]
  have hmarked : marked s' = marked s := by
    rw [marked, hheld, ← hnew]
    simp only [marked, hregistered, Multiset.cons_add, Multiset.add_cons]
  refine ⟨?_, ?_, ?_, ?_, ?_⟩
  · rw [hheld, Multiset.cons_add, ← hnew, ← Multiset.cons_coe]
    exact congrArg (Multiset.cons linked) h.accounted
  · rw [hnumbered]
    exact h.serials
  · rw [hnumbered, ← hnew]
    exact h.called
  · rw [hmarked]
    exact h.ids
  · rw [hmarked, ← hnew]
    exact h.idSet

theorem QueueInv.event (h : QueueInv s) (hexclusive : Exclusive s) {type : EventType}
    (hs : s.event type = some s') : QueueInv s' := by
  obtain ⟨harmed, hcases⟩ := event_cases hs
  have hidle := hexclusive.idle_of_armed harmed
  have hheld : held s = s.outgoingPackets.stack + ([] : List PacketLinked) := by
    rw [held, hidle]
    rfl
  have hdeleting : s.stage.deleting = [] := by
    rw [hidle]
    rfl
  obtain rfl | rfl := hcases
  · exact h.keep ⟨rfl, rfl, rfl, rfl, rfl⟩ hheld.symm hdeleting.symm rfl rfl
  · exact h.keep ⟨rfl, rfl, rfl, rfl, rfl⟩ hheld.symm hdeleting.symm rfl rfl

theorem QueueInv.step (h : QueueInv s) (hexclusive : Exclusive s) {label : WriteLabel}
    (hs : WriteHandler.step s label = some s') : QueueInv s' := by
  cases label with
  | send packet =>
      obtain rfl := Option.some.inj hs
      exact h.send packet
  | checkCap linked => exact h.checkCap hs
  | insertId linked => exact h.insertId hs
  | push linked => exact h.pushPacket hs
  | addSendCredits credits =>
      obtain rfl := Option.some.inj hs
      exact h.keep ⟨rfl, rfl, rfl, rfl, rfl⟩ rfl rfl rfl rfl
  | event type => exact h.event hexclusive hs
  | handle status draw => exact h.handle hs
  | getTimerID =>
      obtain rfl := Option.some.inj hs
      exact h.keep ⟨rfl, rfl, rfl, rfl, rfl⟩ rfl rfl rfl rfl
  | addTimer id duration =>
      obtain ⟨-, rfl⟩ := addTimer_cases hs
      exact h.keep ⟨rfl, rfl, rfl, rfl, rfl⟩ rfl rfl rfl rfl
  | cancelTimer id =>
      obtain ⟨-, rfl⟩ := cancelTimer_cases hs
      exact h.keep ⟨rfl, rfl, rfl, rfl, rfl⟩ rfl rfl rfl rfl
  | tick elapsed =>
      obtain ⟨-, rfl⟩ := tick_cases hs
      exact h.keep ⟨rfl, rfl, rfl, rfl, rfl⟩ rfl rfl rfl rfl
  | fire =>
      obtain ⟨timer, firedTimers, -, ⟨-, rfl⟩ | ⟨-, rfl⟩⟩ := fire_cases hs
      · exact h.keep ⟨rfl, rfl, rfl, rfl, rfl⟩ rfl rfl rfl rfl
      · exact h.keep ⟨rfl, rfl, rfl, rfl, rfl⟩ rfl rfl rfl rfl

theorem QueueInv.start (maxBudget : UInt64) (errorPolicy emptyWritePolicy : RetryPolicy)
    (tickDuration : ℕ) :
    QueueInv (initial maxBudget errorPolicy emptyWritePolicy tickDuration) := by
  refine ⟨rfl, ?_, ?_, ?_, ?_⟩
  all_goals simp [numbered, marked, held, initial, HandleStage.batch, HandleStage.deleting]

/-- An accepted packet is in the queue, in the batch or written, once; no two packets in the queue
and the batch share an identifier; and the set of identifiers is that of the queue and the batch,
of the written packet whose identifier is being deleted, and of the calls of `Send` that are about
to push. -/
theorem outgoing_queue {maxBudget : UInt64} {errorPolicy emptyWritePolicy : RetryPolicy}
    {tickDuration : ℕ} (hr : Reachable WriteHandler.step
      (initial maxBudget errorPolicy emptyWritePolicy tickDuration) s) :
    (∀ linked, s.outgoingPackets.stack.count linked + s.stage.batch.count linked +
      s.history.written.count linked = if linked ∈ s.history.accepted then 1 else 0) ∧
    ((s.outgoingPackets.stack ++ s.stage.batch).map (·.packet.id)).Nodup ∧
    s.outgoingMessageIds = ((s.outgoingPackets.stack ++ s.stage.batch ++ s.stage.deleting ++
      s.registered).map (·.packet.id)).toFinset := by
  have h : QueueInv s := by
    apply hr.invariant (QueueInv.start maxBudget errorPolicy emptyWritePolicy tickDuration)
    intro s label s' hs h _ hstep
    exact h.step (exclusive_of_reachable hs) hstep
  have hmarked : ((s.outgoingPackets.stack ++ s.stage.batch ++ s.stage.deleting ++ s.registered :
      List PacketLinked) : Multiset PacketLinked) = marked s := by
    simp only [marked, held, Multiset.coe_add]
  have hids : ((s.outgoingPackets.stack ++ s.stage.batch ++ s.stage.deleting ++
      s.registered).map (·.packet.id)).Nodup := by
    rw [← Multiset.coe_nodup, ← Multiset.map_coe, hmarked]
    exact h.ids
  refine ⟨?_, ?_, ?_⟩
  · intro linked
    have hcount : s.history.accepted.count linked = s.outgoingPackets.stack.count linked +
        s.stage.batch.count linked + s.history.written.count linked := by
      rw [← Multiset.coe_count, h.accounted, held, Multiset.count_add, Multiset.count_add,
        Multiset.coe_count, Multiset.coe_count, Multiset.coe_count]
    have hnodup : s.history.accepted.Nodup := by
      have hserials := h.serials
      rw [numbered, Multiset.map_add, Multiset.nodup_add] at hserials
      exact Multiset.coe_nodup.1 (Multiset.Nodup.of_map _ hserials.2.1)
    rw [← hcount, hnodup.count]
  · rw [List.append_assoc, List.map_append] at hids
    exact (List.nodup_append.1 hids).1
  · ext id
    rw [h.idSet, ← hmarked, List.mem_toFinset]
    rfl

/-- Two packets are sent and the first one is written while a third call of `Send` is about to
push. -/
def interleavedSends (packet : UInt32 → Packet) : List WriteLabel :=
  let call (serial : ℕ) (id : UInt32) : List WriteLabel :=
    [.send (packet id), .checkCap ⟨serial, packet id⟩, .insertId ⟨serial, packet id⟩]
  call 0 4 ++ [.push ⟨0, packet 4⟩] ++ call 1 5 ++ [.push ⟨1, packet 5⟩, .event .writeReady] ++
    List.replicate 3 (.handle .ok 0) ++ call 2 6 ++ [.handle .ok 0]

theorem outgoing_queue_interleaved : ∃ s, Reachable WriteHandler.step testChannel s ∧
    s.stage.deleting.map (·.serial) = [0] ∧ s.registered.map (·.serial) = [2] ∧
    s.stage.batch.map (·.serial) = [1] ∧
    (∀ linked, s.outgoingPackets.stack.count linked + s.stage.batch.count linked +
      s.history.written.count linked = if linked ∈ s.history.accepted then 1 else 0) ∧
    ((s.outgoingPackets.stack ++ s.stage.batch).map (·.packet.id)).Nodup ∧
    s.outgoingMessageIds = ((s.outgoingPackets.stack ++ s.stage.batch ++ s.stage.deleting ++
      s.registered).map (·.packet.id)).toFinset := by
  obtain ⟨s, hr, hdeleting, hregistered, hbatch⟩ : ∃ s,
      Reachable WriteHandler.step testChannel s ∧ s.stage.deleting.map (·.serial) = [0] ∧
      s.registered.map (·.serial) = [2] ∧ s.stage.batch.map (·.serial) = [1] :=
    exists_reachable (interleavedSends fun id => ⟨.payloadMessage, id, 1, [7]⟩)
      (by decide +kernel)
  exact ⟨s, hr, hdeleting, hregistered, hbatch, outgoing_queue hr⟩

end BroadcastService.Transport.WriteHandler

import BroadcastService.ReliableCalls
import BroadcastService.WritePath

/-!
# The timer identifiers of a reliable channel

A call of `Send` draws the identifier of its timer, and from there it goes into the entry of the
message, the retry timer and the calls that take them (`Drawn`). So the timer service is asked for
drawn identifiers only, and every call that is under way can take its next access (`next_isSome`):
what the steps of a channel test does not keep it from doing what the code does.
-/

namespace BroadcastService.Transport.ReliableCalls
open TransitionSystem WriteHandler

variable {s s' : ReliableSystem}

/-- The identifier that a call of `Send` has drawn for its timer. -/
def SendStage.timerId : SendStage → Option ℕ
  | .timed timerId => some timerId
  | .numbered timerId _ => some timerId
  | .registered timerId _ => some timerId
  | _ => none

/-- Timers are added and cancelled under identifiers that were drawn. -/
structure Drawn (s : ReliableSystem) : Prop where
  sends : ∀ call ∈ s.sends, ∀ id ∈ call.stage.timerId, id ∈ s.fairLoss.otherIds
  entries : ∀ e ∈ s.messageEntries.buffer, e.2.timerId ∈ s.fairLoss.otherIds
  taken : ∀ entry ∈ s.reading.bind ReadCall.taken, entry.timerId ∈ s.fairLoss.otherIds
  retryTimers : ∀ timer ∈ s.retryTimers, timer.timerId ∈ s.fairLoss.otherIds
  firing : ∀ call ∈ s.firing, call.timer.timerId ∈ s.fairLoss.otherIds
  otherTimers : s.otherTimers ⊆ s.fairLoss.otherIds

theorem otherIds_of_write {w w' : WriteSystem} {label : WriteLabel}
    (hs : WriteHandler.step w label = some w') : w.otherIds ⊆ w'.otherIds := by
  cases label with
  | send packet =>
      obtain rfl := Option.some.inj hs
      exact Finset.Subset.refl _
  | checkCap linked =>
      obtain ⟨-, rfl | rfl⟩ := checkCap_cases hs
      · exact Finset.Subset.refl _
      · exact Finset.Subset.refl _
  | insertId linked =>
      obtain ⟨-, rfl | ⟨-, rfl⟩⟩ := insertId_cases hs
      · exact Finset.Subset.refl _
      · exact Finset.Subset.refl _
  | push linked =>
      obtain ⟨-, rfl⟩ := pushPacket_cases hs
      exact Finset.Subset.refl _
  | addSendCredits credits =>
      obtain rfl := Option.some.inj hs
      exact Finset.Subset.refl _
  | event type =>
      obtain ⟨-, rfl | rfl⟩ := event_cases hs
      · exact Finset.Subset.refl _
      · exact Finset.Subset.refl _
  | handle status draw =>
      have hsame : w'.otherIds = w.otherIds := by
        cases (handle_effect hs).2 with
        | goesOn hframe _ => exact hframe.2.2.2
        | rearms hframe _ _ => exact hframe.2.2
        | schedules _ _ _ _ hframe _ => exact hframe.2.1
        | givesUp _ _ _ hframe _ => exact hframe.2.2.2
      rw [hsame]
  | getTimerID =>
      obtain rfl := Option.some.inj hs
      exact Finset.subset_insert _ _
  | addTimer id duration =>
      obtain ⟨-, rfl⟩ := addTimer_cases hs
      exact Finset.Subset.refl _
  | cancelTimer id =>
      obtain ⟨-, rfl⟩ := cancelTimer_cases hs
      exact Finset.Subset.refl _
  | tick elapsed =>
      obtain ⟨-, rfl⟩ := WriteHandler.tick_cases hs
      exact Finset.Subset.refl _
  | fire =>
      obtain ⟨timer, firedTimers, -, ⟨-, rfl⟩ | ⟨-, rfl⟩⟩ := WriteHandler.fire_cases hs
      · exact Finset.Subset.refl _
      · exact Finset.Subset.refl _

theorem otherIds_of_step {label : ReliableLabel} (hs : step s label = some s') :
    s.fairLoss.otherIds ⊆ s'.fairLoss.otherIds := by
  rcases fairLoss_of_step hs with hsame | ⟨l, hstep⟩
  · rw [hsame]
  · exact otherIds_of_write hstep

/-- A step keeps `Drawn` if it only uses identifiers in new places that were drawn. -/
theorem Drawn.keep (h : Drawn s) (hids : s.fairLoss.otherIds ⊆ s'.fairLoss.otherIds)
    (hsends : ∀ call ∈ s'.sends, call ∈ s.sends ∨
      ∀ id ∈ call.stage.timerId, id ∈ s'.fairLoss.otherIds)
    (hentries : ∀ e ∈ s'.messageEntries.buffer, e ∈ s.messageEntries.buffer ∨
      e.2.timerId ∈ s'.fairLoss.otherIds)
    (htaken : ∀ entry ∈ s'.reading.bind ReadCall.taken, entry ∈ s.reading.bind ReadCall.taken ∨
      entry.timerId ∈ s'.fairLoss.otherIds)
    (hretryTimers : ∀ timer ∈ s'.retryTimers, timer ∈ s.retryTimers ∨
      timer.timerId ∈ s'.fairLoss.otherIds)
    (hfiring : ∀ call ∈ s'.firing, call ∈ s.firing ∨ call.timer.timerId ∈ s'.fairLoss.otherIds)
    (hotherTimers : s'.otherTimers ⊆ s'.fairLoss.otherIds) : Drawn s' := by
  refine ⟨?_, ?_, ?_, ?_, ?_, hotherTimers⟩
  · intro call hcall
    exact (hsends call hcall).elim (fun hold id hid => hids (h.sends call hold id hid)) id
  · intro e he
    exact (hentries e he).elim (fun hold => hids (h.entries e hold)) id
  · intro entry hentry
    exact (htaken entry hentry).elim (fun hold => hids (h.taken entry hold)) id
  · intro timer htimer
    exact (hretryTimers timer htimer).elim (fun hold => hids (h.retryTimers timer hold)) id
  · intro call hcall
    exact (hfiring call hcall).elim (fun hold => hids (h.firing call hold)) id

theorem Drawn.advanceSend (h : Drawn s) {call : SendCall} (hs : s.advanceSend call = some s')
    (hids : s.fairLoss.otherIds ⊆ s'.fairLoss.otherIds) : Drawn s' := by
  obtain ⟨hcall, hsend⟩ := advanceSend_cases hs
  have hdrawn := h.sends call hcall
  have hothers := h.otherTimers.trans hids
  obtain ⟨contract, message, stage⟩ := call
  dsimp only at hsend hdrawn
  -- Only the stage of this call may name an identifier that was not named before.
  have hcalls : ∀ stage', (∀ id ∈ stage'.timerId, id ∈ s'.fairLoss.otherIds) →
      ∀ call' ∈ (⟨contract, message, stage'⟩ :: s.sends.erase ⟨contract, message, stage⟩ :
        List SendCall),
        call' ∈ s.sends ∨ ∀ id ∈ call'.stage.timerId, id ∈ s'.fairLoss.otherIds := by
    intro stage' hstage call' hcall'
    rcases List.mem_cons.1 hcall' with rfl | hrest
    · exact .inr hstage
    · exact .inl (List.mem_of_mem_erase hrest)
  cases hsend with
  | drawTimer =>
      apply h.keep hids (hcalls _ _) (fun _ => .inl) (fun _ => .inl) (fun _ => .inl)
        (fun _ => .inl) hothers
      rintro _ ⟨⟩
      exact Finset.mem_insert_self _ _
  | drawMessage timerId =>
      exact h.keep hids (hcalls _ hdrawn) (fun _ => .inl) (fun _ => .inl) (fun _ => .inl)
        (fun _ => .inl) hothers
  | register timerId messageId =>
      apply h.keep hids (hcalls _ hdrawn) _ (fun _ => .inl) (fun _ => .inl) (fun _ => .inl) hothers
      intro e he
      dsimp only at he
      unfold MRMWUnorderedMap.set at he
      split_ifs at he
      · exact .inl he
      · rcases List.mem_append.1 he with he | he
        · exact .inl he
        · rw [List.mem_singleton.1 he]
          exact .inr (hdrawn timerId rfl)
  | arm timerId messageId hadd =>
      apply h.keep hids (hcalls _ (by rintro _ ⟨⟩)) (fun _ => .inl) (fun _ => .inl) _
        (fun _ => .inl) hothers
      intro timer htimer
      rcases List.mem_cons.1 htimer with rfl | htimer
      · exact .inr (hids (hdrawn timerId rfl))
      · exact .inl htimer
  | doSend messageId =>
      exact h.keep hids (fun _ hcall' => .inl (List.mem_of_mem_erase hcall')) (fun _ => .inl)
        (fun _ => .inl) (fun _ => .inl) (fun _ => .inl) hothers

theorem Drawn.advanceRead (h : Drawn s) {status : WriteStatus}
    (hs : s.advanceRead status = some s')
    (hids : s.fairLoss.otherIds ⊆ s'.fairLoss.otherIds) : Drawn s' := by
  obtain ⟨call, hreading, hread⟩ := advanceRead_cases hs
  have hkeep : ∀ {entries : MRMWUnorderedMap UInt32 MessageEntry} {fairLoss : WriteSystem}
      {messageIds : ℕ} {reading : Option ReadCall}, s.fairLoss.otherIds ⊆ fairLoss.otherIds →
      (∀ e ∈ entries.buffer, e ∈ s.messageEntries.buffer) →
      (∀ entry ∈ reading.bind ReadCall.taken, entry ∈ call.taken ∨
        ∃ id, (id, entry) ∈ s.messageEntries.buffer) →
      Drawn { s with messageEntries := entries, fairLoss, messageIds, reading } := by
    intro entries fairLoss messageIds reading hids hentries htaken
    apply h.keep
    · exact hids
    · exact fun _ => .inl
    · exact fun e he => .inl (hentries e he)
    · intro entry hentry
      rcases htaken entry hentry with hold | ⟨id, hold⟩
      · rw [hreading]
        exact .inl hold
      · exact .inr (hids (h.entries _ hold))
    · exact fun _ => .inl
    · exact fun _ => .inl
    · exact h.otherTimers.trans hids
  cases hread with
  | take messageId acks hget =>
      apply hkeep hids (fun _ => List.mem_of_mem_filter)
      rintro _ ⟨⟩
      exact .inr ⟨_, MRMWUnorderedMap.mem_of_get hget⟩
  | cancel entry acks hcancel => exact hkeep hids (fun _ => id) (fun _ => .inl)
  | writeAck packet =>
      apply hkeep hids (fun _ => id)
      split_ifs <;> rintro _ ⟨⟩
  | _ => exact hkeep hids (fun _ => id) (by rintro _ ⟨⟩)

theorem Drawn.advanceFire (h : Drawn s) {draw : ℕ} (hs : s.advanceFire draw = some s')
    (hids : s.fairLoss.otherIds ⊆ s'.fairLoss.otherIds) : Drawn s' := by
  obtain ⟨call, hfiring, hfire⟩ := advanceFire_cases hs
  have hdrawn := h.firing call hfiring
  have hothers := h.otherTimers.trans hids
  cases hfire with
  | credit timer =>
      apply h.keep hids (fun _ => .inl) (fun _ => .inl) (fun _ => .inl) (fun _ => .inl) _ hothers
      rintro _ ⟨⟩
      exact .inr (hids hdrawn)
  | doSend timer =>
      apply h.keep hids (fun _ => .inl) (fun _ => .inl) (fun _ => .inl) (fun _ => .inl) _ hothers
      rintro _ ⟨⟩
      exact .inr (hids hdrawn)
  | rearm timer linked hadd =>
      apply h.keep hids (fun _ => .inl) (fun _ => .inl) (fun _ => .inl) _ (by rintro _ ⟨⟩) hothers
      intro timer' htimer
      rcases List.mem_cons.1 htimer with rfl | htimer
      · exact .inr (hids hdrawn)
      · exact .inl htimer
  | giveUp timer linked =>
      exact h.keep hids (fun _ => .inl) (fun _ => .inl) (fun _ => .inl) (fun _ => .inl)
        (by rintro _ ⟨⟩) hothers

theorem Drawn.step (h : Drawn s) {label : ReliableLabel} (hs : step s label = some s') :
    Drawn s' := by
  have hids := otherIds_of_step hs
  have hothers := h.otherTimers.trans hids
  cases label with
  | send message =>
      obtain rfl := Option.some.inj hs
      apply h.keep hids _ (fun _ => .inl) (fun _ => .inl) (fun _ => .inl) (fun _ => .inl) hothers
      intro call hcall
      rcases List.mem_cons.1 hcall with rfl | hcall
      · exact .inr (by rintro _ ⟨⟩)
      · exact .inl hcall
  | advanceSend call => exact h.advanceSend hs hids
  | read datagram =>
      obtain ⟨-, ⟨acks, rfl⟩ | ⟨id, rfl⟩⟩ := read_cases hs
      all_goals
        exact h.keep hids (fun _ => .inl) (fun _ => .inl) (by rintro _ ⟨⟩) (fun _ => .inl)
          (fun _ => .inl) hothers
  | advanceRead status => exact h.advanceRead hs hids
  | tick elapsed =>
      obtain ⟨fairLoss, -, retryTimers, hsubset, rfl⟩ := tick_cases hs
      exact h.keep hids (fun _ => .inl) (fun _ => .inl) (fun _ => .inl)
        (fun _ htimer => .inl (hsubset htimer)) (fun _ => .inl) hothers
  | fire =>
      obtain ⟨-, fairLoss, -, retryTimers, hsubset, fired, hfired, rfl⟩ := fire_cases hs
      apply h.keep hids (fun _ => .inl) (fun _ => .inl) (fun _ => .inl)
        (fun _ htimer => .inl (hsubset htimer)) _ hothers
      intro call hcall
      obtain ⟨timer, htimer, rfl⟩ := Option.map_eq_some_iff.1 hcall
      exact .inr (hids (h.retryTimers timer (hfired timer htimer)))
  | advanceFire draw => exact h.advanceFire hs hids
  | write label =>
      obtain ⟨fairLoss, -, rfl⟩ := advanceWrite_cases hs
      exact h.keep hids (fun _ => .inl) (fun _ => .inl) (fun _ => .inl) (fun _ => .inl)
        (fun _ => .inl) hothers
  | otherMessageId =>
      obtain rfl := Option.some.inj hs
      exact h.keep hids (fun _ => .inl) (fun _ => .inl) (fun _ => .inl) (fun _ => .inl)
        (fun _ => .inl) hothers
  | otherTimerId =>
      obtain rfl := Option.some.inj hs
      exact h.keep hids (fun _ => .inl) (fun _ => .inl) (fun _ => .inl) (fun _ => .inl)
        (fun _ => .inl) (Finset.insert_subset_insert _ h.otherTimers)
  | otherAddTimer id duration =>
      simp only [ReliableCalls.step, ReliableSystem.otherAddTimer] at hs
      split_ifs at hs
      obtain ⟨fairLoss, -, rfl⟩ := Option.map_eq_some_iff.1 hs
      exact h.keep hids (fun _ => .inl) (fun _ => .inl) (fun _ => .inl) (fun _ => .inl)
        (fun _ => .inl) hothers
  | otherCancelTimer id =>
      simp only [ReliableCalls.step, ReliableSystem.otherCancelTimer] at hs
      split_ifs at hs
      obtain ⟨fairLoss, -, rfl⟩ := Option.map_eq_some_iff.1 hs
      exact h.keep hids (fun _ => .inl) (fun _ => .inl) (fun _ => .inl) (fun _ => .inl)
        (fun _ => .inl) hothers

theorem drawn_of_reachable {fairLoss : WriteSystem} {localId : UInt8} {retryPolicy : RetryPolicy}
    {ok : ReliableSystem → ReliableLabel → Prop}
    (hr : ReachableIn step ok (initial fairLoss localId retryPolicy) s) : Drawn s := by
  apply hr.invariant
  · refine ⟨?_, ?_, ?_, ?_, ?_, Finset.empty_subset _⟩
    all_goals rintro _ ⟨⟩
  · intro s label s' _ h _ hs
    exact h.step hs

/-- The timer service refuses no call: whatever is under way takes its next access, unless it waits
for its own call of `FairLossChannel::Send`. -/
theorem next_isSome {fairLoss : WriteSystem} {localId : UInt8} {retryPolicy : RetryPolicy}
    {ok : ReliableSystem → ReliableLabel → Prop}
    (hr : ReachableIn step ok (initial fairLoss localId retryPolicy) s) :
    (∀ call ∈ s.sends, (s.advanceSend call).isSome) ∧
    (∀ call status, s.reading = some call →
      (∀ linked, call = .sendingAck linked → ¬s.UnderWay linked) →
      (s.advanceRead status).isSome) ∧
    ∀ call draw, s.firing = some call →
      (∀ timer linked, call = .rearming timer linked → ¬s.UnderWay linked) →
      (s.advanceFire draw).isSome := by
  have h := drawn_of_reachable hr
  refine ⟨?_, ?_, ?_⟩
  · rintro ⟨contract, message, stage⟩ hcall
    rw [ReliableSystem.advanceSend, if_pos hcall]
    cases stage with
    | registered timerId messageId =>
        have hid := h.sends _ hcall timerId rfl
        simp only [ReliableSystem.sendNext, WriteSystem.addTimer, if_pos hid, Option.map_some,
          Option.isSome_some]
    | _ => rfl
  · intro call status hreading hreturned
    rw [ReliableSystem.advanceRead, hreading, Option.bind_some]
    cases call with
    | taking acks =>
        cases acks with
        | nil => rfl
        | cons messageId acks =>
            simp only [ReliableSystem.readNext]
            split <;> rfl
    | cancelling entry acks =>
        have hid := h.taken entry (by rw [hreading]; rfl)
        simp only [ReliableSystem.readNext, WriteSystem.cancelTimer, if_pos hid, Option.map_some,
          Option.isSome_some]
    | sendingAck linked =>
        simp only [ReliableSystem.readNext, if_neg (hreturned linked rfl), Option.isSome_some]
    | _ => rfl
  · intro call draw hfiring hreturned
    rw [ReliableSystem.advanceFire, hfiring, Option.bind_some]
    cases call with
    | rearming timer linked =>
        have hid : timer.timerId ∈ s.fairLoss.otherIds := h.firing _ hfiring
        simp only [ReliableSystem.fireNext, if_neg (hreturned timer linked rfl)]
        split_ifs
        · simp only [WriteSystem.addTimer, if_pos hid, Option.map_some, Option.isSome_some]
        · rfl
    | _ => rfl

end BroadcastService.Transport.ReliableCalls

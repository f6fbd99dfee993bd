import BroadcastService.PerfectLinks

/-!
# Retry timers of unacknowledged messages

Before `Stop`, an entry of `message_entries_` keeps its retry timer as long as the timer rearms
itself whenever it fires (`unacknowledged_retried`). A retry timer rearms itself only while the next
timeout does not exceed the maximum of its policy; after that the message is never sent again
(`abandoned_after_retries`).
-/

namespace BroadcastService.Transport
open TransitionSystem

def channelStep (channel : ReliableChannel) (event : ChannelEvent) : Option ReliableChannel :=
  (channel.onEvent event).map (·.1)

/-- When the retry timer of an unacknowledged message fires, its next timeout is still valid. -/
def RearmsUnacknowledged (channel : ReliableChannel) : ChannelEvent → Prop
  | .fire draw => ∀ timer ∈ channel.firedTimers.head?, ∀ packet retryPolicy entry,
      timer.task = .backoffRetry packet retryPolicy →
      channel.messageEntries.get packet.id = some entry → entry.timerId = timer.id →
      (retryPolicy.next draw).isValid = true
  | _ => True

/-- The entry has a retry timer for its message that is not going to be cancelled. -/
def Retried (channel : ReliableChannel) (id : UInt32) (entry : MessageEntry) : Prop :=
  entry.timerId ∉ channel.timerService.cancelledTimers ∧
    ∃ timer packet retryPolicy, channel.HasTimer timer ∧ timer.id = entry.timerId ∧
      timer.task = .backoffRetry packet retryPolicy ∧ packet.id = id

/-- Entries are retried, and the identifiers of their timers are their own. -/
structure RetryInv (channel : ReliableChannel) : Prop where
  retried : ∀ id entry, channel.messageEntries.get id = some entry → Retried channel id entry
  drawn : ∀ id entry, channel.messageEntries.get id = some entry →
    entry.timerId < channel.timerService.currentId ∧ entry.timerId ∉ channel.otherTimers
  distinct : ∀ id id' entry entry', channel.messageEntries.get id = some entry →
    channel.messageEntries.get id' = some entry' → entry.timerId = entry'.timerId → id = id'
  others : ∀ i ∈ channel.otherTimers, i < channel.timerService.currentId
  cancelled : ∀ i ∈ channel.timerService.cancelledTimers, i < channel.timerService.currentId

section Steps

variable {channel channel' : ReliableChannel}

theorem RetryInv.frame (h : RetryInv channel)
    (hentries : channel'.messageEntries = channel.messageEntries)
    (htimers : ∀ id entry timer packet retryPolicy, channel.messageEntries.get id = some entry →
      entry.timerId ∉ channel.timerService.cancelledTimers → channel.HasTimer timer →
      timer.id = entry.timerId → timer.task = .backoffRetry packet retryPolicy → packet.id = id →
      ∃ timer' retryPolicy', channel'.HasTimer timer' ∧ timer'.id = entry.timerId ∧
        timer'.task = .backoffRetry packet retryPolicy')
    (hcancelled : ∀ i ∈ channel'.timerService.cancelledTimers,
      i ∈ channel.timerService.cancelledTimers ∨ i ∈ channel.otherTimers)
    (hcurrent : channel.timerService.currentId ≤ channel'.timerService.currentId)
    (hothers : ∀ i ∈ channel'.otherTimers, i ∈ channel.otherTimers ∨
      channel.timerService.currentId ≤ i ∧ i < channel'.timerService.currentId) :
    RetryInv channel' := by
  refine ⟨fun id entry hget => ?_, fun id entry hget => ?_, ?_, fun i hi => ?_, fun i hi => ?_⟩
  · rw [hentries] at hget
    obtain ⟨hnot, timer, packet, retryPolicy, htimer, hid, htask, hpacket⟩ :=
      h.retried id entry hget
    obtain ⟨timer', retryPolicy', htimer', hid', htask'⟩ :=
      htimers id entry timer packet retryPolicy hget hnot htimer hid htask hpacket
    refine ⟨fun hc => ?_, timer', packet, retryPolicy', htimer', hid', htask', hpacket⟩
    rcases hcancelled _ hc with hc | hc
    · exact hnot hc
    · exact (h.drawn id entry hget).2 hc
  · rw [hentries] at hget
    obtain ⟨hlt, hnot⟩ := h.drawn id entry hget
    refine ⟨hlt.trans_le hcurrent, fun hc => ?_⟩
    rcases hothers _ hc with hc | ⟨hc, _⟩
    · exact hnot hc
    · omega
  · rw [hentries]
    exact h.distinct
  · rcases hothers i hi with hi | ⟨_, hi⟩
    · exact (h.others i hi).trans_le hcurrent
    · exact hi
  · rcases hcancelled i hi with hi | hi
    · exact (h.cancelled i hi).trans_le hcurrent
    · exact (h.others i hi).trans_le hcurrent

theorem RetryInv.send (h : RetryInv channel) (message : Bytes) :
    RetryInv (channel.send message).1 := by
  set new : MessageEntry := ⟨channel.timerService.currentId, some channel.contracts, 1⟩
  set newId := UInt32.ofNat channel.messageIds
  have hget : ∀ id entry, (channel.send message).1.messageEntries.get id = some entry →
      channel.messageEntries.get id = some entry ∨ id = newId ∧ entry = new := by
    intro id entry hget
    change (channel.messageEntries.set newId new).get id = some entry at hget
    rw [MRMWUnorderedMap.get_set] at hget
    split_ifs at hget with hid
    · cases hk : channel.messageEntries.get newId with
      | some old =>
          rw [hk, Option.getD_some] at hget
          rw [← hid, hget] at hk
          exact .inl hk
      | none =>
          rw [hk, Option.getD_none] at hget
          exact .inr ⟨hid, (Option.some.inj hget).symm⟩
    · exact .inl hget
  have htimer : ∀ timer, (channel.send message).1.HasTimer timer ↔ channel.HasTimer timer ∨
      timer = ⟨channel.timerService.ticks +
        channel.retryPolicy.timeoutMs / channel.timerService.tickDuration,
        channel.timerService.currentId,
        .backoffRetry (channel.newPacket message) channel.retryPolicy⟩ := by
    intro timer
    apply (or_congr_left (TimerService.holds_addTimer _)).trans
    rw [or_right_comm]
    rfl
  have hlt : ∀ id entry, channel.messageEntries.get id = some entry →
      entry.timerId ≠ channel.timerService.currentId :=
    fun id entry hget => (h.drawn id entry hget).1.ne
  refine ⟨fun id entry hg => ?_, fun id entry hg => ?_, fun id id' entry entry' hg hg' he => ?_,
    fun i hi => Nat.lt_succ_of_lt (h.others i hi), fun i hi => Nat.lt_succ_of_lt (h.cancelled i hi)⟩
  · rcases hget id entry hg with hg | ⟨rfl, rfl⟩
    · obtain ⟨hnot, timer, packet, retryPolicy, ht, hrest⟩ := h.retried id entry hg
      exact ⟨hnot, timer, packet, retryPolicy, (htimer timer).2 (.inl ht), hrest⟩
    · refine ⟨fun hc => lt_irrefl _ (h.cancelled _ hc), _, _, _, (htimer _).2 (.inr rfl), rfl, rfl,
        rfl⟩
  · rcases hget id entry hg with hg | ⟨rfl, rfl⟩
    · obtain ⟨hlt, hnot⟩ := h.drawn id entry hg
      exact ⟨Nat.lt_succ_of_lt hlt, hnot⟩
    · exact ⟨Nat.lt_succ_self _, fun hc => lt_irrefl _ (h.others _ hc)⟩
  · rcases hget id entry hg with hg | ⟨rfl, rfl⟩
    · rcases hget id' entry' hg' with hg' | ⟨rfl, rfl⟩
      · exact h.distinct id id' entry entry' hg hg' he
      · exact absurd he (hlt id entry hg)
    · rcases hget id' entry' hg' with hg' | ⟨rfl, rfl⟩
      · exact absurd he.symm (hlt id' entry' hg')
      · rfl

theorem RetryInv.acknowledged (h : RetryInv channel) {id : UInt32} {entry : MessageEntry}
    (hget : channel.messageEntries.get id = some entry) :
    RetryInv (channel.acknowledged id entry) := by
  have hold : ∀ id' entry', (channel.acknowledged id entry).messageEntries.get id' = some entry' →
      id' ≠ id ∧ channel.messageEntries.get id' = some entry' := by
    intro id' entry' hget'
    change (channel.messageEntries.take id).2.get id' = some entry' at hget'
    rw [MRMWUnorderedMap.get_take] at hget'
    split_ifs at hget' with hid
    exact ⟨hid, hget'⟩
  refine ⟨fun id' entry' hget' => ?_, fun id' entry' hget' => ?_, ?_, h.others, fun i hi => ?_⟩
  · obtain ⟨hid, hget'⟩ := hold id' entry' hget'
    obtain ⟨hnot, htimer⟩ := h.retried id' entry' hget'
    refine ⟨fun hc => ?_, htimer⟩
    rcases Finset.mem_insert.1 hc with hc | hc
    · exact hid (h.distinct id' id entry' entry hget' hget hc)
    · exact hnot hc
  · exact h.drawn id' entry' (hold id' entry' hget').2
  · intro id₁ id₂ entry₁ entry₂ h₁ h₂
    exact h.distinct id₁ id₂ entry₁ entry₂ (hold id₁ entry₁ h₁).2 (hold id₂ entry₂ h₂).2
  · rcases Finset.mem_insert.1 hi with rfl | hi
    · exact (h.drawn id entry hget).1
    · exact h.cancelled i hi

theorem RetryInv.tick (h : RetryInv channel) (elapsed : ℕ) (hfired : channel.firedTimers = []) :
    RetryInv
      { channel with
        firedTimers := (channel.timerService.collect elapsed).2.1
        timerService := (channel.timerService.collect elapsed).2.2 } := by
  apply h.frame
  · rfl
  · rintro id entry timer packet retryPolicy hget hnot (htimer | htimer) hid htask hpacket
    · refine ⟨timer, retryPolicy, ?_, hid, htask⟩
      rw [TimerService.holds_collect _ elapsed] at htimer
      rcases htimer with htimer | htimer | htimer
      · have := TimerService.id_of_collect_cancelled _ htimer
        rw [hid] at this
        exact absurd this hnot
      · exact .inr htimer
      · exact .inl htimer
    · rw [hfired] at htimer
      cases htimer
  · exact fun i hi => .inl (TimerService.cancelledTimers_collect _ elapsed hi)
  · exact (TimerService.currentId_collect _ elapsed).symm.le
  · exact fun i hi => .inl hi

theorem RetryInv.pop (h : RetryInv channel) {fired : Timer TimerTask}
    {firedTimers : List (Timer TimerTask)} (hfired : channel.firedTimers = fired :: firedTimers)
    (hnot : ∀ packet retryPolicy, fired.task ≠ .backoffRetry packet retryPolicy)
    (fairLoss : FairLossChannel) : RetryInv { channel with firedTimers, fairLoss } := by
  apply h.frame
  · rfl
  · rintro id entry timer packet retryPolicy hget _ (htimer | htimer) hid htask hpacket
    · exact ⟨timer, retryPolicy, .inl htimer, hid, htask⟩
    · rw [hfired] at htimer
      rcases List.mem_cons.1 htimer with rfl | htimer
      · exact absurd htask (hnot packet retryPolicy)
      · exact ⟨timer, retryPolicy, .inr htimer, hid, htask⟩
  · exact fun i hi => .inl hi
  · exact le_rfl
  · exact fun i hi => .inl hi

theorem RetryInv.retry (h : RetryInv channel) {fired : Timer TimerTask}
    {firedTimers : List (Timer TimerTask)} {packet : Packet} {retryPolicy : RetryPolicy} {draw : ℕ}
    (hok : RearmsUnacknowledged channel (.fire draw))
    (hfired : channel.firedTimers = fired :: firedTimers)
    (htask : fired.task = .backoffRetry packet retryPolicy) :
    RetryInv ({ channel with firedTimers }.fireBackoffRetry packet retryPolicy fired.id draw) := by
  have hpopped : ∀ timer, channel.HasTimer timer → timer = fired ∨
      { channel with firedTimers }.HasTimer timer := by
    rintro timer (htimer | htimer)
    · exact .inr (.inl htimer)
    · rw [hfired] at htimer
      rcases List.mem_cons.1 htimer with htimer | htimer
      · exact .inl htimer
      · exact .inr (.inr htimer)
  apply h.frame
  · rw [ReliableChannel.fireBackoffRetry_eq]
  · intro id entry timer packet' retryPolicy' hget hnot htimer hid htask' hpacket
    rcases hpopped timer htimer with rfl | htimer
    · -- The timer of an unacknowledged message fires and is rearmed.
      rw [htask] at htask'
      obtain ⟨rfl, rfl⟩ := TimerTask.backoffRetry.inj htask'
      have hvalid := hok timer (by simp [hfired]) packet retryPolicy entry htask
        (hpacket ▸ hget) hid.symm
      exact ⟨_, _, ReliableChannel.fireBackoffRetry_timer.2 (.inr ⟨hvalid, rfl⟩), hid, rfl⟩
    · exact ⟨timer, retryPolicy', ReliableChannel.fireBackoffRetry_timer.2 (.inl htimer), hid,
        htask'⟩
  · intro i hi
    rw [ReliableChannel.fireBackoffRetry_eq] at hi
    split_ifs at hi <;> exact .inl hi
  · rw [ReliableChannel.fireBackoffRetry_eq]
    split_ifs <;> exact le_rfl
  · intro i hi
    rw [ReliableChannel.fireBackoffRetry_eq] at hi
    exact .inl hi

theorem RetryInv.write (h : RetryInv channel) (fairLoss : FairLossChannel)
    (effects : List WriteEffect) :
    RetryInv
      { channel with
        fairLoss
        timerService := effects.foldl ReliableChannel.applyEffect channel.timerService } := by
  have hscheduled := ReliableChannel.scheduled_applyEffects effects channel.timerService
  apply h.frame
  · rfl
  · rintro id entry timer packet retryPolicy hget hnot (htimer | htimer) hid htask hpacket
    · exact ⟨timer, retryPolicy, .inl (hscheduled.holds timer htimer), hid, htask⟩
    · exact ⟨timer, retryPolicy, .inr htimer, hid, htask⟩
  · intro i hi
    rw [hscheduled.cancelledTimers] at hi
    exact .inl hi
  · exact hscheduled.currentId
  · exact fun i hi => .inl hi

theorem RetryInv.other (h : RetryInv channel) {service : TimerService TimerTask}
    {otherTimers : Finset ℕ}
    (hholds : ∀ timer, channel.timerService.Holds timer → service.Holds timer)
    (hcancelled : ∀ i ∈ service.cancelledTimers,
      i ∈ channel.timerService.cancelledTimers ∨ i ∈ channel.otherTimers)
    (hcurrent : channel.timerService.currentId ≤ service.currentId)
    (hothers : ∀ i ∈ otherTimers, i ∈ channel.otherTimers ∨
      channel.timerService.currentId ≤ i ∧ i < service.currentId) :
    RetryInv { channel with timerService := service, otherTimers } := by
  apply h.frame
  · rfl
  · rintro id entry timer packet retryPolicy _ _ (htimer | htimer) hid htask _
    · exact ⟨timer, retryPolicy, .inl (hholds timer htimer), hid, htask⟩
    · exact ⟨timer, retryPolicy, .inr htimer, hid, htask⟩
  · exact hcancelled
  · exact hcurrent
  · exact hothers

theorem RetryInv.same (h : RetryInv channel)
    (hentries : channel'.messageEntries = channel.messageEntries)
    (htimers : channel'.timerService = channel.timerService)
    (hfired : channel'.firedTimers = channel.firedTimers)
    (hothers : channel'.otherTimers = channel.otherTimers) : RetryInv channel' := by
  apply h.frame hentries
  · intro id entry timer packet retryPolicy _ _ htimer hid htask _
    refine ⟨timer, retryPolicy, ?_, hid, htask⟩
    rwa [ReliableChannel.HasTimer, htimers, hfired]
  · rw [htimers]
    exact fun i hi => .inl hi
  · rw [htimers]
  · rw [hothers]
    exact fun i hi => .inl hi

/-- Every event before `Stop` keeps the invariant if it meets the condition. -/
theorem RetryInv.step (h : RetryInv channel) {event : ChannelEvent} {outs : List ChannelOutput}
    (hok : RearmsUnacknowledged channel event) (hstop : event ≠ .stop)
    (hs : channel.onEvent event = some (channel', outs)) : RetryInv channel' := by
  cases ReliableChannel.onEvent_outcome hs with
  | send message => exact h.send message
  | ack _ _ _ =>
      exact handleAckMessage_induction _ channel (t := []) (Q := fun later _ => RetryInv later) h
        fun later t id entry ih _ hget => ih.acknowledged hget
  | payload _ _ hs =>
      obtain ⟨fairLoss, writes, rfl, _⟩ := handlePayloadMessage_cases hs
      exact h.same rfl rfl rfl rfl
  | tick elapsed hfired => exact h.tick elapsed hfired
  | retry draw hfired htask => exact h.retry hok hfired htask
  | armWrite draw hfired htask => exact h.pop hfired (by simp [htask]) _
  | fireOther draw hfired htask => exact h.pop hfired (by simp [htask]) channel.fairLoss
  | write hadvance => exact h.write _ _
  | stop _ => exact absurd rfl hstop
  | otherMessageId => exact h.same rfl rfl rfl rfl
  | otherTimerId =>
      apply h.other
      · exact fun timer htimer => htimer
      · exact fun i hi => .inl hi
      · exact Nat.le_succ _
      · intro i hi
        rcases Finset.mem_insert.1 hi with rfl | hi
        · exact .inr ⟨le_rfl, Nat.lt_succ_self _⟩
        · exact .inl hi
  | otherAddTimer duration hid =>
      apply h.other
      · exact fun timer htimer => (TimerService.holds_addTimer _).2 (.inl htimer)
      · exact fun i hi => .inl hi
      · exact le_rfl
      · exact fun i hi => .inl hi
  | otherCancelTimer hid =>
      apply h.other
      · exact fun timer htimer => htimer
      · intro i hi
        rcases Finset.mem_insert.1 hi with rfl | hi
        · exact .inr hid
        · exact .inl hi
      · exact le_rfl
      · exact fun i hi => .inl hi

/-- Only `Stop` closes the socket, and nothing opens it again. -/
theorem open_before {event : ChannelEvent} {outs : List ChannelOutput}
    (hs : channel.onEvent event = some (channel', outs))
    (hopen : channel'.fairLoss.socketOpen = true) :
    channel.fairLoss.socketOpen = true ∧ event ≠ .stop := by
  cases ReliableChannel.onEvent_outcome hs with
  | send message => exact ⟨(FairLossChannel.send_socketOpen _ _).symm.trans hopen, by simp⟩
  | @ack _ _ _ message _ _ _ =>
      have hkeep := handleAckMessage_induction message.acks channel (t := [])
        (Q := fun later _ => later.fairLoss.socketOpen = channel.fairLoss.socketOpen) rfl
        fun later t id entry ih _ hget => ih
      exact ⟨hkeep.symm.trans hopen, by simp⟩
  | payload _ _ hs =>
      obtain ⟨_, _, _, _, _, hbefore⟩ := handlePayloadMessage_cases hs
      exact ⟨hbefore, by simp⟩
  | retry draw _ _ =>
      rw [ReliableChannel.fireBackoffRetry_eq] at hopen
      rw [FairLossChannel.send_socketOpen] at hopen
      exact ⟨hopen, by simp⟩
  | write hadvance =>
      exact ⟨(FairLossChannel.advance_step hadvance).socketOpen.symm.trans hopen, by simp⟩
  | stop hs =>
      obtain ⟨fairLoss, hstop, he⟩ := Option.map_eq_some_iff.1 hs
      obtain ⟨rfl, _⟩ := Prod.mk.inj he
      unfold FairLossChannel.stop at hstop
      split_ifs at hstop
      obtain rfl := Option.some.inj hstop
      cases hopen
  | _ => exact ⟨hopen, by simp⟩

end Steps

theorem RetryInv.start (config : ChannelConfig) : RetryInv config.start := by
  refine ⟨fun id entry hget => ?_, fun id entry hget => ?_, fun id id' entry entry' hget => ?_,
    fun i hi => ?_, fun i hi => ?_⟩
  · cases hget
  · cases hget
  · cases hget
  · exact absurd hi (Finset.notMem_empty i)
  · exact absurd hi (Finset.notMem_empty i)

/-- If every retry timer of an unacknowledged message that fires is still valid, every
unacknowledged message has its retry timer in every state before `Stop`. -/
theorem unacknowledged_retried {config : ChannelConfig} {channel : ReliableChannel}
    (hr : ReachableIn channelStep RearmsUnacknowledged config.start channel)
    (hopen : channel.fairLoss.socketOpen = true) {id : UInt32} {entry : MessageEntry}
    (hget : channel.messageEntries.get id = some entry) : Retried channel id entry := by
  have hinv : channel.fairLoss.socketOpen = true → RetryInv channel := by
    apply hr.invariant (I := fun channel => channel.fairLoss.socketOpen = true → RetryInv channel)
    · exact fun _ => RetryInv.start config
    · intro channel event channel' _ ih hok hs hopen'
      obtain ⟨⟨next, outs⟩, hevent, rfl⟩ := Option.map_eq_some_iff.1 hs
      obtain ⟨hbefore, hstop⟩ := open_before hevent hopen'
      exact (ih hbefore).step hok hstop hevent
  exact (hinv hopen).retried id entry hget

/-- A message is sent and its timer fires for the first time. -/
theorem unacknowledged_retried_once : ∃ channel : ReliableChannel,
    ReachableIn channelStep RearmsUnacknowledged (exampleConfig false).start channel ∧
    channel.fairLoss.socketOpen = true ∧
    ∃ entry, channel.messageEntries.get 0 = some entry ∧ Retried channel 0 entry := by
  obtain ⟨channel, hrun, hcheck⟩ := (Option.any_eq_true _ _).1 (by decide +kernel :
    (TransitionSystem.run channelStep (exampleConfig false).start [.send [7], .tick 1]).any
      (fun channel => channel.firedTimers.all (fun timer =>
          match timer.task with
          | .backoffRetry _ retryPolicy => (retryPolicy.next 0).isValid
          | _ => true) &&
        (channelStep channel (.fire 0)).any fun channel =>
          channel.fairLoss.socketOpen && (channel.messageEntries.get 0).isSome) = true)
  obtain ⟨hvalid, hfire⟩ := Bool.and_eq_true_iff.1 hcheck
  obtain ⟨channel', hfire, hlast⟩ := (Option.any_eq_true _ _).1 hfire
  obtain ⟨hopen, hsome⟩ := Bool.and_eq_true_iff.1 hlast
  obtain ⟨entry, hget⟩ := Option.isSome_iff_exists.1 hsome
  have hr : ReachableIn channelStep RearmsUnacknowledged (exampleConfig false).start channel := by
    apply ReachableIn.run .refl _ hrun
    intro channel event hevent
    rcases List.mem_cons.1 hevent with rfl | hevent
    · trivial
    · obtain rfl := List.mem_singleton.1 hevent
      trivial
  have hr' := hr.tail (a := .fire 0) (by
    intro timer htimer packet retryPolicy entry htask _ _
    have := List.all_eq_true.1 hvalid timer (List.mem_of_mem_head? htimer)
    rwa [htask] at this) hfire
  exact ⟨channel', hr', hopen, entry, hget, unacknowledged_retried hr' hopen hget⟩

/-- A message is sent five times, with timeouts of 100, 200, 400 and 800 ms in between, and all
packets are lost. -/
def lostMessage : List ChannelEvent :=
  let writes : List ChannelEvent := List.replicate 5 (.write .writeReady .ok 0)
  [.send [7]] ++ writes ++ [1, 2, 4, 8].flatMap fun ticks => [.tick ticks, .fire 0] ++ writes

/-- The message is still unacknowledged then, but has no timer. -/
theorem abandoned_after_retries : ∃ channel : ReliableChannel,
    Reachable channelStep (exampleConfig false).start channel ∧
    channel.fairLoss.socketOpen = true ∧
    ∃ entry, channel.messageEntries.get 0 = some entry ∧
      ∀ timer, channel.HasTimer timer → timer.id ≠ entry.timerId := by
  obtain ⟨channel, hr, hopen, hfired, hempty, hsome⟩ : ∃ channel,
      Reachable channelStep (exampleConfig false).start channel ∧
      channel.fairLoss.socketOpen = true ∧ channel.firedTimers.isEmpty = true ∧
      (∀ slot, (channel.timerService.timers slot).isEmpty = true) ∧
      (channel.messageEntries.get 0).isSome = true :=
    exists_reachable lostMessage (by decide +kernel)
  have hslots : ∀ slot, channel.timerService.timers slot = [] :=
    fun slot => List.isEmpty_iff.1 (hempty slot)
  obtain ⟨entry, hget⟩ := Option.isSome_iff_exists.1 hsome
  refine ⟨channel, hr, hopen, entry, hget, ?_⟩
  rintro timer (⟨slot, htimer⟩ | htimer)
  · rw [hslots slot] at htimer
    cases htimer
  · rw [List.isEmpty_iff.1 hfired] at htimer
    cases htimer

end BroadcastService.Transport

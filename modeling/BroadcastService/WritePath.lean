import BroadcastService.TimerWheel
import BroadcastService.WriteHandler

/-!
# The write event and its retry timer

Between two calls of `Handle` the write event is armed or `retry_function_` waits in the timer
service to arm it, and never both (`Exclusive`, in every run). That one of them holds depends on
`Retry`: with a policy that is no longer valid it does nothing, and the write path is dead from then
on (`Dead.step`). In runs in which `Retry` is never called with such a policy one of them holds
between any two calls (`write_path_alive`).
-/

namespace BroadcastService.Transport.WriteHandler
open TransitionSystem

section Count
variable {τ : Type*} (service : TimerService τ) (p : Timer τ → Prop) [DecidablePred p]

def wheelCount : ℕ := service.content.countP p

theorem wheelCount_addTimer (task : τ) (id duration : ℕ) :
    wheelCount (service.addTimer task id duration) p = wheelCount service p +
      if p ⟨service.ticks + duration / service.tickDuration, id, task⟩ then 1 else 0 := by
  rw [wheelCount, TimerService.content_addTimer, Multiset.countP_cons, wheelCount]

theorem wheelCount_collect (elapsed : ℕ) : wheelCount service p =
    (service.collect elapsed).1.countP p + (service.collect elapsed).2.1.countP p +
      wheelCount (service.collect elapsed).2.2 p := by
  rw [wheelCount, TimerService.content_collect service elapsed, Multiset.countP_add,
    Multiset.countP_add, Multiset.coe_countP, Multiset.coe_countP, wheelCount]

theorem wheelCount_pos : 0 < wheelCount service p ↔ ∃ timer, service.Holds timer ∧ p timer := by
  simp only [wheelCount, Multiset.countP_pos, TimerService.mem_content]

end Count

variable {s s' : WriteSystem}

def isRetry (timer : Timer WheelTask) : Prop := timer.task = .retryFunction

instance : DecidablePred isRetry := fun timer => inferInstanceAs (Decidable (timer.task = _))

def Waiting (s : WriteSystem) (timer : Timer WheelTask) : Prop :=
  s.timerService.Holds timer ∨ timer ∈ s.firedTimers

/-- How often `retry_function_` is linked in the timer service. -/
def retryTimers (s : WriteSystem) : ℕ :=
  wheelCount s.timerService isRetry + s.firedTimers.countP isRetry

theorem retryTimers_pos : 0 < retryTimers s ↔ ∃ timer, Waiting s timer ∧ isRetry timer := by
  have hwheel := wheelCount_pos s.timerService isRetry
  have hfired : 0 < s.firedTimers.countP isRetry ↔
      ∃ timer, timer ∈ s.firedTimers ∧ isRetry timer := by
    simp [List.countP_pos_iff]
  have hsplit : 0 < retryTimers s ↔
      0 < wheelCount s.timerService isRetry ∨ 0 < s.firedTimers.countP isRetry := by
    unfold retryTimers
    omega
  rw [hsplit, hwheel, hfired, ← exists_or]
  simp only [Waiting, or_and_right]

theorem retryTimers_congr (hservice : s'.timerService = s.timerService)
    (hfired : s'.firedTimers = s.firedTimers) : retryTimers s' = retryTimers s := by
  rw [retryTimers, hservice, hfired, retryTimers]

structure Exclusive (s : WriteSystem) : Prop where
  busy : s.stage ≠ .idle → s.armed = false ∧ retryTimers s = 0
  armed : s.armed = true → retryTimers s = 0
  single : retryTimers s ≤ 1
  retryId : ∀ timer, Waiting s timer → isRetry timer →
    timer.id < s.timerService.currentId ∧ timer.id ∉ s.otherIds
  cancelled : s.timerService.cancelledTimers ⊆ s.otherIds
  drawn : ∀ id ∈ s.otherIds, id < s.timerService.currentId

/-- An event is delivered only between calls. -/
theorem Exclusive.idle_of_armed (h : Exclusive s) (harmed : s.armed = true) : s.stage = .idle := by
  by_contra hbusy
  rw [(h.busy hbusy).1] at harmed
  cases harmed

theorem Exclusive.frame (h : Exclusive s) (harmed : s'.armed = s.armed)
    (hservice : s'.timerService = s.timerService) (hfired : s'.firedTimers = s.firedTimers)
    (hother : s'.otherIds = s.otherIds) (hstage : s'.stage ≠ .idle → s.stage ≠ .idle) :
    Exclusive s' := by
  have hcount := retryTimers_congr hservice hfired
  refine ⟨?_, ?_, ?_, ?_, ?_, ?_⟩
  · intro hbusy
    rw [harmed, hcount]
    exact h.busy (hstage hbusy)
  · rw [harmed, hcount]
    exact h.armed
  · rw [hcount]
    exact h.single
  · rw [hservice, hother]
    intro timer hwaiting
    rw [Waiting, hservice, hfired] at hwaiting
    exact h.retryId timer hwaiting
  · rw [hservice, hother]
    exact h.cancelled
  · rw [hservice, hother]
    exact h.drawn

theorem Exclusive.without_timer (h : Exclusive s) (hzero : retryTimers s = 0)
    (hservice : s'.timerService = s.timerService) (hfired : s'.firedTimers = s.firedTimers)
    (hother : s'.otherIds = s.otherIds) (hstage : s'.stage ≠ .idle → s'.armed = false) :
    Exclusive s' := by
  have hcount : retryTimers s' = 0 := (retryTimers_congr hservice hfired).trans hzero
  refine ⟨fun hbusy => ⟨hstage hbusy, hcount⟩, fun _ => hcount, by omega, ?_, ?_, ?_⟩
  · intro timer hwaiting hretry
    have := retryTimers_pos.2 ⟨timer, hwaiting, hretry⟩
    omega
  · rw [hservice, hother]
    exact h.cancelled
  · rw [hservice, hother]
    exact h.drawn

theorem Exclusive.event (h : Exclusive s) {type : EventType} (hs : s.event type = some s') :
    Exclusive s' := by
  obtain ⟨harmed, rfl | rfl⟩ := event_cases hs
  · exact h.without_timer (h.armed harmed) rfl rfl rfl fun _ => rfl
  · exact h.without_timer (h.armed harmed) rfl rfl rfl fun _ => rfl

/-- A new timer gets an identifier that nobody has. -/
theorem Exclusive.schedule (h : Exclusive s) (hbusy : s.stage ≠ .idle) (duration : ℕ)
    (hservice : s'.timerService = s.timerService.getID.2.addTimer .retryFunction
      s.timerService.getID.1 duration)
    (hfired : s'.firedTimers = s.firedTimers) (hother : s'.otherIds = s.otherIds)
    (harmed : s'.armed = s.armed) (hstage : s'.stage = .idle) :
    Exclusive s' ∧ retryTimers s' = 1 := by
  obtain ⟨hunarmed, hzero⟩ := h.busy hbusy
  have hcount : retryTimers s' = 1 := by
    have hsame : wheelCount s.timerService.getID.2 isRetry = wheelCount s.timerService isRetry :=
      rfl
    have hnew : isRetry ⟨s.timerService.getID.2.ticks +
        duration / s.timerService.getID.2.tickDuration, s.timerService.getID.1,
        .retryFunction⟩ := rfl
    rw [retryTimers] at hzero ⊢
    rw [hservice, hfired, wheelCount_addTimer, if_pos hnew, hsame]
    omega
  refine ⟨⟨fun hne => absurd hstage hne, fun htrue => ?_, by omega, ?_, ?_, ?_⟩, hcount⟩
  · rw [harmed, hunarmed] at htrue
    cases htrue
  · intro timer hwaiting hretry
    rw [Waiting, hservice, hfired, TimerService.holds_addTimer] at hwaiting
    rw [hservice, hother]
    have hnone : ¬Waiting s timer := by
      intro hold
      have := retryTimers_pos.2 ⟨timer, hold, hretry⟩
      omega
    obtain (hold | rfl) | hold := hwaiting
    · exact absurd (.inl hold) hnone
    · refine ⟨Nat.lt_succ_self _, ?_⟩
      intro hmem
      exact lt_irrefl _ (h.drawn _ hmem)
    · exact absurd (.inr hold) hnone
  · rw [hservice, hother]
    exact h.cancelled
  · rw [hservice, hother]
    intro id hid
    exact Nat.lt_succ_of_lt (h.drawn id hid)

/-- What one access of `Handle` can do to the event and the timers. -/
inductive HandleEffect (s : WriteSystem) (s' : WriteSystem) : Prop
  | goesOn (hframe : s'.armed = s.armed ∧ s'.timerService = s.timerService ∧
      s'.firedTimers = s.firedTimers ∧ s'.otherIds = s.otherIds) (hstage : s'.stage ≠ .idle)
  | rearms (hframe : s'.timerService = s.timerService ∧ s'.firedTimers = s.firedTimers ∧
      s'.otherIds = s.otherIds) (harmed : s'.armed = true) (hstage : s'.stage = .idle)
  | schedules (reason : RetryReason) (hreason : s.stage = .rescheduling reason)
      (hvalid : (s.policy reason).isValid = true)
      (hservice : s'.timerService = s.timerService.getID.2.addTimer .retryFunction
        s.timerService.getID.1 (s.policy reason).timeoutMs)
      (hframe : s'.firedTimers = s.firedTimers ∧ s'.otherIds = s.otherIds ∧ s'.armed = s.armed)
      (hstage : s'.stage = .idle)
  | givesUp (reason : RetryReason) (hreason : s.stage = .rescheduling reason)
      (hinvalid : (s.policy reason).isValid = false)
      (hframe : s'.armed = s.armed ∧ s'.timerService = s.timerService ∧
        s'.firedTimers = s.firedTimers ∧ s'.otherIds = s.otherIds) (hstage : s'.stage = .idle)

theorem reschedule_effect (reason : RetryReason) (draw : ℕ)
    (hreason : s.stage = .rescheduling reason) : HandleEffect s (s.reschedule reason draw) := by
  by_cases hvalid : (s.policy reason).isValid = true
  · apply HandleEffect.schedules reason hreason hvalid
    · rw [WriteSystem.reschedule, if_pos hvalid]
      cases reason <;> rfl
    · rw [WriteSystem.reschedule, if_pos hvalid]
      cases reason <;> exact ⟨rfl, rfl, rfl⟩
    · rw [WriteSystem.reschedule, if_pos hvalid]
  · apply HandleEffect.givesUp reason hreason (Bool.eq_false_of_not_eq_true hvalid)
    · rw [WriteSystem.reschedule, if_neg hvalid]
      exact ⟨rfl, rfl, rfl, rfl⟩
    · rw [WriteSystem.reschedule, if_neg hvalid]

theorem handle_effect {status : WriteStatus} {draw : ℕ} (hs : s.handle status draw = some s') :
    s.stage ≠ .idle ∧ HandleEffect s s' := by
  cases handle_cases hs with
  | credit h =>
      refine ⟨by simp [h], .goesOn ⟨rfl, rfl, rfl, rfl⟩ ?_⟩
      simp only [WriteSystem.credit]
      split <;> simp
  | tryPopAll budget h =>
      refine ⟨by simp [h], ?_⟩
      unfold WriteSystem.tryPopAll
      dsimp only
      split_ifs
      · exact .goesOn ⟨rfl, rfl, rfl, rfl⟩ (by simp)
      · exact .goesOn ⟨rfl, rfl, rfl, rfl⟩ (by simp)
  | returnBudget budget h =>
      exact ⟨by simp [h], .goesOn ⟨rfl, rfl, rfl, rfl⟩ (by simp [WriteSystem.returnBudget])⟩
  | popFront budget batch writeStatus h =>
      refine ⟨by simp [h], ?_⟩
      unfold WriteSystem.popFront
      split
      · exact .goesOn ⟨rfl, rfl, rfl, rfl⟩ (by simp)
      · split_ifs
        all_goals exact .goesOn ⟨rfl, rfl, rfl, rfl⟩ (by simp)
  | write budget next batch h =>
      refine ⟨by simp [h], ?_⟩
      unfold WriteSystem.write
      split_ifs
      all_goals exact .goesOn ⟨rfl, rfl, rfl, rfl⟩ (by simp)
  | deleteId budget next batch h =>
      exact ⟨by simp [h], .goesOn ⟨rfl, rfl, rfl, rfl⟩ (by simp [WriteSystem.deleteId])⟩
  | pushBatch budget batch writeStatus h =>
      exact ⟨by simp [h], .goesOn ⟨rfl, rfl, rfl, rfl⟩ (by simp [WriteSystem.pushBatch])⟩
  | topUp budget writeStatus h =>
      exact ⟨by simp [h], .goesOn ⟨rfl, rfl, rfl, rfl⟩ (by simp [WriteSystem.topUp])⟩
  | finish writeStatus h =>
      refine ⟨by simp [h], ?_⟩
      unfold WriteSystem.finish
      split_ifs
      · exact .goesOn ⟨rfl, rfl, rfl, rfl⟩ (by simp)
      · exact .rearms ⟨rfl, rfl, rfl⟩ rfl rfl
  | reschedule reason h => exact ⟨by simp [h], reschedule_effect reason draw h⟩

theorem Exclusive.handle (h : Exclusive s) {status : WriteStatus} {draw : ℕ}
    (hs : s.handle status draw = some s') : Exclusive s' := by
  obtain ⟨hbusy, heffect⟩ := handle_effect hs
  have hzero := (h.busy hbusy).2
  cases heffect with
  | goesOn hframe hstage =>
      obtain ⟨harmed, hservice, hfired, hother⟩ := hframe
      exact h.frame harmed hservice hfired hother fun _ => hbusy
  | rearms hframe harmed hstage =>
      obtain ⟨hservice, hfired, hother⟩ := hframe
      exact h.without_timer hzero hservice hfired hother fun hne => absurd hstage hne
  | schedules reason hreason hvalid hservice hframe hstage =>
      obtain ⟨hfired, hother, harmed⟩ := hframe
      exact (h.schedule hbusy _ hservice hfired hother harmed hstage).1
  | givesUp reason hreason hinvalid hframe hstage =>
      obtain ⟨harmed, hservice, hfired, hother⟩ := hframe
      exact h.frame harmed hservice hfired hother fun _ => hbusy

theorem retryTimers_addTimer (id duration : ℕ) :
    retryTimers { s with timerService := s.timerService.addTimer .other id duration } =
      retryTimers s := by
  have hother : ¬isRetry ⟨s.timerService.ticks + duration / s.timerService.tickDuration, id,
      .other⟩ := by
    intro h
    cases h
  rw [retryTimers, wheelCount_addTimer, if_neg hother, Nat.add_zero, retryTimers]

theorem Exclusive.addTimer (h : Exclusive s) {id duration : ℕ}
    (hs : s.addTimer id duration = some s') : Exclusive s' := by
  obtain ⟨-, rfl⟩ := addTimer_cases hs
  have hcount := retryTimers_addTimer (s := s) id duration
  refine ⟨?_, ?_, ?_, ?_, h.cancelled, h.drawn⟩
  · rw [hcount]
    exact h.busy
  · rw [hcount]
    exact h.armed
  · rw [hcount]
    exact h.single
  · intro timer hwaiting hretry
    rw [Waiting, TimerService.holds_addTimer] at hwaiting
    obtain (hold | rfl) | hold := hwaiting
    · exact h.retryId timer (.inl hold) hretry
    · cases hretry
    · exact h.retryId timer (.inr hold) hretry

theorem Exclusive.getTimerID (h : Exclusive s) : Exclusive s.getTimerID := by
  have hcount : retryTimers s.getTimerID = retryTimers s := rfl
  refine ⟨?_, ?_, ?_, ?_, ?_, ?_⟩
  · rw [hcount]
    exact h.busy
  · rw [hcount]
    exact h.armed
  · rw [hcount]
    exact h.single
  · intro timer hwaiting hretry
    obtain ⟨hlt, hnot⟩ := h.retryId timer hwaiting hretry
    refine ⟨Nat.lt_succ_of_lt hlt, ?_⟩
    intro hmem
    rcases Finset.mem_insert.1 hmem with hid | hmem
    · exact hlt.ne hid
    · exact hnot hmem
  · exact h.cancelled.trans (Finset.subset_insert _ _)
  · intro id hid
    rcases Finset.mem_insert.1 hid with rfl | hid
    · exact Nat.lt_succ_self _
    · exact Nat.lt_succ_of_lt (h.drawn id hid)

theorem Exclusive.cancelTimer (h : Exclusive s) {id : ℕ} (hs : s.cancelTimer id = some s') :
    Exclusive s' := by
  obtain ⟨hid, rfl⟩ := cancelTimer_cases hs
  exact ⟨h.busy, h.armed, h.single, h.retryId, Finset.insert_subset hid h.cancelled, h.drawn⟩

/-- A tick cancels none of the retry timers: their identifiers were never handed out. -/
theorem retryTimers_tick (h : Exclusive s) {elapsed : ℕ} (hs : s.tick elapsed = some s') :
    retryTimers s' = retryTimers s := by
  obtain ⟨hfired, rfl⟩ := tick_cases hs
  have hcollect := wheelCount_collect s.timerService isRetry elapsed
  have hcancelled : (s.timerService.collect elapsed).1.countP isRetry = 0 := by
    rw [List.countP_eq_zero]
    intro timer htimer hretry
    have hretry := of_decide_eq_true hretry
    have hholds := (s.timerService.holds_collect elapsed).2 (.inl htimer)
    have hid := h.cancelled (s.timerService.id_of_collect_cancelled htimer)
    exact (h.retryId timer (.inl hholds) hretry).2 hid
  rw [retryTimers, retryTimers, hfired, List.countP_nil]
  dsimp only
  omega

theorem Exclusive.tick (h : Exclusive s) {elapsed : ℕ} (hs : s.tick elapsed = some s') :
    Exclusive s' := by
  have hcount := retryTimers_tick h hs
  obtain ⟨hfired, rfl⟩ := tick_cases hs
  refine ⟨?_, ?_, ?_, ?_, ?_, ?_⟩
  · rw [hcount]
    exact h.busy
  · rw [hcount]
    exact h.armed
  · rw [hcount]
    exact h.single
  · intro timer hwaiting hretry
    have hholds : s.timerService.Holds timer := by
      rw [s.timerService.holds_collect elapsed]
      obtain hwaiting | hwaiting := hwaiting
      · exact .inr (.inr hwaiting)
      · exact .inr (.inl hwaiting)
    rw [s.timerService.currentId_collect elapsed]
    exact h.retryId timer (.inl hholds) hretry
  · exact (s.timerService.cancelledTimers_collect elapsed).trans h.cancelled
  · rw [s.timerService.currentId_collect elapsed]
    exact h.drawn

theorem fire_cases (hs : s.fire = some s') :
    ∃ timer firedTimers, s.firedTimers = timer :: firedTimers ∧
      ((isRetry timer ∧ s' = { s with firedTimers, armed := true }) ∨
        (¬isRetry timer ∧ s' = { s with firedTimers })) := by
  unfold WriteSystem.fire at hs
  split at hs
  · cases hs
  · rename_i timer firedTimers hfired
    refine ⟨timer, firedTimers, hfired, ?_⟩
    split at hs
    · rename_i htask
      exact .inl ⟨htask, (Option.some.inj hs).symm⟩
    · rename_i htask
      refine .inr ⟨?_, (Option.some.inj hs).symm⟩
      intro hretry
      rw [isRetry, htask] at hretry
      cases hretry

theorem Exclusive.fire (h : Exclusive s) (hs : s.fire = some s') : Exclusive s' := by
  obtain ⟨timer, firedTimers, hfired, ⟨hretry, rfl⟩ | ⟨hretry, rfl⟩⟩ := fire_cases hs
  · have hcount : retryTimers s = retryTimers { s with firedTimers, armed := true } + 1 := by
      simp only [retryTimers, hfired, List.countP_cons, hretry, decide_true, if_true]
      omega
    have hsingle := h.single
    have hzero : retryTimers { s with firedTimers, armed := true } = 0 := by omega
    refine ⟨fun hbusy => ?_, fun _ => hzero, by omega, ?_, h.cancelled, h.drawn⟩
    · have := (h.busy hbusy).2
      omega
    · intro timer' hwaiting hretry'
      have := retryTimers_pos.2 ⟨timer', hwaiting, hretry'⟩
      omega
  · have hcount : retryTimers { s with firedTimers } = retryTimers s := by
      simp [retryTimers, hfired, hretry]
    refine ⟨?_, ?_, ?_, ?_, h.cancelled, h.drawn⟩
    · rw [hcount]
      exact h.busy
    · rw [hcount]
      exact h.armed
    · rw [hcount]
      exact h.single
    · intro timer' hwaiting hretry'
      have hold : Waiting s timer' := by
        rw [Waiting, hfired]
        exact hwaiting.imp_right (List.mem_cons_of_mem timer)
      exact h.retryId timer' hold hretry'

/-- The calls of `Send` and the credits have nothing to do with the event. -/
structure Untouched (s s' : WriteSystem) : Prop where
  armed : s'.armed = s.armed
  timerService : s'.timerService = s.timerService
  firedTimers : s'.firedTimers = s.firedTimers
  otherIds : s'.otherIds = s.otherIds
  stage : s'.stage = s.stage
  errorPolicy : s'.errorPolicy = s.errorPolicy
  emptyWritePolicy : s'.emptyWritePolicy = s.emptyWritePolicy
  written : s'.history.written = s.history.written

theorem checkCap_untouched {linked : PacketLinked} (hs : s.checkCap linked = some s') :
    Untouched s s' := by
  obtain ⟨-, rfl | rfl⟩ := checkCap_cases hs
  · exact ⟨rfl, rfl, rfl, rfl, rfl, rfl, rfl, rfl⟩
  · exact ⟨rfl, rfl, rfl, rfl, rfl, rfl, rfl, rfl⟩

theorem insertId_untouched {linked : PacketLinked} (hs : s.insertId linked = some s') :
    Untouched s s' := by
  obtain ⟨-, rfl | ⟨-, rfl⟩⟩ := insertId_cases hs
  · exact ⟨rfl, rfl, rfl, rfl, rfl, rfl, rfl, rfl⟩
  · exact ⟨rfl, rfl, rfl, rfl, rfl, rfl, rfl, rfl⟩

theorem pushPacket_untouched {linked : PacketLinked} (hs : s.pushPacket linked = some s') :
    Untouched s s' := by
  obtain ⟨-, rfl⟩ := pushPacket_cases hs
  exact ⟨rfl, rfl, rfl, rfl, rfl, rfl, rfl, rfl⟩

/-- Everything that a step can do to the event and the timers. -/
theorem step_cases {label : WriteLabel} (hs : step s label = some s') :
    Untouched s s' ∨ (∃ type, s.event type = some s') ∨
      (∃ status draw, label = .handle status draw ∧ s.handle status draw = some s') ∨
      s' = s.getTimerID ∨ (∃ id duration, s.addTimer id duration = some s') ∨
      (∃ id, s.cancelTimer id = some s') ∨ (∃ elapsed, s.tick elapsed = some s') ∨
      s.fire = some s' := by
  cases label with
  | send packet =>
      obtain rfl := Option.some.inj hs
      exact .inl ⟨rfl, rfl, rfl, rfl, rfl, rfl, rfl, rfl⟩
  | checkCap linked => exact .inl (checkCap_untouched hs)
  | insertId linked => exact .inl (insertId_untouched hs)
  | push linked => exact .inl (pushPacket_untouched hs)
  | addSendCredits credits =>
      obtain rfl := Option.some.inj hs
      exact .inl ⟨rfl, rfl, rfl, rfl, rfl, rfl, rfl, rfl⟩
  | event type => exact .inr (.inl ⟨type, hs⟩)
  | handle status draw => exact .inr (.inr (.inl ⟨status, draw, rfl, hs⟩))
  | getTimerID => exact .inr (.inr (.inr (.inl (Option.some.inj hs).symm)))
  | addTimer id duration => exact .inr (.inr (.inr (.inr (.inl ⟨id, duration, hs⟩))))
  | cancelTimer id => exact .inr (.inr (.inr (.inr (.inr (.inl ⟨id, hs⟩)))))
  | tick elapsed => exact .inr (.inr (.inr (.inr (.inr (.inr (.inl ⟨elapsed, hs⟩))))))
  | fire => exact .inr (.inr (.inr (.inr (.inr (.inr (.inr hs))))))

theorem Exclusive.step (h : Exclusive s) {label : WriteLabel}
    (hs : WriteHandler.step s label = some s') : Exclusive s' := by
  obtain hsame | ⟨type, hs⟩ | ⟨status, draw, -, hs⟩ | rfl | ⟨id, duration, hs⟩ | ⟨id, hs⟩ |
    ⟨elapsed, hs⟩ | hs := step_cases hs
  · exact h.frame hsame.armed hsame.timerService hsame.firedTimers hsame.otherIds fun hne =>
      hsame.stage ▸ hne
  · exact h.event hs
  · exact h.handle hs
  · exact h.getTimerID
  · exact h.addTimer hs
  · exact h.cancelTimer hs
  · exact h.tick hs
  · exact h.fire hs

theorem Exclusive.start (maxBudget : UInt64) (errorPolicy emptyWritePolicy : RetryPolicy)
    (tickDuration : ℕ) :
    Exclusive (initial maxBudget errorPolicy emptyWritePolicy tickDuration) := by
  have hcount : retryTimers (initial maxBudget errorPolicy emptyWritePolicy tickDuration) = 0 := by
    simp [retryTimers, initial, wheelCount, TimerService.content]
  refine ⟨fun hbusy => absurd rfl hbusy, fun _ => hcount, by omega, ?_, ?_, ?_⟩
  · intro timer hwaiting hretry
    have := retryTimers_pos.2 ⟨timer, hwaiting, hretry⟩
    omega
  · exact Finset.empty_subset _
  · intro id hid
    cases hid

theorem exclusive_of_reachable {maxBudget : UInt64} {errorPolicy emptyWritePolicy : RetryPolicy}
    {tickDuration : ℕ} (hr : Reachable WriteHandler.step
      (initial maxBudget errorPolicy emptyWritePolicy tickDuration) s) : Exclusive s := by
  apply hr.invariant (Exclusive.start maxBudget errorPolicy emptyWritePolicy tickDuration)
  intro s label s' _ h _ hs
  exact h.step hs

/-- Neither is the event armed nor will anything arm it. -/
structure Dead (s : WriteSystem) : Prop where
  exclusive : Exclusive s
  idle : s.stage = .idle
  armed : s.armed = false
  timers : retryTimers s = 0

/-- Nothing revives a dead write path, and nothing is written to its socket any more. -/
theorem Dead.step (h : Dead s) {label : WriteLabel} (hs : WriteHandler.step s label = some s') :
    Dead s' ∧ s'.history.written = s.history.written := by
  have hexclusive := h.exclusive.step hs
  have hnone : ∀ timer, Waiting s timer → ¬isRetry timer := by
    intro timer hwaiting hretry
    have := retryTimers_pos.2 ⟨timer, hwaiting, hretry⟩
    have := h.timers
    omega
  obtain hsame | ⟨type, hs⟩ | ⟨status, draw, -, hs⟩ | rfl | ⟨id, duration, hs⟩ | ⟨id, hs⟩ |
    ⟨elapsed, hs⟩ | hs := step_cases hs
  · have hcount := retryTimers_congr hsame.timerService hsame.firedTimers
    exact ⟨⟨hexclusive, hsame.stage.trans h.idle, hsame.armed.trans h.armed, hcount.trans h.timers⟩,
      hsame.written⟩
  · have harmed := (event_cases hs).1
    rw [h.armed] at harmed
    cases harmed
  · exact absurd h.idle (handle_effect hs).1
  · exact ⟨⟨hexclusive, h.idle, h.armed, h.timers⟩, rfl⟩
  · obtain ⟨-, rfl⟩ := addTimer_cases hs
    have hcount := retryTimers_addTimer (s := s) id duration
    exact ⟨⟨hexclusive, h.idle, h.armed, hcount.trans h.timers⟩, rfl⟩
  · obtain ⟨hid, rfl⟩ := cancelTimer_cases hs
    exact ⟨⟨hexclusive, h.idle, h.armed, h.timers⟩, rfl⟩
  · have hcount := retryTimers_tick h.exclusive hs
    obtain ⟨-, rfl⟩ := tick_cases hs
    exact ⟨⟨hexclusive, h.idle, h.armed, hcount.trans h.timers⟩, rfl⟩
  · obtain ⟨timer, firedTimers, hfired, ⟨hretry, rfl⟩ | ⟨hretry, rfl⟩⟩ := fire_cases hs
    · have hwaiting : Waiting s timer := by
        rw [Waiting, hfired]
        exact .inr List.mem_cons_self
      exact absurd hretry (hnone timer hwaiting)
    · have hcount : retryTimers { s with firedTimers } = retryTimers s := by
        simp [retryTimers, hfired, hretry]
      exact ⟨⟨hexclusive, h.idle, h.armed, hcount.trans h.timers⟩, rfl⟩

theorem Dead.run (h : Dead s) (hr : Reachable WriteHandler.step s s') :
    Dead s' ∧ s'.history.written = s.history.written := by
  apply hr.invariant (I := fun s' => Dead s' ∧ s'.history.written = s.history.written) ⟨h, rfl⟩
  intro s₁ label s₂ _ h₁ _ hs
  obtain ⟨hdead, hwritten⟩ := h₁.1.step hs
  exact ⟨hdead, hwritten.trans h₁.2⟩

/-- The step does not call `Retry` with a policy that is no longer valid. -/
def retryAllowed (s : WriteSystem) : WriteLabel → Bool
  | .handle _ _ =>
      match s.stage with
      | .rescheduling reason => (s.policy reason).isValid
      | _ => true
  | _ => true

/-- Between two calls the event is armed or waits for its timer. -/
def Alive (s : WriteSystem) : Prop := s.stage = .idle → s.armed = true ∨ retryTimers s = 1

theorem Alive.step (h : Alive s) (hexclusive : Exclusive s) {label : WriteLabel}
    (hallowed : retryAllowed s label = true) (hs : WriteHandler.step s label = some s') :
    Alive s' := by
  obtain hsame | ⟨type, hs⟩ | ⟨status, draw, hlabel, hs⟩ | rfl | ⟨id, duration, hs⟩ | ⟨id, hs⟩ |
    ⟨elapsed, hs⟩ | hs := step_cases hs
  · intro hidle
    rw [hsame.armed, retryTimers_congr hsame.timerService hsame.firedTimers]
    exact h (hsame.stage ▸ hidle)
  · intro hidle
    obtain ⟨-, rfl | rfl⟩ := event_cases hs
    · cases hidle
    · cases hidle
  · obtain ⟨hbusy, heffect⟩ := handle_effect hs
    intro hidle
    cases heffect with
    | goesOn hframe hstage => exact absurd hidle hstage
    | rearms hframe harmed hstage => exact .inl harmed
    | schedules reason hreason hvalid hservice hframe hstage =>
        obtain ⟨hfired, hother, harmed⟩ := hframe
        exact .inr (hexclusive.schedule hbusy _ hservice hfired hother harmed hstage).2
    | givesUp reason hreason hinvalid hframe hstage =>
        have hvalid : (s.policy reason).isValid = true := by
          simpa [hlabel, retryAllowed, hreason] using hallowed
        rw [hvalid] at hinvalid
        cases hinvalid
  · exact h
  · obtain ⟨-, rfl⟩ := addTimer_cases hs
    intro hidle
    rw [retryTimers_addTimer]
    exact h hidle
  · obtain ⟨hid, rfl⟩ := cancelTimer_cases hs
    exact h
  · have hcount := retryTimers_tick hexclusive hs
    obtain ⟨-, rfl⟩ := tick_cases hs
    intro hidle
    rw [hcount]
    exact h hidle
  · obtain ⟨timer, firedTimers, hfired, ⟨hretry, rfl⟩ | ⟨hretry, rfl⟩⟩ := fire_cases hs
    · exact fun _ => .inl rfl
    · intro hidle
      have hcount : retryTimers { s with firedTimers } = retryTimers s := by
        simp [retryTimers, hfired, hretry]
      rw [hcount]
      exact h hidle

theorem fire_all (s : WriteSystem) : ∃ s',
    run WriteHandler.step s (List.replicate s.firedTimers.length .fire) = some s' ∧
      s'.firedTimers = [] ∧ s'.timerService = s.timerService ∧
      (s.armed = true ∨ (∃ timer ∈ s.firedTimers, isRetry timer) → s'.armed = true) := by
  obtain ⟨n, hn⟩ : ∃ n, s.firedTimers.length = n := ⟨_, rfl⟩
  induction n generalizing s with
  | zero =>
      have hnil := List.length_eq_zero_iff.1 hn
      refine ⟨s, by rw [hn]; rfl, hnil, rfl, ?_⟩
      rintro (harmed | ⟨timer, htimer, -⟩)
      · exact harmed
      · rw [hnil] at htimer
        cases htimer
  | succ n ih =>
      obtain ⟨timer, firedTimers, hfired⟩ := List.exists_cons_of_length_eq_add_one hn
      obtain ⟨armed, hfire, harmed⟩ : ∃ armed, s.fire = some { s with firedTimers, armed } ∧
          (s.armed = true ∨ isRetry timer → armed = true) := by
        unfold WriteSystem.fire
        rw [hfired]
        dsimp only
        split
        · exact ⟨true, rfl, fun _ => rfl⟩
        · rename_i htask
          refine ⟨s.armed, rfl, ?_⟩
          rintro (harmed | hretry)
          · exact harmed
          · rw [isRetry, htask] at hretry
            cases hretry
      have hlength : firedTimers.length = n := by
        rw [hfired, List.length_cons] at hn
        omega
      obtain ⟨s', hrun, hnil, hservice, hall⟩ := ih { s with firedTimers, armed } hlength
      refine ⟨s', ?_, hnil, hservice, ?_⟩
      · rw [hfired, List.length_cons, List.replicate_succ, run]
        exact Option.bind_eq_some_iff.2 ⟨_, hfire, hrun⟩
      · rintro (hold | ⟨timer', htimer, hretry⟩)
        · exact hall (.inl (harmed (.inl hold)))
        · rw [hfired, List.mem_cons] at htimer
          obtain rfl | htimer := htimer
          · exact hall (.inl (harmed (.inr hretry)))
          · exact hall (.inr ⟨timer', htimer, hretry⟩)

theorem Exclusive.rearmed (h : Exclusive s) (hone : retryTimers s = 1) :
    ∃ labels s', (∀ label ∈ labels, label = .fire ∨ ∃ elapsed, label = .tick elapsed) ∧
      run WriteHandler.step s labels = some s' ∧ s'.armed = true := by
  obtain ⟨timer, hwaiting, hretry⟩ := retryTimers_pos.1 (by omega : 0 < retryTimers s)
  obtain ⟨s₁, hrun₁, hnil, hservice, hall⟩ := fire_all s
  obtain hholds | hfired := hwaiting
  · have hid : timer.id ∉ s.timerService.cancelledTimers := by
      intro hmem
      exact (h.retryId timer (.inl hholds) hretry).2 (h.cancelled hmem)
    obtain ⟨elapsed, helapsed⟩ := TimerService.exists_fired hholds hid
    obtain ⟨s₂, htick⟩ : ∃ s₂, s₁.tick elapsed = some s₂ := by
      rw [WriteSystem.tick, if_pos hnil]
      exact ⟨_, rfl⟩
    obtain ⟨s₃, hrun₃, -, -, hall₃⟩ := fire_all s₂
    have hmem : timer ∈ s₂.firedTimers := by
      rw [(tick_cases htick).2, hservice]
      exact helapsed
    refine ⟨List.replicate s.firedTimers.length .fire ++
      .tick elapsed :: List.replicate s₂.firedTimers.length .fire, s₃, ?_, ?_,
      hall₃ (.inr ⟨timer, hmem, hretry⟩)⟩
    · intro label hlabel
      rw [List.mem_append, List.mem_cons] at hlabel
      obtain hlabel | rfl | hlabel := hlabel
      · exact .inl (List.eq_of_mem_replicate hlabel)
      · exact .inr ⟨elapsed, rfl⟩
      · exact .inl (List.eq_of_mem_replicate hlabel)
    · rw [run_append, hrun₁, Option.bind_some, run]
      exact Option.bind_eq_some_iff.2 ⟨s₂, htick, hrun₃⟩
  · refine ⟨_, s₁, ?_, hrun₁, hall (.inr ⟨timer, hfired, hretry⟩)⟩
    intro label hlabel
    exact .inl (List.eq_of_mem_replicate hlabel)

/-- In a run in which `Retry` is never called with an invalid policy, between two calls of `Handle`
the event is armed and has no timer, or it is not armed and has one timer that will arm it. -/
theorem write_path_alive {maxBudget : UInt64} {errorPolicy emptyWritePolicy : RetryPolicy}
    {tickDuration : ℕ}
    (hr : ReachableIn WriteHandler.step (fun s label => retryAllowed s label = true)
      (initial maxBudget errorPolicy emptyWritePolicy tickDuration) s)
    (hidle : s.stage = .idle) :
    (s.armed = true ∧ retryTimers s = 0) ∨
    (s.armed = false ∧ retryTimers s = 1 ∧
      ∃ labels s', (∀ label ∈ labels, label = .fire ∨ ∃ elapsed, label = .tick elapsed) ∧
        run WriteHandler.step s labels = some s' ∧ s'.armed = true) := by
  have hexclusive := exclusive_of_reachable hr.reachable
  have halive : Alive s := by
    apply hr.invariant (fun _ => .inl rfl)
    intro s label s' hs h hallowed hstep
    exact h.step (exclusive_of_reachable hs.reachable) hallowed hstep
  cases harmed : s.armed with
  | true => exact .inl ⟨rfl, hexclusive.armed harmed⟩
  | false =>
      obtain htrue | hone := halive hidle
      · rw [harmed] at htrue
        cases htrue
      · exact .inr ⟨rfl, hone, hexclusive.rearmed hone⟩

def emptyWrite : List WriteLabel := .event .writeReady :: List.replicate 4 (.handle .ok 0)

def testChannel : WriteSystem :=
  initial 200 ⟨100, 2, 1000, 100, false⟩ ⟨100, 2, 1000, 100, false⟩ 100

theorem write_path_alive_emptyWrite : ∃ s,
    ReachableIn WriteHandler.step (fun s label => retryAllowed s label = true) testChannel s ∧
    s.armed = false ∧ retryTimers s = 1 ∧
    ∃ labels s', (∀ label ∈ labels, label = .fire ∨ ∃ elapsed, label = .tick elapsed) ∧
      run WriteHandler.step s labels = some s' ∧ s'.armed = true := by
  obtain ⟨s, hr, hidle, hunarmed⟩ : ∃ s,
      ReachableIn WriteHandler.step (fun s label => retryAllowed s label = true) testChannel s ∧
      s.stage = .idle ∧ s.armed = false :=
    exists_reachableIn emptyWrite (by decide +kernel)
  obtain ⟨harmed, -⟩ | ⟨harmed, hone, hrearmed⟩ := write_path_alive hr hidle
  · simp [harmed] at hunarmed
  · exact ⟨s, hr, harmed, hone, hrearmed⟩

def longIdle : List WriteLabel :=
  ([1, 2, 4, 8].flatMap fun ticks => emptyWrite ++ [.tick ticks, .fire]) ++ emptyWrite.dropLast

def firstSend (packet : Packet) : List WriteLabel :=
  [.send packet, .checkCap ⟨0, packet⟩, .insertId ⟨0, packet⟩, .push ⟨0, packet⟩]

/-- `Retry` with an invalid policy leaves the write path dead. -/
theorem dead_of_invalid (h : Exclusive s) {reason : RetryReason}
    (hstage : s.stage = .rescheduling reason) (hinvalid : (s.policy reason).isValid = false)
    (draw : ℕ) : Dead (s.reschedule reason draw) := by
  have hbusy : s.stage ≠ .idle := by
    rw [hstage]
    simp
  have hgivesUp : s.reschedule reason draw = { s with stage := .idle } := by
    rw [WriteSystem.reschedule, if_neg (by simp [hinvalid])]
  obtain ⟨harmed, hzero⟩ := h.busy hbusy
  rw [hgivesUp]
  exact ⟨h.frame rfl rfl rfl rfl fun _ => hbusy, rfl, harmed, hzero⟩

/-- At the fifth empty write the next timeout is 1600 ms, above the maximum of 1000 ms. The write
event is neither armed nor scheduled then, and of what is accepted later nothing is ever written. -/
theorem dead_after_longIdle : ∃ s s' : WriteSystem, Reachable WriteHandler.step testChannel s ∧
    s.stage = .idle ∧ s.armed = false ∧ retryTimers s = 0 ∧
    Reachable WriteHandler.step s s' ∧ s'.history.accepted ≠ [] ∧
    ∀ s'', Reachable WriteHandler.step s' s'' → s''.history.written = [] := by
  obtain ⟨t, hrun, hcheck⟩ := (Option.any_eq_true _ _).1 (by decide +kernel :
    (run WriteHandler.step testChannel longIdle).any (fun t =>
      decide (t.stage = .rescheduling .emptyWrite) && !(t.policy .emptyWrite).isValid &&
        decide (t.history.written = []) &&
        (run WriteHandler.step (t.reschedule .emptyWrite 0)
          (firstSend ⟨.payloadMessage, 0, 1, [7]⟩)).any
            fun s' => decide (s'.history.accepted ≠ [])) = true)
  simp only [Bool.and_eq_true, Bool.not_eq_true', decide_eq_true_eq] at hcheck
  obtain ⟨⟨⟨hstage, hinvalid⟩, hwritten⟩, hsend⟩ := hcheck
  obtain ⟨s', hrun', haccepted⟩ := (Option.any_eq_true _ _).1 hsend
  have ht : Reachable WriteHandler.step testChannel t := reachable_of_run hrun
  have hdead := dead_of_invalid (exclusive_of_reachable ht) hstage hinvalid 0
  have hstep : WriteHandler.step t (.handle .ok 0) = some (t.reschedule .emptyWrite 0) := by
    simp only [WriteHandler.step, WriteSystem.handle, hstage]
  have hs' : Reachable WriteHandler.step (t.reschedule .emptyWrite 0) s' := reachable_of_run hrun'
  refine ⟨t.reschedule .emptyWrite 0, s', .tail ht trivial hstep, hdead.idle, hdead.armed,
    hdead.timers, hs', of_decide_eq_true haccepted, ?_⟩
  intro s'' hs''
  have hnone : (t.reschedule .emptyWrite 0).history.written = [] := by
    rw [WriteSystem.reschedule, if_neg (by simp [hinvalid])]
    exact hwritten
  obtain ⟨hdead', hkept⟩ := hdead.run hs'
  rw [(hdead'.run hs'').2, hkept, hnone]

end BroadcastService.Transport.WriteHandler

import BroadcastService.EventLoop

/-!
# Stopping the event loop

`Stop` triggers the stop event, which stays reportable for every thread, so after it every thread
can leave `Run` by steps of its own (`all_return`). That a thread leaves only then depends on how
`HandleEpollEvent` recognises the stop event: a handler whose address has the descriptor of the stop
event as its low half is taken for it, and with such a handler a thread leaves although nobody
called `Stop` (`leaves_only_when_stopped`).
-/

namespace BroadcastService.Runtime
open TransitionSystem

variable {T H : Type*} [DecidableEq T] [DecidableEq H] {handlers : Handlers H}
  {stopEvent : Event} {maxEventsNumber : ℕ} {loop loop' : EventLoop T H}

theorem mem_of_mapM_eq_some {α β : Type*} {f : α → Option β} {l : List α} {l' : List β}
    (h : l.mapM f = some l') {b : β} (hb : b ∈ l') : ∃ a ∈ l, f a = some b := by
  induction l generalizing l' with
  | nil =>
      obtain rfl := Option.some.inj h
      cases hb
  | cons a l ih =>
      rw [List.mapM_cons] at h
      obtain ⟨c, hc, h⟩ := Option.bind_eq_some_iff.1 h
      obtain ⟨l₁, hl₁, h⟩ := Option.bind_eq_some_iff.1 h
      obtain rfl := Option.some.inj h
      rcases List.mem_cons.1 hb with rfl | hb
      · exact ⟨a, List.mem_cons_self, hc⟩
      · obtain ⟨a', ha', hf⟩ := ih hl₁ hb
        exact ⟨a', List.mem_cons_of_mem a ha', hf⟩

def LoopEvent.thread : LoopEvent T H → Option T
  | .epollWait t _ => some t
  | .handleEpollEvent t => some t
  | .finish t _ => some t
  | .leave t => some t
  | .loop t => some t
  | .addEvent _ | .stop | .fireRetry _ => none

/-- The entry of the stop event as `SetupStopEvent` made it. -/
def StopEntry (stopEvent : Event) (epoll : UInt32 → Option EpollEntry) : Prop :=
  epoll stopEvent.fd = some ⟨⟨{.epollin}, stopEvent.handler⟩, true⟩

structure Framed (stopEvent : Event) (event : LoopEvent T H) (loop loop' : EventLoop T H) :
    Prop where
  entry : StopEntry stopEvent loop.epoll → StopEntry stopEvent loop'.epoll
  stopped : loop.stopped = true → loop'.stopped = true
  others : ∀ t, event.thread ≠ some t → loop'.runners t = loop.runners t

omit [DecidableEq H] in
theorem framed_setRunner {event : LoopEvent T H} {t : T} (ht : event.thread = some t)
    (runner : Runner H) : Framed stopEvent event loop (loop.setRunner t runner) := by
  refine ⟨id, id, fun t' ht' => ?_⟩
  rw [EventLoop.runners_setRunner, if_neg]
  rintro rfl
  exact ht' ht

omit [DecidableEq T] [DecidableEq H] in
theorem StopEntry.update (hstop : StopEvent handlers stopEvent)
    {epoll : UInt32 → Option EpollEntry} (h : StopEntry stopEvent epoll) (x : H)
    (entry : Option EpollEntry) :
    StopEntry stopEvent (Function.update epoll (handlers.event x).fd entry) :=
  (Function.update_of_ne (Ne.symm (hstop.fd x)) ..).trans h

theorem framed_of_step (hstop : StopEvent handlers stopEvent) {event : LoopEvent T H}
    (hs : loop.step handlers stopEvent maxEventsNumber event = some loop') :
    Framed stopEvent event loop loop' := by
  cases event with
  | addEvent x =>
      obtain ⟨-, he⟩ := Option.ite_none_right_eq_some.1 hs
      obtain rfl := Option.some.inj he
      exact ⟨fun h => h.update hstop x _, id, fun _ _ => rfl⟩
  | stop =>
      obtain rfl := Option.some.inj hs
      exact ⟨id, fun _ => rfl, fun _ _ => rfl⟩
  | epollWait t reported =>
      obtain ⟨-, hs⟩ := Option.ite_none_right_eq_some.1 hs
      obtain ⟨events, -, rfl⟩ := Option.map_eq_some_iff.1 hs
      have hframed : ∀ runner, Framed stopEvent (.epollWait t reported) loop
          (loop.setRunner t runner) := framed_setRunner rfl
      refine ⟨fun h => ?_, id, (hframed _).others⟩
      rw [StopEntry] at h ⊢
      simp only [h]
      split_ifs <;> rfl
  | handleEpollEvent t =>
      obtain ⟨event, inputEvents, -, -, hcases⟩ := EventLoop.handleEpollEvent_cases hs
      rcases hcases with ⟨-, rfl⟩ | ⟨-, type, x, -, -, rfl⟩
      · exact framed_setRunner rfl _
      · exact framed_setRunner rfl _
  | finish t outcome =>
      obtain ⟨x, type, -, left, rfl, hcases⟩ := EventLoop.finish_cases hs
      have hframed : Framed stopEvent (.finish t outcome) loop
          (loop.setRunner t { loop.runners t with phase := .leaving }) := framed_setRunner rfl _
      rcases hcases with ⟨-, -, rfl⟩ | ⟨-, rfl⟩ | ⟨-, rfl⟩
      · exact ⟨fun h => h.update hstop x _, id, hframed.others⟩
      · exact ⟨id, id, hframed.others⟩
      · exact hframed
  | leave t =>
      obtain ⟨-, he⟩ := Option.ite_none_right_eq_some.1 hs
      obtain rfl := Option.some.inj he
      exact framed_setRunner rfl _
  | loop t =>
      obtain ⟨-, he⟩ := Option.ite_none_right_eq_some.1 hs
      obtain rfl := Option.some.inj he
      exact framed_setRunner rfl _
  | fireRetry x =>
      obtain ⟨-, hs⟩ := Option.ite_none_right_eq_some.1 hs
      obtain ⟨-, he⟩ := Option.ite_none_right_eq_some.1 hs
      obtain rfl := Option.some.inj he
      exact ⟨fun h => h.update hstop x _, id, fun _ _ => rfl⟩

theorem stop_entry (hstop : StopEvent handlers stopEvent)
    (hr : Reachable (EventLoop.step handlers stopEvent maxEventsNumber)
      (EventLoop.start stopEvent) loop) : StopEntry stopEvent loop.epoll := by
  apply hr.invariant (I := fun loop : EventLoop T H => StopEntry stopEvent loop.epoll)
  · rw [StopEntry, EventLoop.start_epoll, if_pos rfl]
  · intro loop event loop' _ h _ hs
    exact (framed_of_step hstop hs).entry h

/-- A thread that has seen the stop event, or is about to, was told to stop. -/
structure Told (stopEvent : Event) (stopped : Bool) (runner : Runner H) : Prop where
  flag : runner.stopFlag = true → stopped = true
  events : ∀ event ∈ runner.inputEvents, event.data.toUInt32 = stopEvent.fd → stopped = true

omit [DecidableEq H] in
theorem Told.move {stopped : Bool} {runner : Runner H} (h : Told stopEvent stopped runner)
    (phase : Phase H) : Told stopEvent stopped { runner with phase } := ⟨h.flag, h.events⟩

omit [DecidableEq H] in
theorem told_setRunner {t : T} {runner : Runner H}
    (h : ∀ t, Told stopEvent loop.stopped (loop.runners t))
    (hself : Told stopEvent loop.stopped runner) (t' : T) :
    Told stopEvent loop.stopped ((loop.setRunner t runner).runners t') := by
  rw [EventLoop.runners_setRunner]
  split_ifs
  · exact hself
  · exact h t'

omit [DecidableEq H] in
/-- A report that is taken for the stop event is one of the stop event. -/
theorem Registered.stopped_of_reportable {place : H → Place T}
    (h : Registered handlers stopEvent loop.epoll place)
    (hdistinct : Distinguished handlers stopEvent) {report : UInt32 × Finset EpollFlag}
    {event : EpollEvent} (hs : loop.reportable stopEvent report = some event)
    (hevent : event.data.toUInt32 = stopEvent.fd) : loop.stopped = true := by
  rcases h.reportable hs with ⟨hfd, -⟩ | ⟨x, -, -, hdata, -⟩
  · obtain ⟨entry, -, hs⟩ := Option.bind_eq_some_iff.1 hs
    obtain ⟨⟨-, -, -, -, hstopped⟩, -⟩ := Option.ite_none_right_eq_some.1 hs
    exact (hstopped hfd).1
  · rw [hdata] at hevent
    exact absurd hevent (hdistinct x)

theorem told_step {place : H → Place T} (h : ∀ t, Told stopEvent loop.stopped (loop.runners t))
    (hplaced : Placed handlers stopEvent loop place)
    (hdistinct : Distinguished handlers stopEvent) {event : LoopEvent T H}
    (hs : loop.step handlers stopEvent maxEventsNumber event = some loop') (t : T) :
    Told stopEvent loop'.stopped (loop'.runners t) := by
  cases event with
  | addEvent x =>
      obtain ⟨-, he⟩ := Option.ite_none_right_eq_some.1 hs
      obtain rfl := Option.some.inj he
      exact h t
  | stop =>
      obtain rfl := Option.some.inj hs
      exact ⟨fun _ => rfl, fun _ _ _ => rfl⟩
  | epollWait t' reported =>
      obtain ⟨-, hs⟩ := Option.ite_none_right_eq_some.1 hs
      obtain ⟨events, hevents, rfl⟩ := Option.map_eq_some_iff.1 hs
      have hself : Told (H := H) stopEvent loop.stopped
          { loop.runners t' with inputEvents := events, phase := .looping } := by
        refine ⟨(h t').flag, fun event hevent hstop => ?_⟩
        obtain ⟨report, -, hreport⟩ := mem_of_mapM_eq_some hevents hevent
        exact hplaced.registered.stopped_of_reportable hdistinct hreport hstop
      exact told_setRunner h hself t
  | handleEpollEvent t' =>
      obtain ⟨event, inputEvents, -, hinput, hcases⟩ := EventLoop.handleEpollEvent_cases hs
      have hrest : ∀ e ∈ inputEvents, e.data.toUInt32 = stopEvent.fd → loop.stopped = true := by
        intro e he
        apply (h t').events
        rw [hinput]
        exact List.mem_cons_of_mem event he
      rcases hcases with ⟨hevent, rfl⟩ | ⟨-, type, x, -, -, rfl⟩
      · refine told_setRunner h ⟨fun _ => (h t').events event ?_ hevent, hrest⟩ t
        rw [hinput]
        exact List.mem_cons_self
      · have hself : Told stopEvent loop.stopped
            { loop.runners t' with inputEvents, phase := .inside x type } := ⟨(h t').flag, hrest⟩
        exact told_setRunner h hself t
  | finish t' outcome =>
      obtain ⟨x, type, -, left, rfl, hcases⟩ := EventLoop.finish_cases hs
      have hself : Told stopEvent loop.stopped { loop.runners t' with phase := .leaving } :=
        (h t').move _
      rcases hcases with ⟨-, -, rfl⟩ | ⟨-, rfl⟩ | ⟨-, rfl⟩
      · exact told_setRunner h hself t
      · exact told_setRunner h hself t
      · exact told_setRunner h hself t
  | leave t' =>
      obtain ⟨-, he⟩ := Option.ite_none_right_eq_some.1 hs
      obtain rfl := Option.some.inj he
      exact told_setRunner h ((h t').move _) t
  | loop t' =>
      obtain ⟨-, he⟩ := Option.ite_none_right_eq_some.1 hs
      obtain rfl := Option.some.inj he
      exact told_setRunner h ((h t').move _) t
  | fireRetry x =>
      obtain ⟨-, hs⟩ := Option.ite_none_right_eq_some.1 hs
      obtain ⟨-, he⟩ := Option.ite_none_right_eq_some.1 hs
      obtain rfl := Option.some.inj he
      exact h t

theorem told (hstop : StopEvent handlers stopEvent) (hdistinct : Distinguished handlers stopEvent)
    (hr : Reachable (EventLoop.step handlers stopEvent maxEventsNumber)
      (EventLoop.start stopEvent) loop) (t : T) :
    Told stopEvent loop.stopped (loop.runners t) := by
  revert t
  apply hr.invariant (I := fun loop : EventLoop T H =>
    ∀ t, Told stopEvent loop.stopped (loop.runners t))
  · exact fun t => ⟨by simp [EventLoop.start], by simp [EventLoop.start]⟩
  · intro loop event loop' hr h _ hs
    obtain ⟨place, hplaced⟩ := exists_placed hstop hdistinct hr
    exact told_step h hplaced hdistinct hs

/-- The steps with which a thread takes an error of this handler for the stop event. -/
def misled (handlers : Handlers H) (t : T) (x : H) : List (LoopEvent T H) :=
  [.addEvent x, .epollWait t [((handlers.event x).fd, {.epollerr})], .handleEpollEvent t]

theorem run_misled (hstop : StopEvent handlers stopEvent) (hmax : 0 < maxEventsNumber) (t : T)
    {x : H} (hx : (handlers.event x).handler.toUInt32 = stopEvent.fd) :
    ∃ loop : EventLoop T H, run (EventLoop.step handlers stopEvent maxEventsNumber)
      (EventLoop.start stopEvent) (misled handlers t x) = some loop ∧
      (loop.runners t).stopFlag = true ∧ loop.stopped = false := by
  have hnone : (EventLoop.start stopEvent : EventLoop T H).epoll (handlers.event x).fd = none := by
    rw [EventLoop.start_epoll, if_neg (hstop.fd x)]
  let added : EventLoop T H := { EventLoop.start stopEvent with
    epoll := Function.update (EventLoop.start stopEvent : EventLoop T H).epoll (handlers.event x).fd
      (some ⟨(handlers.event x).asEpollEvent, true⟩) }
  have hadd : (EventLoop.start stopEvent).step handlers stopEvent maxEventsNumber (.addEvent x) =
      some added := if_pos hnone
  have hentry : added.epoll (handlers.event x).fd =
      some ⟨(handlers.event x).asEpollEvent, true⟩ := Function.update_self ..
  have hreport : added.reportable stopEvent ((handlers.event x).fd, {.epollerr}) =
      some ⟨{.epollerr}, (handlers.event x).handler⟩ := by
    rw [EventLoop.reportable, hentry, Option.bind_some, if_pos]
    · rfl
    · exact ⟨rfl, by simp, by simp, by simp, fun hfd => absurd hfd (hstop.fd x)⟩
  obtain ⟨waited, hwait, hrunner, hstopped⟩ : ∃ waited : EventLoop T H,
      added.step handlers stopEvent maxEventsNumber
        (.epollWait t [((handlers.event x).fd, {.epollerr})]) = some waited ∧
      waited.runners t = ⟨[⟨{.epollerr}, (handlers.event x).handler⟩], false, .looping⟩ ∧
      waited.stopped = false := by
    have hcan : (added.runners t).phase = .waiting ∧
        [((handlers.event x).fd, ({.epollerr} : Finset EpollFlag))] ≠ [] ∧
        [((handlers.event x).fd, ({.epollerr} : Finset EpollFlag))].length ≤ maxEventsNumber ∧
        ([((handlers.event x).fd, ({.epollerr} : Finset EpollFlag))].map Prod.fst).Nodup :=
      ⟨rfl, by simp, hmax, by simp⟩
    refine ⟨_, (if_pos hcan).trans (by rw [List.mapM_cons, hreport]; rfl), ?_, rfl⟩
    exact Function.update_self ..
  refine ⟨waited.setRunner t { waited.runners t with inputEvents := [], stopFlag := true }, ?_, ?_,
    hstopped⟩
  · have hhandle : waited.step handlers stopEvent maxEventsNumber (.handleEpollEvent t) = some
        (waited.setRunner t { waited.runners t with inputEvents := [], stopFlag := true }) := by
      simp only [EventLoop.step, EventLoop.handleEpollEvent, hrunner, if_pos hx]
    rw [misled, run, hadd, Option.bind_some, run, hwait, Option.bind_some, run, hhandle]
    rfl
  · rw [EventLoop.runners_setRunner, if_pos rfl]

/-- Threads leave the loop only after `Stop` exactly when no handler is taken for the stop event. -/
theorem leaves_only_when_stopped [Nonempty T] (hstop : StopEvent handlers stopEvent)
    (hmax : 0 < maxEventsNumber) :
    (∀ loop : EventLoop T H, Reachable (EventLoop.step handlers stopEvent maxEventsNumber)
      (EventLoop.start stopEvent) loop →
      ∀ t, (loop.runners t).stopFlag = true → loop.stopped = true) ↔
    Distinguished handlers stopEvent := by
  constructor
  · intro h x hx
    obtain ⟨t⟩ : Nonempty T := inferInstance
    obtain ⟨loop, hrun, hflag, hstopped⟩ := run_misled (T := T) hstop hmax t hx
    have hleft := h loop (reachable_of_run hrun) t hflag
    rw [hstopped] at hleft
    cases hleft
  · exact fun hdistinct loop hr t => (told hstop hdistinct hr t).flag

theorem leaves_only_when_stopped_two : Distinguished twoHandlers thirdDescriptor ∧
    ∀ loop : EventLoop Bool Bool, Reachable (EventLoop.step twoHandlers thirdDescriptor 10)
      (EventLoop.start thirdDescriptor) loop →
      ∀ t, (loop.runners t).stopFlag = true → loop.stopped = true := by
  have hdistinct : Distinguished twoHandlers thirdDescriptor := by
    unfold Distinguished
    decide
  exact ⟨hdistinct, (leaves_only_when_stopped ⟨by decide, by decide⟩ (by decide)).2 hdistinct⟩

/-- A step of the thread when no socket and no timer has an event any more: only the stop event is
reported, and the calls of `Handle` all end with `outcome`. -/
def LoopEvent.IsOwn (stopEvent : Event) (outcome : Outcome) (t : T) : LoopEvent T H → Prop
  | .epollWait t' reported => t' = t ∧ reported.map Prod.fst = [stopEvent.fd]
  | .finish t' outcome' => t' = t ∧ outcome' = outcome
  | .handleEpollEvent t' | .leave t' | .loop t' => t' = t
  | .addEvent _ | .stop | .fireRetry _ => False

omit [DecidableEq T] [DecidableEq H] in
theorem LoopEvent.IsOwn.thread {outcome : Outcome} {t : T} {event : LoopEvent T H}
    (h : event.IsOwn stopEvent outcome t) : event.thread = some t := by
  cases event with
  | epollWait t' reported => exact congrArg some h.1
  | finish t' outcome' => exact congrArg some h.1
  | handleEpollEvent t' => exact congrArg some h
  | leave t' => exact congrArg some h
  | loop t' => exact congrArg some h
  | addEvent x => exact h.elim
  | stop => exact h.elim
  | fireRetry x => exact h.elim

/-- The loop after steps of one thread. -/
abbrev RunsTo (handlers : Handlers H) (stopEvent : Event) (maxEventsNumber : ℕ)
    (outcome : Outcome) (t : T) (loop loop' : EventLoop T H) : Prop :=
  ReachableIn (EventLoop.step handlers stopEvent maxEventsNumber)
    (fun _ event => event.IsOwn stopEvent outcome t) loop loop'

section Return

variable {outcome : Outcome} {t : T}

theorem RunsTo.frame (hstop : StopEvent handlers stopEvent)
    (h : RunsTo handlers stopEvent maxEventsNumber outcome t loop loop') :
    (loop.stopped = true → loop'.stopped = true) ∧
      ∀ t', t' ≠ t → loop'.runners t' = loop.runners t' := by
  apply h.invariant (I := fun loop' : EventLoop T H =>
    (loop.stopped = true → loop'.stopped = true) ∧
      ∀ t', t' ≠ t → loop'.runners t' = loop.runners t')
  · exact ⟨id, fun _ _ => rfl⟩
  · intro loop₁ event loop₂ _ ⟨hstopped, hothers⟩ hown hs
    have hframed := framed_of_step hstop hs
    refine ⟨fun h => hframed.stopped (hstopped h), fun t' ht => ?_⟩
    rw [hframed.others t', hothers t' ht]
    rw [hown.thread]
    exact fun he => ht (Option.some.inj he).symm

theorem runsTo_of_step {event : LoopEvent T H}
    (hs : loop.step handlers stopEvent maxEventsNumber event = some loop')
    (hown : event.IsOwn stopEvent outcome t) :
    RunsTo handlers stopEvent maxEventsNumber outcome t loop loop' := .tail .refl hown hs

theorem exists_finish (maxEventsNumber : ℕ) {place : H → Place T}
    (hplaced : Placed handlers stopEvent loop place) {x : H} {type : EventType}
    (hphase : (loop.runners t).phase = .inside x type) (outcome : Outcome) :
    ∃ loop', loop.step handlers stopEvent maxEventsNumber (.finish t outcome) = some loop' ∧
      loop'.runners t = { loop.runners t with phase := .leaving } := by
  have hself : (loop.setRunner t { loop.runners t with phase := .leaving }).runners t =
      { loop.runners t with phase := .leaving } := by
    rw [EventLoop.runners_setRunner, if_pos rfl]
  simp only [EventLoop.step, EventLoop.finish, hphase]
  match outcome with
  | .rearm =>
      have hregistered := hplaced.registered.entries x
      have hx : place x = .inside t := ((hplaced.threaded t).inside x).1 ⟨type, hphase⟩
      rw [hx, if_neg (by simp)] at hregistered
      refine ⟨_, if_pos ?_, hself⟩
      change loop.epoll (handlers.event x).fd ≠ none
      rw [hregistered]
      simp
  | .retry true => exact ⟨_, rfl, hself⟩
  | .retry false => exact ⟨_, rfl, hself⟩

omit [DecidableEq H] in
theorem runners_setRunner_self (runner : Runner H) : (loop.setRunner t runner).runners t = runner :=
  (EventLoop.runners_setRunner ..).trans (if_pos rfl)

theorem exists_leave (handlers : Handlers H) (stopEvent : Event) (maxEventsNumber : ℕ)
    (outcome : Outcome) (hphase : (loop.runners t).phase = .leaving) :
    ∃ loop', RunsTo handlers stopEvent maxEventsNumber outcome t loop loop' ∧
      loop'.runners t = { loop.runners t with phase := .looping } := by
  have hs : loop.step handlers stopEvent maxEventsNumber (.leave t) =
      some (loop.setRunner t { loop.runners t with phase := .looping }) := if_pos hphase
  exact ⟨_, runsTo_of_step hs rfl, runners_setRunner_self _⟩

theorem exists_returned_of_stopFlag (handlers : Handlers H) (stopEvent : Event)
    (maxEventsNumber : ℕ) (outcome : Outcome) (hphase : (loop.runners t).phase = .looping)
    (hinput : (loop.runners t).inputEvents = []) (hflag : (loop.runners t).stopFlag = true) :
    ∃ loop', RunsTo handlers stopEvent maxEventsNumber outcome t loop loop' ∧
      (loop'.runners t).phase = .returned := by
  have hs : loop.step handlers stopEvent maxEventsNumber (.loop t) =
      some (loop.setRunner t { loop.runners t with phase := .returned }) := by
    simp only [EventLoop.step, hphase, hinput, hflag, and_self, if_true]
  refine ⟨_, runsTo_of_step hs rfl, ?_⟩
  rw [runners_setRunner_self]

section Reachable

variable (hstop : StopEvent handlers stopEvent) (hdistinct : Distinguished handlers stopEvent)

include hstop hdistinct

theorem exists_handled (outcome : Outcome)
    (hr : Reachable (EventLoop.step handlers stopEvent maxEventsNumber)
      (EventLoop.start stopEvent) loop) {x : H} {type : EventType}
    (hphase : (loop.runners t).phase = .inside x type) :
    ∃ loop', RunsTo handlers stopEvent maxEventsNumber outcome t loop loop' ∧
      loop'.runners t = { loop.runners t with phase := .looping } := by
  obtain ⟨place, hplaced⟩ := exists_placed hstop hdistinct hr
  obtain ⟨loop₁, hfinish, hrunner₁⟩ := exists_finish maxEventsNumber hplaced hphase outcome
  have hleaving : (loop₁.runners t).phase = .leaving := congrArg Runner.phase hrunner₁
  obtain ⟨loop₂, hleave, hrunner₂⟩ :=
    exists_leave handlers stopEvent maxEventsNumber outcome hleaving
  have hfinished : RunsTo handlers stopEvent maxEventsNumber outcome t loop loop₁ :=
    runsTo_of_step hfinish ⟨rfl, rfl⟩
  refine ⟨loop₂, hfinished.trans hleave, ?_⟩
  rw [hrunner₂, hrunner₁]

theorem exists_next (outcome : Outcome)
    (hr : Reachable (EventLoop.step handlers stopEvent maxEventsNumber)
      (EventLoop.start stopEvent) loop) (hphase : (loop.runners t).phase = .looping)
    {event : EpollEvent} {inputEvents : List EpollEvent}
    (hinput : (loop.runners t).inputEvents = event :: inputEvents)
    (htype : toEventType event.events ≠ none) :
    ∃ loop', RunsTo handlers stopEvent maxEventsNumber outcome t loop loop' ∧
      (loop'.runners t).phase = .looping ∧ (loop'.runners t).inputEvents = inputEvents ∧
      ((loop.runners t).stopFlag = true ∨ event.data.toUInt32 = stopEvent.fd →
        (loop'.runners t).stopFlag = true) := by
  by_cases hevent : event.data.toUInt32 = stopEvent.fd
  · have hs : loop.step handlers stopEvent maxEventsNumber (.handleEpollEvent t) =
        some (loop.setRunner t { loop.runners t with inputEvents, stopFlag := true }) := by
      simp only [EventLoop.step, EventLoop.handleEpollEvent, hphase, hinput, if_pos hevent]
    refine ⟨_, runsTo_of_step hs rfl, ?_⟩
    rw [runners_setRunner_self]
    exact ⟨hphase, rfl, fun _ => rfl⟩
  · obtain ⟨type, htype⟩ := Option.ne_none_iff_exists'.1 htype
    obtain ⟨place, hplaced⟩ := exists_placed hstop hdistinct hr
    obtain ⟨x, hx⟩ : ∃ x, handlers.handlerAt event.data = some x := by
      rcases (hplaced.threaded t).known event (by simp [hinput]) with hdata | ⟨x, hdata, -⟩
      · rw [hdata, hstop.data] at hevent
        exact absurd rfl hevent
      · exact ⟨x, handlers.handlerAt_iff.2 hdata.symm⟩
    let inside : Runner H := { loop.runners t with inputEvents, phase := .inside x type }
    have hs : loop.step handlers stopEvent maxEventsNumber (.handleEpollEvent t) =
        some (loop.setRunner t inside) := by
      simp only [EventLoop.step, EventLoop.handleEpollEvent, hphase, hinput, if_neg hevent, htype,
        Option.bind_some, hx, Option.map_some, inside]
    have hinside : (loop.setRunner t inside).runners t = inside := runners_setRunner_self _
    obtain ⟨loop', hhandled, hrunner⟩ := exists_handled hstop hdistinct outcome
      (hr.tail trivial hs) (congrArg Runner.phase hinside)
    have hentered : RunsTo handlers stopEvent maxEventsNumber outcome t loop
        (loop.setRunner t inside) := runsTo_of_step hs rfl
    refine ⟨loop', hentered.trans hhandled, ?_⟩
    rw [hrunner, hinside]
    exact ⟨rfl, rfl, fun h => h.resolve_right hevent⟩

theorem exists_handledAll (outcome : Outcome) {inputEvents : List EpollEvent}
    (hr : Reachable (EventLoop.step handlers stopEvent maxEventsNumber)
      (EventLoop.start stopEvent) loop) (hphase : (loop.runners t).phase = .looping)
    (hinput : (loop.runners t).inputEvents = inputEvents)
    (htypes : ∀ event ∈ inputEvents, toEventType event.events ≠ none) :
    ∃ loop', RunsTo handlers stopEvent maxEventsNumber outcome t loop loop' ∧
      (loop'.runners t).phase = .looping ∧ (loop'.runners t).inputEvents = [] ∧
      ((loop.runners t).stopFlag = true ∨
          (∃ event ∈ inputEvents, event.data.toUInt32 = stopEvent.fd) →
        (loop'.runners t).stopFlag = true) := by
  induction inputEvents generalizing loop with
  | nil => exact ⟨loop, .refl, hphase, hinput, by simp⟩
  | cons event inputEvents ih =>
      obtain ⟨loop₁, hnext, hphase₁, hinput₁, hflag₁⟩ := exists_next hstop hdistinct outcome hr
        hphase hinput (htypes event List.mem_cons_self)
      obtain ⟨loop₂, hrest, hphase₂, hinput₂, hflag₂⟩ := ih (hr.trans hnext.reachable) hphase₁
        hinput₁ fun e he => htypes e (List.mem_cons_of_mem event he)
      refine ⟨loop₂, hnext.trans hrest, hphase₂, hinput₂, fun h => hflag₂ ?_⟩
      rcases h with hflag | ⟨e, he, hstop⟩
      · exact .inl (hflag₁ (.inl hflag))
      · rcases List.mem_cons.1 he with rfl | he
        · exact .inl (hflag₁ (.inr hstop))
        · exact .inr ⟨e, he, hstop⟩

theorem exists_returned_of_waiting (hmax : 0 < maxEventsNumber) (outcome : Outcome)
    (hr : Reachable (EventLoop.step handlers stopEvent maxEventsNumber)
      (EventLoop.start stopEvent) loop) (hstopped : loop.stopped = true)
    (hphase : (loop.runners t).phase = .waiting) :
    ∃ loop', RunsTo handlers stopEvent maxEventsNumber outcome t loop loop' ∧
      (loop'.runners t).phase = .returned := by
  have hreport : loop.reportable stopEvent (stopEvent.fd, {.epollin}) =
      some ⟨{.epollin}, stopEvent.handler⟩ := by
    rw [EventLoop.reportable, stop_entry hstop hr, Option.bind_some, if_pos]
    exact ⟨rfl, by simp, by simp, by simp, fun _ => ⟨hstopped, rfl⟩⟩
  obtain ⟨loop₁, hwait, hrunner₁⟩ : ∃ loop₁ : EventLoop T H,
      loop.step handlers stopEvent maxEventsNumber
        (.epollWait t [(stopEvent.fd, {.epollin})]) = some loop₁ ∧
      loop₁.runners t = { loop.runners t with
        inputEvents := [⟨{.epollin}, stopEvent.handler⟩], phase := .looping } := by
    have hcan : (loop.runners t).phase = .waiting ∧
        [(stopEvent.fd, ({.epollin} : Finset EpollFlag))] ≠ [] ∧
        [(stopEvent.fd, ({.epollin} : Finset EpollFlag))].length ≤ maxEventsNumber ∧
        ([(stopEvent.fd, ({.epollin} : Finset EpollFlag))].map Prod.fst).Nodup :=
      ⟨hphase, by simp, hmax, by simp⟩
    refine ⟨_, (if_pos hcan).trans (by rw [List.mapM_cons, hreport]; rfl), ?_⟩
    exact Function.update_self ..
  have hwaited : RunsTo handlers stopEvent maxEventsNumber outcome t loop loop₁ :=
    runsTo_of_step hwait ⟨rfl, rfl⟩
  obtain ⟨loop₂, hhandled, hphase₂, hinput₂, hflag₂⟩ := exists_handledAll hstop hdistinct outcome
    (hr.trans hwaited.reachable) (congrArg Runner.phase hrunner₁)
    (congrArg Runner.inputEvents hrunner₁) (by simp [toEventType])
  obtain ⟨loop₃, hreturned, hphase₃⟩ := exists_returned_of_stopFlag handlers stopEvent
    maxEventsNumber outcome hphase₂ hinput₂ (hflag₂ (.inr ⟨_, List.mem_cons_self, hstop.data⟩))
  exact ⟨loop₃, (hwaited.trans hhandled).trans hreturned, hphase₃⟩

theorem exists_returned_of_looping (hmax : 0 < maxEventsNumber) (outcome : Outcome)
    (hr : Reachable (EventLoop.step handlers stopEvent maxEventsNumber)
      (EventLoop.start stopEvent) loop) (hstopped : loop.stopped = true)
    (hphase : (loop.runners t).phase = .looping)
    (htypes : ∀ event ∈ (loop.runners t).inputEvents, toEventType event.events ≠ none) :
    ∃ loop', RunsTo handlers stopEvent maxEventsNumber outcome t loop loop' ∧
      (loop'.runners t).phase = .returned := by
  obtain ⟨loop₁, hhandled, hphase₁, hinput₁, -⟩ := exists_handledAll hstop hdistinct outcome hr
    hphase rfl htypes
  cases hflag : (loop₁.runners t).stopFlag with
  | true =>
      obtain ⟨loop₂, hreturned, hphase₂⟩ := exists_returned_of_stopFlag handlers stopEvent
        maxEventsNumber outcome hphase₁ hinput₁ hflag
      exact ⟨loop₂, hhandled.trans hreturned, hphase₂⟩
  | false =>
      let waiting : Runner H := { loop₁.runners t with phase := .waiting }
      have hs : loop₁.step handlers stopEvent maxEventsNumber (.loop t) =
          some (loop₁.setRunner t waiting) := by
        simp only [EventLoop.step, hphase₁, hinput₁, hflag, and_self, if_true, waiting,
          Bool.false_eq_true, if_false]
      have hlooped : RunsTo handlers stopEvent maxEventsNumber outcome t loop
          (loop₁.setRunner t waiting) := hhandled.trans (runsTo_of_step hs rfl)
      obtain ⟨loop₂, hreturned, hphase₂⟩ := exists_returned_of_waiting hstop hdistinct hmax outcome
        (hr.trans hlooped.reachable) ((RunsTo.frame hstop hlooped).1 hstopped)
        (congrArg Runner.phase (runners_setRunner_self waiting))
      exact ⟨loop₂, hlooped.trans hreturned, hphase₂⟩

/-- A thread of a stopped loop returns by itself from wherever it is. -/
theorem exists_returned (hmax : 0 < maxEventsNumber) (outcome : Outcome)
    (hr : Reachable (EventLoop.step handlers stopEvent maxEventsNumber)
      (EventLoop.start stopEvent) loop) (hstopped : loop.stopped = true)
    (htypes : ∀ event ∈ (loop.runners t).inputEvents, toEventType event.events ≠ none) :
    ∃ loop', RunsTo handlers stopEvent maxEventsNumber outcome t loop loop' ∧
      (loop'.runners t).phase = .returned := by
  have hback : ∀ loop₁, RunsTo handlers stopEvent maxEventsNumber outcome t loop loop₁ →
      loop₁.runners t = { loop.runners t with phase := .looping } →
      ∃ loop', RunsTo handlers stopEvent maxEventsNumber outcome t loop loop' ∧
        (loop'.runners t).phase = .returned := by
    intro loop₁ hback hrunner
    obtain ⟨loop₂, hreturned, hphase⟩ := exists_returned_of_looping hstop hdistinct hmax outcome
      (hr.trans hback.reachable) ((RunsTo.frame hstop hback).1 hstopped)
      (congrArg Runner.phase hrunner) (by rw [hrunner]; exact htypes)
    exact ⟨loop₂, hback.trans hreturned, hphase⟩
  cases hphase : (loop.runners t).phase with
  | waiting => exact exists_returned_of_waiting hstop hdistinct hmax outcome hr hstopped hphase
  | looping =>
      exact exists_returned_of_looping hstop hdistinct hmax outcome hr hstopped hphase htypes
  | inside x type =>
      obtain ⟨loop₁, hhandled, hrunner⟩ := exists_handled hstop hdistinct outcome hr hphase
      exact hback loop₁ hhandled hrunner
  | leaving =>
      obtain ⟨loop₁, hleave, hrunner⟩ := exists_leave handlers stopEvent maxEventsNumber outcome
        hphase
      exact hback loop₁ hleave hrunner
  | returned => exact ⟨loop, .refl, hphase⟩

theorem exists_returned_list (hmax : 0 < maxEventsNumber) (outcome : Outcome)
    (hr : Reachable (EventLoop.step handlers stopEvent maxEventsNumber)
      (EventLoop.start stopEvent) loop) (hstopped : loop.stopped = true)
    (htypes : ∀ t, ∀ event ∈ (loop.runners t).inputEvents, toEventType event.events ≠ none)
    (ts : List T) (hts : ts.Nodup) :
    ∃ loop', ReachableIn (EventLoop.step handlers stopEvent maxEventsNumber)
        (fun _ event => ∃ t, event.IsOwn stopEvent outcome t) loop loop' ∧
      (∀ t ∈ ts, (loop'.runners t).phase = .returned) ∧
      (∀ t ∉ ts, loop'.runners t = loop.runners t) ∧ loop'.stopped = true := by
  induction ts with
  | nil => exact ⟨loop, .refl, by simp, fun _ _ => rfl, hstopped⟩
  | cons t ts ih =>
      obtain ⟨ht, hts⟩ := List.nodup_cons.1 hts
      obtain ⟨loop₁, hreturned, hphases, hothers, hstopped₁⟩ := ih hts
      obtain ⟨loop₂, ht₂, hphase₂⟩ := exists_returned hstop hdistinct hmax outcome
        (hr.trans hreturned.reachable) hstopped₁ (by rw [hothers t ht]; exact htypes t)
      obtain ⟨hstopped₂, hothers₂⟩ := RunsTo.frame hstop ht₂
      refine ⟨loop₂, hreturned.trans (ht₂.mono fun _ _ hown => ⟨t, hown⟩), fun t' ht' => ?_,
        fun t' ht' => ?_, hstopped₂ hstopped₁⟩
      · rcases List.mem_cons.1 ht' with rfl | hmem
        · exact hphase₂
        · rw [hothers₂ t' fun he => ht (he ▸ hmem)]
          exact hphases t' hmem
      · obtain ⟨hne, hmem⟩ := not_or.1 (mt List.mem_cons.2 ht')
        rw [hothers₂ t' hne, hothers t' hmem]

end Reachable

end Return

/-- Once `Stop` was called, all threads of the loop can return without any further event of a socket
or a timer, whatever the calls of `Handle` that they are in, or that they still have to make, end
with. -/
theorem all_return [Fintype T] (hstop : StopEvent handlers stopEvent)
    (hdistinct : Distinguished handlers stopEvent) (hmax : 0 < maxEventsNumber)
    (hr : Reachable (EventLoop.step handlers stopEvent maxEventsNumber)
      (EventLoop.start stopEvent) loop) (hstopped : loop.stopped = true)
    (htypes : ∀ t, ∀ event ∈ (loop.runners t).inputEvents, toEventType event.events ≠ none)
    (outcome : Outcome) :
    ∃ loop', ReachableIn (EventLoop.step handlers stopEvent maxEventsNumber)
        (fun _ event => ∃ t, event.IsOwn stopEvent outcome t) loop loop' ∧
      ∀ t, (loop'.runners t).phase = .returned := by
  obtain ⟨loop', hreturned, hphases, -⟩ := exists_returned_list hstop hdistinct hmax outcome hr
    hstopped htypes Finset.univ.toList Finset.univ.nodup_toList
  exact ⟨loop', hreturned, fun t => hphases t (by simp)⟩

/-- A thread is in the reader and the other one has an event of the writer when `Stop` is called. -/
def stoppedInside : List (LoopEvent Bool Bool) :=
  [.addEvent true, .addEvent false, .epollWait true [(4, {.epollin})], .handleEpollEvent true,
    .epollWait false [(5, {.epollout, .epollerr})], .stop]

theorem all_return_inside : ∃ loop loop' : EventLoop Bool Bool,
    run (EventLoop.step twoHandlers thirdDescriptor 10) (EventLoop.start thirdDescriptor)
      stoppedInside = some loop ∧
    (loop.runners true).phase = .inside true .readReady ∧
    (loop.runners false).inputEvents = [⟨{.epollout, .epollerr}, 0x2000⟩] ∧
    ReachableIn (EventLoop.step twoHandlers thirdDescriptor 10)
      (fun _ event => ∃ t, event.IsOwn thirdDescriptor (.retry true) t) loop loop' ∧
    ∀ t, (loop'.runners t).phase = .returned := by
  obtain ⟨loop, hrun, hstopped, hinside, hfirst, hsecond⟩ : ∃ loop : EventLoop Bool Bool,
      run (EventLoop.step twoHandlers thirdDescriptor 10) (EventLoop.start thirdDescriptor)
        stoppedInside = some loop ∧ loop.stopped = true ∧
      (loop.runners true).phase = .inside true .readReady ∧
      (loop.runners true).inputEvents = [] ∧
      (loop.runners false).inputEvents = [⟨{.epollout, .epollerr}, 0x2000⟩] := by
    refine ⟨_, rfl, ?_⟩
    decide +kernel
  have hdistinct : Distinguished twoHandlers thirdDescriptor := by
    unfold Distinguished
    decide
  have htypes : ∀ t, ∀ event ∈ (loop.runners t).inputEvents, toEventType event.events ≠ none := by
    rintro (_ | _)
    · simp [hsecond, toEventType]
    · simp [hfirst]
  obtain ⟨loop', hreturned, hphases⟩ := all_return ⟨by decide, by decide⟩ hdistinct (by decide)
    (reachable_of_run hrun) hstopped htypes (.retry true)
  exact ⟨loop, loop', hrun, hinside, hsecond, hreturned, hphases⟩

end BroadcastService.Runtime

import BroadcastService.TransitionSystem
import Mathlib.Tactic

/-!
# The event loop

`runtime/event_loop.cpp` and `io/retryable_handler.hpp` with any number of threads that run the
loop. The kernel keeps an entry for every registered descriptor. `EPOLLONESHOT` disarms an entry as
soon as `epoll_wait` reports it to one of the threads, and only `ModEvent` arms it again. The stop
event is registered without this flag and its counter is never read, so once it was triggered it is
reported to every thread. What the sockets do is left open: an armed entry may be reported whenever
the kernel likes.

A handler ends a call of `Handle` with `Rearm` or with `Retry`, which adds its retry function to the
timer wheel if the retry policy is still valid, and else gives up. The retry function rearms. So a
handler has one place at a time (`handlers_exclusive`), and no two threads are in its code before
their last call, although the loop takes no lock. This rests on `HandleEpollEvent` telling the stop
event from the others: it compares the low half of the handler's address with a descriptor.
-/

namespace BroadcastService.Runtime
open TransitionSystem

inductive EventType
  | readReady
  | writeReady
  | error
  deriving DecidableEq

inductive EpollFlag
  | epollin
  | epollout
  | epollerr
  | epollhup
  | epolloneshot
  deriving DecidableEq

/-- The assertion fails for events that are none of the three. -/
def toEventType (epollEvents : Finset EpollFlag) : Option EventType :=
  if .epollin ∈ epollEvents then some .readReady
  else if .epollout ∈ epollEvents then some .writeReady
  else if .epollerr ∈ epollEvents then some .error
  else none

def toEpollEvents : EventType → Finset EpollFlag
  | .readReady => {.epolloneshot, .epollin}
  | .writeReady => {.epolloneshot, .epollout}
  | .error => {.epolloneshot, .epollerr}

/-- The handler is its address. -/
structure Event where
  fd : UInt32
  handler : UInt64
  type : EventType

structure EpollEvent where
  events : Finset EpollFlag
  data : UInt64
  deriving DecidableEq

def Event.asEpollEvent (event : Event) : EpollEvent := ⟨toEpollEvents event.type, event.handler⟩

/-- The handlers of a process with the events that they are registered for. -/
structure Handlers (H : Type*) where
  event : H → Event
  handlerAt : UInt64 → Option H
  handlerAt_iff : ∀ {x h}, handlerAt x = some h ↔ (event h).handler = x
  fd_injective : Function.Injective fun h => (event h).fd

/-- The entry of a descriptor in the kernel. -/
structure EpollEntry where
  registered : EpollEvent
  armed : Bool := true
  deriving DecidableEq

/-- Where a thread is: in `epoll_wait`, between two events, in `Handle`, and in `Handle` after its
last call. -/
inductive Phase (H : Type*)
  | waiting
  | looping
  | inside (handler : H) (type : EventType)
  | leaving
  | returned
  deriving DecidableEq

/-- `inputEvents` are those of the last `epoll_wait` that are still to be handled. -/
structure Runner (H : Type*) where
  inputEvents : List EpollEvent := []
  stopFlag : Bool := false
  phase : Phase H := .waiting

/-- `stopped` tells whether the stop event was triggered, and `retries` are the handlers whose retry
function is in the timer wheel. -/
structure EventLoop (T H : Type*) where
  epoll : UInt32 → Option EpollEntry
  stopped : Bool := false
  runners : T → Runner H
  retries : List H := []

/-- The result of a call of `Handle`: its last call is `Rearm`, or `Retry` with a policy that is
valid or not. -/
inductive Outcome
  | rearm
  | retry (isValid : Bool)
  deriving DecidableEq

inductive LoopEvent (T H : Type*)
  | addEvent (h : H)
  | stop
  | epollWait (t : T) (reported : List (UInt32 × Finset EpollFlag))
  | handleEpollEvent (t : T)
  | finish (t : T) (outcome : Outcome)
  | leave (t : T)
  | loop (t : T)
  | fireRetry (h : H)

namespace EventLoop

variable {T H : Type*} [DecidableEq T] [DecidableEq H] (handlers : Handlers H)
  (stopEvent : Event) (maxEventsNumber : ℕ) (loop : EventLoop T H)

def start : EventLoop T H where
  epoll := Function.update (fun _ => none) stopEvent.fd
    (some ⟨⟨{.epollin}, stopEvent.handler⟩, true⟩)
  runners _ := {}

/-- `EPOLL_CTL_ADD` fails for a descriptor that has an entry. -/
def addEvent (event : Event) : Option (EventLoop T H) :=
  if loop.epoll event.fd = none then
    some { loop with
      epoll := Function.update loop.epoll event.fd (some ⟨event.asEpollEvent, true⟩) }
  else none

/-- `EPOLL_CTL_MOD` fails for a descriptor that has none. -/
def modEvent (event : Event) : Option (EventLoop T H) :=
  if loop.epoll event.fd ≠ none then
    some { loop with
      epoll := Function.update loop.epoll event.fd (some ⟨event.asEpollEvent, true⟩) }
  else none

/-- The kernel reports events that an armed entry asks for, errors and hang-ups. -/
def reportable (report : UInt32 × Finset EpollFlag) : Option EpollEvent :=
  (loop.epoll report.1).bind fun entry =>
    if entry.armed ∧ report.2.Nonempty ∧ .epolloneshot ∉ report.2 ∧
        report.2 ⊆ entry.registered.events ∪ {.epollerr, .epollhup} ∧
        (report.1 = stopEvent.fd → loop.stopped = true ∧ report.2 = {.epollin}) then
      some ⟨report.2, entry.registered.data⟩
    else none

/-- An entry with `EPOLLONESHOT` is disarmed. -/
def disarm (entry : EpollEntry) : EpollEntry :=
  if .epolloneshot ∈ entry.registered.events then { entry with armed := false } else entry

def setRunner (t : T) (runner : Runner H) : EventLoop T H :=
  { loop with runners := Function.update loop.runners t runner }

def epollWait (t : T) (reported : List (UInt32 × Finset EpollFlag)) : Option (EventLoop T H) :=
  if (loop.runners t).phase = .waiting ∧ reported ≠ [] ∧ reported.length ≤ maxEventsNumber ∧
      (reported.map Prod.fst).Nodup then
    (reported.mapM (loop.reportable stopEvent)).map fun inputEvents =>
      { loop.setRunner t { loop.runners t with inputEvents, phase := .looping } with
        epoll := fun fd =>
          if fd ∈ reported.map Prod.fst then (loop.epoll fd).map disarm else loop.epoll fd }
  else none

/-- `data.fd` is the low half of the union. -/
def handleEpollEvent (t : T) : Option (EventLoop T H) :=
  match (loop.runners t).phase, (loop.runners t).inputEvents with
  | .looping, event :: inputEvents =>
      if event.data.toUInt32 = stopEvent.fd then
        some (loop.setRunner t { loop.runners t with inputEvents, stopFlag := true })
      else (toEventType event.events).bind fun type =>
        (handlers.handlerAt event.data).map fun h =>
          loop.setRunner t { loop.runners t with inputEvents, phase := .inside h type }
  | _, _ => none

def finish (t : T) (outcome : Outcome) : Option (EventLoop T H) :=
  match (loop.runners t).phase with
  | .inside h _ =>
      let loop := loop.setRunner t { loop.runners t with phase := .leaving }
      match outcome with
      | .rearm => loop.modEvent (handlers.event h)
      | .retry true => some { loop with retries := h :: loop.retries }
      | .retry false => some loop
  | _ => none

def fireRetry (h : H) : Option (EventLoop T H) :=
  if h ∈ loop.retries then
    { loop with retries := loop.retries.erase h }.modEvent (handlers.event h)
  else none

def step : LoopEvent T H → Option (EventLoop T H)
  | .addEvent h => loop.addEvent (handlers.event h)
  | .stop => some { loop with stopped := true }
  | .epollWait t reported => loop.epollWait stopEvent maxEventsNumber t reported
  | .handleEpollEvent t => loop.handleEpollEvent handlers stopEvent t
  | .finish t outcome => loop.finish handlers t outcome
  | .leave t =>
      if (loop.runners t).phase = .leaving then
        some (loop.setRunner t { loop.runners t with phase := .looping })
      else none
  | .loop t =>
      if (loop.runners t).phase = .looping ∧ (loop.runners t).inputEvents = [] then
        some (loop.setRunner t { loop.runners t with
          phase := if (loop.runners t).stopFlag then .returned else .waiting })
      else none
  | .fireRetry h => loop.fireRetry handlers h

end EventLoop

inductive Place (T : Type*)
  | unregistered
  | armed
  | pending (t : T)
  | inside (t : T)
  | scheduled
  | givenUp
  deriving DecidableEq

/-- Descriptors of open files differ, and the low half of the data of the stop event, which is all
that `SetupStopEvent` sets of it, is its descriptor. -/
structure StopEvent {H : Type*} (handlers : Handlers H) (stopEvent : Event) : Prop where
  fd : ∀ h, (handlers.event h).fd ≠ stopEvent.fd
  data : stopEvent.handler.toUInt32 = stopEvent.fd

/-- No handler is taken for the stop event. -/
def Distinguished {H : Type*} (handlers : Handlers H) (stopEvent : Event) : Prop :=
  ∀ h, (handlers.event h).handler.toUInt32 ≠ stopEvent.fd

section Places

variable {T H : Type*} [DecidableEq T] [DecidableEq H] {handlers : Handlers H}
  {stopEvent : Event} {maxEventsNumber : ℕ} {loop loop' : EventLoop T H} {place : H → Place T}

/-- What the kernel may report for an event of this type. -/
def reportedFor (type : EventType) : Finset EpollFlag :=
  toEpollEvents type ∪ {.epollerr, .epollhup}

variable (handlers stopEvent) in
/-- The entries of the kernel. -/
structure Registered (epoll : UInt32 → Option EpollEntry) (place : H → Place T) : Prop where
  entries : ∀ h, epoll (handlers.event h).fd =
    if place h = .unregistered then none
    else some ⟨(handlers.event h).asEpollEvent, decide (place h = .armed)⟩
  others : ∀ fd entry, epoll fd = some entry → fd = stopEvent.fd ∧
    entry.registered.data = stopEvent.handler ∨ ∃ h, fd = (handlers.event h).fd

variable (handlers stopEvent) in
/-- The events that a thread has to handle and the handler it is in. -/
structure Threaded (t : T) (runner : Runner H) (place : H → Place T) : Prop where
  pending : ∀ h, (runner.inputEvents.map (·.data)).count (handlers.event h).handler =
    if place h = .pending t then 1 else 0
  known : ∀ event ∈ runner.inputEvents, event.data = stopEvent.handler ∨
    ∃ h, event.data = (handlers.event h).handler ∧
      event.events ⊆ reportedFor (handlers.event h).type
  idle : runner.phase = .waiting → runner.inputEvents = []
  inside : ∀ h, (∃ type, runner.phase = .inside h type) ↔ place h = .inside t
  types : ∀ h type, runner.phase = .inside h type → type = (handlers.event h).type ∨ type = .error

variable (handlers stopEvent) in
structure Placed (loop : EventLoop T H) (place : H → Place T) : Prop where
  registered : Registered handlers stopEvent loop.epoll place
  threaded : ∀ t, Threaded handlers stopEvent t (loop.runners t) place
  retries : ∀ h, loop.retries.count h = if place h = .scheduled then 1 else 0

omit [DecidableEq T] [DecidableEq H] in
theorem EventLoop.start_epoll (fd : UInt32) : (start stopEvent : EventLoop T H).epoll fd =
    if fd = stopEvent.fd then some ⟨⟨{.epollin}, stopEvent.handler⟩, true⟩ else none := by
  simp [start, Function.update_apply]

omit [DecidableEq H] in
theorem EventLoop.runners_setRunner (t t' : T) (runner : Runner H) :
    (loop.setRunner t runner).runners t' = if t' = t then runner else loop.runners t' :=
  Function.update_apply ..

theorem Placed.start (hstop : StopEvent handlers stopEvent) : Placed handlers stopEvent
    (EventLoop.start stopEvent : EventLoop T H) fun _ => .unregistered := by
  refine ⟨⟨fun h => ?_, fun fd entry hentry => ?_⟩, fun t => ?_, fun h => rfl⟩
  · rw [EventLoop.start_epoll, if_neg (hstop.fd h), if_pos rfl]
  · rw [EventLoop.start_epoll] at hentry
    obtain ⟨hfd, he⟩ := Option.ite_none_right_eq_some.1 hentry
    obtain rfl := Option.some.inj he
    exact .inl ⟨hfd, rfl⟩
  · exact ⟨fun h => rfl, by simp [EventLoop.start], fun _ => rfl, by simp [EventLoop.start],
      by simp [EventLoop.start]⟩

omit [DecidableEq H] in
theorem Registered.congr {epoll : UInt32 → Option EpollEntry} {place' : H → Place T}
    (h : Registered handlers stopEvent epoll place)
    (hplace : ∀ x, (place' x = .unregistered ↔ place x = .unregistered) ∧
      (place' x = .armed ↔ place x = .armed)) : Registered handlers stopEvent epoll place' := by
  refine ⟨fun x => ?_, h.others⟩
  simp only [(hplace x).1, (hplace x).2]
  exact h.entries x

theorem Registered.arm {epoll : UInt32 → Option EpollEntry}
    (h : Registered handlers stopEvent epoll place) (x : H) :
    Registered handlers stopEvent (Function.update epoll (handlers.event x).fd
      (some ⟨(handlers.event x).asEpollEvent, true⟩)) (Function.update place x .armed) := by
  refine ⟨fun y => ?_, fun fd entry hentry => ?_⟩
  · by_cases hy : y = x
    · subst hy
      simp
    · rw [Function.update_of_ne fun he => hy (handlers.fd_injective he), Function.update_of_ne hy]
      exact h.entries y
  · by_cases hfd : fd = (handlers.event x).fd
    · exact .inr ⟨x, hfd⟩
    · rw [Function.update_of_ne hfd] at hentry
      exact h.others fd entry hentry

omit [DecidableEq H] in
theorem Threaded.congr {t : T} {runner : Runner H} {place' : H → Place T}
    (h : Threaded handlers stopEvent t runner place)
    (hplace : ∀ x, (place' x = .pending t ↔ place x = .pending t) ∧
      (place' x = .inside t ↔ place x = .inside t)) :
    Threaded handlers stopEvent t runner place' := by
  refine ⟨fun x => ?_, h.known, h.idle, fun x => ?_, h.types⟩
  · simp only [(hplace x).1]
    exact h.pending x
  · rw [(hplace x).2]
    exact h.inside x

/-- A thread has nothing to do with a handler that moves between places of others. -/
theorem Threaded.move {t : T} {runner : Runner H} (h : Threaded handlers stopEvent t runner place)
    {x : H} {place' : Place T} (hold : place x ≠ .pending t ∧ place x ≠ .inside t)
    (hnew : place' ≠ .pending t ∧ place' ≠ .inside t) :
    Threaded handlers stopEvent t runner (Function.update place x place') := by
  apply h.congr
  intro y
  by_cases hy : y = x
  · subst hy
    simp [hold, hnew]
  · simp [Function.update_of_ne hy]

theorem retries_move {retries retries' : List H} {x : H} {place' : Place T}
    (h : ∀ y, retries.count y = if place y = .scheduled then 1 else 0)
    (hother : ∀ y, y ≠ x → retries'.count y = retries.count y)
    (hself : retries'.count x = if place' = .scheduled then 1 else 0) (y : H) :
    retries'.count y = if Function.update place x place' y = .scheduled then 1 else 0 := by
  by_cases hy : y = x
  · subst hy
    rw [Function.update_self]
    exact hself
  · rw [Function.update_of_ne hy, hother y hy]
    exact h y

theorem toEventType_reported {type type' : EventType} {events : Finset EpollFlag}
    (hsub : events ⊆ reportedFor type) (htype : toEventType events = some type') :
    type' = type ∨ type' = .error := by
  unfold toEventType at htype
  split_ifs at htype with hin hout herr
  · obtain rfl := Option.some.inj htype
    have hmem := hsub hin
    cases type with
    | readReady => exact .inl rfl
    | writeReady => exact absurd hmem (by decide)
    | error => exact absurd hmem (by decide)
  · obtain rfl := Option.some.inj htype
    have hmem := hsub hout
    cases type with
    | readReady => exact absurd hmem (by decide)
    | writeReady => exact .inl rfl
    | error => exact absurd hmem (by decide)
  · exact .inr (Option.some.inj htype).symm

omit [DecidableEq H] in
/-- The next event is the stop event, or the thread enters the handler that it is about. -/
theorem EventLoop.handleEpollEvent_cases {t : T}
    (hs : loop.handleEpollEvent handlers stopEvent t = some loop') :
    ∃ event inputEvents, (loop.runners t).phase = .looping ∧
      (loop.runners t).inputEvents = event :: inputEvents ∧
      (event.data.toUInt32 = stopEvent.fd ∧
          loop' = loop.setRunner t { loop.runners t with inputEvents, stopFlag := true } ∨
        event.data.toUInt32 ≠ stopEvent.fd ∧ ∃ type x, toEventType event.events = some type ∧
          (handlers.event x).handler = event.data ∧
          loop' =
            loop.setRunner t { loop.runners t with inputEvents, phase := .inside x type }) := by
  unfold EventLoop.handleEpollEvent at hs
  split at hs
  · rename_i event inputEvents hphase hevents
    refine ⟨event, inputEvents, hphase, hevents, ?_⟩
    split_ifs at hs with hevent
    · exact .inl ⟨hevent, (Option.some.inj hs).symm⟩
    · obtain ⟨type, htype, hs⟩ := Option.bind_eq_some_iff.1 hs
      obtain ⟨x, hx, rfl⟩ := Option.map_eq_some_iff.1 hs
      exact .inr ⟨hevent, type, x, htype, handlers.handlerAt_iff.1 hx, rfl⟩
  · cases hs

omit [DecidableEq H] in
theorem EventLoop.finish_cases {t : T} {outcome : Outcome}
    (hs : loop.finish handlers t outcome = some loop') :
    ∃ x type, (loop.runners t).phase = .inside x type ∧
      ∃ left, left = loop.setRunner t { loop.runners t with phase := .leaving } ∧
      (outcome = .rearm ∧ loop.epoll (handlers.event x).fd ≠ none ∧ loop' = { left with
          epoll := Function.update loop.epoll (handlers.event x).fd
            (some ⟨(handlers.event x).asEpollEvent, true⟩) } ∨
        outcome = .retry true ∧ loop' = { left with retries := x :: loop.retries } ∨
        outcome = .retry false ∧ loop' = left) := by
  unfold EventLoop.finish at hs
  split at hs
  · rename_i x type hphase
    refine ⟨x, type, hphase, _, rfl, ?_⟩
    match outcome with
    | .rearm =>
        obtain ⟨hentry, he⟩ := Option.ite_none_right_eq_some.1 hs
        exact .inl ⟨rfl, hentry, (Option.some.inj he).symm⟩
    | .retry true => exact .inr (.inl ⟨rfl, (Option.some.inj hs).symm⟩)
    | .retry false => exact .inr (.inr ⟨rfl, (Option.some.inj hs).symm⟩)
  · cases hs

theorem Placed.addEvent (h : Placed handlers stopEvent loop place) {x : H}
    (hs : loop.addEvent (handlers.event x) = some loop') :
    Placed handlers stopEvent loop' (Function.update place x .armed) := by
  obtain ⟨hnone, he⟩ := Option.ite_none_right_eq_some.1 hs
  obtain rfl := Option.some.inj he
  have hx : place x = .unregistered := by
    have hentry := h.registered.entries x
    rw [hnone] at hentry
    by_contra hne
    rw [if_neg hne] at hentry
    cases hentry
  refine ⟨h.registered.arm x, fun t => (h.threaded t).move (by simp [hx]) (by simp), ?_⟩
  apply retries_move h.retries fun _ _ => rfl
  rw [h.retries x, hx]
  rfl

theorem Placed.fireRetry (h : Placed handlers stopEvent loop place) {x : H}
    (hs : loop.fireRetry handlers x = some loop') :
    Placed handlers stopEvent loop' (Function.update place x .armed) := by
  obtain ⟨hmem, hs⟩ := Option.ite_none_right_eq_some.1 hs
  obtain ⟨-, he⟩ := Option.ite_none_right_eq_some.1 hs
  obtain rfl := Option.some.inj he
  have hx : place x = .scheduled := by
    by_contra hne
    have hcount := h.retries x
    rw [if_neg hne] at hcount
    exact List.count_eq_zero.1 hcount hmem
  have hone := h.retries x
  rw [if_pos hx] at hone
  refine ⟨h.registered.arm x, fun t => (h.threaded t).move (by simp [hx]) (by simp), ?_⟩
  apply retries_move h.retries
  · exact fun y hy => List.count_erase_of_ne hy
  · change (loop.retries.erase x).count x = _
    rw [List.count_erase_self, hone]
    rfl

omit [DecidableEq H] in
theorem threaded_setRunner {t : T} {runner : Runner H} {place' : H → Place T}
    (hself : Threaded handlers stopEvent t runner place')
    (hothers : ∀ t', t' ≠ t → Threaded handlers stopEvent t' (loop.runners t') place') (t' : T) :
    Threaded handlers stopEvent t' ((loop.setRunner t runner).runners t') place' := by
  rw [EventLoop.runners_setRunner]
  split_ifs with ht
  · rw [ht]
    exact hself
  · exact hothers t' ht

theorem Threaded.leave {t : T} {runner : Runner H} {x : H} {type : EventType} {place' : Place T}
    (h : Threaded handlers stopEvent t runner place) (hphase : runner.phase = .inside x type)
    (hnew : place' ≠ .pending t ∧ place' ≠ .inside t) :
    Threaded handlers stopEvent t { runner with phase := .leaving }
      (Function.update place x place') := by
  have hx : place x = .inside t := (h.inside x).1 ⟨type, hphase⟩
  refine ⟨fun y => ?_, h.known, by simp, fun y => ?_, by simp⟩
  · rw [h.pending y]
    by_cases hy : y = x
    · subst hy
      simp [hx, hnew]
    · rw [Function.update_of_ne hy]
  · simp only [reduceCtorEq, exists_false, false_iff]
    by_cases hy : y = x
    · subst hy
      simp [hnew]
    · rw [Function.update_of_ne hy, ← h.inside y, hphase]
      rintro ⟨_, he⟩
      obtain ⟨rfl, -⟩ := Phase.inside.inj he
      exact hy rfl

theorem Placed.finish (h : Placed handlers stopEvent loop place) {t : T} {outcome : Outcome}
    (hs : loop.finish handlers t outcome = some loop') :
    ∃ place', Placed handlers stopEvent loop' place' := by
  obtain ⟨x, type, hphase, left, rfl, hcases⟩ := EventLoop.finish_cases hs
  have hx : place x = .inside t := ((h.threaded t).inside x).1 ⟨type, hphase⟩
  have hmoved : ∀ place' : Place T, (∀ t, place' ≠ .pending t ∧ place' ≠ .inside t) → ∀ t',
      Threaded handlers stopEvent t' ((loop.setRunner t
        { loop.runners t with phase := .leaving }).runners t')
        (Function.update place x place') := by
    intro place' hplace'
    apply threaded_setRunner ((h.threaded t).leave hphase (hplace' t))
    intro t' ht
    apply (h.threaded t').move _ (hplace' t')
    simp [hx, Ne.symm ht]
  have hnone : loop.retries.count x = 0 := by
    rw [h.retries x, hx]
    rfl
  have hkeep : ∀ place' : Place T, place' ≠ .unregistered → place' ≠ .armed →
      Registered handlers stopEvent loop.epoll (Function.update place x place') := by
    intro place' hunregistered harmed
    apply h.registered.congr
    intro y
    by_cases hy : y = x
    · subst hy
      simp [hx, hunregistered, harmed]
    · simp [Function.update_of_ne hy]
  rcases hcases with ⟨-, -, rfl⟩ | ⟨-, rfl⟩ | ⟨-, rfl⟩
  · refine ⟨Function.update place x .armed, h.registered.arm x, hmoved _ (by simp), ?_⟩
    exact retries_move h.retries (fun _ _ => rfl) hnone
  · refine ⟨Function.update place x .scheduled, hkeep _ (by simp) (by simp),
      hmoved _ (by simp), ?_⟩
    apply retries_move h.retries
    · exact fun y hy => List.count_cons_of_ne (Ne.symm hy)
    · change (x :: loop.retries).count x = _
      rw [List.count_cons_self, hnone]
      rfl
  · refine ⟨Function.update place x .givenUp, hkeep _ (by simp) (by simp),
      hmoved _ (by simp), ?_⟩
    exact retries_move h.retries (fun _ _ => rfl) hnone

omit [DecidableEq H] in
/-- A report is about the stop event or about a handler whose entry is armed. -/
theorem Registered.reportable (h : Registered handlers stopEvent loop.epoll place)
    {report : UInt32 × Finset EpollFlag} {event : EpollEvent}
    (hs : loop.reportable stopEvent report = some event) :
    report.1 = stopEvent.fd ∧ event.data = stopEvent.handler ∨
      ∃ x, report.1 = (handlers.event x).fd ∧ place x = .armed ∧
        event.data = (handlers.event x).handler ∧
        event.events ⊆ reportedFor (handlers.event x).type := by
  obtain ⟨entry, hentry, hs⟩ := Option.bind_eq_some_iff.1 hs
  obtain ⟨⟨harmed, -, -, hsub, -⟩, he⟩ := Option.ite_none_right_eq_some.1 hs
  obtain rfl := Option.some.inj he
  rcases h.others report.1 entry hentry with hstop | ⟨x, hx⟩
  · exact .inl hstop
  · refine .inr ⟨x, hx, ?_⟩
    have hregistered := h.entries x
    rw [← hx, hentry] at hregistered
    split_ifs at hregistered
    obtain rfl := Option.some.inj hregistered
    exact ⟨of_decide_eq_true harmed, rfl, hsub⟩

omit [DecidableEq H] in
theorem Registered.count_reported (h : Registered handlers stopEvent loop.epoll place)
    (hstop : StopEvent handlers stopEvent) (hdistinct : Distinguished handlers stopEvent)
    {reported : List (UInt32 × Finset EpollFlag)} {events : List EpollEvent}
    (hs : reported.mapM (loop.reportable stopEvent) = some events) :
    (∀ x, (events.map (·.data)).count (handlers.event x).handler =
        (reported.map Prod.fst).count (handlers.event x).fd) ∧
      (∀ event ∈ events, event.data = stopEvent.handler ∨
        ∃ y, event.data = (handlers.event y).handler ∧
          event.events ⊆ reportedFor (handlers.event y).type) ∧
      ∀ x, (handlers.event x).fd ∈ reported.map Prod.fst → place x = .armed := by
  induction reported generalizing events with
  | nil =>
      obtain rfl := Option.some.inj hs
      simp
  | cons report reported ih =>
      rw [List.mapM_cons] at hs
      obtain ⟨event, hevent, hs⟩ := Option.bind_eq_some_iff.1 hs
      obtain ⟨events', hevents, hs⟩ := Option.bind_eq_some_iff.1 hs
      obtain rfl := Option.some.inj hs
      obtain ⟨hcount, hknown, harmed⟩ := ih hevents
      rcases h.reportable hevent with ⟨hfd, hdata⟩ | ⟨y, hfd, hy, hdata, hsub⟩
      · have hne : ∀ x, event.data ≠ (handlers.event x).handler := by
          intro x he
          apply hdistinct x
          rw [← he, hdata, hstop.data]
        have hne' : ∀ x, report.1 ≠ (handlers.event x).fd :=
          fun x he => hstop.fd x (he.symm.trans hfd)
        refine ⟨fun x => ?_, List.forall_mem_cons.2 ⟨.inl hdata, hknown⟩, fun x hm => ?_⟩
        · rw [List.map_cons, List.map_cons, List.count_cons_of_ne (hne x),
            List.count_cons_of_ne (hne' x), hcount]
        · rcases List.mem_cons.1 hm with he | hm
          · exact absurd he.symm (hne' x)
          · exact harmed x hm
      · have hsame : ∀ x, event.data = (handlers.event x).handler ↔
            report.1 = (handlers.event x).fd := by
          intro x
          rw [hdata, hfd]
          constructor
          · intro he
            have hx := handlers.handlerAt_iff.2 he
            rw [handlers.handlerAt_iff.2 rfl] at hx
            rw [Option.some.inj hx]
          · intro he
            rw [handlers.fd_injective he]
        refine ⟨fun x => ?_, List.forall_mem_cons.2 ⟨.inr ⟨y, hdata, hsub⟩, hknown⟩,
          fun x hm => ?_⟩
        · rw [List.map_cons, List.map_cons, List.count_cons, List.count_cons, hcount]
          simp only [beq_iff_eq, hsame]
        · rcases List.mem_cons.1 hm with he | hm
          · rwa [handlers.fd_injective (hfd.symm.trans he.symm)] at hy
          · exact harmed x hm

theorem Placed.epollWait (h : Placed handlers stopEvent loop place)
    (hstop : StopEvent handlers stopEvent) (hdistinct : Distinguished handlers stopEvent) {t : T}
    {reported : List (UInt32 × Finset EpollFlag)}
    (hs : loop.epollWait stopEvent maxEventsNumber t reported = some loop') :
    ∃ place', Placed handlers stopEvent loop' place' := by
  obtain ⟨⟨hwaiting, -, -, hnodup⟩, hs⟩ := Option.ite_none_right_eq_some.1 hs
  obtain ⟨events, hevents, rfl⟩ := Option.map_eq_some_iff.1 hs
  obtain ⟨hcount, hknown, harmed⟩ := h.registered.count_reported hstop hdistinct hevents
  let place' : H → Place T := fun x =>
    if (handlers.event x).fd ∈ reported.map Prod.fst then .pending t else place x
  have hunreported : ∀ x, (handlers.event x).fd ∉ reported.map Prod.fst → place' x = place x :=
    fun x hx => if_neg hx
  have hreported : ∀ x, (handlers.event x).fd ∈ reported.map Prod.fst → place' x = .pending t :=
    fun x hx => if_pos hx
  refine ⟨place', ⟨fun x => ?_, fun fd entry hentry => ?_⟩, ?_, fun x => ?_⟩
  · by_cases hx : (handlers.event x).fd ∈ reported.map Prod.fst
    · have hentry := h.registered.entries x
      rw [harmed x hx, if_neg (by simp), decide_eq_true rfl] at hentry
      have hdisarmed : EventLoop.disarm ⟨(handlers.event x).asEpollEvent, true⟩ =
          ⟨(handlers.event x).asEpollEvent, false⟩ := by
        apply if_pos
        simp only [Event.asEpollEvent]
        cases (handlers.event x).type <;> decide
      simp only [if_pos hx, hentry, Option.map_some, hdisarmed, hreported x hx]
      rfl
    · simp only [if_neg hx, hunreported x hx]
      exact h.registered.entries x
  · have hold : ∃ entry₀, loop.epoll fd = some entry₀ ∧
        entry.registered = entry₀.registered := by
      simp only at hentry
      split_ifs at hentry with hfd
      · obtain ⟨entry₀, hentry₀, rfl⟩ := Option.map_eq_some_iff.1 hentry
        refine ⟨entry₀, hentry₀, ?_⟩
        unfold EventLoop.disarm
        split_ifs <;> rfl
      · exact ⟨entry, hentry, rfl⟩
    obtain ⟨entry₀, hentry₀, hregistered⟩ := hold
    rw [hregistered]
    exact h.registered.others fd entry₀ hentry₀
  · apply threaded_setRunner
    · have hidle := (h.threaded t).idle hwaiting
      have hpending : ∀ x, place x ≠ .pending t := by
        intro x hx
        have hnone := (h.threaded t).pending x
        rw [hidle, if_pos hx] at hnone
        cases hnone
      have hinside : ∀ x, place x ≠ .inside t := by
        intro x hx
        obtain ⟨type, htype⟩ := ((h.threaded t).inside x).2 hx
        rw [hwaiting] at htype
        cases htype
      refine ⟨fun x => ?_, hknown, by simp, fun x => ?_, by simp⟩
      · rw [hcount x]
        by_cases hx : (handlers.event x).fd ∈ reported.map Prod.fst
        · rw [List.count_eq_one_of_mem hnodup hx, hreported x hx, if_pos rfl]
        · rw [List.count_eq_zero_of_not_mem hx, hunreported x hx, if_neg (hpending x)]
      · simp only [reduceCtorEq, exists_false, false_iff]
        by_cases hx : (handlers.event x).fd ∈ reported.map Prod.fst
        · rw [hreported x hx]
          simp
        · rw [hunreported x hx]
          exact hinside x
    · intro t' ht
      apply (h.threaded t').congr
      intro x
      by_cases hx : (handlers.event x).fd ∈ reported.map Prod.fst
      · rw [hreported x hx, harmed x hx]
        simp [Ne.symm ht]
      · rw [hunreported x hx]
        simp
  · by_cases hx : (handlers.event x).fd ∈ reported.map Prod.fst
    · have hcount' := h.retries x
      rw [harmed x hx] at hcount'
      rw [hreported x hx]
      exact hcount'
    · rw [hunreported x hx]
      exact h.retries x

omit [DecidableEq H] in
theorem Threaded.count_tail {t : T} {runner : Runner H} {event : EpollEvent}
    {inputEvents : List EpollEvent} (h : Threaded handlers stopEvent t runner place)
    (hevents : runner.inputEvents = event :: inputEvents) (x : H) :
    (inputEvents.map (·.data)).count (handlers.event x).handler +
      (if event.data = (handlers.event x).handler then 1 else 0) =
      if place x = .pending t then 1 else 0 := by
  have hcount := h.pending x
  rw [hevents, List.map_cons, List.count_cons] at hcount
  simpa using hcount

omit [DecidableEq H] in
theorem Threaded.stop (hdistinct : Distinguished handlers stopEvent) {t : T} {runner : Runner H}
    {event : EpollEvent} {inputEvents : List EpollEvent}
    (h : Threaded handlers stopEvent t runner place) (hphase : runner.phase = .looping)
    (hevents : runner.inputEvents = event :: inputEvents)
    (hevent : event.data.toUInt32 = stopEvent.fd) :
    Threaded handlers stopEvent t { runner with inputEvents, stopFlag := true } place := by
  refine ⟨fun x => ?_, fun e he => h.known e ?_, by simp [hphase], h.inside, h.types⟩
  · have hcount := h.count_tail hevents x
    have hne : event.data ≠ (handlers.event x).handler := by
      intro he
      apply hdistinct x
      rw [← he, hevent]
    rwa [if_neg hne] at hcount
  · rw [hevents]
    exact List.mem_cons_of_mem _ he

theorem Threaded.enter {t : T} {runner : Runner H} {event : EpollEvent}
    {inputEvents : List EpollEvent} {x : H} {type : EventType}
    (hstop : StopEvent handlers stopEvent) (h : Threaded handlers stopEvent t runner place)
    (hphase : runner.phase = .looping) (hevents : runner.inputEvents = event :: inputEvents)
    (hevent : event.data.toUInt32 ≠ stopEvent.fd) (hx : (handlers.event x).handler = event.data)
    (htype : toEventType event.events = some type) :
    place x = .pending t ∧ Threaded handlers stopEvent t
      { runner with inputEvents, phase := .inside x type }
      (Function.update place x (.inside t)) := by
  have hpending : place x = .pending t := by
    have hcount := h.count_tail hevents x
    rw [if_pos hx.symm] at hcount
    by_contra hne
    rw [if_neg hne] at hcount
    omega
  refine ⟨hpending, fun y => ?_, fun e he => h.known e ?_, by simp, fun y => ?_, ?_⟩
  · have hcount := h.count_tail hevents y
    by_cases hy : y = x
    · subst hy
      rw [if_pos hx.symm, if_pos hpending] at hcount
      rw [Function.update_self, if_neg (by simp)]
      exact Nat.succ_injective hcount
    · have hne : event.data ≠ (handlers.event y).handler := by
        intro he
        have hy' := handlers.handlerAt_iff.2 he.symm
        rw [handlers.handlerAt_iff.2 hx] at hy'
        exact hy (Option.some.inj hy').symm
      rw [if_neg hne] at hcount
      rwa [Function.update_of_ne hy]
  · rw [hevents]
    exact List.mem_cons_of_mem _ he
  · by_cases hy : y = x
    · subst hy
      simp
    · rw [Function.update_of_ne hy, ← h.inside y, hphase]
      simp [Ne.symm hy]
  · intro y type' he
    obtain ⟨rfl, rfl⟩ := Phase.inside.inj he
    rcases h.known event (by simp [hevents]) with hdata | ⟨y, hdata, hsub⟩
    · rw [hdata, hstop.data] at hevent
      exact absurd rfl hevent
    · have hy := handlers.handlerAt_iff.2 hdata.symm
      rw [handlers.handlerAt_iff.2 hx] at hy
      obtain rfl := Option.some.inj hy
      exact toEventType_reported hsub htype

theorem Placed.handleEpollEvent (h : Placed handlers stopEvent loop place)
    (hstop : StopEvent handlers stopEvent) (hdistinct : Distinguished handlers stopEvent) {t : T}
    (hs : loop.handleEpollEvent handlers stopEvent t = some loop') :
    ∃ place', Placed handlers stopEvent loop' place' := by
  obtain ⟨event, inputEvents, hphase, hevents, hcases⟩ := EventLoop.handleEpollEvent_cases hs
  rcases hcases with ⟨hevent, rfl⟩ | ⟨hevent, type, x, htype, hx, rfl⟩
  · refine ⟨place, h.registered, ?_, h.retries⟩
    exact threaded_setRunner ((h.threaded t).stop hdistinct hphase hevents hevent)
      fun t' _ => h.threaded t'
  · obtain ⟨hpending, hself⟩ := (h.threaded t).enter hstop hphase hevents hevent hx htype
    refine ⟨Function.update place x (.inside t), ?_, ?_, ?_⟩
    · apply h.registered.congr
      intro y
      by_cases hy : y = x
      · subst hy
        simp [hpending]
      · simp [Function.update_of_ne hy]
    · apply threaded_setRunner hself
      intro t' ht
      apply (h.threaded t').move
      · simp [hpending, Ne.symm ht]
      · simp [Ne.symm ht]
    · apply retries_move h.retries fun _ _ => rfl
      rw [h.retries x, hpending]
      rfl

omit [DecidableEq H] in
theorem Threaded.idling {t : T} {runner : Runner H} {phase : Phase H}
    (h : Threaded handlers stopEvent t runner place)
    (hold : ∀ x type, runner.phase ≠ .inside x type) (hnew : ∀ x type, phase ≠ .inside x type)
    (hidle : phase = .waiting → runner.inputEvents = []) :
    Threaded handlers stopEvent t { runner with phase } place := by
  refine ⟨h.pending, h.known, hidle, fun x => ?_, fun x type he => absurd he (hnew x type)⟩
  rw [← h.inside x]
  simp [hold, hnew]

theorem Placed.step (h : Placed handlers stopEvent loop place)
    (hstop : StopEvent handlers stopEvent) (hdistinct : Distinguished handlers stopEvent)
    {event : LoopEvent T H}
    (hs : loop.step handlers stopEvent maxEventsNumber event = some loop') :
    ∃ place', Placed handlers stopEvent loop' place' := by
  cases event with
  | addEvent x => exact ⟨_, h.addEvent hs⟩
  | stop =>
      obtain rfl := Option.some.inj hs
      exact ⟨place, h.registered, h.threaded, h.retries⟩
  | epollWait t reported => exact h.epollWait hstop hdistinct hs
  | handleEpollEvent t => exact h.handleEpollEvent hstop hdistinct hs
  | finish t outcome => exact h.finish hs
  | leave t =>
      obtain ⟨hphase, he⟩ := Option.ite_none_right_eq_some.1 hs
      obtain rfl := Option.some.inj he
      refine ⟨place, h.registered, ?_, h.retries⟩
      apply threaded_setRunner ((h.threaded t).idling _ _ _) fun t' _ => h.threaded t'
      · simp [hphase]
      · simp
      · simp
  | loop t =>
      obtain ⟨⟨hphase, hevents⟩, he⟩ := Option.ite_none_right_eq_some.1 hs
      obtain rfl := Option.some.inj he
      refine ⟨place, h.registered, ?_, h.retries⟩
      apply threaded_setRunner ((h.threaded t).idling _ _ _) fun t' _ => h.threaded t'
      · simp [hphase]
      · intro x type
        split_ifs <;> simp
      · exact fun _ => hevents
  | fireRetry x => exact ⟨_, h.fireRetry hs⟩

theorem exists_placed (hstop : StopEvent handlers stopEvent)
    (hdistinct : Distinguished handlers stopEvent)
    (hr : Reachable (EventLoop.step handlers stopEvent maxEventsNumber)
      (EventLoop.start stopEvent) loop) : ∃ place, Placed handlers stopEvent loop place := by
  apply hr.invariant ⟨_, Placed.start hstop⟩
  rintro loop event loop' - ⟨place, h⟩ - hs
  exact h.step hstop hdistinct hs

variable (handlers) in
/-- Nobody but this thread has the handler: no other thread is in it, no thread has an event of it,
the kernel reports none, and its retry function is not in the timer wheel. -/
structure Exclusive (loop : EventLoop T H) (t : T) (h : H) : Prop where
  inside : ∀ t' type, (loop.runners t').phase = .inside h type → t' = t
  pending : ∀ t', ∀ event ∈ (loop.runners t').inputEvents, event.data ≠ (handlers.event h).handler
  disarmed : loop.epoll (handlers.event h).fd = some ⟨(handlers.event h).asEpollEvent, false⟩
  retries : h ∉ loop.retries

omit [DecidableEq H] in
theorem Threaded.not_pending {t : T} {runner : Runner H} {x : H}
    (h : Threaded handlers stopEvent t runner place) (hx : place x ≠ .pending t) :
    ∀ event ∈ runner.inputEvents, event.data ≠ (handlers.event x).handler := by
  intro event hevent he
  have hcount := h.pending x
  rw [if_neg hx, List.count_eq_zero] at hcount
  exact hcount (List.mem_map.2 ⟨event, hevent, he⟩)

/-- A thread in a handler has it to itself until its last call, and is there for an event of the
type of the handler or for an error. A retry function is in the timer wheel at most once, and then
the kernel and all threads are done with its handler. -/
theorem handlers_exclusive (hstop : StopEvent handlers stopEvent)
    (hdistinct : Distinguished handlers stopEvent)
    (hr : Reachable (EventLoop.step handlers stopEvent maxEventsNumber)
      (EventLoop.start stopEvent) loop) :
    (∀ t h type, (loop.runners t).phase = .inside h type →
      Exclusive handlers loop t h ∧ (type = (handlers.event h).type ∨ type = .error)) ∧
    loop.retries.Nodup ∧
    (∀ h ∈ loop.retries,
      loop.epoll (handlers.event h).fd = some ⟨(handlers.event h).asEpollEvent, false⟩ ∧
      ∀ t, (∀ type, (loop.runners t).phase ≠ .inside h type) ∧
        ∀ event ∈ (loop.runners t).inputEvents, event.data ≠ (handlers.event h).handler) := by
  obtain ⟨place, h⟩ := exists_placed hstop hdistinct hr
  have hdisarmed : ∀ x, place x ≠ .unregistered → place x ≠ .armed →
      loop.epoll (handlers.event x).fd = some ⟨(handlers.event x).asEpollEvent, false⟩ := by
    intro x hunregistered harmed
    rw [h.registered.entries x, if_neg hunregistered, decide_eq_false harmed]
  refine ⟨fun t x type hphase => ?_, ?_, fun x hx => ?_⟩
  · have hx : place x = .inside t := ((h.threaded t).inside x).1 ⟨type, hphase⟩
    refine ⟨⟨fun t' type' hphase' => ?_, fun t' => ?_, ?_, ?_⟩, (h.threaded t).types x type hphase⟩
    · have hx' : place x = .inside t' := ((h.threaded t').inside x).1 ⟨type', hphase'⟩
      exact Place.inside.inj (hx'.symm.trans hx)
    · exact (h.threaded t').not_pending (by simp [hx])
    · exact hdisarmed x (by simp [hx]) (by simp [hx])
    · rw [← List.count_eq_zero, h.retries x, hx]
      rfl
  · rw [List.nodup_iff_count_le_one]
    intro x
    rw [h.retries x]
    split_ifs <;> simp
  · have hx : place x = .scheduled := by
      by_contra hne
      have hcount := h.retries x
      rw [if_neg hne] at hcount
      exact List.count_eq_zero.1 hcount hx
    refine ⟨hdisarmed x (by simp [hx]) (by simp [hx]), fun t => ⟨fun type hphase => ?_, ?_⟩⟩
    · have hinside := ((h.threaded t).inside x).1 ⟨type, hphase⟩
      rw [hx] at hinside
      cases hinside
    · exact (h.threaded t).not_pending (by simp [hx])

end Places

def twoHandlers : Handlers Bool where
  event h := if h then ⟨4, 0x1000, .readReady⟩ else ⟨5, 0x2000, .writeReady⟩
  handlerAt x := if x = 0x1000 then some true else if x = 0x2000 then some false else none
  handlerAt_iff := by
    intro x h
    constructor
    · intro hx
      split_ifs at hx with htrue hfalse
      · rw [← Option.some.inj hx, htrue]
        rfl
      · rw [← Option.some.inj hx, hfalse]
        rfl
    · rintro rfl
      cases h <;> rfl
  fd_injective := by decide

def thirdDescriptor : Event := ⟨3, 3, .readReady⟩

/-- The writer retries on one thread, is rearmed by the timer wheel and goes to the other one. -/
def retriedWrite : List (LoopEvent Bool Bool) :=
  [.addEvent true, .addEvent false,
    .epollWait true [(4, {.epollin}), (5, {.epollout})], .handleEpollEvent true,
    .finish true .rearm, .leave true, .handleEpollEvent true, .finish true (.retry true),
    .fireRetry false, .epollWait false [(5, {.epollerr}), (4, {.epollin})],
    .handleEpollEvent false, .finish false (.retry true), .leave false, .handleEpollEvent false]

theorem handlers_exclusive_retried : ∃ loop : EventLoop Bool Bool,
    (loop.runners false).phase = .inside true .readReady ∧ loop.retries = [false] ∧
    Exclusive twoHandlers loop false true ∧ loop.retries.Nodup := by
  obtain ⟨loop, hr, hinside, hretries⟩ : ∃ loop, Reachable
      (EventLoop.step twoHandlers thirdDescriptor 10) (EventLoop.start thirdDescriptor) loop ∧
      (loop.runners false).phase = .inside true .readReady ∧ loop.retries = [false] :=
    exists_reachable retriedWrite (by decide +kernel)
  have hdistinct : Distinguished twoHandlers thirdDescriptor := by
    unfold Distinguished
    decide
  obtain ⟨hexclusive, hnodup, -⟩ := handlers_exclusive ⟨by decide, by decide⟩ hdistinct hr
  exact ⟨loop, hinside, hretries, (hexclusive _ _ _ hinside).1, hnodup⟩

end BroadcastService.Runtime

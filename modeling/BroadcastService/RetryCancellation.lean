import BroadcastService.TimerWheel

/-!
# Cancelling a retry timer

A `BackoffRetryTimer` adds itself again under its own identifier when it fires, outside of the mutex
of the timer service. `CancelTimer` may be called at any moment: before or after a `Tick` has
collected the timer, or between its callback and `Rearm`. An identifier has at most one timer at any
time, so the mark that `CancelTimer` leaves is found by that timer at its next expiry.
-/

namespace BroadcastService.Transport
open TransitionSystem

inductive WheelTask
  | backoffRetry (retryPolicy : RetryPolicy)
  | other

/-- What happens to the timer service: calls of `CancelTimer`, what a `Tick` collects, and its calls
of `Cancel` and `Fire`. -/
inductive RetryLog
  | cancelTimer (id : ℕ)
  | tick (cancelled fired : List (Timer WheelTask))
  | cancel (timer : Timer WheelTask)
  | fire (timer : Timer WheelTask)

/-- `issued` are the identifiers that were drawn with `GetID` for a retry timer not created yet, and
`rearming` is a retry timer between its callback and `Rearm`, with its next policy. -/
structure RetryWheel where
  service : TimerService WheelTask
  issued : Finset ℕ := ∅
  cancelling : List (Timer WheelTask) := []
  firing : List (Timer WheelTask) := []
  rearming : Option (ℕ × RetryPolicy) := none
  log : List RetryLog := []

inductive RetryEvent
  | getID
  | create (id : ℕ) (retryPolicy : RetryPolicy)
  | addTimer (duration : ℕ)
  | cancelTimer (id : ℕ)
  | tick (elapsed : ℕ)
  | cancel
  | fire (draw : ℕ)
  | rearm

namespace RetryWheel

variable (wheel : RetryWheel)

def start (tickDuration : ℕ) : RetryWheel where
  service := { tickDuration }

def getID : RetryWheel :=
  let (id, service) := wheel.service.getID
  { wheel with service, issued := insert id wheel.issued }

/-- A new retry timer under an identifier that was drawn for it. -/
def create (id : ℕ) (retryPolicy : RetryPolicy) : Option RetryWheel :=
  if id ∈ wheel.issued then
    some { wheel with
      issued := wheel.issued.erase id
      service := wheel.service.addTimer (.backoffRetry retryPolicy) id retryPolicy.timeoutMs }
  else none

def addTimer (duration : ℕ) : RetryWheel :=
  let (id, service) := wheel.service.getID
  { wheel with service := service.addTimer .other id duration }

def cancelTimer (id : ℕ) : RetryWheel :=
  { wheel with
    service := wheel.service.cancelTimer id
    log := wheel.log ++ [.cancelTimer id] }

def tick (elapsed : ℕ) : Option RetryWheel :=
  if wheel.cancelling = [] ∧ wheel.firing = [] ∧ wheel.rearming = none then
    let (cancelled, fired, service) := wheel.service.collect elapsed
    some { wheel with
      service
      cancelling := cancelled
      firing := fired
      log := wheel.log ++ [.tick cancelled fired] }
  else none

def cancel : Option RetryWheel :=
  match wheel.cancelling with
  | [] => none
  | timer :: cancelling => some { wheel with cancelling, log := wheel.log ++ [.cancel timer] }

def fire (draw : ℕ) : Option RetryWheel :=
  match wheel.cancelling, wheel.rearming, wheel.firing with
  | [], none, timer :: firing =>
      some { wheel with
        firing
        log := wheel.log ++ [.fire timer]
        rearming := match timer.task with
          | .backoffRetry retryPolicy => some (timer.id, retryPolicy.next draw)
          | .other => none }
  | _, _, _ => none

def rearm : Option RetryWheel :=
  wheel.rearming.map fun (id, retryPolicy) =>
    if retryPolicy.isValid then
      { wheel with
        rearming := none
        service := wheel.service.addTimer (.backoffRetry retryPolicy) id retryPolicy.timeoutMs }
    else { wheel with rearming := none }

def step : RetryEvent → Option RetryWheel
  | .getID => some wheel.getID
  | .create id retryPolicy => wheel.create id retryPolicy
  | .addTimer duration => some (wheel.addTimer duration)
  | .cancelTimer id => some (wheel.cancelTimer id)
  | .tick elapsed => wheel.tick elapsed
  | .cancel => wheel.cancel
  | .fire draw => wheel.fire draw
  | .rearm => wheel.rearm

end RetryWheel

/-- How often `Fire` was called on a timer with the identifier; for a retry timer, how often its
callback ran. -/
def fireCount (id : ℕ) (log : List RetryLog) : ℕ :=
  log.countP fun o => match o with
    | .fire timer => timer.id = id
    | _ => false

def cancelTimerCount (id : ℕ) (log : List RetryLog) : ℕ :=
  log.countP fun o => match o with
    | .cancelTimer i => i = id
    | _ => false

def cancelledTimers (log : List RetryLog) : List (Timer WheelTask) :=
  log.flatMap fun o => match o with
    | .tick cancelled _ => cancelled
    | _ => []

def cancelCalls (log : List RetryLog) : List (Timer WheelTask) :=
  log.flatMap fun o => match o with
    | .cancel timer => [timer]
    | _ => []

/-- No tick has collected a timer with the identifier in order to fire it. -/
def NotFired (id : ℕ) (log : List RetryLog) : Prop :=
  ∀ cancelled fired, .tick cancelled fired ∈ log → ∀ timer ∈ fired, timer.id ≠ id

section Logs

variable (id : ℕ) (log log' : List RetryLog)

@[simp] theorem fireCount_append :
    fireCount id (log ++ log') = fireCount id log + fireCount id log' := List.countP_append

@[simp] theorem cancelTimerCount_append :
    cancelTimerCount id (log ++ log') = cancelTimerCount id log + cancelTimerCount id log' :=
  List.countP_append

@[simp] theorem cancelledTimers_append :
    cancelledTimers (log ++ log') = cancelledTimers log ++ cancelledTimers log' :=
  List.flatMap_append

@[simp] theorem cancelCalls_append :
    cancelCalls (log ++ log') = cancelCalls log ++ cancelCalls log' := List.flatMap_append

end Logs

def idCount {τ : Type*} (id : ℕ) (timers : List (Timer τ)) : ℕ :=
  timers.countP fun timer => timer.id = id

theorem idCount_eq_zero {τ : Type*} {id : ℕ} {timers : List (Timer τ)} :
    idCount id timers = 0 ↔ ∀ timer ∈ timers, timer.id ≠ id := by
  simp [idCount, List.countP_eq_zero]

namespace TimerService

variable {τ : Type*}

/-- A timer whose identifier is marked is fired only if another one has used the mark up. -/
theorem splitCancelled_fired {timers : List (Timer τ)} {cancelledTimers : Finset ℕ}
    {timer : Timer τ} (h : timer ∈ (splitCancelled timers cancelledTimers).2.1)
    (hid : timer.id ∈ cancelledTimers) : 2 ≤ idCount timer.id timers := by
  induction timers generalizing cancelledTimers with
  | nil => cases h
  | cons t timers ih =>
      rw [splitCancelled] at h
      split_ifs at h with ht
      · by_cases he : t.id = timer.id
        · have hmem : timer ∈ timers := by
            rw [(splitCancelled_perm timers (cancelledTimers.erase t.id)).mem_iff]
            exact List.mem_append_right _ h
          have hpos : 0 < idCount timer.id timers :=
            List.countP_pos_iff.2 ⟨timer, hmem, by simp⟩
          rw [idCount, List.countP_cons_of_pos (by simp [he])]
          exact Nat.succ_le_succ hpos
        · have := ih h (Finset.mem_erase.2 ⟨Ne.symm he, hid⟩)
          rw [idCount, List.countP_cons_of_neg (by simp [he])]
          exact this
      · rcases List.mem_cons.1 h with rfl | h
        · exact absurd hid ht
        · exact (ih h hid).trans (List.sublist_cons_self _ _).countP_le

def held (service : TimerService τ) (id : ℕ) : ℕ :=
  service.content.countP fun timer => timer.id = id

theorem held_addTimer (service : TimerService τ) (task : τ) (id duration i : ℕ) :
    (service.addTimer task id duration).held i = service.held i + if id = i then 1 else 0 := by
  rw [held, content_addTimer, Multiset.countP_cons]
  rfl

theorem held_collect (service : TimerService τ) (elapsed i : ℕ) :
    service.held i = idCount i (service.collect elapsed).1 +
      idCount i (service.collect elapsed).2.1 + (service.collect elapsed).2.2.held i := by
  rw [held, content_collect service elapsed, Multiset.countP_add, Multiset.countP_add,
    Multiset.coe_countP, Multiset.coe_countP]
  rfl

theorem mem_cancelledTimers_collect (service : TimerService τ) (elapsed i : ℕ) :
    i ∈ (service.collect elapsed).2.2.cancelledTimers ↔ i ∈ service.cancelledTimers ∧
      idCount i (service.collect elapsed).1 = 0 ∧ idCount i (service.collect elapsed).2.1 = 0 := by
  set jumped : TimerService τ := { service with ticks := service.ticks + elapsed }
  have hperm := splitCancelled_perm (expireSlots elapsed jumped).1
    (expireSlots elapsed jumped).2.cancelledTimers
  have hlookup := mem_splitCancelled (expireSlots elapsed jumped).1
    (expireSlots elapsed jumped).2.cancelledTimers i
  have hempty : idCount i (expireSlots elapsed jumped).1 = 0 ↔
      idCount i (service.collect elapsed).1 = 0 ∧ idCount i (service.collect elapsed).2.1 = 0 := by
    rw [idCount, hperm.countP_eq, List.countP_append, Nat.add_eq_zero_iff]
    rfl
  have hmarked : (expireSlots elapsed jumped).2.cancelledTimers = service.cancelledTimers :=
    cancelledTimers_expireSlots jumped elapsed
  rw [← idCount_eq_zero, hempty] at hlookup
  rw [← hmarked]
  exact hlookup

/-- A marked identifier with a single timer in the wheel is not fired. -/
theorem idCount_collect_fired {service : TimerService τ} {elapsed i : ℕ}
    (hmarked : i ∈ service.cancelledTimers) (hsingle : service.held i ≤ 1) :
    idCount i (service.collect elapsed).2.1 = 0 := by
  set jumped : TimerService τ := { service with ticks := service.ticks + elapsed }
  rw [idCount_eq_zero]
  rintro timer htimer rfl
  have htwo : 2 ≤ idCount timer.id (expireSlots elapsed jumped).1 := by
    apply splitCancelled_fired htimer
    rw [cancelledTimers_expireSlots]
    exact hmarked
  rw [idCount, (splitCancelled_perm (expireSlots elapsed jumped).1
    (expireSlots elapsed jumped).2.cancelledTimers).countP_eq, List.countP_append] at htwo
  have hheld := held_collect service elapsed timer.id
  have : 2 ≤ idCount timer.id (service.collect elapsed).1 +
    idCount timer.id (service.collect elapsed).2.1 := htwo
  omega

end TimerService

namespace RetryWheel

variable {wheel wheel' : RetryWheel}

/-- The retry timers with the identifier that are about to be added again. -/
def rearmCount (rearming : Option (ℕ × RetryPolicy)) (id : ℕ) : ℕ :=
  rearming.elim 0 fun r => if r.1 = id then 1 else 0

/-- The retry timers with the identifier that are not created yet. -/
def issuedCount (issued : Finset ℕ) (id : ℕ) : ℕ := if id ∈ issued then 1 else 0

/-- The timers with the identifier that exist or may still be added. -/
def live (wheel : RetryWheel) (id : ℕ) : ℕ :=
  wheel.service.held id + idCount id wheel.firing + rearmCount wheel.rearming id +
    issuedCount wheel.issued id

/-- Every step but a draw of an identifier leaves at most the timers that were there. -/
structure Keeps (wheel wheel' : RetryWheel) : Prop where
  live : ∀ i, wheel'.live i ≤ wheel.live i
  currentId : wheel'.service.currentId = wheel.service.currentId

theorem live_getID (i : ℕ) :
    wheel.getID.live i ≤ wheel.live i + if wheel.service.currentId = i then 1 else 0 := by
  have hissued : issuedCount (insert wheel.service.currentId wheel.issued) i ≤
      issuedCount wheel.issued i + if wheel.service.currentId = i then 1 else 0 := by
    simp only [issuedCount, Finset.mem_insert]
    by_cases he : wheel.service.currentId = i
    · simp [he]
    · simp [he, Ne.symm he]
  have hlive : wheel.getID.live i = wheel.service.held i + idCount i wheel.firing +
      rearmCount wheel.rearming i +
      issuedCount (insert wheel.service.currentId wheel.issued) i := rfl
  rw [hlive, live]
  omega

theorem live_addTimer (duration i : ℕ) : (wheel.addTimer duration).live i =
    wheel.live i + if wheel.service.currentId = i then 1 else 0 := by
  have hheld : (wheel.addTimer duration).service.held i =
      wheel.service.held i + if wheel.service.currentId = i then 1 else 0 :=
    TimerService.held_addTimer _ _ _ _ _
  have hlive : (wheel.addTimer duration).live i = (wheel.addTimer duration).service.held i +
      idCount i wheel.firing + rearmCount wheel.rearming i + issuedCount wheel.issued i := rfl
  rw [hlive, hheld, live]
  omega

theorem keeps_create {id : ℕ} {retryPolicy : RetryPolicy}
    (hs : wheel.create id retryPolicy = some wheel') : Keeps wheel wheel' := by
  unfold create at hs
  split_ifs at hs with hid
  obtain rfl := Option.some.inj hs
  refine ⟨fun i => ?_, rfl⟩
  have hissued : issuedCount (wheel.issued.erase id) i + (if id = i then 1 else 0) ≤
      issuedCount wheel.issued i := by
    simp only [issuedCount, Finset.mem_erase]
    by_cases he : id = i
    · subst he
      simp [hid]
    · simp [he, Ne.symm he]
  simp only [live, TimerService.held_addTimer]
  omega

theorem tick_cases {elapsed : ℕ} (hs : wheel.tick elapsed = some wheel') :
    (wheel.cancelling = [] ∧ wheel.firing = [] ∧ wheel.rearming = none) ∧
      wheel' = { wheel with
        service := (wheel.service.collect elapsed).2.2
        cancelling := (wheel.service.collect elapsed).1
        firing := (wheel.service.collect elapsed).2.1
        log := wheel.log ++
          [.tick (wheel.service.collect elapsed).1 (wheel.service.collect elapsed).2.1] } := by
  unfold tick at hs
  split_ifs at hs with hidle
  exact ⟨hidle, (Option.some.inj hs).symm⟩

theorem live_tick {elapsed : ℕ} (hs : wheel.tick elapsed = some wheel') (i : ℕ) :
    wheel'.live i + idCount i wheel'.cancelling = wheel.live i := by
  obtain ⟨hidle, rfl⟩ := tick_cases hs
  have hheld := TimerService.held_collect wheel.service elapsed i
  have hnil : idCount i wheel.firing = 0 := by
    rw [hidle.2.1]
    rfl
  simp only [live]
  omega

theorem keeps_fire {draw : ℕ} (hs : wheel.fire draw = some wheel') : Keeps wheel wheel' := by
  unfold fire at hs
  split at hs
  · rename_i timer firing hcancelling hrearming hfiring
    obtain rfl := Option.some.inj hs
    refine ⟨fun i => ?_, rfl⟩
    have hcount : idCount i (timer :: firing) =
        idCount i firing + if timer.id = i then 1 else 0 := by
      simp [idCount, List.countP_cons]
    have hnone : rearmCount wheel.rearming i = 0 := by
      rw [hrearming]
      rfl
    simp only [live]
    rw [hfiring, hcount]
    cases htask : timer.task with
    | backoffRetry retryPolicy =>
        have hsome : rearmCount (some (timer.id, retryPolicy.next draw)) i =
            if timer.id = i then 1 else 0 := rfl
        simp only
        omega
    | other =>
        have hother : rearmCount none i = 0 := rfl
        simp only
        omega
  · cases hs

theorem keeps_rearm (hs : wheel.rearm = some wheel') : Keeps wheel wheel' := by
  obtain ⟨⟨id, retryPolicy⟩, hrearming, rfl⟩ := Option.map_eq_some_iff.1 hs
  have hsome : ∀ i, rearmCount wheel.rearming i = if id = i then 1 else 0 := by
    intro i
    rw [hrearming]
    rfl
  have hnone : ∀ i, rearmCount none i = 0 := fun _ => rfl
  dsimp only
  split_ifs with hvalid
  · refine ⟨fun i => ?_, rfl⟩
    simp only [live, TimerService.held_addTimer, hsome, hnone]
    omega
  · refine ⟨fun i => ?_, rfl⟩
    simp only [live, hnone]
    omega

structure Inv (wheel : RetryWheel) : Prop where
  single : ∀ id, wheel.live id ≤ 1
  drawn : ∀ id, wheel.service.currentId ≤ id → wheel.live id = 0
  marks : ∀ id, idCount id (cancelledTimers wheel.log) +
    (if id ∈ wheel.service.cancelledTimers then 1 else 0) ≤ cancelTimerCount id wheel.log
  calls : cancelCalls wheel.log ++ wheel.cancelling = cancelledTimers wheel.log

theorem Inv.keep (h : Inv wheel) (hkeeps : Keeps wheel wheel')
    (hmarks : wheel'.service.cancelledTimers = wheel.service.cancelledTimers)
    (hcancelling : wheel'.cancelling = wheel.cancelling) {outs : List RetryLog}
    (hlog : wheel'.log = wheel.log ++ outs) (hcancelled : cancelledTimers outs = [])
    (hcalls : cancelCalls outs = []) (hcount : ∀ id, cancelTimerCount id outs = 0) :
    Inv wheel' := by
  refine ⟨fun id => (hkeeps.live id).trans (h.single id), fun id hid => ?_, fun id => ?_, ?_⟩
  · have := hkeeps.live id
    have := h.drawn id (hkeeps.currentId ▸ hid)
    omega
  · rw [hlog, hmarks, cancelledTimers_append, hcancelled, List.append_nil, cancelTimerCount_append,
      hcount id]
    exact h.marks id
  · rw [hlog, hcancelling, cancelledTimers_append, hcancelled, List.append_nil, cancelCalls_append,
      hcalls, List.append_nil]
    exact h.calls

theorem Inv.draw (h : Inv wheel)
    (hlive : ∀ i, wheel'.live i ≤ wheel.live i + if wheel.service.currentId = i then 1 else 0)
    (hcurrent : wheel'.service.currentId = wheel.service.currentId + 1)
    (hmarks : wheel'.service.cancelledTimers = wheel.service.cancelledTimers)
    (hcancelling : wheel'.cancelling = wheel.cancelling) (hlog : wheel'.log = wheel.log) :
    Inv wheel' := by
  refine ⟨fun id => ?_, fun id hid => ?_, ?_, ?_⟩
  · have hnew := hlive id
    by_cases he : wheel.service.currentId = id
    · rw [if_pos he, h.drawn id he.le] at hnew
      exact hnew
    · rw [if_neg he] at hnew
      have := h.single id
      omega
  · have hnew := hlive id
    rw [if_neg (by omega), h.drawn id (by omega)] at hnew
    omega
  · rw [hlog, hmarks]
    exact h.marks
  · rw [hlog, hcancelling]
    exact h.calls

theorem Inv.cancelTimer (h : Inv wheel) (id : ℕ) : Inv (wheel.cancelTimer id) := by
  refine ⟨h.single, h.drawn, fun i => ?_, ?_⟩
  · have hmarks := h.marks i
    have hone : cancelTimerCount i [.cancelTimer id] = if id = i then 1 else 0 := by
      simp [cancelTimerCount, List.countP_cons]
    simp only [RetryWheel.cancelTimer, TimerService.cancelTimer, cancelledTimers_append,
      cancelTimerCount_append, hone, Finset.mem_insert]
    have hnil : cancelledTimers [.cancelTimer id] = [] := rfl
    rw [hnil, List.append_nil]
    by_cases he : i = id
    · subst he
      simp only [true_or, if_true]
      omega
    · simp only [he, Ne.symm he, false_or, if_false]
      exact hmarks
  · have hnil : cancelledTimers [.cancelTimer id] = [] ∧ cancelCalls [.cancelTimer id] = [] :=
      ⟨rfl, rfl⟩
    simp only [RetryWheel.cancelTimer, cancelledTimers_append, cancelCalls_append, hnil,
      List.append_nil]
    exact h.calls

theorem Inv.tick (h : Inv wheel) {elapsed : ℕ} (hs : wheel.tick elapsed = some wheel') :
    Inv wheel' := by
  have hlive := live_tick hs
  obtain ⟨hidle, rfl⟩ := tick_cases hs
  refine ⟨fun id => ?_, fun id hid => ?_, fun id => ?_, ?_⟩
  · have := hlive id
    have := h.single id
    omega
  · have := hlive id
    have hcurrent := TimerService.currentId_collect wheel.service elapsed
    have := h.drawn id (hcurrent ▸ hid)
    omega
  · have hmarks := h.marks id
    have hcollected := TimerService.mem_cancelledTimers_collect wheel.service elapsed id
    have hheld := TimerService.held_collect wheel.service elapsed id
    have hsingle : wheel.service.held id ≤ 1 := by
      have := h.single id
      rw [live] at this
      omega
    have hzero : cancelTimerCount id [.tick (wheel.service.collect elapsed).1
      (wheel.service.collect elapsed).2.1] = 0 := rfl
    have hnew : idCount id (cancelledTimers [.tick (wheel.service.collect elapsed).1
        (wheel.service.collect elapsed).2.1]) = idCount id (wheel.service.collect elapsed).1 := by
      simp [cancelledTimers]
    simp only [cancelledTimers_append, cancelTimerCount_append, hzero]
    rw [idCount, List.countP_append]
    change idCount id (cancelledTimers wheel.log) + idCount id (cancelledTimers _) + _ ≤ _
    rw [hnew]
    -- A timer is collected as cancelled only if its identifier was marked, and uses the mark up.
    by_cases hnone : idCount id (wheel.service.collect elapsed).1 = 0
    · rw [hnone]
      by_cases hstill : id ∈ (wheel.service.collect elapsed).2.2.cancelledTimers
      · rw [if_pos (hcollected.1 hstill).1] at hmarks
        rw [if_pos hstill]
        omega
      · rw [if_neg hstill]
        omega
    · obtain ⟨timer, htimer, hid⟩ := List.countP_pos_iff.1 (Nat.pos_of_ne_zero hnone)
      have hmarked := TimerService.id_of_collect_cancelled wheel.service htimer
      rw [of_decide_eq_true hid] at hmarked
      rw [if_pos hmarked] at hmarks
      rw [if_neg fun hin => hnone (hcollected.1 hin).2.1]
      omega
  · have hcalls := h.calls
    rw [hidle.1, List.append_nil] at hcalls
    simp only [cancelledTimers_append, cancelCalls_append, hcalls]
    simp [cancelledTimers, cancelCalls]

theorem Inv.cancel (h : Inv wheel) (hs : wheel.cancel = some wheel') : Inv wheel' := by
  unfold RetryWheel.cancel at hs
  split at hs
  · cases hs
  · rename_i timer cancelling hcancelling
    obtain rfl := Option.some.inj hs
    refine ⟨h.single, h.drawn, fun id => ?_, ?_⟩
    · have hnone : cancelledTimers [.cancel timer] = [] := rfl
      have hzero : cancelTimerCount id [.cancel timer] = 0 := rfl
      simp only [cancelledTimers_append, cancelTimerCount_append, hnone, hzero, List.append_nil]
      exact h.marks id
    · have hcalls := h.calls
      rw [hcancelling] at hcalls
      have hnone : cancelledTimers [.cancel timer] = [] := rfl
      have hone : cancelCalls [.cancel timer] = [timer] := rfl
      simp only [cancelledTimers_append, cancelCalls_append, hnone, hone, List.append_nil,
        List.append_assoc, List.singleton_append]
      exact hcalls

theorem Inv.step (h : Inv wheel) {event : RetryEvent} (hs : wheel.step event = some wheel') :
    Inv wheel' := by
  cases event with
  | getID =>
      obtain rfl := Option.some.inj hs
      exact h.draw live_getID rfl rfl rfl rfl
  | create id retryPolicy =>
      have hkeeps := keeps_create hs
      change wheel.create id retryPolicy = some wheel' at hs
      unfold create at hs
      split_ifs at hs with hid
      obtain rfl := Option.some.inj hs
      exact h.keep hkeeps rfl rfl (List.append_nil _).symm rfl rfl fun _ => rfl
  | addTimer duration =>
      obtain rfl := Option.some.inj hs
      exact h.draw (fun i => (live_addTimer duration i).le) rfl rfl rfl rfl
  | cancelTimer id => exact Option.some.inj hs ▸ h.cancelTimer id
  | tick elapsed => exact h.tick hs
  | cancel => exact h.cancel hs
  | fire draw =>
      have hkeeps := keeps_fire hs
      change wheel.fire draw = some wheel' at hs
      unfold fire at hs
      split at hs
      · obtain rfl := Option.some.inj hs
        exact h.keep hkeeps rfl rfl rfl rfl rfl fun _ => rfl
      · cases hs
  | rearm =>
      have hkeeps := keeps_rearm hs
      obtain ⟨⟨id, retryPolicy⟩, _, rfl⟩ := Option.map_eq_some_iff.1 hs
      dsimp only at hkeeps ⊢
      split_ifs at hkeeps ⊢
      · exact h.keep hkeeps rfl rfl (List.append_nil _).symm rfl rfl fun _ => rfl
      · exact h.keep hkeeps rfl rfl (List.append_nil _).symm rfl rfl fun _ => rfl

theorem Inv.start (tickDuration : ℕ) : Inv (RetryWheel.start tickDuration) := by
  have hlive : ∀ id, (RetryWheel.start tickDuration).live id = 0 := by
    intro id
    have hheld : (RetryWheel.start tickDuration).service.held id = 0 := by
      simp [RetryWheel.start, TimerService.held, TimerService.content]
    simp only [live, hheld]
    rfl
  exact ⟨fun id => (hlive id).le.trans (Nat.zero_le 1), fun id _ => hlive id, fun _ => le_rfl, rfl⟩

/-- The mark is still there or it was used up by the last timer, and at most `k` timers with the
identifier have been fired since or wait to be. -/
structure Cancelled (id k : ℕ) (wheel : RetryWheel) (later : List RetryLog) : Prop where
  marked : id ∈ wheel.service.cancelledTimers ∨
    wheel.live id = 0 ∧ id < wheel.service.currentId
  fires : fireCount id later + idCount id wheel.firing ≤ k
  notFired : NotFired id later

variable {id k : ℕ} {later : List RetryLog}

theorem Cancelled.append (h : Cancelled id k wheel later) {outs : List RetryLog}
    (hmarked : id ∈ wheel'.service.cancelledTimers ∨
      wheel'.live id = 0 ∧ id < wheel'.service.currentId)
    (hfires : fireCount id outs + idCount id wheel'.firing ≤ idCount id wheel.firing)
    (houts : NotFired id outs) : Cancelled id k wheel' (later ++ outs) := by
  refine ⟨hmarked, ?_, fun cancelled fired hmem => ?_⟩
  · have := h.fires
    rw [fireCount_append]
    omega
  · rcases List.mem_append.1 hmem with hmem | hmem
    · exact h.notFired cancelled fired hmem
    · exact houts cancelled fired hmem

theorem Cancelled.keep (h : Cancelled id k wheel later)
    (hmarks : wheel.service.cancelledTimers ⊆ wheel'.service.cancelledTimers)
    (hlive : id < wheel.service.currentId → wheel'.live id ≤ wheel.live id)
    (hcurrent : wheel.service.currentId ≤ wheel'.service.currentId) {outs : List RetryLog}
    (hfires : fireCount id outs + idCount id wheel'.firing ≤ idCount id wheel.firing)
    (houts : NotFired id outs) : Cancelled id k wheel' (later ++ outs) := by
  apply h.append _ hfires houts
  rcases h.marked with hmarked | ⟨hzero, hlt⟩
  · exact .inl (hmarks hmarked)
  · have := hlive hlt
    exact .inr ⟨by omega, by omega⟩

theorem Cancelled.tick (h : Cancelled id k wheel later) (hinv : Inv wheel) {elapsed : ℕ}
    (hs : wheel.tick elapsed = some wheel') :
    ∃ outs, wheel'.log = wheel.log ++ outs ∧ Cancelled id k wheel' (later ++ outs) := by
  have hlive := live_tick hs id
  have hsingle := hinv.single id
  obtain ⟨hidle, rfl⟩ := tick_cases hs
  dsimp only at hlive
  have hheld : wheel.service.held id ≤ wheel.live id := by
    rw [live]
    omega
  have hfired : idCount id (wheel.service.collect elapsed).2.1 = 0 := by
    rcases h.marked with hmarked | ⟨hzero, _⟩
    · exact TimerService.idCount_collect_fired hmarked (hheld.trans hsingle)
    · have := TimerService.held_collect wheel.service elapsed id
      omega
  refine ⟨_, rfl, h.append ?_ ?_ ?_⟩
  · have hcurrent := TimerService.currentId_collect wheel.service elapsed
    rcases h.marked with hmarked | ⟨hzero, hlt⟩
    · by_cases hnone : idCount id (wheel.service.collect elapsed).1 = 0
      · exact .inl ((TimerService.mem_cancelledTimers_collect _ _ _).2 ⟨hmarked, hnone, hfired⟩)
      · have hdrawn : id < wheel.service.currentId := by
          by_contra hge
          have := hinv.drawn id (by omega)
          omega
        exact .inr ⟨by omega, by dsimp only; omega⟩
    · exact .inr ⟨by omega, by dsimp only; omega⟩
  · have hzero : fireCount id [.tick (wheel.service.collect elapsed).1
      (wheel.service.collect elapsed).2.1] = 0 := rfl
    dsimp only
    omega
  · intro cancelled fired hmem
    obtain ⟨rfl, rfl⟩ := RetryLog.tick.inj (List.mem_singleton.1 hmem)
    exact idCount_eq_zero.1 hfired

theorem Cancelled.fire (h : Cancelled id k wheel later) {draw : ℕ}
    (hs : wheel.fire draw = some wheel') :
    ∃ outs, wheel'.log = wheel.log ++ outs ∧ Cancelled id k wheel' (later ++ outs) := by
  have hkeeps := keeps_fire hs
  unfold RetryWheel.fire at hs
  split at hs
  · rename_i timer firing hcancelling hrearming hfiring
    obtain rfl := Option.some.inj hs
    refine ⟨_, rfl, ?_⟩
    apply h.keep
    · exact subset_rfl
    · exact fun _ => hkeeps.live id
    · exact le_rfl
    · rw [hfiring]
      simp only [fireCount, idCount, List.countP_cons, List.countP_nil]
      omega
    · intro cancelled fired hmem
      cases List.mem_singleton.1 hmem
  · cases hs

theorem Cancelled.step (h : Cancelled id k wheel later) (hinv : Inv wheel) {event : RetryEvent}
    (hs : wheel.step event = some wheel') :
    ∃ outs, wheel'.log = wheel.log ++ outs ∧ Cancelled id k wheel' (later ++ outs) := by
  have hsilent : NotFired id [] := fun _ _ hmem => by cases hmem
  have hfires : ∀ firing : List (Timer WheelTask),
      fireCount id [] + idCount id firing ≤ idCount id firing := fun _ => (Nat.zero_add _).le
  cases event with
  | getID =>
      obtain rfl := Option.some.inj hs
      refine ⟨[], (List.append_nil _).symm, ?_⟩
      apply h.keep
      · exact subset_rfl
      · intro hlt
        have := wheel.live_getID id
        rw [if_neg (by omega)] at this
        omega
      · exact Nat.le_succ _
      · exact hfires _
      · exact hsilent
  | create i retryPolicy =>
      have hkeeps := keeps_create hs
      change wheel.create i retryPolicy = some wheel' at hs
      unfold create at hs
      split_ifs at hs with hid
      obtain rfl := Option.some.inj hs
      refine ⟨[], (List.append_nil _).symm, ?_⟩
      apply h.keep
      · exact subset_rfl
      · exact fun _ => hkeeps.live id
      · exact le_rfl
      · exact hfires _
      · exact hsilent
  | addTimer duration =>
      obtain rfl := Option.some.inj hs
      refine ⟨[], (List.append_nil _).symm, ?_⟩
      apply h.keep
      · exact subset_rfl
      · intro hlt
        have := wheel.live_addTimer duration id
        rw [if_neg (by omega)] at this
        omega
      · exact Nat.le_succ _
      · exact hfires _
      · exact hsilent
  | cancelTimer i =>
      obtain rfl := Option.some.inj hs
      refine ⟨_, rfl, ?_⟩
      apply h.keep
      · exact Finset.subset_insert _ _
      · exact fun _ => le_rfl
      · exact le_rfl
      · exact hfires _
      · intro cancelled fired hmem
        cases List.mem_singleton.1 hmem
  | tick elapsed => exact h.tick hinv hs
  | cancel =>
      change wheel.cancel = some wheel' at hs
      unfold RetryWheel.cancel at hs
      split at hs
      · cases hs
      · obtain rfl := Option.some.inj hs
        refine ⟨_, rfl, ?_⟩
        apply h.keep
        · exact subset_rfl
        · exact fun _ => le_rfl
        · exact le_rfl
        · exact hfires _
        · intro cancelled fired hmem
          cases List.mem_singleton.1 hmem
  | fire draw => exact h.fire hs
  | rearm =>
      have hkeeps := keeps_rearm hs
      obtain ⟨⟨i, retryPolicy⟩, _, rfl⟩ := Option.map_eq_some_iff.1 hs
      dsimp only at hkeeps ⊢
      refine ⟨[], ?_, ?_⟩
      · split_ifs <;> exact (List.append_nil _).symm
      · apply h.keep
        · split_ifs <;> exact subset_rfl
        · exact fun _ => hkeeps.live id
        · exact hkeeps.currentId.symm.le
        · split_ifs <;> exact hfires _
        · exact hsilent

end RetryWheel

/-- After `CancelTimer`, timers with the identifier are fired at most once, and only if the current
`Tick` had collected one of them. Every later `Tick` that collects a timer with the identifier
cancels it. Each call of `CancelTimer` makes at most one timer with its own identifier be cancelled,
and `Cancel` is called on all timers collected for it. -/
theorem cancelTimer_final {tickDuration id : ℕ} {wheel wheel' : RetryWheel}
    (hr : Reachable RetryWheel.step (RetryWheel.start tickDuration) wheel)
    (hr' : Reachable RetryWheel.step (wheel.cancelTimer id) wheel') :
    ∃ later, wheel'.log = wheel.log ++ .cancelTimer id :: later ∧
      fireCount id later ≤ idCount id wheel.firing ∧ idCount id wheel.firing ≤ 1 ∧
      NotFired id later ∧
      (∀ i, idCount i (cancelledTimers wheel'.log) ≤ cancelTimerCount i wheel'.log) ∧
      cancelCalls wheel'.log ++ wheel'.cancelling = cancelledTimers wheel'.log := by
  have hinv : wheel.Inv := by
    apply hr.invariant (RetryWheel.Inv.start tickDuration)
    intro wheel event wheel' _ ih _ hs
    exact ih.step hs
  obtain ⟨hinv', later, hlog, hcancelled⟩ : wheel'.Inv ∧ ∃ later,
      wheel'.log = (wheel.cancelTimer id).log ++ later ∧
        RetryWheel.Cancelled id (idCount id wheel.firing) wheel' later := by
    apply hr'.invariant (I := fun w => w.Inv ∧ ∃ later,
      w.log = (wheel.cancelTimer id).log ++ later ∧
        RetryWheel.Cancelled id (idCount id wheel.firing) w later)
    · refine ⟨hinv.cancelTimer id, [], (List.append_nil _).symm, ?_, ?_, ?_⟩
      · exact .inl (Finset.mem_insert_self _ _)
      · exact (Nat.zero_add _).le
      · exact fun _ _ hmem => by cases hmem
    · rintro w event w' _ ⟨hi, later, hlog, hc⟩ _ hs
      obtain ⟨outs, houts, hc'⟩ := hc.step hi hs
      refine ⟨hi.step hs, later ++ outs, ?_, hc'⟩
      rw [houts, hlog, List.append_assoc]
  refine ⟨later, ?_, ?_, ?_, hcancelled.notFired, fun i => ?_, hinv'.calls⟩
  · rw [hlog]
    exact List.append_assoc _ _ _
  · have := hcancelled.fires
    omega
  · have := hinv.single id
    rw [RetryWheel.live] at this
    omega
  · have := hinv'.marks i
    omega

/-- A retry timer is collected, cancelled, fired and added again; its next expiry cancels it. -/
theorem cancelTimer_final_collected : ∃ wheel wheel' : RetryWheel,
    Reachable RetryWheel.step (RetryWheel.start 100) wheel ∧
    Reachable RetryWheel.step (wheel.cancelTimer 0) wheel' ∧
    fireCount 0 wheel'.log = 1 ∧ (cancelCalls wheel'.log).length = 1 ∧
    ∃ later, wheel'.log = wheel.log ++ .cancelTimer 0 :: later ∧
      fireCount 0 later ≤ idCount 0 wheel.firing ∧ idCount 0 wheel.firing ≤ 1 ∧
      NotFired 0 later ∧
      (∀ i, idCount i (cancelledTimers wheel'.log) ≤ cancelTimerCount i wheel'.log) ∧
      cancelCalls wheel'.log ++ wheel'.cancelling = cancelledTimers wheel'.log := by
  obtain ⟨wheel, hrun, hcheck⟩ := (Option.any_eq_true _ _).1 (by decide +kernel :
    (run RetryWheel.step (RetryWheel.start 100)
      [.getID, .create 0 { timeoutMs := 100, multiplier := 2, maxTimeoutMs := 800 }, .tick 1]).any
      (fun wheel => (run RetryWheel.step (wheel.cancelTimer 0)
        [.fire 0, .rearm, .tick 2, .cancel]).any fun wheel' =>
          decide (fireCount 0 wheel'.log = 1 ∧ (cancelCalls wheel'.log).length = 1)) = true)
  obtain ⟨wheel', hrun', hlog⟩ := (Option.any_eq_true _ _).1 hcheck
  obtain ⟨hfires, hcalls⟩ := of_decide_eq_true hlog
  have hr := reachable_of_run hrun
  have hr' := reachable_of_run hrun'
  exact ⟨wheel, wheel', hr, hr', hfires, hcalls, cancelTimer_final hr hr'⟩

end BroadcastService.Transport

import BroadcastService.Futures
import BroadcastService.ThreadPool

/-!
# Waiting for a future

`Future::Get` of `concurrency/future.hpp`: the callback that it attaches stores the result on the
stack of the caller and is done with a wait group there, for which the caller waits. The callback is
run by the thread that comes second to the rendezvous, which is the caller itself or the thread that
sets the promise.

`Get` returns the result and leaves no callback behind that would write to its stack: only the
wake-up may come after it, which uses the address alone. The two threads make at most sixteen steps,
and three more for each return of `AtomicWait` without a reason, and none of them is stuck before
`Get` has returned (`get_returns`).
-/

namespace BroadcastService.Futures
open BroadcastService.Runtime (WaitGroup)
open TransitionSystem

variable {E T : Type*}

/-- `callback` is before the store of the callback, `done` before its `fetch_sub`, `wake` before
`AtomicWakeAll` and `loaded` before `AtomicWait`. -/
inductive Getter (E T : Type*)
  | add
  | storeCallback
  | exchange
  | callback (result : Except E T)
  | done
  | wake
  | load
  | loaded (count : UInt32)
  | asleep
  | returned (placeholder : Option (Except E T))

inductive Producer (E T : Type*)
  | storeResult
  | exchange
  | callback (result : Except E T)
  | done
  | wake
  | finished

structure Getting (E T : Type*) where
  state : SharedState E T := {}
  placeholder : Option (Except E T) := none
  wg : WaitGroup := {}
  getter : Getter E T := .add
  producer : Producer E T := .storeResult

inductive GetEvent
  | getter
  | producer
  | spurious
  deriving DecidableEq

/-- The wake-up of a thread that sleeps. -/
def Getter.woken : Getter E T → Getter E T
  | .asleep => .load
  | getter => getter

namespace Getting

variable (s : Getting E T)

def getterStep : Option (Getting E T) :=
  match s.getter with
  | .add => some { s with wg := s.wg.add 1, getter := .storeCallback }
  | .storeCallback => s.state.storeCallback.map fun state => { s with state, getter := .exchange }
  | .exchange => s.state.exchangeConsumer.map fun p =>
      { s with state := p.2, getter := p.1.elim .load .callback }
  | .callback result => some { s with placeholder := some result, getter := .done }
  | .done =>
      some { s with
        wg := s.wg.done 1, getter := if (s.wg.done 1).counter = 0 then .wake else .load }
  | .wake => some { s with getter := .load }
  | .load =>
      some { s with
        getter := if s.wg.waitReturns then .returned s.placeholder else .loaded s.wg.counter }
  | .loaded count => some { s with getter := if s.wg.counter = count then .asleep else .load }
  | .asleep => none
  | .returned _ => none

def producerStep (result : Except E T) : Option (Getting E T) :=
  match s.producer with
  | .storeResult =>
      (s.state.storeResult result).map fun state => { s with state, producer := .exchange }
  | .exchange => s.state.exchangeProducer.map fun p =>
      { s with state := p.2, producer := p.1.elim .finished .callback }
  | .callback result => some { s with placeholder := some result, producer := .done }
  | .done =>
      some { s with
        wg := s.wg.done 1, producer := if (s.wg.done 1).counter = 0 then .wake else .finished }
  | .wake => some { s with getter := s.getter.woken, producer := .finished }
  | .finished => none

/-- `AtomicWait` may return without a reason. -/
def step (result : Except E T) : GetEvent → Option (Getting E T)
  | .getter => s.getterStep
  | .producer => s.producerStep result
  | .spurious =>
      match s.getter with
      | .asleep => some { s with getter := .load }
      | _ => none

end Getting

def Getter.consumer : Getter E T → Phase
  | .add | .storeCallback => .before
  | .exchange => .stored
  | _ => .exchanged

def Producer.phase : Producer E T → Phase
  | .storeResult => .before
  | .exchange => .stored
  | _ => .exchanged

/-- The getter is in `Wait`. -/
def Getter.Waits (getter : Getter E T) : Prop :=
  getter = .load ∨ getter = .loaded 1 ∨ getter = .asleep

/-- The producer has not yet come to the rendezvous. -/
def Producer.Early (producer : Producer E T) : Prop :=
  producer = .storeResult ∨ producer = .exchange

/-- The counter and the placeholder for all places of the two threads. -/
inductive Reached (result : Except E T) :
    Getter E T → Producer E T → UInt32 → Option (Except E T) → Prop
  | add {producer : Producer E T} (h : producer.Early ∨ producer = .finished) :
      Reached result .add producer 0 none
  | storeCallback {producer : Producer E T} (h : producer.Early ∨ producer = .finished) :
      Reached result .storeCallback producer 1 none
  | exchange {producer : Producer E T} (h : producer.Early ∨ producer = .finished) :
      Reached result .exchange producer 1 none
  | callback : Reached result (.callback result) .finished 1 none
  | done : Reached result .done .finished 1 (some result)
  | wake : Reached result .wake .finished 0 (some result)
  | waits {getter : Getter E T} {producer : Producer E T} (hw : getter.Waits)
      (h : producer.Early) : Reached result getter producer 1 none
  | called {getter : Getter E T} (hw : getter.Waits) :
      Reached result getter (.callback result) 1 none
  | set {getter : Getter E T} (hw : getter.Waits) : Reached result getter .done 1 (some result)
  | fired {getter : Getter E T} (hw : getter.Waits) : Reached result getter .wake 0 (some result)
  | quiet {getter : Getter E T} (hw : getter = .load ∨ getter = .loaded 1) :
      Reached result getter .finished 0 (some result)
  | returned {producer : Producer E T} (h : producer = .wake ∨ producer = .finished) :
      Reached result (.returned (some result)) producer 0 (some result)

structure Consistent (result : Except E T) (s : Getting E T) : Prop where
  valid : SharedState.Valid result s.state
  consumer_eq : s.state.consumer = s.getter.consumer
  producer_eq : s.state.producer = s.producer.phase
  reached : Reached result s.getter s.producer s.wg.counter s.placeholder

/-- The steps that are left for a thread in `Get`, by whether the callback is done. -/
def Getter.rank (fired : Bool) : Getter E T → ℕ
  | .add => 11
  | .storeCallback => 10
  | .exchange => 9
  | .callback _ => 8
  | .done => 7
  | .wake => 2
  | .load => if fired then 1 else 6
  | .loaded _ => if fired then 2 else 5
  | .asleep => if fired then 3 else 4
  | .returned _ => 0

def Producer.rank : Producer E T → ℕ
  | .storeResult => 5
  | .exchange => 4
  | .callback _ => 3
  | .done => 2
  | .wake => 1
  | .finished => 0

def Getting.rank (s : Getting E T) : ℕ :=
  s.getter.rank (decide (s.wg.counter = 0)) + s.producer.rank

variable {result : Except E T} {s s' : Getting E T}

theorem Getter.Waits.consumer_eq {getter : Getter E T} (h : getter.Waits) :
    getter.consumer = .exchanged := by
  rcases h with rfl | rfl | rfl <;> rfl

theorem Getting.getterStep_waits (hw : s.getter.Waits) (hone : s.wg.counter = 1)
    (hs : s.getterStep = some s') :
    ∃ getter, Getter.Waits getter ∧ s' = { s with getter } ∧
      getter.rank false < s.getter.rank false := by
  rcases hw with hw | hw | hw
  · have hloaded : s.wg.waitReturns = false := by simp [WaitGroup.waitReturns, hone]
    simp only [Getting.getterStep, hw, hloaded, Bool.false_eq_true, if_false, hone] at hs
    exact ⟨.loaded 1, .inr (.inl rfl), (Option.some.inj hs).symm, by simp [hw, Getter.rank]⟩
  · simp only [Getting.getterStep, hw, hone, if_true] at hs
    exact ⟨.asleep, .inr (.inr rfl), (Option.some.inj hs).symm, by simp [hw, Getter.rank]⟩
  · simp only [Getting.getterStep, hw] at hs
    cases hs

theorem done_one : (⟨1⟩ : WaitGroup).done 1 = ⟨0⟩ := rfl

theorem Consistent.getterStep (h : Consistent result s) (hs : s.getterStep = some s') :
    Consistent result s' ∧ s'.rank < s.rank := by
  obtain ⟨state, placeholder, ⟨counter⟩, getter, producer⟩ := s
  obtain ⟨hvalid, hconsumer, hproducer, hreached⟩ := h
  dsimp only at hvalid hconsumer hproducer hreached
  cases hreached with
  | add h =>
      obtain rfl := Option.some.inj hs
      exact ⟨⟨hvalid, hconsumer, hproducer, .storeCallback h⟩, by simp [Getting.rank, Getter.rank]⟩
  | storeCallback h =>
      obtain ⟨state', hstate, rfl⟩ := Option.map_eq_some_iff.1 hs
      obtain ⟨-, hvalid', hproducer', hconsumer'⟩ := SharedState.storeCallback_eq_some hvalid hstate
      exact ⟨⟨hvalid', hconsumer', hproducer'.trans hproducer, .exchange h⟩,
        by simp [Getting.rank, Getter.rank]⟩
  | exchange h =>
      obtain ⟨⟨task, state'⟩, hstate, rfl⟩ := Option.map_eq_some_iff.1 hs
      obtain ⟨-, ⟨hvalid', hproducer', hconsumer'⟩, htask⟩ :=
        SharedState.exchangeConsumer_eq_some hvalid hstate
      rw [hproducer] at htask
      rcases h with (rfl | rfl) | rfl
      · obtain rfl : task = none := htask
        exact ⟨⟨hvalid', hconsumer', hproducer'.trans hproducer, .waits (.inl rfl) (.inl rfl)⟩,
          by simp [Getting.rank, Getter.rank]⟩
      · obtain rfl : task = none := htask
        exact ⟨⟨hvalid', hconsumer', hproducer'.trans hproducer, .waits (.inl rfl) (.inr rfl)⟩,
          by simp [Getting.rank, Getter.rank]⟩
      · obtain rfl : task = some result := htask
        exact ⟨⟨hvalid', hconsumer', hproducer'.trans hproducer, .callback⟩,
          by simp [Getting.rank, Getter.rank]⟩
  | callback =>
      obtain rfl := Option.some.inj hs
      exact ⟨⟨hvalid, hconsumer, hproducer, .done⟩, by simp [Getting.rank, Getter.rank]⟩
  | done =>
      simp only [Getting.getterStep, done_one, if_true] at hs
      obtain rfl := Option.some.inj hs
      exact ⟨⟨hvalid, hconsumer, hproducer, .wake⟩, by simp [Getting.rank, Getter.rank]⟩
  | wake =>
      obtain rfl := Option.some.inj hs
      exact ⟨⟨hvalid, hconsumer, hproducer, .quiet (.inl rfl)⟩,
        by simp [Getting.rank, Getter.rank]⟩
  | waits hw h =>
      obtain ⟨getter', hw', rfl, hlt⟩ := Getting.getterStep_waits hw rfl hs
      exact ⟨⟨hvalid, hconsumer.trans (hw.consumer_eq.trans hw'.consumer_eq.symm), hproducer,
        .waits hw' h⟩, by simpa [Getting.rank] using hlt⟩
  | called hw =>
      obtain ⟨getter', hw', rfl, hlt⟩ := Getting.getterStep_waits hw rfl hs
      exact ⟨⟨hvalid, hconsumer.trans (hw.consumer_eq.trans hw'.consumer_eq.symm), hproducer,
        .called hw'⟩, by simpa [Getting.rank] using hlt⟩
  | set hw =>
      obtain ⟨getter', hw', rfl, hlt⟩ := Getting.getterStep_waits hw rfl hs
      exact ⟨⟨hvalid, hconsumer.trans (hw.consumer_eq.trans hw'.consumer_eq.symm), hproducer,
        .set hw'⟩, by simpa [Getting.rank] using hlt⟩
  | fired hw =>
      rcases hw with rfl | rfl | rfl
      · obtain rfl := Option.some.inj hs
        exact ⟨⟨hvalid, hconsumer, hproducer, .returned (.inl rfl)⟩,
          by simp [Getting.rank, Getter.rank, WaitGroup.waitReturns]⟩
      · obtain rfl := Option.some.inj hs
        exact ⟨⟨hvalid, hconsumer, hproducer, .fired (.inl rfl)⟩,
          by simp [Getting.rank, Getter.rank]⟩
      · cases hs
  | quiet hw =>
      rcases hw with rfl | rfl
      · obtain rfl := Option.some.inj hs
        exact ⟨⟨hvalid, hconsumer, hproducer, .returned (.inr rfl)⟩,
          by simp [Getting.rank, Getter.rank, WaitGroup.waitReturns]⟩
      · obtain rfl := Option.some.inj hs
        exact ⟨⟨hvalid, hconsumer, hproducer, .quiet (.inl rfl)⟩,
          by simp [Getting.rank, Getter.rank]⟩
  | returned h => cases hs

theorem Consistent.producerStep (h : Consistent result s)
    (hs : s.producerStep result = some s') : Consistent result s' ∧ s'.rank < s.rank := by
  obtain ⟨state, placeholder, ⟨counter⟩, getter, producer⟩ := s
  obtain ⟨hvalid, hconsumer, hproducer, hreached⟩ := h
  dsimp only at hvalid hconsumer hproducer hreached
  cases producer with
  | storeResult =>
      obtain ⟨state', hstate, rfl⟩ := Option.map_eq_some_iff.1 hs
      obtain ⟨-, hvalid', hproducer', hconsumer'⟩ := SharedState.storeResult_eq_some hvalid hstate
      refine ⟨⟨hvalid', hconsumer'.trans hconsumer, hproducer', ?_⟩,
        by simp [Getting.rank, Producer.rank]⟩
      cases hreached with
      | add => exact .add (.inl (.inr rfl))
      | storeCallback => exact .storeCallback (.inl (.inr rfl))
      | exchange => exact .exchange (.inl (.inr rfl))
      | waits hw => exact .waits hw (.inr rfl)
      | returned h => rcases h with h | h <;> cases h
  | exchange =>
      obtain ⟨⟨task, state'⟩, hstate, rfl⟩ := Option.map_eq_some_iff.1 hs
      obtain ⟨-, ⟨hvalid', hproducer', hconsumer'⟩, htask⟩ :=
        SharedState.exchangeProducer_eq_some hvalid hstate
      rw [hconsumer] at htask
      cases hreached with
      | add =>
          obtain rfl : task = none := htask
          exact ⟨⟨hvalid', hconsumer'.trans hconsumer, hproducer', .add (.inr rfl)⟩,
            by simp [Getting.rank, Producer.rank]⟩
      | storeCallback =>
          obtain rfl : task = none := htask
          exact ⟨⟨hvalid', hconsumer'.trans hconsumer, hproducer', .storeCallback (.inr rfl)⟩,
            by simp [Getting.rank, Producer.rank]⟩
      | exchange =>
          obtain rfl : task = none := htask
          exact ⟨⟨hvalid', hconsumer'.trans hconsumer, hproducer', .exchange (.inr rfl)⟩,
            by simp [Getting.rank, Producer.rank]⟩
      | waits hw =>
          rw [if_pos hw.consumer_eq] at htask
          subst htask
          exact ⟨⟨hvalid', hconsumer'.trans hconsumer, hproducer', .called hw⟩,
            by simp [Getting.rank, Producer.rank]⟩
      | returned h => rcases h with h | h <;> cases h
  | callback =>
      obtain rfl := Option.some.inj hs
      refine ⟨⟨hvalid, hconsumer, hproducer, ?_⟩, by simp [Getting.rank, Producer.rank]⟩
      cases hreached with
      | add h => rcases h with (h | h) | h <;> cases h
      | storeCallback h => rcases h with (h | h) | h <;> cases h
      | exchange h => rcases h with (h | h) | h <;> cases h
      | waits hw h => rcases h with h | h <;> cases h
      | called hw => exact .set hw
      | returned h => rcases h with h | h <;> cases h
  | done =>
      simp only [Getting.producerStep] at hs
      cases hreached with
      | add h => rcases h with (h | h) | h <;> cases h
      | storeCallback h => rcases h with (h | h) | h <;> cases h
      | exchange h => rcases h with (h | h) | h <;> cases h
      | waits hw h => rcases h with h | h <;> cases h
      | set hw =>
          simp only [done_one, if_true] at hs
          obtain rfl := Option.some.inj hs
          refine ⟨⟨hvalid, hconsumer, hproducer, .fired hw⟩, ?_⟩
          rcases hw with rfl | rfl | rfl <;> simp [Getting.rank, Getter.rank, Producer.rank]
      | returned h => rcases h with h | h <;> cases h
  | wake =>
      obtain rfl := Option.some.inj hs
      cases hreached with
      | add h => rcases h with (h | h) | h <;> cases h
      | storeCallback h => rcases h with (h | h) | h <;> cases h
      | exchange h => rcases h with (h | h) | h <;> cases h
      | waits hw h => rcases h with h | h <;> cases h
      | fired hw =>
          rcases hw with rfl | rfl | rfl
          · exact ⟨⟨hvalid, hconsumer, hproducer, .quiet (.inl rfl)⟩,
              by simp [Getting.rank, Producer.rank, Getter.woken]⟩
          · exact ⟨⟨hvalid, hconsumer, hproducer, .quiet (.inr rfl)⟩,
              by simp [Getting.rank, Producer.rank, Getter.woken]⟩
          · exact ⟨⟨hvalid, hconsumer, hproducer, .quiet (.inl rfl)⟩,
              by simp [Getting.rank, Getter.rank, Producer.rank, Getter.woken]⟩
      | returned =>
          exact ⟨⟨hvalid, hconsumer, hproducer, .returned (.inr rfl)⟩,
            by simp [Getting.rank, Producer.rank, Getter.woken]⟩
  | finished => cases hs

/-- A thread that wakes without a reason has up to two steps more to make. -/
theorem Consistent.spurious (h : Consistent result s) (hs : s.step result .spurious = some s') :
    Consistent result s' ∧ s'.rank ≤ s.rank + 2 := by
  obtain ⟨state, placeholder, ⟨counter⟩, getter, producer⟩ := s
  obtain ⟨hvalid, hconsumer, hproducer, hreached⟩ := h
  dsimp only at hvalid hconsumer hproducer hreached
  simp only [Getting.step] at hs
  split at hs
  · obtain rfl := Option.some.inj hs
    refine ⟨⟨hvalid, hconsumer, hproducer, ?_⟩, ?_⟩
    · cases hreached with
      | waits hw h => exact .waits (.inl rfl) h
      | called hw => exact .called (.inl rfl)
      | set hw => exact .set (.inl rfl)
      | fired hw => exact .fired (.inl rfl)
      | quiet hw => rcases hw with h | h <;> cases h
    · simp only [Getting.rank, Getter.rank]
      split_ifs <;> omega
  · cases hs

theorem consistent_of_reachable
    (hr : Reachable (fun (s : Getting E T) => s.step result) {} s) : Consistent result s := by
  apply hr.invariant (I := Consistent result)
  · exact ⟨SharedState.valid_initial result, rfl, rfl, .add (.inl (.inl rfl))⟩
  · rintro s event s' _ h - hs
    cases event with
    | getter => exact (h.getterStep hs).1
    | producer => exact (h.producerStep hs).1
    | spurious => exact (h.spurious hs).1

/-- Every step of the two threads leaves fewer, up to the returns without a reason. -/
theorem length_add_rank_le (hr : Reachable (fun (s : Getting E T) => s.step result) {} s)
    {events : List GetEvent}
    (hs : run (fun (s : Getting E T) => s.step result) s events = some s') :
    events.length + s'.rank ≤ s.rank + 3 * events.count .spurious := by
  induction events generalizing s with
  | nil =>
      obtain rfl := Option.some.inj hs
      simp
  | cons event events ih =>
      obtain ⟨s₁, hs₁, hs⟩ := Option.bind_eq_some_iff.1 hs
      have hrest := ih (hr.tail trivial hs₁) hs
      have hconsistent := consistent_of_reachable hr
      rw [List.length_cons, List.count_cons]
      cases event with
      | getter =>
          have hlt : s₁.rank < s.rank := (hconsistent.getterStep hs₁).2
          omega
      | producer =>
          have hlt : s₁.rank < s.rank := (hconsistent.producerStep hs₁).2
          omega
      | spurious =>
          have hle : s₁.rank ≤ s.rank + 2 := (hconsistent.spurious hs₁).2
          rw [beq_self_eq_true, if_pos rfl]
          omega

/-- A thread that is stuck waits for the other one. -/
theorem Consistent.exists_step (h : Consistent result s)
    (hreturned : ∀ placeholder, s.getter ≠ .returned placeholder) :
    (∃ s', s.getterStep = some s') ∨ ∃ s', s.producerStep result = some s' := by
  obtain ⟨state, placeholder, ⟨counter⟩, getter, producer⟩ := s
  obtain ⟨hvalid, hconsumer, hproducer, hreached⟩ := h
  dsimp only at hvalid hconsumer hproducer hreached
  cases getter with
  | storeCallback =>
      left
      simp only [Getting.getterStep, SharedState.storeCallback, hconsumer, Getter.consumer, if_true,
        Option.map_some, Option.some.injEq, exists_eq']
  | exchange =>
      left
      simp only [Getting.getterStep, SharedState.exchangeConsumer, hconsumer, Getter.consumer,
        if_true, Option.map_some, Option.some.injEq, exists_eq']
  | asleep =>
      right
      cases producer with
      | storeResult =>
          simp only [Getting.producerStep, SharedState.storeResult, hproducer, Producer.phase,
            if_true, Option.map_some, Option.some.injEq, exists_eq']
      | exchange =>
          simp only [Getting.producerStep, SharedState.exchangeProducer, hproducer, Producer.phase,
            if_true, Option.map_some, Option.some.injEq, exists_eq']
      | finished =>
          cases hreached with
          | waits hw h => rcases h with h | h <;> cases h
          | quiet hw => rcases hw with h | h <;> cases h
      | _ => exact ⟨_, rfl⟩
  | returned placeholder => exact absurd rfl (hreturned placeholder)
  | _ => exact .inl ⟨_, rfl⟩

theorem Consistent.returned (h : Consistent result s) {placeholder : Option (Except E T)}
    (hreturned : s.getter = .returned placeholder) :
    placeholder = some result ∧ (s.producer = .wake ∨ s.producer = .finished) := by
  obtain ⟨state, placeholder', ⟨counter⟩, getter, producer⟩ := s
  have hreached := h.reached
  dsimp only at hreturned hreached
  subst hreturned
  cases hreached with
  | waits hw => rcases hw with hw | hw | hw <;> cases hw
  | called hw => rcases hw with hw | hw | hw <;> cases hw
  | set hw => rcases hw with hw | hw | hw <;> cases hw
  | fired hw => rcases hw with hw | hw | hw <;> cases hw
  | quiet hw => rcases hw with hw | hw <;> cases hw
  | returned hproducer => exact ⟨rfl, hproducer⟩

/-- `Get` returns the result. By then the thread that sets the promise has nothing left to do but
the wake-up. The two threads make at most sixteen steps, and three more for each return of
`AtomicWait` without a reason, and before `Get` has returned one of them can go on. -/
theorem get_returns {events : List GetEvent}
    (hrun : run (fun (s : Getting E T) => s.step result) {} events = some s) :
    (∀ placeholder, s.getter = .returned placeholder →
      placeholder = some result ∧ (s.producer = .wake ∨ s.producer = .finished)) ∧
    events.length ≤ 16 + 3 * events.count .spurious ∧
    ((∀ placeholder, s.getter ≠ .returned placeholder) →
      ∃ event, event ≠ .spurious ∧ ∃ s', s.step result event = some s') := by
  have h := consistent_of_reachable (reachable_of_run hrun)
  refine ⟨fun placeholder hreturned => ?_, ?_, fun hreturned => ?_⟩
  · exact h.returned hreturned
  · have hle := length_add_rank_le .refl hrun
    have hinitial : ({} : Getting E T).rank = 16 := rfl
    omega
  · rcases h.exists_step hreturned with hs | hs
    · exact ⟨.getter, by decide, hs⟩
    · exact ⟨.producer, by decide, hs⟩

def earlyReturn : List GetEvent :=
  [.getter, .getter, .producer, .getter, .getter, .getter, .producer, .producer, .producer,
    .spurious, .getter]

theorem get_returns_early : ∃ (s : Getting ℕ ℕ) (placeholder : Option (Except ℕ ℕ)),
    run (fun (s : Getting ℕ ℕ) => s.step (.ok 7)) {} earlyReturn = some s ∧
    s.producer = .wake ∧ s.getter = .returned placeholder ∧ placeholder = some (.ok 7) := by
  obtain ⟨s, placeholder, hrun, hproducer, hgetter⟩ : ∃ (s : Getting ℕ ℕ)
      (placeholder : Option (Except ℕ ℕ)),
      run (fun (s : Getting ℕ ℕ) => s.step (.ok 7)) {} earlyReturn = some s ∧
      s.producer = .wake ∧ s.getter = .returned placeholder :=
    ⟨_, _, rfl, rfl, rfl⟩
  obtain ⟨hresult, -, -⟩ := get_returns hrun
  exact ⟨s, placeholder, hrun, hproducer, hgetter, (hresult placeholder hgetter).1⟩

end BroadcastService.Futures

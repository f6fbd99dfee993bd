import BroadcastService.TransitionSystem
import Mathlib.Algebra.BigOperators.Group.Finset.Basic
import Mathlib.Tactic

/-!
# Shared states of futures

`concurrency/shared_state.hpp`, `concurrency/rendezvous.hpp` and `concurrency/promise.hpp`. The
producer and the consumer of a shared state each store their part and then exchange the flag of the
rendezvous; the one that comes second submits the callback with the result and deletes the state.
Storing and exchanging are separate steps, so that the two sides mix in every way.

A result is an `Except`. What a callback does belongs to the consumer, so a shared state only
records whether it was stored.
-/

namespace BroadcastService.Futures

/-- How far a caller of `Produce` or `Consume` is. -/
inductive Phase
  | before
  | stored
  | exchanged
  deriving DecidableEq

def Phase.rank : Phase → ℕ
  | .before => 0
  | .stored => 1
  | .exchanged => 2

theorem Phase.rank_le_two (phase : Phase) : phase.rank ≤ 2 := by
  cases phase <;> decide

variable {E T : Type*}

structure SharedState (E T : Type*) where
  resultPlaceholder : Option (Except E T) := none
  callback : Bool := false
  rendezvous : Bool := false
  producer : Phase := .before
  consumer : Phase := .before

namespace SharedState

/-- The task for the executor, if there are a callback and a result, and what is left. -/
def doCallback (state : SharedState E T) : Option (Except E T) × SharedState E T :=
  (if state.callback then state.resultPlaceholder else none,
    { state with resultPlaceholder := none, callback := false })

/-- The first part of `Produce`. -/
def storeResult (state : SharedState E T) (result : Except E T) : Option (SharedState E T) :=
  if state.producer = .before then
    some { state with resultPlaceholder := some result, producer := .stored }
  else none

def exchangeProducer (state : SharedState E T) :
    Option (Option (Except E T) × SharedState E T) :=
  if state.producer = .stored then
    let exchanged := { state with producer := .exchanged, rendezvous := true }
    some (if state.rendezvous then exchanged.doCallback else (none, exchanged))
  else none

/-- The first part of `Consume`. -/
def storeCallback (state : SharedState E T) : Option (SharedState E T) :=
  if state.consumer = .before then
    some { state with callback := true, consumer := .stored }
  else none

def exchangeConsumer (state : SharedState E T) :
    Option (Option (Except E T) × SharedState E T) :=
  if state.consumer = .stored then
    let exchanged := { state with consumer := .exchanged, rendezvous := true }
    some (if state.rendezvous then exchanged.doCallback else (none, exchanged))
  else none

/-- Both sides have met: the callback was submitted and the state deleted. -/
def Met (state : SharedState E T) : Prop :=
  state.producer = .exchanged ∧ state.consumer = .exchanged

instance (state : SharedState E T) : Decidable state.Met :=
  inferInstanceAs (Decidable (_ ∧ _))

/-- The fields as the phases of the two sides determine them, for a state that gets `result`. -/
structure Valid (result : Except E T) (state : SharedState E T) : Prop where
  resultPlaceholder_eq : state.resultPlaceholder =
    if state.producer = .before ∨ state.Met then none else some result
  callback_eq : state.callback = !decide (state.consumer = .before ∨ state.Met)
  rendezvous_eq : state.rendezvous =
    decide (state.producer = .exchanged ∨ state.consumer = .exchanged)

variable {result : Except E T} {state state' : SharedState E T} {task : Option (Except E T)}

theorem valid_initial (result : Except E T) : Valid result {} := by
  constructor <;> simp

/-- What a step of the producer does. -/
structure Produced (result : Except E T) (phase : Phase) (state state' : SharedState E T) :
    Prop where
  valid : Valid result state'
  producer_eq : state'.producer = phase
  consumer_eq : state'.consumer = state.consumer

/-- What a step of the consumer does. -/
structure Consumed (result : Except E T) (phase : Phase) (state state' : SharedState E T) :
    Prop where
  valid : Valid result state'
  producer_eq : state'.producer = state.producer
  consumer_eq : state'.consumer = phase

theorem storeResult_eq_some (h : Valid result state)
    (hstep : state.storeResult result = some state') :
    state.producer = .before ∧ Produced result .stored state state' := by
  obtain ⟨placeholder, callback, rendezvous, producer, consumer⟩ := state
  obtain ⟨hplaceholder, hcallback, hrendezvous⟩ := h
  rw [storeResult] at hstep
  split_ifs at hstep with hbefore
  obtain rfl := Option.some.inj hstep
  dsimp only at hbefore
  subst hbefore
  refine ⟨rfl, ⟨?_, ?_, ?_⟩, rfl, rfl⟩
  · simp [Met]
  · simpa [Met] using hcallback
  · simpa using hrendezvous

theorem storeCallback_eq_some (h : Valid result state)
    (hstep : state.storeCallback = some state') :
    state.consumer = .before ∧ Consumed result .stored state state' := by
  obtain ⟨placeholder, callback, rendezvous, producer, consumer⟩ := state
  obtain ⟨hplaceholder, hcallback, hrendezvous⟩ := h
  rw [storeCallback] at hstep
  split_ifs at hstep with hbefore
  obtain rfl := Option.some.inj hstep
  dsimp only at hbefore
  subst hbefore
  refine ⟨rfl, ⟨?_, ?_, ?_⟩, rfl, rfl⟩
  · simpa [Met] using hplaceholder
  · simp [Met]
  · simpa using hrendezvous

/-- The producer submits the callback if the consumer was there before. -/
theorem exchangeProducer_eq_some (h : Valid result state)
    (hstep : state.exchangeProducer = some (task, state')) :
    state.producer = .stored ∧ Produced result .exchanged state state' ∧
      task = if state.consumer = .exchanged then some result else none := by
  by_cases hstored : state.producer = .stored
  · have hplaceholder : state.resultPlaceholder = some result := by
      rw [h.resultPlaceholder_eq, if_neg (by simp [Met, hstored])]
    have hcallback : state.callback = !decide (state.consumer = .before) := by
      rw [h.callback_eq]
      simp [Met, hstored]
    have hrendezvous : state.rendezvous = decide (state.consumer = .exchanged) := by
      rw [h.rendezvous_eq]
      simp [hstored]
    rw [exchangeProducer, if_pos hstored, hrendezvous] at hstep
    by_cases hmet : state.consumer = .exchanged
    · simp only [hmet, decide_true, if_true, doCallback, hcallback, hplaceholder] at hstep
      obtain ⟨rfl, rfl⟩ := Prod.mk.inj (Option.some.inj hstep)
      refine ⟨hstored, ⟨⟨?_, ?_, ?_⟩, rfl, hmet.symm⟩, ?_⟩ <;> simp [Met, hmet]
    · simp only [hmet, decide_false, Bool.false_eq_true, if_false] at hstep
      obtain ⟨rfl, rfl⟩ := Prod.mk.inj (Option.some.inj hstep)
      refine ⟨hstored, ⟨⟨?_, ?_, ?_⟩, rfl, rfl⟩, ?_⟩ <;>
        simp [Met, hmet, hplaceholder, hcallback]
  · rw [exchangeProducer, if_neg hstored] at hstep
    cases hstep

theorem exchangeConsumer_eq_some (h : Valid result state)
    (hstep : state.exchangeConsumer = some (task, state')) :
    state.consumer = .stored ∧ Consumed result .exchanged state state' ∧
      task = if state.producer = .exchanged then some result else none := by
  by_cases hstored : state.consumer = .stored
  · have hplaceholder : state.resultPlaceholder =
        if state.producer = .before then none else some result := by
      rw [h.resultPlaceholder_eq]
      simp [Met, hstored]
    have hcallback : state.callback = true := by
      rw [h.callback_eq]
      simp [Met, hstored]
    have hrendezvous : state.rendezvous = decide (state.producer = .exchanged) := by
      rw [h.rendezvous_eq]
      simp [hstored]
    rw [exchangeConsumer, if_pos hstored, hrendezvous] at hstep
    by_cases hmet : state.producer = .exchanged
    · simp only [hmet, decide_true, if_true, doCallback, hcallback, hplaceholder, reduceCtorEq,
        if_false] at hstep
      obtain ⟨rfl, rfl⟩ := Prod.mk.inj (Option.some.inj hstep)
      refine ⟨hstored, ⟨⟨?_, ?_, ?_⟩, hmet.symm, rfl⟩, ?_⟩ <;> simp [Met, hmet]
    · simp only [hmet, decide_false, Bool.false_eq_true, if_false] at hstep
      obtain ⟨rfl, rfl⟩ := Prod.mk.inj (Option.some.inj hstep)
      refine ⟨hstored, ⟨⟨?_, ?_, ?_⟩, rfl, rfl⟩, ?_⟩ <;>
        simp [Met, hmet, hplaceholder, hcallback]
  · rw [exchangeConsumer, if_neg hstored] at hstep
    cases hstep

end SharedState

/-- The callbacks of the first `attached` of `length` shared states were attached, and at most the
next one is stored. -/
structure Attached (consumer : ℕ → Phase) (attached length : ℕ) : Prop where
  le_length : attached ≤ length
  exchanged_of_lt : ∀ j < attached, consumer j = .exchanged
  before_of_gt : ∀ j, attached < j → consumer j = .before
  current : consumer attached = .before ∨ consumer attached = .stored ∧ attached < length

namespace Attached

variable {consumer consumer' : ℕ → Phase} {attached length : ℕ} {phase : Phase}

theorem initial (length : ℕ) : Attached (fun _ => .before) 0 length :=
  ⟨Nat.zero_le _, fun _ h => absurd h (Nat.not_lt_zero _), fun _ _ => rfl, .inl rfl⟩

theorem step (h : Attached consumer attached length) (hlt : attached < length)
    (hrank : phase.rank = (consumer attached).rank + 1)
    (hconsumer : ∀ i, consumer' i = if i = attached then phase else consumer i) :
    Attached consumer' (if phase = .exchanged then attached + 1 else attached) length := by
  cases phase with
  | before => cases hrank
  | stored =>
      rw [if_neg (by decide)]
      refine ⟨h.le_length, ?_, ?_, ?_⟩
      · intro i hi
        rw [hconsumer, if_neg (by omega)]
        exact h.exchanged_of_lt i hi
      · intro i hi
        rw [hconsumer, if_neg (by omega)]
        exact h.before_of_gt i hi
      · rw [hconsumer, if_pos rfl]
        exact .inr ⟨rfl, hlt⟩
  | exchanged =>
      rw [if_pos rfl]
      refine ⟨hlt, ?_, ?_, ?_⟩
      · intro i hi
        rw [hconsumer]
        split_ifs with heq
        · rfl
        · exact h.exchanged_of_lt i (by omega)
      · intro i hi
        rw [hconsumer, if_neg (by omega)]
        exact h.before_of_gt i (by omega)
      · rw [hconsumer, if_neg (by omega)]
        exact .inl (h.before_of_gt _ (by omega))

theorem lt_of_exchanged (h : Attached consumer attached length) {j : ℕ}
    (hj : consumer j = .exchanged) : j < attached := by
  rcases Nat.lt_trichotomy j attached with hlt | rfl | hgt
  · exact hlt
  · rcases h.current with hcurrent | ⟨hcurrent, -⟩
    · rw [hj] at hcurrent
      cases hcurrent
    · rw [hj] at hcurrent
      cases hcurrent
  · have hbefore := h.before_of_gt j hgt
    rw [hj] at hbefore
    cases hbefore

end Attached

theorem sum_rank_succ {n j : ℕ} (hj : j < n) {f g : ℕ → Phase} {phase : Phase}
    (hrank : phase.rank = (f j).rank + 1) (hg : ∀ i, g i = if i = j then phase else f i) :
    ∑ i ∈ Finset.range n, (g i).rank = ∑ i ∈ Finset.range n, (f i).rank + 1 := by
  have hterm : ∀ i, (g i).rank = (f i).rank + if i = j then 1 else 0 := by
    intro i
    rw [hg]
    split_ifs with hi
    · rw [hi, hrank]
    · rfl
  simp only [hterm, Finset.sum_add_distrib, Finset.sum_ite_eq', Finset.mem_range, hj, if_true]

theorem sum_rank_le (n : ℕ) (f : ℕ → Phase) : ∑ i ∈ Finset.range n, (f i).rank ≤ 2 * n := by
  have hle := Finset.sum_le_card_nsmul (Finset.range n) _ 2 fun i _ => (f i).rank_le_two
  rw [Finset.card_range, smul_eq_mul, Nat.mul_comm] at hle
  exact hle

/-- `connected` says that the pointer to the shared state is not null, and `produced` are the
results that were put into the shared state. -/
structure Promise (E R : Type*) where
  connected : Bool := true
  produced : List (Except E R) := []

/-- `Promise::Set`, which releases the shared state. -/
def Promise.set {R : Type*} (promise : Promise E R) (result : Except E R) : Promise E R :=
  if promise.connected then ⟨false, promise.produced ++ [result]⟩ else promise

end BroadcastService.Futures

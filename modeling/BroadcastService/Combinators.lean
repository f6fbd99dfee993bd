import BroadcastService.Futures

/-!
# Combinators of futures

`concurrency/combine.hpp`. `Combine` consumes the input futures in the order of the vector, while
they complete in any order; a callback runs when its future is both completed and attached, at once
for `JustExecute` and later for another executor. Callbacks run one at a time. `ran` lists them,
with the number of the input and its result.
-/

namespace BroadcastService.Futures
open TransitionSystem

variable {E T R C : Type*}

/-- What `Combine` uses of a combinator. -/
structure Combinator (E T R C : Type*) where
  make : ℕ → Promise E R → C
  setValue : C → T → C
  setError : C → E → C
  promise : C → Promise E R

def Combinator.callback (combinator : Combinator E T R C) (collector : C) :
    Except E T → C
  | .ok value => combinator.setValue collector value
  | .error ec => combinator.setError collector ec

structure FirstCombinator (E T : Type*) where
  counter : ℕ
  isCompleted : Bool := false
  promise : Promise E T

namespace FirstCombinator

def setValue (collector : FirstCombinator E T) (value : T) : FirstCombinator E T :=
  if collector.isCompleted then collector
  else { collector with isCompleted := true, promise := collector.promise.set (.ok value) }

/-- The flag is only exchanged for the last of the counted errors. -/
def setError (collector : FirstCombinator E T) (ec : E) : FirstCombinator E T :=
  let counted := { collector with counter := collector.counter - 1 }
  if collector.counter = 1 then
    if collector.isCompleted then counted
    else { counted with isCompleted := true, promise := collector.promise.set (.error ec) }
  else counted

def combinator : Combinator E T T (FirstCombinator E T) where
  make size promise := { counter := size, promise := promise }
  setValue := setValue
  setError := setError
  promise := FirstCombinator.promise

end FirstCombinator

structure AllCombinator (E T : Type*) where
  results : List T := []
  futuresNumber : ℕ
  promise : Promise E (List T)

namespace AllCombinator

/-- The results are moved into the promise. -/
def setValue (collector : AllCombinator E T) (value : T) : AllCombinator E T :=
  let results := collector.results ++ [value]
  if results.length = collector.futuresNumber then
    { collector with results := [], promise := collector.promise.set (.ok results) }
  else { collector with results := results }

def setError (collector : AllCombinator E T) (ec : E) : AllCombinator E T :=
  { collector with promise := collector.promise.set (.error ec) }

def combinator : Combinator E T (List T) (AllCombinator E T) where
  make size promise := { futuresNumber := size, promise := promise }
  setValue := setValue
  setError := setError
  promise := AllCombinator.promise

end AllCombinator

inductive Executor
  | justExecute
  | queued
  deriving DecidableEq

structure Combining (E T C : Type*) where
  inputs : ℕ → SharedState E T := fun _ => {}
  attached : ℕ := 0
  tasks : List (ℕ × Except E T) := []
  ran : List (ℕ × Except E T) := []
  collector : C

inductive CombineEvent
  | complete (i : ℕ)
  | exchangeProducer (i : ℕ)
  | attach
  | exchangeConsumer
  | run (k : ℕ)
  deriving DecidableEq

namespace Combining

def setInput (s : Combining E T C) (i : ℕ) (state : SharedState E T) : Combining E T C :=
  { s with inputs := Function.update s.inputs i state }

variable (combinator : Combinator E T R C) (size : ℕ) (executor : ℕ → Executor)
  (results : ℕ → Except E T)

def runCallback (s : Combining E T C) (task : ℕ × Except E T) : Combining E T C :=
  { s with
    ran := s.ran ++ [task]
    collector := combinator.callback s.collector task.2 }

def execute (s : Combining E T C) (task : ℕ × Except E T) : Combining E T C :=
  match executor task.1 with
  | .justExecute => s.runCallback combinator task
  | .queued => { s with tasks := s.tasks ++ [task] }

/-- The second part of `Produce` or `Consume`, which may submit the callback of input `i`. -/
def exchange (s : Combining E T C) (i : ℕ)
    (outcome : Option (Except E T) × SharedState E T) : Combining E T C :=
  match outcome with
  | (none, state) => s.setInput i state
  | (some result, state) => (s.setInput i state).execute combinator executor (i, result)

def step (s : Combining E T C) : CombineEvent → Option (Combining E T C)
  | .complete i =>
      if i < size then ((s.inputs i).storeResult (results i)).map (s.setInput i) else none
  | .exchangeProducer i =>
      (s.inputs i).exchangeProducer.map (s.exchange combinator executor i)
  | .attach =>
      if s.attached < size then
        (s.inputs s.attached).storeCallback.map (s.setInput s.attached)
      else none
  | .exchangeConsumer =>
      if s.attached < size then
        (s.inputs s.attached).exchangeConsumer.map fun outcome =>
          { s.exchange combinator executor s.attached outcome with attached := s.attached + 1 }
      else none
  | .run k =>
      s.tasks[k]?.map fun task =>
        { s with tasks := s.tasks.eraseIdx k }.runCallback combinator task

def initial : Combining E T C where
  collector := combinator.make size {}

def valueOf : Except E T → Option T
  | .ok value => some value
  | .error _ => none

def errorOf : Except E T → Option E
  | .ok _ => none
  | .error ec => some ec

/-- All values in order, or the first error. -/
def allOutcome (ran : List (Except E T)) : Except E (List T) :=
  match ran.findSome? errorOf with
  | some ec => .error ec
  | none => .ok (ran.filterMap valueOf)

/-- The first value, or the last error. -/
def firstOutcome (ran : List (Except E T)) : Option (Except E T) :=
  match ran.findSome? valueOf with
  | some value => some (.ok value)
  | none => ran.getLast?

variable {size : ℕ} {ran : List (Except E T)}

theorem length_values_add_errors (ran : List (Except E T)) :
    (ran.filterMap valueOf).length + (ran.filterMap errorOf).length = ran.length := by
  induction ran with
  | nil => rfl
  | cons result ran ih =>
      cases result with
      | ok value =>
          simp only [List.filterMap_cons, valueOf, errorOf, List.length_cons]
          omega
      | error ec =>
          simp only [List.filterMap_cons, valueOf, errorOf, List.length_cons]
          omega

theorem length_values_lt (h : (ran.findSome? errorOf).isSome) :
    (ran.filterMap valueOf).length < ran.length := by
  have hlength := length_values_add_errors ran
  have hpos : 0 < (ran.filterMap errorOf).length := by
    rw [← List.head?_filterMap] at h
    exact List.length_pos_iff.2 (List.isSome_head?.1 h)
  omega

theorem length_values_eq (h : ran.findSome? errorOf = none) :
    (ran.filterMap valueOf).length = ran.length := by
  have hlength := length_values_add_errors ran
  rw [← List.head?_filterMap, List.head?_eq_none_iff] at h
  rw [h, List.length_nil] at hlength
  omega

def allPromise (size : ℕ) (ran : List (Except E T)) : Promise E (List T) :=
  if (ran.findSome? errorOf).isSome ∨ ran.length = size then ⟨false, [allOutcome ran]⟩ else {}

def firstPromise (size : ℕ) (ran : List (Except E T)) : Promise E T :=
  if (ran.findSome? valueOf).isSome ∨ ran.length = size then ⟨false, (firstOutcome ran).toList⟩
  else {}

/-- The collector of `All` after the given callbacks. The results that it holds are too few when one
of the callbacks got an error. -/
structure AllCollected (size : ℕ) (ran : List (Except E T)) (collector : AllCombinator E T) :
    Prop where
  futuresNumber_eq : collector.futuresNumber = size
  results_eq : (ran.findSome? errorOf).isSome ∨ ran.length < size →
    collector.results = ran.filterMap valueOf
  promise_eq : collector.promise = allPromise size ran

theorem AllCollected.callback {collector : AllCombinator E T} (h : AllCollected size ran collector)
    (hlt : ran.length < size) (result : Except E T) :
    AllCollected size (ran ++ [result])
      (AllCombinator.combinator.callback collector result) := by
  have hresults := h.results_eq (.inr hlt)
  have hpromise := h.promise_eq
  cases result with
  | error ec =>
      refine ⟨h.futuresNumber_eq, ?_, ?_⟩
      · intro _
        change collector.results = _
        simp [hresults, valueOf]
      · change collector.promise.set (.error ec) = _
        rw [hpromise]
        cases herror : ran.findSome? errorOf with
        | some first => simp [allPromise, allOutcome, Promise.set, herror]
        | none => simp [allPromise, allOutcome, Promise.set, herror, errorOf, hlt.ne]
  | ok value =>
      change AllCollected size (ran ++ [.ok value]) (collector.setValue value)
      rw [AllCombinator.setValue, hresults, h.futuresNumber_eq]
      cases herror : ran.findSome? errorOf with
      | some first =>
          have hfew := length_values_lt (by rw [herror]; rfl : (ran.findSome? errorOf).isSome)
          have hne : (ran.filterMap valueOf ++ [value]).length ≠ size := by
            rw [List.length_append, List.length_singleton]
            omega
          rw [if_neg hne]
          refine ⟨rfl, ?_, ?_⟩
          · intro _
            simp [valueOf]
          · simp [hpromise, allPromise, allOutcome, herror]
      | none =>
          have hlength : (ran.filterMap valueOf ++ [value]).length = ran.length + 1 := by
            rw [List.length_append, length_values_eq herror, List.length_singleton]
          by_cases hlast : ran.length + 1 = size
          · rw [if_pos (hlength.trans hlast)]
            refine ⟨rfl, ?_, ?_⟩
            · intro hmore
              simp [herror, errorOf, hlast] at hmore
            · simp [hpromise, allPromise, allOutcome, Promise.set, herror, errorOf, valueOf, hlt.ne,
                hlast]
          · rw [if_neg (by omega)]
            refine ⟨rfl, ?_, ?_⟩
            · intro _
              simp [valueOf]
            · simp [hpromise, allPromise, herror, errorOf, hlt.ne, hlast]

/-- The collector of `First` after the given callbacks. -/
structure FirstCollected (size : ℕ) (ran : List (Except E T)) (collector : FirstCombinator E T) :
    Prop where
  counter_eq : collector.counter = size - (ran.filterMap errorOf).length
  isCompleted_eq : collector.isCompleted =
    decide ((ran.findSome? valueOf).isSome ∨ ran.length = size)
  promise_eq : collector.promise = firstPromise size ran

theorem FirstCollected.callback {collector : FirstCombinator E T}
    (h : FirstCollected size ran collector) (hlt : ran.length < size) (result : Except E T) :
    FirstCollected size (ran ++ [result])
      (FirstCombinator.combinator.callback collector result) := by
  have hlength := length_values_add_errors ran
  have hcompleted : collector.isCompleted = (ran.findSome? valueOf).isSome := by
    rw [h.isCompleted_eq]
    simp only [hlt.ne, or_false, Bool.decide_eq_true]
  have hcounter := h.counter_eq
  have hpromise := h.promise_eq
  cases result with
  | ok value =>
      change FirstCollected size (ran ++ [.ok value]) (collector.setValue value)
      have herrors : (ran ++ [Except.ok value]).filterMap errorOf = ran.filterMap errorOf := by
        rw [List.filterMap_append]
        exact List.append_nil _
      rw [FirstCombinator.setValue, hcompleted]
      cases hvalue : ran.findSome? valueOf with
      | some first =>
          refine ⟨?_, ?_, ?_⟩
          · rw [herrors]
            exact hcounter
          · simp [hcompleted, hvalue]
          · simp [hpromise, firstPromise, firstOutcome, hvalue]
      | none =>
          refine ⟨?_, ?_, ?_⟩
          · rw [herrors]
            exact hcounter
          · simp [hvalue, valueOf]
          · simp [hpromise, firstPromise, firstOutcome, Promise.set, hvalue, valueOf, hlt.ne]
  | error ec =>
      change FirstCollected size (ran ++ [.error ec]) (collector.setError ec)
      have herrors : ((ran ++ [Except.error ec]).filterMap errorOf).length =
          (ran.filterMap errorOf).length + 1 := by
        rw [List.filterMap_append, List.length_append]
        rfl
      rw [FirstCombinator.setError, hcompleted]
      cases hvalue : ran.findSome? valueOf with
      | some first =>
          -- A value keeps the counter above one.
          have hpos : 0 < (ran.filterMap valueOf).length := by
            apply List.length_pos_iff.2
            rw [← List.isSome_head?, List.head?_filterMap, hvalue]
            rfl
          rw [if_neg (by omega)]
          refine ⟨?_, ?_, ?_⟩
          · change collector.counter - 1 = _
            omega
          · simp [hvalue]
          · simp [hpromise, firstPromise, firstOutcome, hvalue]
      | none =>
          have hall : (ran.filterMap valueOf).length = 0 := by
            rw [← List.head?_filterMap, List.head?_eq_none_iff] at hvalue
            rw [hvalue, List.length_nil]
          by_cases hlast : ran.length + 1 = size
          · rw [if_pos (by omega)]
            refine ⟨?_, ?_, ?_⟩
            · change collector.counter - 1 = _
              omega
            · simp [hlast]
            · simp [hpromise, firstPromise, firstOutcome, Promise.set, hvalue, valueOf, hlt.ne,
                hlast]
          · rw [if_neg (by omega)]
            refine ⟨?_, ?_, ?_⟩
            · change collector.counter - 1 = _
              omega
            · simp [hvalue, valueOf, hlast]
            · simp [hpromise, firstPromise, hvalue, valueOf, hlt.ne, hlast]

variable {combinator : Combinator E T R C} {executor : ℕ → Executor} {results : ℕ → Except E T}
  {s s' : Combining E T C}

def submitted (s : Combining E T C) : List (ℕ × Except E T) := s.ran ++ s.tasks

/-- The callback of an input is submitted once, with its result, when both sides have met, and the
collector has seen the callbacks that ran. -/
structure Collects (combinator : Combinator E T R C) (size : ℕ) (results : ℕ → Except E T)
    (s : Combining E T C) : Prop where
  valid : ∀ i, (s.inputs i).Valid (results i)
  lt_size : ∀ i, (s.inputs i).producer ≠ .before → i < size
  count_eq : ∀ i, (s.submitted.map Prod.fst).count i = if (s.inputs i).Met then 1 else 0
  result_eq : ∀ task ∈ s.submitted, task.2 = results task.1
  collector_eq : s.collector =
    (s.ran.map Prod.snd).foldl combinator.callback (combinator.make size {})

abbrev InputsAttached (size : ℕ) (s : Combining E T C) : Prop :=
  Attached (fun i => (s.inputs i).consumer) s.attached size

theorem valid_update (hvalid : ∀ i, (s.inputs i).Valid (results i)) {i : ℕ}
    {state : SharedState E T} (h : state.Valid (results i)) (j : ℕ) :
    (Function.update s.inputs i state j).Valid (results j) := by
  by_cases hj : j = i
  · subst hj
    rwa [Function.update_self]
  · rw [Function.update_of_ne hj]
    exact hvalid j

theorem lt_size_update (h : ∀ i, (s.inputs i).producer ≠ .before → i < size) {i : ℕ}
    {state : SharedState E T} (hlt : state.producer ≠ .before → i < size) (j : ℕ)
    (hj : (Function.update s.inputs i state j).producer ≠ .before) : j < size := by
  by_cases hji : j = i
  · subst hji
    rw [Function.update_self] at hj
    exact hlt hj
  · rw [Function.update_of_ne hji] at hj
    exact h j hj

theorem Collects.setInput (h : Collects combinator size results s) {i : ℕ}
    {state : SharedState E T} (hvalid : state.Valid (results i))
    (hmet : state.Met ↔ (s.inputs i).Met) (hlt : state.producer ≠ .before → i < size) :
    Collects combinator size results (s.setInput i state) := by
  refine ⟨valid_update h.valid hvalid, lt_size_update h.lt_size hlt, ?_, h.result_eq,
    h.collector_eq⟩
  intro j
  have hmet' : (Function.update s.inputs i state j).Met ↔ (s.inputs j).Met := by
    by_cases hj : j = i
    · subst hj
      rw [Function.update_self, hmet]
    · rw [Function.update_of_ne hj]
  simp only [Combining.setInput, hmet']
  exact h.count_eq j

theorem submitted_execute (s : Combining E T C) (task : ℕ × Except E T) :
    (s.execute combinator executor task).submitted.Perm (s.submitted ++ [task]) := by
  rw [execute]
  split
  · simp only [runCallback, submitted, List.append_assoc]
    exact List.Perm.append_left _ List.perm_append_comm
  · simp only [submitted, List.append_assoc]
    exact List.Perm.refl _

theorem collector_execute (task : ℕ × Except E T)
    (h : s.collector = (s.ran.map Prod.snd).foldl combinator.callback (combinator.make size {})) :
    (s.execute combinator executor task).collector =
      ((s.execute combinator executor task).ran.map Prod.snd).foldl combinator.callback
        (combinator.make size {}) := by
  rw [execute]
  split
  · simp only [runCallback, List.map_append, List.foldl_append, ← h]
    rfl
  · exact h

@[simp] theorem inputs_execute (task : ℕ × Except E T) :
    (s.execute combinator executor task).inputs = s.inputs := by
  rw [execute]
  split <;> rfl

@[simp] theorem attached_execute (task : ℕ × Except E T) :
    (s.execute combinator executor task).attached = s.attached := by
  rw [execute]
  split <;> rfl

theorem Collects.execute (h : Collects combinator size results s) {i : ℕ}
    {state : SharedState E T} (hvalid : state.Valid (results i)) (hmet : state.Met)
    (hnot : ¬(s.inputs i).Met) (hlt : i < size) :
    Collects combinator size results
      ((s.setInput i state).execute combinator executor (i, results i)) := by
  have hperm := @submitted_execute E T R C combinator executor (s.setInput i state) (i, results i)
  refine ⟨?_, ?_, ?_, ?_, collector_execute _ h.collector_eq⟩
  · rw [inputs_execute]
    exact valid_update h.valid hvalid
  · rw [inputs_execute]
    exact lt_size_update h.lt_size fun _ => hlt
  · intro j
    rw [inputs_execute, (hperm.map Prod.fst).count_eq, List.map_append, List.count_append]
    have hcount : ((s.setInput i state).submitted.map Prod.fst).count j = _ := h.count_eq j
    rw [hcount, Combining.setInput]
    by_cases hj : j = i
    · subst hj
      simp [hmet, hnot]
    · simp [hj, Ne.symm hj]
  · intro task htask
    rcases List.mem_append.1 (hperm.mem_iff.1 htask) with hold | hnew
    · exact h.result_eq task hold
    · rw [List.mem_singleton.1 hnew]

theorem Collects.run (h : Collects combinator size results s) {k : ℕ} {task : ℕ × Except E T}
    (hk : s.tasks[k]? = some task) :
    Collects combinator size results
      ({ s with tasks := s.tasks.eraseIdx k }.runCallback combinator task) := by
  obtain ⟨hlt, rfl⟩ := List.getElem?_eq_some_iff.1 hk
  have hperm : ({ s with tasks := s.tasks.eraseIdx k }.runCallback combinator
      s.tasks[k]).submitted.Perm s.submitted := by
    simp only [runCallback, submitted, List.append_assoc]
    exact List.Perm.append_left _ (List.getElem_cons_eraseIdx_perm hlt)
  refine ⟨h.valid, h.lt_size, ?_, ?_, ?_⟩
  · intro i
    rw [(hperm.map Prod.fst).count_eq]
    exact h.count_eq i
  · intro task htask
    exact h.result_eq task (hperm.mem_iff.1 htask)
  · simp only [runCallback, List.map_append, List.foldl_append, ← h.collector_eq]
    rfl

/-- What a step does to the shared states: a producer moves on, the loop of `Combine` moves on, or
a queued callback runs. -/
inductive Moves (size : ℕ) (s s' : Combining E T C) : Prop
  | producer {i : ℕ} {phase : Phase} : i < size →
      phase.rank = (s.inputs i).producer.rank + 1 → s'.attached = s.attached →
      (∀ j, (s'.inputs j).producer = if j = i then phase else (s.inputs j).producer) →
      (∀ j, (s'.inputs j).consumer = (s.inputs j).consumer) →
      s.ran.length ≤ s'.ran.length → Moves size s s'
  | consumer {phase : Phase} : s.attached < size →
      phase.rank = (s.inputs s.attached).consumer.rank + 1 →
      s'.attached = (if phase = .exchanged then s.attached + 1 else s.attached) →
      (∀ j, (s'.inputs j).producer = (s.inputs j).producer) →
      (∀ j, (s'.inputs j).consumer = if j = s.attached then phase else (s.inputs j).consumer) →
      s.ran.length ≤ s'.ran.length → Moves size s s'
  | callback : s'.attached = s.attached → s'.inputs = s.inputs →
      s'.ran.length = s.ran.length + 1 → Moves size s s'

theorem producer_update (i j : ℕ) (state : SharedState E T) :
    (Function.update s.inputs i state j).producer =
      if j = i then state.producer else (s.inputs j).producer := by
  by_cases h : j = i
  · rw [h, Function.update_self, if_pos rfl]
  · rw [Function.update_of_ne h, if_neg h]

theorem consumer_update (i j : ℕ) (state : SharedState E T) :
    (Function.update s.inputs i state j).consumer =
      if j = i then state.consumer else (s.inputs j).consumer := by
  by_cases h : j = i
  · rw [h, Function.update_self, if_pos rfl]
  · rw [Function.update_of_ne h, if_neg h]

theorem producer_moves {i : ℕ} {phase : Phase} {r : Except E T} {state : SharedState E T}
    (hlt : i < size) (hrank : phase.rank = (s.inputs i).producer.rank + 1)
    (hproduced : SharedState.Produced r phase (s.inputs i) state)
    (hattached : s'.attached = s.attached)
    (hinputs : s'.inputs = Function.update s.inputs i state)
    (hran : s.ran.length ≤ s'.ran.length) : Moves size s s' := by
  refine .producer hlt hrank hattached ?_ ?_ hran
  · intro j
    rw [hinputs, producer_update, hproduced.producer_eq]
  · intro j
    rw [hinputs, consumer_update, hproduced.consumer_eq]
    split_ifs with hj
    · rw [hj]
    · rfl

theorem consumer_moves {phase : Phase} {r : Except E T} {state : SharedState E T}
    (hlt : s.attached < size)
    (hrank : phase.rank = (s.inputs s.attached).consumer.rank + 1)
    (hconsumed : SharedState.Consumed r phase (s.inputs s.attached) state)
    (hattached : s'.attached = if phase = .exchanged then s.attached + 1 else s.attached)
    (hinputs : s'.inputs = Function.update s.inputs s.attached state)
    (hran : s.ran.length ≤ s'.ran.length) : Moves size s s' := by
  refine .consumer hlt hrank hattached ?_ ?_ hran
  · intro j
    rw [hinputs, producer_update, hconsumed.producer_eq]
    split_ifs with hj
    · rw [hj]
    · rfl
  · intro j
    rw [hinputs, consumer_update, hconsumed.consumer_eq]

theorem length_ran_execute (task : ℕ × Except E T) :
    s.ran.length ≤ (s.execute combinator executor task).ran.length := by
  rw [execute]
  split
  · simp [runCallback]
  · exact le_rfl

theorem Collects.exchange (h : Collects combinator size results s) {i : ℕ}
    {state : SharedState E T} {task : Option (Except E T)} (hvalid : state.Valid (results i))
    (hnot : ¬(s.inputs i).Met) (hlt : state.producer ≠ .before → i < size)
    (htask : task = if state.Met then some (results i) else none) :
    Collects combinator size results (s.exchange combinator executor i (task, state)) ∧
      (s.exchange combinator executor i (task, state)).attached = s.attached ∧
      (s.exchange combinator executor i (task, state)).inputs = Function.update s.inputs i state ∧
      s.ran.length ≤ (s.exchange combinator executor i (task, state)).ran.length := by
  by_cases hmet : state.Met
  · have hsize : i < size := hlt (by simp [hmet.1])
    rw [htask, if_pos hmet]
    exact ⟨h.execute hvalid hmet hnot hsize, attached_execute _, inputs_execute _,
      @length_ran_execute E T R C combinator executor (s.setInput i state) _⟩
  · rw [htask, if_neg hmet]
    exact ⟨h.setInput hvalid (iff_of_false hmet hnot) hlt, rfl, rfl, le_rfl⟩

theorem step_collects (h : Collects combinator size results s) {event : CombineEvent}
    (hstep : s.step combinator size executor results event = some s') :
    Collects combinator size results s' ∧ Moves size s s' := by
  cases event with
  | complete i =>
      rw [step] at hstep
      split_ifs at hstep with hlt
      obtain ⟨state, hstored, rfl⟩ := Option.map_eq_some_iff.1 hstep
      obtain ⟨hbefore, hproduced⟩ := SharedState.storeResult_eq_some (h.valid i) hstored
      refine ⟨h.setInput hproduced.valid ?_ fun _ => hlt, ?_⟩
      · simp [SharedState.Met, hproduced.producer_eq, hbefore]
      · exact producer_moves hlt (by rw [hbefore]; rfl) hproduced rfl rfl le_rfl
  | exchangeProducer i =>
      obtain ⟨⟨task, state⟩, hexchange, rfl⟩ := Option.map_eq_some_iff.1 hstep
      obtain ⟨hstored, hproduced, htask⟩ :=
        SharedState.exchangeProducer_eq_some (h.valid i) hexchange
      have hlt : i < size := h.lt_size i (by simp [hstored])
      have hsubmits : task = if state.Met then some (results i) else none := by
        simp [htask, SharedState.Met, hproduced.producer_eq, hproduced.consumer_eq]
      obtain ⟨hcollects, hattached, hinputs, hran⟩ :=
        h.exchange hproduced.valid (by simp [SharedState.Met, hstored]) (fun _ => hlt) hsubmits
      exact ⟨hcollects,
        producer_moves hlt (by rw [hstored]; rfl) hproduced hattached hinputs hran⟩
  | attach =>
      rw [step] at hstep
      split_ifs at hstep with hlt
      obtain ⟨state, hstored, rfl⟩ := Option.map_eq_some_iff.1 hstep
      obtain ⟨hbefore, hconsumed⟩ :=
        SharedState.storeCallback_eq_some (h.valid s.attached) hstored
      refine ⟨h.setInput hconsumed.valid ?_ fun _ => hlt, ?_⟩
      · simp [SharedState.Met, hconsumed.consumer_eq, hbefore]
      · exact consumer_moves hlt (by rw [hbefore]; rfl) hconsumed rfl rfl le_rfl
  | exchangeConsumer =>
      rw [step] at hstep
      split_ifs at hstep with hlt
      obtain ⟨⟨task, state⟩, hexchange, rfl⟩ := Option.map_eq_some_iff.1 hstep
      obtain ⟨hstored, hconsumed, htask⟩ :=
        SharedState.exchangeConsumer_eq_some (h.valid s.attached) hexchange
      have hsubmits : task = if state.Met then some (results s.attached) else none := by
        simp [htask, SharedState.Met, hconsumed.producer_eq, hconsumed.consumer_eq]
      obtain ⟨hcollects, -, hinputs, hran⟩ :=
        h.exchange hconsumed.valid (by simp [SharedState.Met, hstored]) (fun _ => hlt) hsubmits
      refine ⟨⟨hcollects.valid, hcollects.lt_size, hcollects.count_eq, hcollects.result_eq,
        hcollects.collector_eq⟩, ?_⟩
      exact consumer_moves hlt (by rw [hstored]; rfl) hconsumed rfl hinputs hran
  | run k =>
      obtain ⟨task, hk, rfl⟩ := Option.map_eq_some_iff.1 hstep
      exact ⟨h.run hk, .callback rfl rfl (by simp [runCallback])⟩

theorem Moves.keeps_attached (hmoves : Moves size s s') (h : InputsAttached size s) :
    InputsAttached size s' := by
  cases hmoves with
  | producer hlt hrank hattached hproducer hconsumer hran =>
      simpa only [InputsAttached, hattached, hconsumer] using h
  | consumer hlt hrank hattached hproducer hconsumer hran =>
      rw [InputsAttached, hattached]
      exact h.step hlt hrank hconsumer
  | callback hattached hinputs hran =>
      simpa only [InputsAttached, hattached, hinputs] using h

/-- A bound on the number of steps taken so far. -/
def progress (size : ℕ) (s : Combining E T C) : ℕ :=
  ∑ i ∈ Finset.range size, (s.inputs i).producer.rank +
    ∑ i ∈ Finset.range size, (s.inputs i).consumer.rank + s.ran.length

theorem Moves.progress_lt (hmoves : Moves size s s') : s.progress size + 1 ≤ s'.progress size := by
  cases hmoves with
  | producer hlt hrank hattached hproducer hconsumer hran =>
      have hsum := sum_rank_succ hlt (g := fun i => (s'.inputs i).producer)
        (f := fun i => (s.inputs i).producer) hrank hproducer
      simp only [progress, hconsumer]
      omega
  | consumer hlt hrank hattached hproducer hconsumer hran =>
      have hsum := sum_rank_succ hlt (g := fun i => (s'.inputs i).consumer)
        (f := fun i => (s.inputs i).consumer) hrank hconsumer
      simp only [progress, hproducer]
      omega
  | callback hattached hinputs hran =>
      simp only [progress, hinputs]
      omega

theorem Collects.nodup_submitted (h : Collects combinator size results s) :
    (s.submitted.map Prod.fst).Nodup := by
  rw [List.nodup_iff_count_le_one]
  intro i
  rw [h.count_eq]
  split_ifs <;> simp

theorem Collects.lt_of_submitted (h : Collects combinator size results s) {i : ℕ}
    (hi : i ∈ s.submitted.map Prod.fst) : i < size := by
  have hcount := h.count_eq i
  have hpos := List.count_pos_iff.2 hi
  split_ifs at hcount with hmet
  · exact h.lt_size i (by simp [hmet.1])
  · omega

theorem Collects.nodup_ran (h : Collects combinator size results s) :
    (s.ran.map Prod.fst).Nodup := by
  have hnodup := h.nodup_submitted
  rw [submitted, List.map_append] at hnodup
  exact hnodup.of_append_left

theorem Collects.length_ran_le (h : Collects combinator size results s) :
    s.ran.length ≤ size := by
  have hsub : s.ran.map Prod.fst ⊆ List.range size := by
    intro i hi
    refine List.mem_range.2 (h.lt_of_submitted ?_)
    rw [submitted, List.map_append]
    exact List.mem_append_left _ hi
  have hle := (h.nodup_ran.subperm hsub).length_le
  rwa [List.length_map, List.length_range] at hle

theorem Collects.progress_le (h : Collects combinator size results s) :
    s.progress size ≤ 5 * size := by
  have hproducers := sum_rank_le size fun i => (s.inputs i).producer
  have hconsumers := sum_rank_le size fun i => (s.inputs i).consumer
  have hran := h.length_ran_le
  rw [progress]
  omega

theorem collects_initial :
    Collects combinator size results (initial combinator size) := by
  refine ⟨fun i => SharedState.valid_initial _, ?_, ?_, ?_, rfl⟩
  · intro i hi
    exact absurd rfl hi
  · intro i
    simp [initial, submitted, SharedState.Met]
  · intro task htask
    simp [initial, submitted] at htask

theorem run_collects (h : Collects combinator size results s) (hattached : InputsAttached size s)
    {events : List CombineEvent}
    (hrun : run (step combinator size executor results) s events = some s') :
    Collects combinator size results s' ∧ InputsAttached size s' ∧
      s.progress size + events.length ≤ s'.progress size := by
  induction events generalizing s with
  | nil =>
      obtain rfl := Option.some.inj hrun
      exact ⟨h, hattached, le_rfl⟩
  | cons event events ih =>
      obtain ⟨middle, hstep, hrest⟩ := Option.bind_eq_some_iff.1 hrun
      obtain ⟨hcollects, hmoves⟩ := step_collects h hstep
      obtain ⟨hlast, hattached', hprogress⟩ := ih hcollects (hmoves.keeps_attached hattached) hrest
      refine ⟨hlast, hattached', ?_⟩
      have := hmoves.progress_lt
      rw [List.length_cons]
      omega

/-- Nothing is left to do: every input has completed and is attached, and no callback waits. -/
def Quiescent (combinator : Combinator E T R C) (size : ℕ) (executor : ℕ → Executor)
    (results : ℕ → Except E T) (s : Combining E T C) : Prop :=
  ∀ event, s.step combinator size executor results event = none

theorem Quiescent.met (hquiet : Quiescent combinator size executor results s)
    (h : InputsAttached size s) {i : ℕ} (hi : i < size) : (s.inputs i).Met := by
  have hattached : s.attached = size := by
    by_contra hne
    have hlt : s.attached < size := lt_of_le_of_ne h.le_length hne
    rcases h.current with hbefore | ⟨hstored, -⟩
    · have hattach := hquiet .attach
      simp [step, hlt, SharedState.storeCallback, hbefore] at hattach
    · have hexchange := hquiet .exchangeConsumer
      simp [step, hlt, SharedState.exchangeConsumer, hstored] at hexchange
  refine ⟨?_, h.exchanged_of_lt i (by omega)⟩
  cases hproducer : (s.inputs i).producer with
  | before =>
      have hcomplete := hquiet (.complete i)
      simp [step, hi, SharedState.storeResult, hproducer] at hcomplete
  | stored =>
      have hexchange := hquiet (.exchangeProducer i)
      simp [step, SharedState.exchangeProducer, hproducer] at hexchange
  | exchanged => rfl

theorem Quiescent.tasks_eq_nil (hquiet : Quiescent combinator size executor results s) :
    s.tasks = [] := by
  cases htasks : s.tasks with
  | nil => rfl
  | cons task tasks =>
      have hrun := hquiet (.run 0)
      simp [step, htasks] at hrun

/-- Every callback has run. -/
theorem Quiescent.perm_range (hquiet : Quiescent combinator size executor results s)
    (h : Collects combinator size results s) (hattached : InputsAttached size s) :
    (s.ran.map Prod.fst).Perm (List.range size) := by
  have hran : s.submitted = s.ran := by rw [submitted, hquiet.tasks_eq_nil, List.append_nil]
  have hnodup := h.nodup_submitted
  rw [hran] at hnodup
  refine (List.perm_ext_iff_of_nodup hnodup List.nodup_range).2 fun i => ?_
  rw [← hran, List.mem_range]
  constructor
  · exact h.lt_of_submitted
  · intro hi
    rw [← List.count_pos_iff, h.count_eq, if_pos (hquiet.met hattached hi)]
    exact Nat.one_pos

end Combining

end BroadcastService.Futures

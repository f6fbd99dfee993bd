import BroadcastService.Futures

/-!
# Chains of continuations

`Then` and `Else` of `concurrency/future.hpp`. Link `j` of a chain consumes shared state `j` and
produces into shared state `j + 1`; the links are attached one after another. A submitted
continuation waits in `tasks` until an executor runs it, which for `JustExecute` is at once.

A chain is a sequence of links of which the first `length` are attached, with the types of their
values. `calls` records the links whose function was called.
-/

namespace BroadcastService.Futures
open TransitionSystem

universe u

variable {E A B : Type u}

inductive Link (E : Type u) : Type u → Type u → Type (u + 1)
  | Then {A B : Type u} (function : A → Except E B) : Link E A B
  | Else {A : Type u} (function : E → Except E A) : Link E A A

namespace Link

def callback : Link E A B → Except E A → Except E B × Bool
  | .Then function, .ok value => (function value, true)
  | .Then _, .error error => (.error error, false)
  | .Else _, .ok value => (.ok value, false)
  | .Else function, .error error => (function error, true)

def eval : Link E A B → Except E A → Except E B
  | .Then function, result => result.bind function
  | .Else function, result => result.tryCatch function

/-- The case in which a link calls its function. -/
def applies : Link E A B → Except E A → Bool
  | .Then _, result => result.isOk
  | .Else _, result => !result.isOk

theorem callback_eq (link : Link E A B) (result : Except E A) :
    link.callback result = (link.eval result, link.applies result) := by
  cases link with
  | Then function => cases result <;> rfl
  | Else function => cases result <;> rfl

end Link

structure Chain (E : Type u) where
  Value : ℕ → Type u
  link : (j : ℕ) → Link E (Value j) (Value (j + 1))
  length : ℕ

def Chain.fold (chain : Chain E) (result : Except E (chain.Value 0)) :
    (j : ℕ) → Except E (chain.Value j)
  | 0 => result
  | j + 1 => (chain.link j).eval (chain.fold result j)

structure ChainState (chain : Chain E) where
  states : (j : ℕ) → SharedState E (chain.Value j) := fun _ => {}
  attached : ℕ := 0
  tasks : (j : ℕ) → Option (Except E (chain.Value j)) := fun _ => none
  calls : List ℕ := []

inductive ChainEvent
  | produce
  | exchangeProducer (j : ℕ)
  | attach
  | exchangeConsumer
  | run (j : ℕ)

namespace ChainState

variable {chain : Chain E}

def setState (s : ChainState chain) (j : ℕ) (state : SharedState E (chain.Value j)) :
    ChainState chain :=
  { s with states := Function.update s.states j state }

/-- The second part of `Produce` or `Consume`, which may submit the continuation of link `j`. -/
def exchange (s : ChainState chain) (j : ℕ)
    (outcome : Option (Except E (chain.Value j)) × SharedState E (chain.Value j)) :
    ChainState chain :=
  match outcome with
  | (none, state) => s.setState j state
  | (some result, state) =>
      { s.setState j state with tasks := Function.update s.tasks j (some result) }

/-- An executor runs the continuation of link `j`, up to the first part of `Produce`. -/
def runTask (s : ChainState chain) (j : ℕ) : Option (ChainState chain) :=
  (s.tasks j).bind fun result =>
    let (produced, called) := (chain.link j).callback result
    ((s.states (j + 1)).storeResult produced).map fun state =>
      { s.setState (j + 1) state with
        tasks := Function.update s.tasks j none
        calls := if called then s.calls ++ [j] else s.calls }

def step (result : Except E (chain.Value 0)) (s : ChainState chain) :
    ChainEvent → Option (ChainState chain)
  | .produce => ((s.states 0).storeResult result).map (s.setState 0)
  | .exchangeProducer j => (s.states j).exchangeProducer.map (s.exchange j)
  | .attach =>
      if s.attached < chain.length then
        (s.states s.attached).storeCallback.map (s.setState s.attached)
      else none
  | .exchangeConsumer =>
      if s.attached < chain.length then
        (s.states s.attached).exchangeConsumer.map fun outcome =>
          { s.exchange s.attached outcome with attached := s.attached + 1 }
      else none
  | .run j => s.runTask j

variable {result : Except E (chain.Value 0)} {s s' : ChainState chain}

abbrev LinksAttached (s : ChainState chain) : Prop :=
  Attached (fun j => (s.states j).consumer) s.attached chain.length

/-- The continuation of link `j` was submitted and has not run. -/
def Waiting (s : ChainState chain) (j : ℕ) : Prop :=
  (s.states j).Met ∧ (s.states (j + 1)).producer = .before

instance (s : ChainState chain) (j : ℕ) : Decidable (s.Waiting j) :=
  inferInstanceAs (Decidable (_ ∧ _))

/-- Shared state `j` gets the fold up to `j`, and so does the continuation of link `j`. -/
structure Folds (result : Except E (chain.Value 0)) (s : ChainState chain) : Prop where
  valid : ∀ j, (s.states j).Valid (chain.fold result j)
  tasks_eq : ∀ j, s.tasks j = if s.Waiting j then some (chain.fold result j) else none
  met_of_produced : ∀ j, (s.states (j + 1)).producer ≠ .before → (s.states j).Met
  nodup_calls : s.calls.Nodup
  mem_calls : ∀ j, j ∈ s.calls ↔ (s.states (j + 1)).producer ≠ .before ∧
    (chain.link j).applies (chain.fold result j) = true

@[simp] theorem producer_update (j i : ℕ) (state : SharedState E (chain.Value j)) :
    (Function.update s.states j state i).producer =
      if i = j then state.producer else (s.states i).producer := by
  by_cases h : i = j
  · subst h
    rw [Function.update_self, if_pos rfl]
  · rw [Function.update_of_ne h, if_neg h]

@[simp] theorem consumer_update (j i : ℕ) (state : SharedState E (chain.Value j)) :
    (Function.update s.states j state i).consumer =
      if i = j then state.consumer else (s.states i).consumer := by
  by_cases h : i = j
  · subst h
    rw [Function.update_self, if_pos rfl]
  · rw [Function.update_of_ne h, if_neg h]

theorem valid_update (hvalid : ∀ j, (s.states j).Valid (chain.fold result j)) {j : ℕ}
    {state : SharedState E (chain.Value j)} (h : state.Valid (chain.fold result j)) (i : ℕ) :
    (Function.update s.states j state i).Valid (chain.fold result i) := by
  by_cases hi : i = j
  · subst hi
    rwa [Function.update_self]
  · rw [Function.update_of_ne hi]
    exact hvalid i

theorem Folds.setState (h : Folds result s) {j : ℕ} {state : SharedState E (chain.Value j)}
    (hvalid : state.Valid (chain.fold result j)) (hmet : state.Met ↔ (s.states j).Met)
    (hbefore : j ≠ 0 → (state.producer = .before ↔ (s.states j).producer = .before)) :
    Folds result (s.setState j state) := by
  have hmet' : ∀ i, (Function.update s.states j state i).Met ↔ (s.states i).Met := by
    intro i
    by_cases hi : i = j
    · subst hi
      rw [Function.update_self, hmet]
    · rw [Function.update_of_ne hi]
  have hbefore' : ∀ i, (Function.update s.states j state (i + 1)).producer = .before ↔
      (s.states (i + 1)).producer = .before := by
    intro i
    rw [producer_update]
    split_ifs with hi
    · subst hi
      exact hbefore (Nat.succ_ne_zero i)
    · rfl
  refine ⟨valid_update h.valid hvalid, ?_, ?_, h.nodup_calls, ?_⟩
  · intro i
    simp only [Waiting, ChainState.setState, hmet', hbefore']
    exact h.tasks_eq i
  · intro i
    simp only [ChainState.setState, hmet', ne_eq, hbefore']
    exact h.met_of_produced i
  · intro i
    simp only [ChainState.setState, ne_eq, hbefore']
    exact h.mem_calls i

theorem Folds.before_of_not_met (h : Folds result s) {j : ℕ} (hmet : ¬(s.states j).Met) :
    (s.states (j + 1)).producer = .before := by
  by_contra hne
  exact hmet (h.met_of_produced j hne)

theorem Folds.submit (h : Folds result s) {j : ℕ} {state : SharedState E (chain.Value j)}
    (hvalid : state.Valid (chain.fold result j)) (hmet : state.Met)
    (hnot : ¬(s.states j).Met) (hproducer : (s.states j).producer ≠ .before) :
    Folds result { s.setState j state with
      tasks := Function.update s.tasks j (some (chain.fold result j)) } := by
  have hnext := h.before_of_not_met hnot
  have hmet' : ∀ i, (Function.update s.states j state i).Met ↔ i = j ∨ (s.states i).Met := by
    intro i
    by_cases hi : i = j
    · subst hi
      simp [hmet]
    · simp [hi]
  have hbefore' : ∀ i, (Function.update s.states j state i).producer = .before ↔
      (s.states i).producer = .before := by
    intro i
    rw [producer_update]
    split_ifs with hi
    · subst hi
      simp [hmet.1, hproducer]
    · rfl
  refine ⟨valid_update h.valid hvalid, ?_, ?_, h.nodup_calls, ?_⟩
  · intro i
    simp only [Waiting, ChainState.setState, hmet', hbefore']
    by_cases hi : i = j
    · subst hi
      rw [Function.update_self, if_pos ⟨Or.inl rfl, hnext⟩]
    · simp only [Function.update_of_ne hi, hi, false_or]
      exact h.tasks_eq i
  · intro i hi
    simp only [ChainState.setState, hmet', ne_eq, hbefore'] at hi ⊢
    exact Or.inr (h.met_of_produced i hi)
  · intro i
    simp only [ChainState.setState, ne_eq, hbefore']
    exact h.mem_calls i

/-- The continuation of link `j` runs. -/
theorem Folds.run (h : Folds result s) {j : ℕ} (hwaiting : s.Waiting j)
    {state : SharedState E (chain.Value (j + 1))}
    (hvalid : state.Valid (chain.fold result (j + 1))) (hstored : state.producer = .stored) :
    Folds result { s.setState (j + 1) state with
      tasks := Function.update s.tasks j none
      calls := if (chain.link j).applies (chain.fold result j) then s.calls ++ [j]
        else s.calls } := by
  obtain ⟨hmetj, hnext⟩ := hwaiting
  have hnew : j ∉ s.calls := by simp [h.mem_calls, hnext]
  have hmet' : ∀ i, (Function.update s.states (j + 1) state i).Met ↔ (s.states i).Met := by
    intro i
    by_cases hi : i = j + 1
    · subst hi
      simp [SharedState.Met, hstored, hnext]
    · rw [Function.update_of_ne hi]
  have hbefore' : ∀ i, (Function.update s.states (j + 1) state (i + 1)).producer = .before ↔
      i ≠ j ∧ (s.states (i + 1)).producer = .before := by
    intro i
    rw [producer_update]
    by_cases hi : i = j
    · subst hi
      simp [hstored]
    · simp [hi]
  refine ⟨valid_update h.valid hvalid, ?_, ?_, ?_, ?_⟩
  · intro i
    simp only [Waiting, ChainState.setState, hmet', hbefore']
    by_cases hi : i = j
    · subst hi
      simp
    · simp only [Function.update_of_ne hi, ne_eq, hi, not_false_eq_true, true_and]
      exact h.tasks_eq i
  · intro i hi
    simp only [ChainState.setState, hmet', ne_eq, hbefore', not_and_or, not_not] at hi ⊢
    rcases hi with rfl | hi
    · exact hmetj
    · exact h.met_of_produced i hi
  · dsimp only
    split_ifs
    · exact List.nodup_append.2 ⟨h.nodup_calls, List.nodup_singleton _, by
        rintro a ha b hb rfl
        exact hnew (List.mem_singleton.1 hb ▸ ha)⟩
    · exact h.nodup_calls
  · intro i
    simp only [ChainState.setState, ne_eq, hbefore', not_and_or, not_not]
    by_cases hi : i = j
    · subst hi
      split_ifs with happlies
      · simp [happlies]
      · simp [hnew, happlies]
    · rw [or_iff_right hi, ← ne_eq, ← h.mem_calls i]
      split_ifs
      · simp [hi]
      · rfl

/-- The step of a producer, with the phase that it reaches. -/
inductive Produces (result : Except E (chain.Value 0)) (s : ChainState chain) :
    ℕ → Phase → ChainState chain → Prop
  | produce {state} : (s.states 0).producer = .before →
      SharedState.Produced result .stored (s.states 0) state →
      Produces result s 0 .stored (s.setState 0 state)
  | exchange {j state} : (s.states j).producer = .stored →
      SharedState.Produced (chain.fold result j) .exchanged (s.states j) state →
      Produces result s j .exchanged (s.exchange j
        (if (s.states j).consumer = .exchanged then some (chain.fold result j) else none, state))
  | run {j state} : s.Waiting j →
      SharedState.Produced (chain.fold result (j + 1)) .stored (s.states (j + 1)) state →
      Produces result s (j + 1) .stored { s.setState (j + 1) state with
        tasks := Function.update s.tasks j none
        calls := if (chain.link j).applies (chain.fold result j) then s.calls ++ [j]
          else s.calls }

/-- The step of the thread that attaches the links, with the phase that it reaches. -/
inductive Consumes (result : Except E (chain.Value 0)) (s : ChainState chain) :
    Phase → ChainState chain → Prop
  | attach {state} : s.attached < chain.length → (s.states s.attached).consumer = .before →
      SharedState.Consumed (chain.fold result s.attached) .stored (s.states s.attached) state →
      Consumes result s .stored (s.setState s.attached state)
  | exchange {state} : s.attached < chain.length → (s.states s.attached).consumer = .stored →
      SharedState.Consumed (chain.fold result s.attached) .exchanged (s.states s.attached) state →
      Consumes result s .exchanged { s.exchange s.attached
          (if (s.states s.attached).producer = .exchanged then some (chain.fold result s.attached)
            else none, state) with
        attached := s.attached + 1 }

theorem runTask_produces (h : Folds result s) {j : ℕ} (hstep : s.runTask j = some s') :
    Produces result s (j + 1) .stored s' := by
  obtain ⟨input, htask, hstep⟩ := Option.bind_eq_some_iff.1 hstep
  have hwaiting : s.Waiting j := by
    by_contra hnot
    rw [h.tasks_eq, if_neg hnot] at htask
    cases htask
  rw [h.tasks_eq, if_pos hwaiting] at htask
  obtain rfl := Option.some.inj htask
  rw [Link.callback_eq] at hstep
  obtain ⟨state, hstored, rfl⟩ := Option.map_eq_some_iff.1 hstep
  exact .run hwaiting (SharedState.storeResult_eq_some (h.valid (j + 1)) hstored).2

theorem step_cases (h : Folds result s) {event : ChainEvent}
    (hstep : s.step result event = some s') :
    (∃ j phase, Produces result s j phase s') ∨ ∃ phase, Consumes result s phase s' := by
  cases event with
  | produce =>
      obtain ⟨state, hstored, rfl⟩ := Option.map_eq_some_iff.1 hstep
      obtain ⟨hbefore, hproduced⟩ := SharedState.storeResult_eq_some (h.valid 0) hstored
      exact .inl ⟨0, .stored, .produce hbefore hproduced⟩
  | exchangeProducer j =>
      obtain ⟨⟨task, state⟩, hexchange, rfl⟩ := Option.map_eq_some_iff.1 hstep
      obtain ⟨hstored, hproduced, rfl⟩ :=
        SharedState.exchangeProducer_eq_some (h.valid j) hexchange
      exact .inl ⟨j, .exchanged, .exchange hstored hproduced⟩
  | attach =>
      rw [step] at hstep
      split_ifs at hstep with hlt
      obtain ⟨state, hstored, rfl⟩ := Option.map_eq_some_iff.1 hstep
      obtain ⟨hbefore, hconsumed⟩ :=
        SharedState.storeCallback_eq_some (h.valid s.attached) hstored
      exact .inr ⟨.stored, .attach hlt hbefore hconsumed⟩
  | exchangeConsumer =>
      rw [step] at hstep
      split_ifs at hstep with hlt
      obtain ⟨⟨task, state⟩, hexchange, rfl⟩ := Option.map_eq_some_iff.1 hstep
      obtain ⟨hstored, hconsumed, rfl⟩ :=
        SharedState.exchangeConsumer_eq_some (h.valid s.attached) hexchange
      exact .inr ⟨.exchanged, .exchange hlt hstored hconsumed⟩
  | run j => exact .inl ⟨j + 1, .stored, runTask_produces h hstep⟩

theorem Produces.folds {j : ℕ} {phase : Phase} (hstep : Produces result s j phase s')
    (h : Folds result s) : Folds result s' := by
  cases hstep with
  | produce hbefore hproduced =>
      refine h.setState hproduced.valid ?_ ?_
      · simp [SharedState.Met, hproduced.producer_eq, hbefore]
      · intro hzero
        exact absurd rfl hzero
  | @exchange j state hstored hproduced =>
      have hnot : ¬(s.states j).Met := by simp [SharedState.Met, hstored]
      by_cases hconsumer : (s.states j).consumer = .exchanged
      · rw [if_pos hconsumer]
        refine h.submit hproduced.valid ?_ hnot (by simp [hstored])
        exact ⟨hproduced.producer_eq, hproduced.consumer_eq.trans hconsumer⟩
      · rw [if_neg hconsumer]
        refine h.setState hproduced.valid ?_ ?_
        · simp [SharedState.Met, hproduced.consumer_eq, hconsumer]
        · intro _
          simp [hproduced.producer_eq, hstored]
  | run hwaiting hproduced => exact h.run hwaiting hproduced.valid hproduced.producer_eq

theorem Consumes.folds {phase : Phase} (hstep : Consumes result s phase s')
    (h : Folds result s) : Folds result s' := by
  cases hstep with
  | attach hlt hbefore hconsumed =>
      refine h.setState hconsumed.valid ?_ ?_
      · simp [SharedState.Met, hconsumed.consumer_eq, hbefore]
      · intro _
        rw [hconsumed.producer_eq]
  | @exchange state hlt hstored hconsumed =>
      have hnot : ¬(s.states s.attached).Met := by simp [SharedState.Met, hstored]
      by_cases hproducer : (s.states s.attached).producer = .exchanged
      · rw [if_pos hproducer]
        have hfolds := h.submit hconsumed.valid
          ⟨hconsumed.producer_eq.trans hproducer, hconsumed.consumer_eq⟩ hnot (by simp [hproducer])
        exact ⟨hfolds.valid, hfolds.tasks_eq, hfolds.met_of_produced, hfolds.nodup_calls,
          hfolds.mem_calls⟩
      · rw [if_neg hproducer]
        have hfolds := h.setState hconsumed.valid
          (by simp [SharedState.Met, hconsumed.producer_eq, hproducer])
          (fun _ => by rw [hconsumed.producer_eq])
        exact ⟨hfolds.valid, hfolds.tasks_eq, hfolds.met_of_produced, hfolds.nodup_calls,
          hfolds.mem_calls⟩

@[simp] theorem states_exchange (j i : ℕ) (task : Option (Except E (chain.Value j)))
    (state : SharedState E (chain.Value j)) :
    (s.exchange j (task, state)).states i = Function.update s.states j state i := by
  cases task <;> rfl

@[simp] theorem attached_exchange (j : ℕ) (task : Option (Except E (chain.Value j)))
    (state : SharedState E (chain.Value j)) :
    (s.exchange j (task, state)).attached = s.attached := by
  cases task <;> rfl

theorem phases_update_produced {j : ℕ} {r : Except E (chain.Value j)} {phase : Phase}
    {state : SharedState E (chain.Value j)}
    (h : SharedState.Produced r phase (s.states j) state) (i : ℕ) :
    (Function.update s.states j state i).producer =
        (if i = j then phase else (s.states i).producer) ∧
      (Function.update s.states j state i).consumer = (s.states i).consumer := by
  by_cases hi : i = j
  · subst hi
    simp [h.producer_eq, h.consumer_eq]
  · simp [hi]

theorem phases_update_consumed {j : ℕ} {r : Except E (chain.Value j)} {phase : Phase}
    {state : SharedState E (chain.Value j)}
    (h : SharedState.Consumed r phase (s.states j) state) (i : ℕ) :
    (Function.update s.states j state i).producer = (s.states i).producer ∧
      (Function.update s.states j state i).consumer =
        if i = j then phase else (s.states i).consumer := by
  by_cases hi : i = j
  · subst hi
    simp [h.producer_eq, h.consumer_eq]
  · simp [hi]

theorem Produces.phases {j : ℕ} {phase : Phase} (hstep : Produces result s j phase s') :
    s'.attached = s.attached ∧ phase.rank = (s.states j).producer.rank + 1 ∧
      ∀ i, (s'.states i).producer = (if i = j then phase else (s.states i).producer) ∧
        (s'.states i).consumer = (s.states i).consumer := by
  cases hstep with
  | produce hbefore hproduced =>
      exact ⟨rfl, by rw [hbefore]; rfl, phases_update_produced hproduced⟩
  | exchange hstored hproduced =>
      refine ⟨attached_exchange .., by rw [hstored]; rfl, ?_⟩
      simpa only [states_exchange] using phases_update_produced hproduced
  | run hwaiting hproduced =>
      exact ⟨rfl, by rw [hwaiting.2]; rfl, phases_update_produced hproduced⟩

theorem Consumes.phases {phase : Phase} (hstep : Consumes result s phase s') :
    s.attached < chain.length ∧
      s'.attached = (if phase = .exchanged then s.attached + 1 else s.attached) ∧
      phase.rank = (s.states s.attached).consumer.rank + 1 ∧
      ∀ i, (s'.states i).producer = (s.states i).producer ∧
        (s'.states i).consumer = if i = s.attached then phase else (s.states i).consumer := by
  cases hstep with
  | attach hlt hbefore hconsumed =>
      exact ⟨hlt, rfl, by rw [hbefore]; rfl, phases_update_consumed hconsumed⟩
  | exchange hlt hstored hconsumed =>
      refine ⟨hlt, rfl, by rw [hstored]; rfl, ?_⟩
      simpa only [states_exchange] using phases_update_consumed hconsumed

theorem Produces.keeps_attached {j : ℕ} {phase : Phase} (hstep : Produces result s j phase s')
    (h : LinksAttached s) : LinksAttached s' := by
  obtain ⟨hattached, -, hphases⟩ := hstep.phases
  simpa only [LinksAttached, hattached, (hphases _).2] using h

theorem Consumes.keeps_attached {phase : Phase} (hstep : Consumes result s phase s')
    (h : LinksAttached s) : LinksAttached s' := by
  obtain ⟨hlt, hattached, hrank, hphases⟩ := hstep.phases
  rw [LinksAttached, hattached]
  exact h.step hlt hrank fun i => (hphases i).2

theorem Folds.le_length_of_produced (h : Folds result s) (hattached : LinksAttached s) {j : ℕ}
    (hj : (s.states j).producer ≠ .before) : j ≤ chain.length := by
  cases j with
  | zero => exact Nat.zero_le _
  | succ j =>
      have hlt := hattached.lt_of_exchanged (h.met_of_produced j hj).2
      exact Nat.succ_le_of_lt (hlt.trans_le hattached.le_length)

theorem Produces.le_length {j : ℕ} {phase : Phase} (hstep : Produces result s j phase s')
    (h : Folds result s) (hattached : LinksAttached s) : j ≤ chain.length := by
  have hproduced : (s'.states j).producer ≠ .before := by
    obtain ⟨-, hrank, hphases⟩ := hstep.phases
    rw [(hphases j).1, if_pos rfl]
    rintro rfl
    cases hrank
  exact (hstep.folds h).le_length_of_produced (hstep.keeps_attached hattached) hproduced

def progress (s : ChainState chain) : ℕ :=
  ∑ j ∈ Finset.range (chain.length + 1), (s.states j).producer.rank +
    ∑ j ∈ Finset.range chain.length, (s.states j).consumer.rank

theorem progress_step (h : Folds result s) (hattached : LinksAttached s) {event : ChainEvent}
    (hstep : s.step result event = some s') : s'.progress = s.progress + 1 := by
  rcases step_cases h hstep with ⟨j, phase, hproduces⟩ | ⟨phase, hconsumes⟩
  · obtain ⟨-, hrank, hphases⟩ := hproduces.phases
    have hlt : j < chain.length + 1 := Nat.lt_succ_of_le (hproduces.le_length h hattached)
    have hsum := sum_rank_succ hlt (g := fun i => (s'.states i).producer)
      (f := fun i => (s.states i).producer) hrank fun i => (hphases i).1
    simp only [progress, (hphases _).2]
    omega
  · obtain ⟨hlt, -, hrank, hphases⟩ := hconsumes.phases
    have hsum := sum_rank_succ hlt (g := fun i => (s'.states i).consumer)
      (f := fun i => (s.states i).consumer) hrank fun i => (hphases i).2
    simp only [progress, (hphases _).1]
    omega

theorem progress_le (s : ChainState chain) : s.progress ≤ 4 * chain.length + 2 := by
  have hproducers := sum_rank_le (chain.length + 1) fun j => (s.states j).producer
  have hconsumers := sum_rank_le chain.length fun j => (s.states j).consumer
  rw [progress]
  omega

theorem folds_initial (result : Except E (chain.Value 0)) :
    Folds result ({} : ChainState chain) := by
  refine ⟨fun j => SharedState.valid_initial _, ?_, ?_, List.nodup_nil, ?_⟩
  · intro j
    simp [Waiting, SharedState.Met]
  · intro j hj
    exact absurd rfl hj
  · intro j
    simp

theorem progress_initial : ({} : ChainState chain).progress = 0 := by
  simp [progress, Phase.rank]

theorem step_invariant (h : Folds result s) (hattached : LinksAttached s) {event : ChainEvent}
    (hstep : s.step result event = some s') : Folds result s' ∧ LinksAttached s' := by
  rcases step_cases h hstep with ⟨j, phase, hproduces⟩ | ⟨phase, hconsumes⟩
  · exact ⟨hproduces.folds h, hproduces.keeps_attached hattached⟩
  · exact ⟨hconsumes.folds h, hconsumes.keeps_attached hattached⟩

theorem run_invariant (h : Folds result s) (hattached : LinksAttached s) {events : List ChainEvent}
    (hrun : run (step result) s events = some s') :
    Folds result s' ∧ LinksAttached s' ∧ s'.progress = s.progress + events.length := by
  induction events generalizing s with
  | nil =>
      obtain rfl := Option.some.inj hrun
      exact ⟨h, hattached, rfl⟩
  | cons event events ih =>
      obtain ⟨middle, hstep, hrest⟩ := Option.bind_eq_some_iff.1 hrun
      obtain ⟨hfolds, hattached'⟩ := step_invariant h hattached hstep
      obtain ⟨hfolds', hlast, hprogress⟩ := ih hfolds hattached' hrest
      refine ⟨hfolds', hlast, ?_⟩
      rw [hprogress, progress_step h hattached hstep, List.length_cons]
      omega

/-- No thread and no executor has anything left to do. -/
def Quiescent (result : Except E (chain.Value 0)) (s : ChainState chain) : Prop :=
  ∀ event, s.step result event = none

theorem Quiescent.attached_eq (hquiet : Quiescent result s) (h : LinksAttached s) :
    s.attached = chain.length := by
  by_contra hne
  have hlt : s.attached < chain.length := lt_of_le_of_ne h.le_length hne
  rcases h.current with hbefore | ⟨hstored, -⟩
  · have hattach := hquiet .attach
    simp [step, hlt, SharedState.storeCallback, hbefore] at hattach
  · have hexchange := hquiet .exchangeConsumer
    simp [step, hlt, SharedState.exchangeConsumer, hstored] at hexchange

theorem Quiescent.not_stored (hquiet : Quiescent result s) (j : ℕ) :
    (s.states j).producer ≠ .stored := by
  intro hstored
  have hexchange := hquiet (.exchangeProducer j)
  simp [step, SharedState.exchangeProducer, hstored] at hexchange

theorem Quiescent.not_waiting (hquiet : Quiescent result s) (h : Folds result s) (j : ℕ) :
    ¬s.Waiting j := by
  intro hwaiting
  have hrun := hquiet (.run j)
  rw [step, runTask, h.tasks_eq, if_pos hwaiting] at hrun
  simp [SharedState.storeResult, hwaiting.2] at hrun

/-- The result has passed through the whole chain: the induction is along the links. -/
theorem Quiescent.produced (hquiet : Quiescent result s) (h : Folds result s)
    (hattached : LinksAttached s) {j : ℕ} (hj : j ≤ chain.length) :
    (s.states j).producer = .exchanged := by
  induction j with
  | zero =>
      cases hproducer : (s.states 0).producer with
      | before =>
          have hproduce := hquiet .produce
          simp [step, SharedState.storeResult, hproducer] at hproduce
      | stored => exact absurd hproducer (hquiet.not_stored 0)
      | exchanged => rfl
  | succ j ih =>
      have hconsumer := hattached.exchanged_of_lt j (by rw [hquiet.attached_eq hattached]; omega)
      have hmet : (s.states j).Met := ⟨ih (by omega), hconsumer⟩
      cases hproducer : (s.states (j + 1)).producer with
      | before => exact absurd ⟨hmet, hproducer⟩ (hquiet.not_waiting h j)
      | stored => exact absurd hproducer (hquiet.not_stored (j + 1))
      | exchanged => rfl

end ChainState

open ChainState

def ChainState.finalResult {chain : Chain E} (s : ChainState chain) :
    Option (Except E (chain.Value chain.length)) :=
  (s.states chain.length).resultPlaceholder

/-- Every run of a chain ends. The result of the last future is never another one than the fold,
and it is there when nothing is left to do; every function is called at most once, and only and
finally always when its case applies. -/
theorem chain_computes_fold {chain : Chain E} {result : Except E (chain.Value 0)}
    {events : List ChainEvent} {s : ChainState chain}
    (hrun : run (ChainState.step result) {} events = some s) :
    events.length ≤ 4 * chain.length + 2 ∧
    (∀ r, s.finalResult = some r → r = chain.fold result chain.length) ∧
    s.calls.Nodup ∧
    (∀ j ∈ s.calls, j < chain.length ∧
      (chain.link j).applies (chain.fold result j) = true) ∧
    (Quiescent result s → s.finalResult = some (chain.fold result chain.length) ∧
      ∀ j, j ∈ s.calls ↔ j < chain.length ∧
        (chain.link j).applies (chain.fold result j) = true) := by
  obtain ⟨h, hattached, hprogress⟩ := run_invariant (folds_initial result) (Attached.initial _) hrun
  have hcalls : ∀ j ∈ s.calls, j < chain.length ∧
      (chain.link j).applies (chain.fold result j) = true := by
    intro j hj
    obtain ⟨hproduced, happlies⟩ := (h.mem_calls j).1 hj
    exact ⟨h.le_length_of_produced hattached hproduced, happlies⟩
  refine ⟨?_, ?_, h.nodup_calls, hcalls, ?_⟩
  · have hle := s.progress_le
    rw [hprogress, progress_initial] at hle
    omega
  · intro r hr
    have hfinal := (h.valid chain.length).resultPlaceholder_eq
    rw [← finalResult, hr] at hfinal
    split_ifs at hfinal
    exact Option.some.inj hfinal
  · intro hquiet
    have hproduced : ∀ j ≤ chain.length, (s.states j).producer = .exchanged :=
      fun j hj => hquiet.produced h hattached hj
    constructor
    · have hconsumer : (s.states chain.length).consumer = .before := by
        have hcurrent := hattached.current
        rw [hquiet.attached_eq hattached] at hcurrent
        exact hcurrent.resolve_right fun hstored => absurd hstored.2 (lt_irrefl _)
      rw [finalResult, (h.valid chain.length).resultPlaceholder_eq, if_neg]
      simp [SharedState.Met, hproduced chain.length le_rfl, hconsumer]
    · intro j
      refine ⟨hcalls j, ?_⟩
      rintro ⟨hlt, happlies⟩
      refine (h.mem_calls j).2 ⟨?_, happlies⟩
      simp [hproduced (j + 1) hlt]

def reviveChain : Chain ℕ where
  Value _ := ℕ
  link
    | 0 => .Then fun value => .ok (value * 2)
    | _ => .Else fun _ => .ok 100
  length := 2

/-- The error is produced between the two parts of the first attachment. -/
theorem reviveChain_computes_fold :
    ∃ s, run (ChainState.step (.error 1)) ({} : ChainState reviveChain)
        [.attach, .produce, .exchangeProducer 0, .exchangeConsumer, .run 0, .attach,
          .exchangeConsumer, .exchangeProducer 1, .run 1, .exchangeProducer 2] = some s ∧
      ∀ r, s.finalResult = some r → r = reviveChain.fold (.error 1) 2 := by
  have hsome : (run (ChainState.step (.error 1)) ({} : ChainState reviveChain)
      [.attach, .produce, .exchangeProducer 0, .exchangeConsumer, .run 0, .attach,
        .exchangeConsumer, .exchangeProducer 1, .run 1, .exchangeProducer 2]).isSome := by
    decide
  obtain ⟨s, hrun⟩ := Option.isSome_iff_exists.1 hsome
  exact ⟨s, hrun, (chain_computes_fold hrun).2.1⟩

end BroadcastService.Futures

import BroadcastService.Combinators

/-!
# The outcome of combinators

The order in which the callbacks of `Combine` run, and what the returned future gets. With
`JustExecute` the callback of a future that completes when the combinator is attached to it runs at
once, so such futures are seen in the order of their completion; the futures that had completed
before they were attached are seen in the order of the vector, and not in that of their completion
(`early_futures_in_vector_order`).
-/

namespace BroadcastService.Futures
open TransitionSystem

variable {E T R C : Type*}

open Combining

/-- The inputs in the order in which they completed. -/
def completionOrder (events : List CombineEvent) : List ℕ :=
  events.filterMap fun
    | .exchangeProducer i => some i
    | _ => none

/-- What the events say about the inputs: how many are attached, which ones completed before they
were attached, and those that are attached and completed, in the order in which they came to be. -/
structure Rendezvous where
  attached : ℕ := 0
  early : List ℕ := []
  met : List ℕ := []

def Rendezvous.step (r : Rendezvous) : CombineEvent → Rendezvous
  | .exchangeProducer i =>
      if i < r.attached then { r with met := r.met ++ [i] }
      else { r with early := r.early ++ [i] }
  | .exchangeConsumer =>
      { r with
        attached := r.attached + 1
        met := if r.attached ∈ r.early then r.met ++ [r.attached] else r.met }
  | _ => r

def rendezvous (events : List CombineEvent) : Rendezvous := events.foldl Rendezvous.step {}

theorem rendezvous_append (events : List CombineEvent) (event : CombineEvent) :
    rendezvous (events ++ [event]) = (rendezvous events).step event := List.foldl_concat ..

theorem completionOrder_append (events : List CombineEvent) (event : CombineEvent) :
    completionOrder (events ++ [event]) = completionOrder events ++ completionOrder [event] :=
  List.filterMap_append

/-- The inputs that completed when they were attached are met in the order of their completion, and
the early ones in the order in which they are attached. -/
structure Rendezvous.Sorted (r : Rendezvous) (completed : List ℕ) : Prop where
  early_subset : r.early ⊆ completed
  late_eq : r.met.filter (· ∉ r.early) = completed.filter (· ∉ r.early)
  early_eq : r.met.filter (· ∈ r.early) = (List.range r.attached).filter (· ∈ r.early)

namespace Rendezvous.Sorted

variable {r : Rendezvous} {completed : List ℕ}

theorem not_mem_met (h : r.Sorted completed) {i : ℕ} (hi : i ∉ completed) : i ∉ r.met := by
  intro hmet
  have hearly : i ∉ r.early := fun hmem => hi (h.early_subset hmem)
  have hmem : i ∈ r.met.filter (· ∉ r.early) := List.mem_filter.2 ⟨hmet, by simpa using hearly⟩
  rw [h.late_eq] at hmem
  exact hi (List.mem_of_mem_filter hmem)

theorem late (h : r.Sorted completed) {i : ℕ} (hi : i ∉ completed) :
    Rendezvous.Sorted { r with met := r.met ++ [i] } (completed ++ [i]) := by
  have hearly : i ∉ r.early := fun hmem => hi (h.early_subset hmem)
  refine ⟨fun j hj => List.mem_append_left _ (h.early_subset hj), ?_, ?_⟩
  · rw [List.filter_append, List.filter_append, h.late_eq]
  · rw [List.filter_append, h.early_eq]
    simp [hearly]

theorem mem_early {l early : List ℕ} {i j : ℕ} (hi : i ∉ l) (hj : j ∈ l) :
    j ∈ early ++ [i] ↔ j ∈ early := by
  have hne : j ≠ i := fun he => hi (he ▸ hj)
  simp [hne]

theorem filter_early {l : List ℕ} {i : ℕ} (hi : i ∉ l) (early : List ℕ) :
    l.filter (· ∈ early ++ [i]) = l.filter (· ∈ early) :=
  List.filter_congr fun _ hj => decide_eq_decide.2 (mem_early hi hj)

theorem filter_not_early {l : List ℕ} {i : ℕ} (hi : i ∉ l) (early : List ℕ) :
    l.filter (· ∉ early ++ [i]) = l.filter (· ∉ early) :=
  List.filter_congr fun _ hj => decide_eq_decide.2 (not_congr (mem_early hi hj))

theorem early (h : r.Sorted completed) {i : ℕ} (hi : i ∉ completed) (hle : r.attached ≤ i) :
    Rendezvous.Sorted { r with early := r.early ++ [i] } (completed ++ [i]) := by
  have hmet := h.not_mem_met hi
  refine ⟨?_, ?_, ?_⟩
  · exact List.append_subset.2
      ⟨fun j hj => List.mem_append_left _ (h.early_subset hj), List.subset_append_right ..⟩
  · rw [filter_not_early hmet, h.late_eq, List.filter_append, filter_not_early hi]
    simp
  · rw [filter_early hmet, h.early_eq, filter_early (by simpa using hle)]

theorem exchangeProducer (h : r.Sorted completed) {i : ℕ} (hi : i ∉ completed) :
    (r.step (.exchangeProducer i)).Sorted (completed ++ [i]) := by
  rw [Rendezvous.step]
  split_ifs with hlt
  · exact h.late hi
  · exact h.early hi (not_lt.1 hlt)

theorem attach (h : r.Sorted completed) :
    Rendezvous.Sorted
      { r with
        attached := r.attached + 1
        met := if r.attached ∈ r.early then r.met ++ [r.attached] else r.met } completed := by
  refine ⟨h.early_subset, ?_, ?_⟩
  · dsimp only
    split_ifs with hearly
    · rw [List.filter_append, h.late_eq]
      simp [hearly]
    · exact h.late_eq
  · dsimp only
    rw [List.range_succ, List.filter_append]
    split_ifs with hearly
    · rw [List.filter_append, h.early_eq]
    · rw [h.early_eq]
      simp [hearly]

end Rendezvous.Sorted

namespace Combining

variable {combinator : Combinator E T R C} {size : ℕ} {executor : ℕ → Executor}
  {results : ℕ → Except E T} {s s' : Combining E T C}

/-- The callbacks of `JustExecute` ran in the order in which the two sides of their inputs met. -/
structure Ordered (executor : ℕ → Executor) (events : List CombineEvent) (s : Combining E T C) :
    Prop where
  attached_eq : (rendezvous events).attached = s.attached
  completed_iff : ∀ i, i ∈ completionOrder events ↔ (s.inputs i).producer = .exchanged
  early_of_le : ∀ i, s.attached ≤ i → (s.inputs i).producer = .exchanged →
    i ∈ (rendezvous events).early
  sorted : (rendezvous events).Sorted (completionOrder events)
  queued : ∀ task ∈ s.tasks, executor task.1 = .queued
  ran_eq : (s.ran.map Prod.fst).filter (executor · = .justExecute) =
    (rendezvous events).met.filter (executor · = .justExecute)

theorem queued_execute {task : ℕ × Except E T} (h : ∀ task ∈ s.tasks, executor task.1 = .queued) :
    ∀ task' ∈ (s.execute combinator executor task).tasks, executor task'.1 = .queued := by
  rw [execute]
  split
  · exact h
  · rename_i hqueued
    exact List.forall_mem_append.2 ⟨h, List.forall_mem_singleton.2 hqueued⟩

theorem ran_execute (task : ℕ × Except E T) :
    ((s.execute combinator executor task).ran.map Prod.fst).filter
        (executor · = .justExecute) =
      (s.ran.map Prod.fst).filter (executor · = .justExecute) ++
        [task.1].filter (executor · = .justExecute) := by
  rw [execute]
  split
  · rw [runCallback, List.map_append, List.filter_append]
    rfl
  · rename_i hqueued
    simp [hqueued]

@[simp] theorem inputs_exchange (i : ℕ) (outcome : Option (Except E T) × SharedState E T) :
    (s.exchange combinator executor i outcome).inputs = Function.update s.inputs i outcome.2 := by
  rw [exchange.eq_def]
  split
  · rfl
  · rw [inputs_execute]
    rfl

@[simp] theorem attached_exchange (i : ℕ) (outcome : Option (Except E T) × SharedState E T) :
    (s.exchange combinator executor i outcome).attached = s.attached := by
  rw [exchange.eq_def]
  split
  · rfl
  · rw [attached_execute]
    rfl

/-- An exchange that submits the callback exactly when the input is met. -/
theorem Ordered.exchange (combinator : Combinator E T R C) {events : List CombineEvent}
    (h : Ordered executor events s) (i : ℕ) (state : SharedState E T) {met : Prop}
    [Decidable met] {task : Option (Except E T)}
    (htask : task = if met then some (results i) else none) :
    (∀ task' ∈ (s.exchange combinator executor i (task, state)).tasks,
      executor task'.1 = .queued) ∧
    ((s.exchange combinator executor i (task, state)).ran.map Prod.fst).filter
        (executor · = .justExecute) =
      (if met then (rendezvous events).met ++ [i] else (rendezvous events).met).filter
        (executor · = .justExecute) := by
  by_cases hmet : met
  · rw [htask, if_pos hmet, if_pos hmet, List.filter_append, ← h.ran_eq]
    exact ⟨@queued_execute E T R C combinator executor (s.setInput i state) _ h.queued,
      @ran_execute E T R C combinator executor (s.setInput i state) _⟩
  · rw [htask, if_neg hmet, if_neg hmet]
    exact ⟨h.queued, h.ran_eq⟩

theorem Ordered.quiet {events : List CombineEvent} (h : Ordered executor events s)
    {event : CombineEvent} (hquiet : (rendezvous events).step event = rendezvous events)
    (hcompleted : completionOrder [event] = []) (hattached : s'.attached = s.attached)
    (hproducer : ∀ j, (s'.inputs j).producer = .exchanged ↔ (s.inputs j).producer = .exchanged)
    (hqueued : ∀ task ∈ s'.tasks, executor task.1 = .queued)
    (hran : (s'.ran.map Prod.fst).filter (executor · = .justExecute) =
      (s.ran.map Prod.fst).filter (executor · = .justExecute)) :
    Ordered executor (events ++ [event]) s' := by
  refine ⟨?_, ?_, ?_, ?_, hqueued, ?_⟩
  · rw [rendezvous_append, hquiet, hattached]
    exact h.attached_eq
  · intro i
    rw [completionOrder_append, hcompleted, List.append_nil, hproducer]
    exact h.completed_iff i
  · intro i hle hexchanged
    rw [rendezvous_append, hquiet]
    exact h.early_of_le i (hattached ▸ hle) ((hproducer i).1 hexchanged)
  · rw [rendezvous_append, hquiet, completionOrder_append, hcompleted, List.append_nil]
    exact h.sorted
  · rw [rendezvous_append, hquiet, hran]
    exact h.ran_eq

theorem Ordered.exchangeProducer {events : List CombineEvent} (h : Ordered executor events s)
    (hcollects : Collects combinator size results s) (hattached : InputsAttached size s) {i : ℕ}
    (hstep : s.step combinator size executor results (.exchangeProducer i) = some s') :
    Ordered executor (events ++ [.exchangeProducer i]) s' := by
  obtain ⟨⟨task, state⟩, hexchange, rfl⟩ := Option.map_eq_some_iff.1 hstep
  obtain ⟨hstored, hproduced, htask⟩ :=
    SharedState.exchangeProducer_eq_some (hcollects.valid i) hexchange
  have hmet : (s.inputs i).consumer = .exchanged ↔ i < (rendezvous events).attached := by
    rw [h.attached_eq]
    exact ⟨hattached.lt_of_exchanged, hattached.exchanged_of_lt i⟩
  have hnot : i ∉ completionOrder events := by
    rw [h.completed_iff, hstored]
    decide
  obtain ⟨hqueued, hran⟩ :=
    h.exchange combinator i state (htask.trans (if_congr hmet rfl rfl))
  have hproducer : ∀ j, ((s.exchange combinator executor i (task, state)).inputs j).producer =
      if j = i then .exchanged else (s.inputs j).producer := by
    intro j
    rw [inputs_exchange, producer_update, hproduced.producer_eq]
  have hearly : ∀ j ∈ (rendezvous events).early,
      j ∈ ((rendezvous events).step (.exchangeProducer i)).early := by
    intro j hj
    rw [Rendezvous.step]
    split_ifs
    · exact hj
    · exact List.mem_append_left _ hj
  refine ⟨?_, ?_, ?_, ?_, hqueued, hran.trans ?_⟩
  · rw [rendezvous_append, attached_exchange, ← h.attached_eq, Rendezvous.step]
    split_ifs <;> rfl
  · intro j
    rw [completionOrder_append, List.mem_append, h.completed_iff, hproducer]
    by_cases hj : j = i
    · simp [hj, completionOrder]
    · simp [hj, completionOrder]
  · intro j hle hexchanged
    rw [attached_exchange] at hle
    rw [hproducer] at hexchanged
    rw [rendezvous_append]
    split_ifs at hexchanged with hj
    · rw [hj, Rendezvous.step, if_neg (by rw [h.attached_eq]; omega)]
      exact List.mem_append_right _ List.mem_cons_self
    · exact hearly j (h.early_of_le j hle hexchanged)
  · rw [rendezvous_append, completionOrder_append]
    exact h.sorted.exchangeProducer hnot
  · rw [rendezvous_append, Rendezvous.step]
    split_ifs <;> rfl

theorem Ordered.exchangeConsumer {events : List CombineEvent} (h : Ordered executor events s)
    (hcollects : Collects combinator size results s)
    (hstep : s.step combinator size executor results .exchangeConsumer = some s') :
    Ordered executor (events ++ [.exchangeConsumer]) s' := by
  rw [step] at hstep
  split_ifs at hstep with hlt
  obtain ⟨⟨task, state⟩, hexchange, rfl⟩ := Option.map_eq_some_iff.1 hstep
  obtain ⟨hstored, hconsumed, htask⟩ :=
    SharedState.exchangeConsumer_eq_some (hcollects.valid s.attached) hexchange
  have hmet : (s.inputs s.attached).producer = .exchanged ↔
      s.attached ∈ (rendezvous events).early :=
    ⟨h.early_of_le _ le_rfl, fun hmem => (h.completed_iff _).1 (h.sorted.early_subset hmem)⟩
  obtain ⟨hqueued, hran⟩ :=
    h.exchange combinator s.attached state (htask.trans (if_congr hmet rfl rfl))
  have hproducer : ∀ j,
      ((s.exchange combinator executor s.attached (task, state)).inputs j).producer =
        (s.inputs j).producer := by
    intro j
    rw [inputs_exchange, producer_update, hconsumed.producer_eq]
    split_ifs with hj
    · rw [hj]
    · rfl
  refine ⟨?_, ?_, ?_, ?_, hqueued, hran.trans ?_⟩
  · rw [rendezvous_append, ← h.attached_eq]
    rfl
  · intro j
    rw [completionOrder_append, hproducer, ← h.completed_iff]
    exact List.mem_append.trans (or_iff_left (List.not_mem_nil))
  · intro j hle hexchanged
    rw [hproducer] at hexchanged
    rw [rendezvous_append]
    exact h.early_of_le j (Nat.le_of_succ_le hle) hexchanged
  · rw [rendezvous_append, completionOrder_append]
    have hnone : completionOrder [.exchangeConsumer] = [] := rfl
    rw [hnone, List.append_nil]
    exact h.sorted.attach
  · rw [rendezvous_append, Rendezvous.step, h.attached_eq]

theorem Ordered.step {events : List CombineEvent} (h : Ordered executor events s)
    (hcollects : Collects combinator size results s) (hattached : InputsAttached size s)
    {event : CombineEvent} (hstep : s.step combinator size executor results event = some s') :
    Ordered executor (events ++ [event]) s' := by
  cases event with
  | complete i =>
      rw [Combining.step] at hstep
      split_ifs at hstep
      obtain ⟨state, hstored, rfl⟩ := Option.map_eq_some_iff.1 hstep
      obtain ⟨hbefore, hproduced⟩ := SharedState.storeResult_eq_some (hcollects.valid i) hstored
      refine h.quiet rfl rfl rfl (fun j => ?_) h.queued rfl
      rw [setInput, producer_update, hproduced.producer_eq]
      split_ifs with hj
      · simp [hj, hbefore]
      · rfl
  | exchangeProducer i => exact h.exchangeProducer hcollects hattached hstep
  | attach =>
      rw [Combining.step] at hstep
      split_ifs at hstep
      obtain ⟨state, hstored, rfl⟩ := Option.map_eq_some_iff.1 hstep
      obtain ⟨-, hconsumed⟩ :=
        SharedState.storeCallback_eq_some (hcollects.valid s.attached) hstored
      refine h.quiet rfl rfl rfl (fun j => ?_) h.queued rfl
      rw [setInput, producer_update, hconsumed.producer_eq]
      split_ifs with hj
      · rw [hj]
      · rfl
  | exchangeConsumer => exact h.exchangeConsumer hcollects hstep
  | run k =>
      obtain ⟨task, hk, rfl⟩ := Option.map_eq_some_iff.1 hstep
      have hqueued := h.queued task (List.mem_of_getElem? hk)
      refine h.quiet rfl rfl rfl (fun j => .rfl) ?_ ?_
      · exact fun task' htask' => h.queued task' (List.mem_of_mem_eraseIdx htask')
      · rw [runCallback, List.map_append, List.filter_append]
        simp [hqueued]

theorem ordered_initial : Ordered executor [] (initial combinator size) :=
  ⟨rfl, fun i => by simp [completionOrder, initial], fun i _ h => by simp [initial] at h,
    ⟨List.Subset.refl _, rfl, rfl⟩, List.forall_mem_nil _, rfl⟩

theorem run_ordered {before events : List CombineEvent} (h : Ordered executor before s)
    (hcollects : Collects combinator size results s) (hattached : InputsAttached size s)
    (hrun : run (Combining.step combinator size executor results) s events = some s') :
    Ordered executor (before ++ events) s' := by
  induction events generalizing s before with
  | nil =>
      obtain rfl := Option.some.inj hrun
      rwa [List.append_nil]
  | cons event events ih =>
      obtain ⟨middle, hstep, hrest⟩ := Option.bind_eq_some_iff.1 hrun
      obtain ⟨hcollects', hmoves⟩ := step_collects hcollects hstep
      have hlast := ih (h.step hcollects hattached hstep) hcollects'
        (hmoves.keeps_attached hattached) hrest
      rwa [List.append_assoc, List.singleton_append] at hlast

end Combining

/-- What a run of a combinator has done: the callbacks that ran were those of different inputs, with
their results; at the end they are those of all inputs, each once. With `JustExecute` they ran in
the order in which the inputs became attached and completed: in the order of completion those that
completed when they were attached, and in the order of the vector, when they were attached, those
that had completed before. `fulfilled` is what is in the shared state of the returned future after
the given callbacks. -/
structure Fulfils (combinator : Combinator E T R C) (size : ℕ) (executor : ℕ → Executor)
    (results : ℕ → Except E T) (fulfilled : List (Except E T) → List (Except E R))
    (events : List CombineEvent) (s : Combining E T C) : Prop where
  length_le : events.length ≤ 5 * size
  nodup_ran : (s.ran.map Prod.fst).Nodup
  result_eq : ∀ task ∈ s.ran, task.2 = results task.1
  ran_order : (s.ran.map Prod.fst).filter (executor · = .justExecute) =
    (rendezvous events).met.filter (executor · = .justExecute)
  completion_order : (s.ran.map Prod.fst).filter
      (fun i => executor i = .justExecute ∧ i ∉ (rendezvous events).early) =
    (completionOrder events).filter
      fun i => executor i = .justExecute ∧ i ∉ (rendezvous events).early
  vector_order : (s.ran.map Prod.fst).filter
      (fun i => executor i = .justExecute ∧ i ∈ (rendezvous events).early) =
    (List.range s.attached).filter
      fun i => executor i = .justExecute ∧ i ∈ (rendezvous events).early
  produced_eq : (combinator.promise s.collector).produced = fulfilled (s.ran.map Prod.snd)
  perm_range : Quiescent combinator size executor results s →
    (s.ran.map Prod.fst).Perm (List.range size)
  fulfilled_once : Quiescent combinator size executor results s →
    (combinator.promise s.collector).produced.length = 1

theorem filter_and {α : Type*} (p q : α → Prop) [DecidablePred p] [DecidablePred q] (l : List α) :
    l.filter (fun a => p a ∧ q a) = (l.filter (p ·)).filter (q ·) := by
  rw [List.filter_filter]
  exact List.filter_congr fun a _ => (Bool.decide_and ..).trans (Bool.and_comm ..)

theorem filter_ran {p q : ℕ → Prop} [DecidablePred p] [DecidablePred q] {ran met order : List ℕ}
    (hran : ran.filter (p ·) = met.filter (p ·)) (hmet : met.filter (q ·) = order.filter (q ·)) :
    ran.filter (fun i => p i ∧ q i) = order.filter fun i => p i ∧ q i := by
  rw [filter_and, hran, ← filter_and]
  simp only [and_comm (a := p _)]
  rw [filter_and, hmet, ← filter_and]

theorem fulfils_of_collector {executor : ℕ → Executor} {results : ℕ → Except E T} {size : ℕ}
    {combinator : Combinator E T R C} {fulfilled : List (Except E T) → List (Except E R)}
    {P : List (Except E T) → C → Prop} (hinitial : P [] (combinator.make size {}))
    (hcallback : ∀ ran collector result, P ran collector → ran.length < size →
      P (ran ++ [result]) (combinator.callback collector result))
    (hpromise : ∀ ran collector, P ran collector →
      (combinator.promise collector).produced = fulfilled ran)
    (honce : ∀ ran, ran.length = size → (fulfilled ran).length = 1)
    {events : List CombineEvent} {s : Combining E T C}
    (hrun : run (step combinator size executor results) (initial combinator size) events =
      some s) : Fulfils combinator size executor results fulfilled events s := by
  obtain ⟨h, hattached, hprogress⟩ :=
    run_collects collects_initial (Attached.initial size) hrun
  have hfold : ∀ ran : List (Except E T), ran.length ≤ size →
      P ran (ran.foldl combinator.callback (combinator.make size {})) := by
    intro ran
    induction ran using List.reverseRecOn with
    | nil =>
        intro _
        exact hinitial
    | append_singleton ran result ih =>
        intro hle
        rw [List.length_append, List.length_singleton] at hle
        rw [List.foldl_append]
        exact hcallback ran _ result (ih (by omega)) (by omega)
  have hcollected := hfold (s.ran.map Prod.snd) (by rw [List.length_map]; exact h.length_ran_le)
  rw [← h.collector_eq] at hcollected
  have hproduced := hpromise _ _ hcollected
  have hordered : Ordered executor events s :=
    run_ordered ordered_initial collects_initial (Attached.initial size) hrun
  refine ⟨?_, h.nodup_ran, ?_, hordered.ran_eq, filter_ran hordered.ran_eq hordered.sorted.late_eq,
    ?_, hproduced, fun hquiet => hquiet.perm_range h hattached, ?_⟩
  · have hle := h.progress_le
    omega
  · intro task htask
    exact h.result_eq task (List.mem_append_left _ htask)
  · rw [← hordered.attached_eq]
    exact filter_ran hordered.ran_eq hordered.sorted.early_eq
  · intro hquiet
    have hlength := (hquiet.perm_range h hattached).length_eq
    rw [List.length_map, List.length_range] at hlength
    rw [hproduced]
    exact honce _ (by rw [List.length_map, hlength])

theorem exists_firstOutcome {ran : List (Except E T)} (h : 0 < ran.length) :
    ∃ result, firstOutcome ran = some result := by
  rw [firstOutcome]
  split
  · exact ⟨_, rfl⟩
  · exact ⟨_, List.getLast?_eq_some_getLast (List.length_pos_iff.1 h)⟩

/-- The future of `All` gets its result with the last callback or with the first error, and the
future of `First` with the first value or with the last callback; in between there is none. -/
theorem combinators_fulfil {size : ℕ} (hsize : 0 < size) (executor : ℕ → Executor)
    (results : ℕ → Except E T) (events : List CombineEvent) :
    (∀ s, run (step AllCombinator.combinator size executor results)
        (initial AllCombinator.combinator size) events = some s →
      Fulfils AllCombinator.combinator size executor results
        (fun ran => if (ran.findSome? errorOf).isSome ∨ ran.length = size then [allOutcome ran]
          else []) events s) ∧
    ∀ s, run (step FirstCombinator.combinator size executor results)
        (initial FirstCombinator.combinator size) events = some s →
      Fulfils FirstCombinator.combinator size executor results
        (fun ran => if (ran.findSome? valueOf).isSome ∨ ran.length = size
          then (firstOutcome ran).toList else []) events s := by
  constructor
  · intro s hrun
    refine fulfils_of_collector (P := AllCollected size) ?_ ?_ ?_ ?_ hrun
    · refine ⟨rfl, fun _ => rfl, ?_⟩
      simp [allPromise, AllCombinator.combinator, hsize.ne]
    · intro ran collector result h hlt
      exact h.callback hlt result
    · intro ran collector h
      change collector.promise.produced = _
      rw [h.promise_eq, allPromise]
      split_ifs <;> rfl
    · intro ran hran
      rw [if_pos (.inr hran), List.length_singleton]
  · intro s hrun
    refine fulfils_of_collector (P := FirstCollected size) ?_ ?_ ?_ ?_ hrun
    · refine ⟨rfl, ?_, ?_⟩
      · simp [FirstCombinator.combinator, hsize.ne]
      · simp [firstPromise, FirstCombinator.combinator, hsize.ne]
    · intro ran collector result h hlt
      exact h.callback hlt result
    · intro ran collector h
      change collector.promise.produced = _
      rw [h.promise_eq, firstPromise]
      split_ifs <;> rfl
    · intro ran hran
      obtain ⟨result, hresult⟩ := @exists_firstOutcome E T ran (by omega)
      rw [if_pos (.inr hran), hresult]
      rfl

/-- Two inputs complete before the combinator is attached, the second one first. -/
def earlyCompletions : List CombineEvent :=
  [.complete 1, .exchangeProducer 1, .complete 0, .exchangeProducer 0, .attach, .exchangeConsumer,
    .attach, .exchangeConsumer]

/-- `All` then returns the values in the order of the vector, and `First` returns the value of the
first input although the second one had completed before. -/
theorem early_futures_in_vector_order :
    completionOrder earlyCompletions = [1, 0] ∧
    (run (step (AllCombinator.combinator (E := ℕ)) 2 (fun _ => .justExecute)
        fun i => .ok (10 + i)) (initial AllCombinator.combinator 2) earlyCompletions).map
      (fun s => s.collector.promise.produced) = some [.ok [10, 11]] ∧
    (run (step (FirstCombinator.combinator (E := ℕ)) 2 (fun _ => .justExecute)
        fun i => .ok (10 + i)) (initial FirstCombinator.combinator 2) earlyCompletions).map
      (fun s => s.collector.promise.produced) = some [.ok 10] ∧
    (([.ok [10, 11]] : List (Except ℕ (List ℕ))) ≠
      [allOutcome ((completionOrder earlyCompletions).map fun i => .ok (10 + i))]) ∧
    (some (.ok 10) : Option (Except ℕ ℕ)) ≠
      firstOutcome ((completionOrder earlyCompletions).map fun i => .ok (10 + i)) := by
  decide

/-- Two inputs of which the first fails, with callbacks that run in the opposite order. -/
theorem combinators_fulfil_two :
    ∃ s, run (step (AllCombinator.combinator (E := ℕ) (T := ℕ)) 2 (fun _ => .queued)
        fun i => if i = 0 then .error 7 else .ok 3) (initial AllCombinator.combinator 2)
        [.attach, .complete 1, .exchangeConsumer, .attach, .complete 0, .exchangeProducer 0,
          .exchangeConsumer, .exchangeProducer 1, .run 1, .run 0] = some s ∧
      (AllCombinator.combinator.promise s.collector).produced =
        if ((s.ran.map Prod.snd).findSome? errorOf).isSome ∨ (s.ran.map Prod.snd).length = 2
        then [allOutcome (s.ran.map Prod.snd)] else [] := by
  have hsome : (run (step (AllCombinator.combinator (E := ℕ) (T := ℕ)) 2 (fun _ => .queued)
      fun i => if i = 0 then .error 7 else .ok 3) (initial AllCombinator.combinator 2)
      [.attach, .complete 1, .exchangeConsumer, .attach, .complete 0, .exchangeProducer 0,
        .exchangeConsumer, .exchangeProducer 1, .run 1, .run 0]).isSome := by
    decide
  obtain ⟨s, hrun⟩ := Option.isSome_iff_exists.1 hsome
  exact ⟨s, hrun, ((combinators_fulfil (by decide : 0 < 2) _ _ _).1 s hrun).produced_eq⟩

end BroadcastService.Futures

import BroadcastService.ThreadPool

/-!
# Threads that wait

The waiting of `concurrency/queue.hpp` and of `concurrency/wait_group.hpp`, which the thread pool
leaves out, for any number of threads. A thread that calls `Take` on an empty open queue sleeps on
the condition variable, which releases the mutex in the same step, and after it was notified has to
get the mutex back. `WaitGroup::Wait` sleeps on a futex, which compares the counter with the value
that was loaded before. Both may also wake without a reason.

No wake-up is lost: as long as a thread sleeps in `Take`, at least as many threads were notified as
there are values (`take_sleeps_for_values`), and while a thread sleeps in `Wait` with the counter at
zero, some thread has yet to wake it (`wait_sleeps_for_done`). The second one needs that `Add` does
not overflow: an overflow to zero wakes nobody.
-/

namespace BroadcastService.Runtime
open TransitionSystem

variable {W T : Type*} [DecidableEq W]

/-- `asleep` are the threads on the condition variable and `notified` those that it woke and that
have yet to get the mutex. `accepted` and `taken` record the values and the results of `Take`. -/
structure WaitingQueue (W T : Type*) where
  queue : UnboundedMRMWQueue T := {}
  asleep : List W := []
  notified : List W := []
  accepted : List T := []
  taken : List (W × Option T) := []

/-- `woken` is the thread that `notify_one` wakes, `again` the return of `wait`. -/
inductive QueueCall (W T : Type*)
  | put (value : T) (woken : Option W)
  | take (w : W)
  | again (w : W)
  | spurious (w : W)
  | close

namespace WaitingQueue

variable (s : WaitingQueue W T)

def notify (w : W) : WaitingQueue W T :=
  { s with asleep := s.asleep.erase w, notified := w :: s.notified }

/-- `notify_one` does nothing only if no thread sleeps. -/
def put (value : T) (woken : Option W) : Option (WaitingQueue W T) :=
  match s.queue.put value with
  | (false, _) => if woken = none then some s else none
  | (true, queue) =>
      let s' := { s with queue, accepted := s.accepted ++ [value] }
      match woken with
      | some w => if w ∈ s.asleep then some (s'.notify w) else none
      | none => if s.asleep = [] then some s' else none

/-- A round of the loop of `Take`, with the mutex. -/
def round (w : W) : WaitingQueue W T :=
  match s.queue.take with
  | some (result, queue) => { s with queue, taken := s.taken ++ [(w, result)] }
  | none => { s with asleep := w :: s.asleep }

def step : QueueCall W T → Option (WaitingQueue W T)
  | .put value woken => s.put value woken
  | .take w => if w ∉ s.asleep ++ s.notified then some (s.round w) else none
  | .again w =>
      if w ∈ s.notified then some ({ s with notified := s.notified.erase w }.round w) else none
  | .spurious w => if w ∈ s.asleep then some (s.notify w) else none
  | .close =>
      some { s with queue := s.queue.close, asleep := [], notified := s.asleep ++ s.notified }

/-- No thread sleeps that should be awake, and the values go through in order. -/
structure Woken (s : WaitingQueue W T) : Prop where
  opened : s.asleep ≠ [] → s.queue.isClosed = false
  values : s.asleep ≠ [] → s.queue.buffer.length ≤ s.notified.length
  accepted : s.accepted = s.taken.filterMap (·.2) ++ s.queue.buffer

variable {s s' : WaitingQueue W T}

theorem Woken.notify (h : Woken s) {w : W} (hw : w ∈ s.asleep) : Woken (s.notify w) := by
  have hasleep : s.asleep ≠ [] := List.ne_nil_of_mem hw
  exact ⟨fun _ => h.opened hasleep, fun _ => (h.values hasleep).trans (Nat.le_succ _), h.accepted⟩

omit [DecidableEq W] in
theorem round_cases (s : WaitingQueue W T) (w : W) :
    (∃ value buffer, s.queue.buffer = value :: buffer ∧
      s.round w = { s with
        queue := { s.queue with buffer }, taken := s.taken ++ [(w, some value)] }) ∨
    (s.queue.buffer = [] ∧ s.queue.isClosed = true ∧
      s.round w = { s with taken := s.taken ++ [(w, none)] }) ∨
    (s.queue.buffer = [] ∧ s.queue.isClosed = false ∧
      s.round w = { s with asleep := w :: s.asleep }) := by
  cases hbuffer : s.queue.buffer with
  | cons value buffer =>
      refine .inl ⟨value, buffer, rfl, ?_⟩
      simp only [round, UnboundedMRMWQueue.take, hbuffer]
  | nil =>
      cases hclosed : s.queue.isClosed with
      | true =>
          refine .inr (.inl ⟨rfl, rfl, ?_⟩)
          simp only [round, UnboundedMRMWQueue.take, hbuffer, hclosed, if_true]
      | false =>
          refine .inr (.inr ⟨rfl, rfl, ?_⟩)
          simp only [round, UnboundedMRMWQueue.take, hbuffer, hclosed, Bool.false_eq_true, if_false]

omit [DecidableEq W] in
theorem Woken.round (h : s.accepted = s.taken.filterMap (·.2) ++ s.queue.buffer)
    (hopened : s.asleep ≠ [] → s.queue.isClosed = false)
    (hvalues : s.asleep ≠ [] → s.queue.buffer.length ≤ s.notified.length + 1) (w : W) :
    Woken (s.round w) := by
  rcases s.round_cases w with ⟨value, buffer, hbuffer, he⟩ | ⟨hbuffer, -, he⟩ | ⟨hbuffer, hopen, he⟩
  · rw [he]
    refine ⟨hopened, fun hasleep => ?_, ?_⟩
    · have hle := hvalues hasleep
      rw [hbuffer, List.length_cons] at hle
      exact Nat.le_of_succ_le_succ hle
    · simp [h, hbuffer]
  · rw [he]
    refine ⟨hopened, fun _ => ?_, ?_⟩
    · rw [hbuffer]
      exact Nat.zero_le _
    · simp [h, hbuffer]
  · rw [he]
    refine ⟨fun _ => hopen, fun _ => ?_, h⟩
    change s.queue.buffer.length ≤ _
    rw [hbuffer]
    exact Nat.zero_le _

theorem Woken.put (h : Woken s) {value : T} {woken : Option W}
    (hs : s.put value woken = some s') : Woken s' := by
  have haccepted : s.accepted ++ [value] =
      s.taken.filterMap (·.2) ++ (s.queue.buffer ++ [value]) := by
    rw [h.accepted, List.append_assoc]
  by_cases hclosed : s.queue.isClosed = true
  · have hput : s.queue.put value = (false, s.queue) := if_pos hclosed
    simp only [WaitingQueue.put, hput] at hs
    obtain ⟨-, he⟩ := Option.ite_none_right_eq_some.1 hs
    obtain rfl := Option.some.inj he
    exact h
  · have hput : s.queue.put value =
        (true, { s.queue with buffer := s.queue.buffer ++ [value] }) := if_neg hclosed
    simp only [WaitingQueue.put, hput] at hs
    cases woken with
    | some w =>
        obtain ⟨hw, he⟩ := Option.ite_none_right_eq_some.1 hs
        obtain rfl := Option.some.inj he
        have hasleep : s.asleep ≠ [] := List.ne_nil_of_mem hw
        refine ⟨fun _ => h.opened hasleep, fun _ => ?_, haccepted⟩
        change (s.queue.buffer ++ [value]).length ≤ (w :: s.notified).length
        rw [List.length_append, List.length_singleton, List.length_cons]
        exact Nat.succ_le_succ (h.values hasleep)
    | none =>
        obtain ⟨hnone, he⟩ := Option.ite_none_right_eq_some.1 hs
        obtain rfl := Option.some.inj he
        exact ⟨fun hasleep => absurd hnone hasleep, fun hasleep => absurd hnone hasleep, haccepted⟩

theorem Woken.step (h : Woken s) {call : QueueCall W T} (hs : s.step call = some s') :
    Woken s' := by
  cases call with
  | put value woken => exact h.put hs
  | take w =>
      obtain ⟨-, he⟩ := Option.ite_none_right_eq_some.1 hs
      obtain rfl := Option.some.inj he
      exact .round h.accepted h.opened (fun hasleep => (h.values hasleep).trans (Nat.le_succ _)) w
  | again w =>
      obtain ⟨hw, he⟩ := Option.ite_none_right_eq_some.1 hs
      obtain rfl := Option.some.inj he
      have hvalues : s.asleep ≠ [] →
          s.queue.buffer.length ≤ (s.notified.erase w).length + 1 := by
        rw [List.length_erase_add_one hw]
        exact h.values
      exact .round (s := { s with notified := s.notified.erase w }) h.accepted h.opened hvalues w
  | spurious w =>
      obtain ⟨hw, he⟩ := Option.ite_none_right_eq_some.1 hs
      obtain rfl := Option.some.inj he
      exact h.notify hw
  | close =>
      obtain rfl := Option.some.inj hs
      exact ⟨fun hasleep => absurd rfl hasleep, fun hasleep => absurd rfl hasleep, h.accepted⟩

theorem woken_of_reachable (hr : Reachable WaitingQueue.step ({} : WaitingQueue W T) s) :
    Woken s := by
  apply hr.invariant (I := Woken)
  · exact ⟨fun hasleep => absurd rfl hasleep, fun hasleep => absurd rfl hasleep, rfl⟩
  · exact fun _ _ _ _ h _ hs => h.step hs

/-- Threads sleep in `Take` only while the queue is open and has no more values than there are
notified threads, each of which gets a result as soon as it has the mutex. The values come out in
the order of `Put`. -/
theorem take_sleeps_for_values (hr : Reachable WaitingQueue.step ({} : WaitingQueue W T) s) :
    (s.asleep ≠ [] → s.queue.isClosed = false ∧ s.queue.buffer.length ≤ s.notified.length) ∧
    (s.queue.take ≠ none → s.asleep ++ s.notified ≠ [] → s.notified ≠ [] ∧
      ∀ w ∈ s.notified, ∃ s' result, s.step (.again w) = some s' ∧
        s'.taken = s.taken ++ [(w, result)]) ∧
    s.accepted = s.taken.filterMap (·.2) ++ s.queue.buffer := by
  have h := woken_of_reachable hr
  refine ⟨fun hasleep => ⟨h.opened hasleep, h.values hasleep⟩, fun htake hwaits => ⟨?_, ?_⟩,
    h.accepted⟩
  · intro hnone
    rw [hnone, List.append_nil] at hwaits
    have hbuffer : s.queue.buffer = [] := by
      rw [← List.length_eq_zero_iff, ← Nat.le_zero]
      have hle := h.values hwaits
      rwa [hnone] at hle
    apply htake
    simp only [UnboundedMRMWQueue.take, hbuffer, h.opened hwaits, Bool.false_eq_true, if_false]
  · intro w hw
    obtain ⟨⟨result, queue⟩, htake⟩ := Option.ne_none_iff_exists'.1 htake
    refine ⟨_, result, if_pos hw, ?_⟩
    simp only [round, htake]

end WaitingQueue

def barging : List (QueueCall ℕ ℕ) :=
  [.take 0, .take 1, .put 5 (some 0), .take 2, .again 0, .put 6 (some 1), .put 7 (some 0)]

theorem WaitingQueue.take_sleeps_for_values_barging : ∃ s s' : WaitingQueue ℕ ℕ,
    run WaitingQueue.step {} barging = some s ∧ s.taken = [(2, some 5)] ∧ s.notified = [0, 1] ∧
    s.accepted = [5, 6, 7] ∧ s.step (.again 1) = some s' ∧
    ∃ result, s'.taken = [(2, some 5), (1, result)] := by
  obtain ⟨s, hrun, htaken, hnotified, haccepted, htake⟩ : ∃ s : WaitingQueue ℕ ℕ,
      run WaitingQueue.step {} barging = some s ∧ s.taken = [(2, some 5)] ∧
      s.notified = [0, 1] ∧ s.accepted = [5, 6, 7] ∧ s.queue.take ≠ none :=
    ⟨_, rfl, rfl, rfl, rfl, by decide⟩
  obtain ⟨-, hresult, -⟩ := WaitingQueue.take_sleeps_for_values (reachable_of_run hrun)
  obtain ⟨-, hall⟩ := hresult htake (by simp [hnotified])
  obtain ⟨s', result, hs', htaken'⟩ := hall 1 (by simp [hnotified])
  exact ⟨s, s', hrun, htaken, hnotified, haccepted, hs', result, by rw [htaken', htaken]; rfl⟩

/-- `loading` is before the load, `loaded` before `AtomicWait` with the value loaded, and `waking`
between `fetch_sub` and `AtomicWakeAll`. -/
inductive WaitPhase
  | idle
  | loading
  | loaded (count : UInt32)
  | asleep
  | waking
  deriving DecidableEq

structure WaitingGroup (W : Type*) where
  group : WaitGroup := {}
  phase : W → WaitPhase := fun _ => .idle

inductive GroupCall (W : Type*)
  | add (num : UInt32)
  | done (w : W) (num : UInt32)
  | atomicWakeAll (w : W)
  | wait (w : W)
  | load (w : W)
  | atomicWait (w : W)
  | spurious (w : W)

namespace WaitingGroup

variable (s : WaitingGroup W)

def setPhase (w : W) (phase : WaitPhase) : WaitingGroup W :=
  { s with phase := Function.update s.phase w phase }

/-- `AtomicWait` compares the counter and falls asleep in one step. -/
def step : GroupCall W → Option (WaitingGroup W)
  | .add num => some { s with group := s.group.add num }
  | .done w num =>
      match s.phase w with
      | .idle =>
          let group := s.group.done num
          some { s.setPhase w (if group.counter = 0 then .waking else .idle) with group }
      | _ => none
  | .atomicWakeAll w =>
      match s.phase w with
      | .waking => some { s with phase := fun w' =>
          if w' = w then .idle else if s.phase w' = .asleep then .loading else s.phase w' }
      | _ => none
  | .wait w =>
      match s.phase w with
      | .idle => some (s.setPhase w .loading)
      | _ => none
  | .load w =>
      match s.phase w with
      | .loading =>
          some (s.setPhase w (if s.group.waitReturns then .idle else .loaded s.group.counter))
      | _ => none
  | .atomicWait w =>
      match s.phase w with
      | .loaded count =>
          some (s.setPhase w (if s.group.counter = count then .asleep else .loading))
      | _ => none
  | .spurious w =>
      match s.phase w with
      | .asleep => some (s.setPhase w .loading)
      | _ => none

/-- `Add` does not overflow. -/
def NoOverflow : GroupCall W → Prop
  | .add num => s.group.counter.toNat + num.toNat < 2 ^ 32
  | _ => True

instance : (call : GroupCall W) → Decidable (s.NoOverflow call)
  | .add num => inferInstanceAs (Decidable (s.group.counter.toNat + num.toNat < 2 ^ 32))
  | .done _ _ | .atomicWakeAll _ | .wait _ | .load _ | .atomicWait _ | .spurious _ =>
      inferInstanceAs (Decidable True)

/-- A step of `Wait` or of the end of `Done`. -/
def FromWait : GroupCall W → Prop
  | .atomicWakeAll _ | .load _ | .atomicWait _ => True
  | _ => False

/-- A thread that sleeps has somebody to wake it once the counter is zero. -/
structure Attended (s : WaitingGroup W) : Prop where
  loaded : ∀ w count, s.phase w = .loaded count → count ≠ 0
  asleep : s.group.counter = 0 → ∀ w, s.phase w = .asleep → ∃ w', s.phase w' = .waking

variable {s s' : WaitingGroup W} {w : W}

theorem Attended.move (h : Attended s) {phase : WaitPhase} (hold : s.phase w ≠ .waking)
    (hasleep : phase = .asleep → s.group.counter ≠ 0)
    (hloaded : ∀ count, phase = .loaded count → count ≠ 0) : Attended (s.setPhase w phase) := by
  refine ⟨fun w' count hw' => ?_, fun hzero w' hw' => ?_⟩
  · by_cases hne : w' = w
    · subst hne
      change Function.update s.phase w' phase w' = _ at hw'
      rw [Function.update_self] at hw'
      exact hloaded count hw'
    · change Function.update s.phase w phase w' = _ at hw'
      rw [Function.update_of_ne hne] at hw'
      exact h.loaded w' count hw'
  · have hne : w' ≠ w := by
      rintro rfl
      change Function.update s.phase w' phase w' = _ at hw'
      rw [Function.update_self] at hw'
      exact hasleep hw' hzero
    change Function.update s.phase w phase w' = _ at hw'
    rw [Function.update_of_ne hne] at hw'
    obtain ⟨waker, hwaker⟩ := h.asleep hzero w' hw'
    refine ⟨waker, ?_⟩
    change Function.update s.phase w phase waker = _
    rw [Function.update_of_ne, hwaker]
    rintro rfl
    exact hold hwaker

/-- The thread whose `Done` brings the counter to zero has yet to wake the others. -/
theorem Attended.done (h : Attended s) {group : WaitGroup} :
    Attended { s.setPhase w (if group.counter = 0 then .waking else .idle) with group } := by
  refine ⟨fun w' count hw' => ?_, fun hzero _ _ => ⟨w, ?_⟩⟩
  · change Function.update s.phase w _ w' = _ at hw'
    rw [Function.update_apply] at hw'
    split_ifs at hw' with hne hcounter
    exact h.loaded w' count hw'
  · change Function.update s.phase w _ w = _
    rw [Function.update_self]
    exact if_pos hzero

omit [DecidableEq W] in
theorem Attended.add (h : Attended s) {num : UInt32} (hroom : s.NoOverflow (.add num)) :
    Attended { s with group := s.group.add num } := by
  refine ⟨h.loaded, fun hzero => h.asleep ?_⟩
  have hsum : (s.group.counter + num).toNat = 0 := congrArg UInt32.toNat hzero
  rw [UInt32.toNat_add, Nat.mod_eq_of_lt hroom] at hsum
  exact UInt32.toNat_inj.1 (Nat.eq_zero_of_add_eq_zero_right hsum)

theorem Attended.step (h : Attended s) {call : GroupCall W} (hroom : s.NoOverflow call)
    (hs : s.step call = some s') : Attended s' := by
  cases call with
  | add num =>
      obtain rfl := Option.some.inj hs
      exact h.add hroom
  | done w num =>
      simp only [WaitingGroup.step] at hs
      split at hs
      · obtain rfl := Option.some.inj hs
        exact h.done
      · cases hs
  | atomicWakeAll w =>
      simp only [WaitingGroup.step] at hs
      split at hs
      · obtain rfl := Option.some.inj hs
        refine ⟨fun w' count hw' => ?_, fun _ w' hw' => ?_⟩
        · simp only at hw'
          split_ifs at hw'
          exact h.loaded w' count hw'
        · simp only at hw'
          split_ifs at hw' with hself hasleep
          exact absurd hw' hasleep
      · cases hs
  | wait w =>
      simp only [WaitingGroup.step] at hs
      split at hs
      · rename_i hphase
        obtain rfl := Option.some.inj hs
        exact h.move (by simp [hphase]) (by simp) (by simp)
      · cases hs
  | load w =>
      simp only [WaitingGroup.step] at hs
      split at hs
      · rename_i hphase
        obtain rfl := Option.some.inj hs
        refine h.move (by simp [hphase]) ?_ fun count hcount => ?_
        · split_ifs <;> simp
        · split_ifs at hcount with hreturns
          obtain rfl := WaitPhase.loaded.inj hcount
          simpa [WaitGroup.waitReturns] using hreturns
      · cases hs
  | atomicWait w =>
      simp only [WaitingGroup.step] at hs
      split at hs
      · rename_i count hphase
        obtain rfl := Option.some.inj hs
        refine h.move (by simp [hphase]) (fun hasleep => ?_) ?_
        · split_ifs at hasleep with hcount
          rw [hcount]
          exact h.loaded w count hphase
        · split_ifs <;> simp
      · cases hs
  | spurious w =>
      simp only [WaitingGroup.step] at hs
      split at hs
      · rename_i hphase
        obtain rfl := Option.some.inj hs
        exact h.move (by simp [hphase]) (by simp) (by simp)
      · cases hs

theorem attended_of_reachable
    (hr : ReachableIn WaitingGroup.step NoOverflow ({} : WaitingGroup W) s) : Attended s := by
  apply hr.invariant (I := Attended)
  · refine ⟨fun w count hw => ?_, fun _ w hw => ?_⟩
    · cases hw
    · cases hw
  · exact fun _ _ _ _ h hroom hs => h.step hroom hs

/-- Steps of `Wait` and of the ends of `Done`. -/
abbrev RunsOn (s s' : WaitingGroup W) : Prop :=
  ReachableIn WaitingGroup.step (fun _ call => FromWait call) s s'

/-- Once the counter is zero, the next load is the last one. -/
theorem exists_loaded (hzero : s.group.counter = 0) (hphase : s.phase w = .loading) :
    ∃ s', RunsOn s s' ∧ s'.phase w = .idle ∧ s'.group = s.group := by
  have hreturns : s.group.waitReturns = true := by simp [WaitGroup.waitReturns, hzero]
  refine ⟨s.setPhase w .idle, .tail (a := .load w) .refl trivial ?_, Function.update_self .., rfl⟩
  simp only [WaitingGroup.step, hphase, hreturns, if_true]

theorem Attended.exists_returned (h : Attended s) (hzero : s.group.counter = 0)
    (hidle : s.phase w ≠ .idle) (hwaking : s.phase w ≠ .waking) :
    ∃ s', RunsOn s s' ∧ s'.phase w = .idle ∧ s'.group = s.group := by
  cases hphase : s.phase w with
  | idle => exact absurd hphase hidle
  | waking => exact absurd hphase hwaking
  | loading => exact exists_loaded hzero hphase
  | loaded count =>
      have hne : s.group.counter ≠ count := by
        rw [hzero]
        exact (h.loaded w count hphase).symm
      have hs : s.step (.atomicWait w) = some (s.setPhase w .loading) := by
        simp only [WaitingGroup.step, hphase, if_neg hne]
      have hloading : (s.setPhase w .loading).phase w = .loading := Function.update_self ..
      obtain ⟨s', hrun, hreturned⟩ :=
        exists_loaded (s := s.setPhase w .loading) hzero hloading
      exact ⟨s', (ReachableIn.tail .refl trivial hs).trans hrun, hreturned⟩
  | asleep =>
      obtain ⟨waker, hwaker⟩ := h.asleep hzero w hphase
      have hne : w ≠ waker := by
        rintro rfl
        rw [hphase] at hwaker
        cases hwaker
      let woken : WaitingGroup W := { s with phase := fun w' =>
        if w' = waker then .idle else if s.phase w' = .asleep then .loading else s.phase w' }
      have hs : s.step (.atomicWakeAll waker) = some woken := by
        simp only [WaitingGroup.step, hwaker, woken]
      have hloading : woken.phase w = .loading := by
        simp only [woken, if_neg hne, hphase, if_true]
      obtain ⟨s', hrun, hreturned⟩ := exists_loaded (s := woken) hzero hloading
      exact ⟨s', (ReachableIn.tail .refl trivial hs).trans hrun, hreturned⟩

/-- While the counter is zero every thread that sleeps in `Wait` has another one that is about to
wake it, and every thread in `Wait` can return by the remaining steps of `Wait` and `Done`. -/
theorem wait_sleeps_for_done
    (hr : ReachableIn WaitingGroup.step NoOverflow ({} : WaitingGroup W) s)
    (hzero : s.group.counter = 0) :
    (∀ w, s.phase w = .asleep → ∃ w', s.phase w' = .waking) ∧
    ∀ w, s.phase w ≠ .idle → s.phase w ≠ .waking → ∃ s',
      ReachableIn WaitingGroup.step (fun _ call => FromWait call) s s' ∧
      s'.phase w = .idle ∧ s'.group = s.group := by
  have h := attended_of_reachable hr
  exact ⟨h.asleep hzero, fun w => h.exists_returned hzero⟩

end WaitingGroup

def sleepingWait : List (GroupCall Bool) :=
  [.add 1, .wait true, .load true, .add 1, .atomicWait true, .load true, .atomicWait true,
    .done false 1, .done false 1]

theorem WaitingGroup.wait_sleeps_for_done_sleeping : ∃ s s' : WaitingGroup Bool,
    ReachableIn WaitingGroup.step NoOverflow {} s ∧ s.phase true = .asleep ∧
    s.group.counter = 0 ∧ ReachableIn WaitingGroup.step (fun _ call => FromWait call) s s' ∧
    s'.phase true = .idle := by
  obtain ⟨s, hr, hasleep, hzero⟩ : ∃ s : WaitingGroup Bool,
      ReachableIn WaitingGroup.step NoOverflow {} s ∧ s.phase true = .asleep ∧
      s.group.counter = 0 :=
    exists_reachableIn sleepingWait (by decide +kernel)
  obtain ⟨-, hreturns⟩ := WaitingGroup.wait_sleeps_for_done hr hzero
  obtain ⟨s', hrun, hidle, -⟩ := hreturns true (by simp [hasleep]) (by simp [hasleep])
  exact ⟨s, s', hr, hasleep, hzero, hrun, hidle⟩

end BroadcastService.Runtime

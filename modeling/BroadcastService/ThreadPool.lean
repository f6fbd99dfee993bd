import BroadcastService.TransitionSystem
import Mathlib.Tactic

/-!
# The thread pool

`runtime/thread_pool.cpp` with the queue of `concurrency/queue.hpp` and the counter of
`concurrency/wait_group.hpp`, for workers and tasks of any type. A critical section of the queue and
an operation on the counter are one step each. The caller of `Execute` is `some w` when the task
that worker `w` runs calls it, and `none` outside of the pool, where any number of threads may call
it.

`executing` are the calls of `Execute` between `Add` and `Put`, and `rejected` those whose `Put` has
failed and that have yet to call `Done`. `running` are the workers with the task they run,
`returned` those whose task has returned and that have yet to call `Done`. `accepted`, `taken` and
`finished` record the tasks in the order in which the queue took them and gave them out and in which
they returned.
-/

namespace BroadcastService.Runtime
open TransitionSystem

variable {W T : Type*}

structure UnboundedMRMWQueue (T : Type*) where
  buffer : List T := []
  isClosed : Bool := false

namespace UnboundedMRMWQueue

variable (q : UnboundedMRMWQueue T)

def put (value : T) : Bool × UnboundedMRMWQueue T :=
  if q.isClosed then (false, q) else (true, { q with buffer := q.buffer ++ [value] })

/-- The result of `Take` is `none` while the call waits. -/
def take : Option (Option T × UnboundedMRMWQueue T) :=
  match q.buffer with
  | value :: buffer => some (some value, { q with buffer := buffer })
  | [] => if q.isClosed then some (none, q) else none

def close : UnboundedMRMWQueue T := { q with isClosed := true }

end UnboundedMRMWQueue

structure WaitGroup where
  counter : UInt32 := 0

namespace WaitGroup

variable (g : WaitGroup)

def add (num : UInt32) : WaitGroup := { counter := g.counter + num }

def done (num : UInt32) : WaitGroup := { counter := g.counter - num }

/-- `Wait` returns when it loads zero, and else loads again. -/
def waitReturns : Bool := g.counter = 0

end WaitGroup

structure ThreadPool (W T : Type*) where
  tasks : UnboundedMRMWQueue T := {}
  pendingTasks : WaitGroup := {}
  executing : List (Option W × T) := []
  rejected : List (Option W × T) := []
  running : List (W × T) := []
  returned : List (W × T) := []
  exited : List W := []
  accepted : List T := []
  taken : List T := []
  finished : List T := []

inductive PoolEvent (W T : Type*)
  | add (caller : Option W) (task : T)
  | put (caller : Option W) (task : T)
  | undo (caller : Option W) (task : T)
  | take (w : W)
  | finish (w : W) (task : T)
  | done (w : W) (task : T)
  | signalStop
  | wait

namespace ThreadPool

variable [DecidableEq W] [DecidableEq T] (s : ThreadPool W T)

def inExecute (caller : Option W) : Bool :=
  (s.executing ++ s.rejected).any fun call => call.1 = caller

def runs (w : W) : Bool := s.running.any fun p => p.1 = w

def idle (w : W) : Bool := !s.runs w && !(s.returned.any fun p => p.1 = w) && w ∉ s.exited

/-- A running task makes one call at a time. -/
def mayExecute : Option W → Bool
  | none => true
  | some w => s.runs w && !s.inExecute (some w)

/-- `Execute` is `add`, `put` and, when the queue has refused the task, `undo`. -/
def add (caller : Option W) (task : T) : ThreadPool W T :=
  { s with
    pendingTasks := s.pendingTasks.add 1
    executing := s.executing ++ [(caller, task)] }

def put (caller : Option W) (task : T) : ThreadPool W T :=
  match s.tasks.put task with
  | (true, tasks) =>
      { s with
        tasks := tasks
        executing := s.executing.erase (caller, task)
        accepted := s.accepted ++ [task] }
  | (false, tasks) =>
      { s with
        tasks := tasks
        executing := s.executing.erase (caller, task)
        rejected := s.rejected ++ [(caller, task)] }

def undo (caller : Option W) (task : T) : ThreadPool W T :=
  { s with
    pendingTasks := s.pendingTasks.done 1
    rejected := s.rejected.erase (caller, task) }

/-- A round of `Routine` is `take`, `finish` and `done`; the worker leaves when there is no task. -/
def take (w : W) : Option (ThreadPool W T) :=
  s.tasks.take.map fun
    | (some task, tasks) =>
        { s with
          tasks := tasks
          running := s.running ++ [(w, task)]
          taken := s.taken ++ [task] }
    | (none, tasks) => { s with tasks := tasks, exited := w :: s.exited }

def finish (w : W) (task : T) : ThreadPool W T :=
  { s with
    running := s.running.erase (w, task)
    returned := s.returned ++ [(w, task)]
    finished := s.finished ++ [task] }

def done (w : W) (task : T) : ThreadPool W T :=
  { s with
    pendingTasks := s.pendingTasks.done 1
    returned := s.returned.erase (w, task) }

def step : PoolEvent W T → Option (ThreadPool W T)
  | .add caller task => if s.mayExecute caller then some (s.add caller task) else none
  | .put caller task =>
      if s.executing.contains (caller, task) then some (s.put caller task) else none
  | .undo caller task =>
      if s.rejected.contains (caller, task) then some (s.undo caller task) else none
  | .take w => if s.idle w then s.take w else none
  | .finish w task =>
      if s.running.contains (w, task) && !s.inExecute (some w) then some (s.finish w task) else none
  | .done w task => if s.returned.contains (w, task) then some (s.done w task) else none
  | .signalStop => some { s with tasks := s.tasks.close }
  | .wait => if s.pendingTasks.waitReturns then some s else none

/-- The queued and the running tasks and the calls of `Execute` in progress. -/
def pending (s : ThreadPool W T) : ℕ :=
  s.tasks.buffer.length + (s.running.length + s.returned.length) +
    (s.executing.length + s.rejected.length)

/-- `Execute` starts with fewer than 2³² - 1 tasks and calls pending. -/
def HasRoom (s : ThreadPool W T) : PoolEvent W T → Prop
  | .add _ _ => s.pending + 1 < 2 ^ 32
  | _ => True

end ThreadPool

variable [DecidableEq W] [DecidableEq T]

/-- The counter is the number of what is pending, and a rejected `Execute` leaves it as it was. The
tasks are taken in the order in which they were accepted, also after the close, and each is run
once; when `Wait` returns, all of them have finished. -/
structure Sound (s : ThreadPool W T) : Prop where
  counter_eq : s.pendingTasks.counter.toNat = s.pending
  counter_rejected : ∀ caller task s', s.tasks.isClosed = true →
    run ThreadPool.step s [.add caller task, .put caller task, .undo caller task] = some s' →
    s'.pendingTasks = s.pendingTasks
  accepted_eq : s.taken ++ s.tasks.buffer = s.accepted
  taken_perm : (s.finished ++ s.running.map Prod.snd).Perm s.taken
  take_isSome : s.tasks.buffer ≠ [] → ∀ w, s.idle w = true → (s.step (.take w)).isSome
  wait_sound : (s.step .wait).isSome → s.finished.Perm s.accepted

namespace ThreadPool

variable {s s' : ThreadPool W T} {caller : Option W} {w : W} {task : T}

omit [DecidableEq W] [DecidableEq T] in
theorem pending_add : (s.add caller task).pending = s.pending + 1 := by
  simp only [pending, add, List.length_append, List.length_singleton]
  omega

theorem pending_put (h : (caller, task) ∈ s.executing) :
    (s.put caller task).pending = s.pending := by
  have hlength := List.length_erase_add_one h
  rw [put, UnboundedMRMWQueue.put]
  split_ifs with hclosed
  · simp only [pending, List.length_append, List.length_singleton]
    omega
  · simp only [pending, List.length_append, List.length_singleton]
    omega

theorem pending_undo (h : (caller, task) ∈ s.rejected) :
    s.pending = (s.undo caller task).pending + 1 := by
  have hlength := List.length_erase_add_one h
  simp only [pending, undo]
  omega

theorem pending_finish (h : (w, task) ∈ s.running) : (s.finish w task).pending = s.pending := by
  have hlength := List.length_erase_add_one h
  simp only [pending, finish, List.length_append, List.length_singleton]
  omega

theorem pending_done (h : (w, task) ∈ s.returned) :
    s.pending = (s.done w task).pending + 1 := by
  have hlength := List.length_erase_add_one h
  simp only [pending, done]
  omega

omit [DecidableEq W] [DecidableEq T] in
theorem take_eq_some (h : s.take w = some s') :
    (∃ task buffer, s.tasks.buffer = task :: buffer ∧ s' = { s with
      tasks := { s.tasks with buffer := buffer }
      running := s.running ++ [(w, task)]
      taken := s.taken ++ [task] }) ∨ s' = { s with exited := w :: s.exited } := by
  rw [take, UnboundedMRMWQueue.take] at h
  split at h
  · next task buffer hbuffer => exact .inl ⟨task, buffer, hbuffer, (Option.some.inj h).symm⟩
  · split_ifs at h
    · exact .inr (Option.some.inj h).symm
    · cases h

omit [DecidableEq W] [DecidableEq T] in
theorem pending_take (h : s.take w = some s') : s'.pending = s.pending := by
  rcases take_eq_some h with ⟨task, buffer, hbuffer, rfl⟩ | rfl
  · simp only [pending, hbuffer, List.length_append, List.length_cons, List.length_nil]
    omega
  · rfl

theorem pendingTasks_put : (s.put caller task).pendingTasks = s.pendingTasks := by
  rw [put, UnboundedMRMWQueue.put]
  split_ifs <;> rfl

theorem pendingTasks_rejected
    (h : run step s [.add caller task, .put caller task, .undo caller task] = some s') :
    s'.pendingTasks = s.pendingTasks := by
  obtain ⟨s₁, hadd, h⟩ := Option.bind_eq_some_iff.1 h
  obtain ⟨s₂, hput, h⟩ := Option.bind_eq_some_iff.1 h
  obtain ⟨s₃, hundo, ⟨⟩⟩ := Option.bind_eq_some_iff.1 h
  obtain ⟨-, ⟨⟩⟩ := Option.ite_none_right_eq_some.1 hadd
  obtain ⟨-, ⟨⟩⟩ := Option.ite_none_right_eq_some.1 hput
  obtain ⟨-, ⟨⟩⟩ := Option.ite_none_right_eq_some.1 hundo
  change WaitGroup.done (ThreadPool.pendingTasks _) 1 = _
  rw [pendingTasks_put, add, WaitGroup.add, WaitGroup.done, UInt32.add_sub_cancel]

theorem pending_step {event : PoolEvent W T} (hevent : ∀ caller task, event ≠ .add caller task)
    (hstep : s.step event = some s') : s'.pending ≤ s.pending := by
  cases event with
  | add caller task => exact absurd rfl (hevent caller task)
  | put caller task =>
      obtain ⟨hcontains, ⟨⟩⟩ := Option.ite_none_right_eq_some.1 hstep
      have hmem := List.contains_iff_mem.1 hcontains
      exact (pending_put hmem).le
  | undo caller task =>
      obtain ⟨hcontains, ⟨⟩⟩ := Option.ite_none_right_eq_some.1 hstep
      have hmem := List.contains_iff_mem.1 hcontains
      have hpending := pending_undo hmem
      omega
  | take w =>
      obtain ⟨-, htake⟩ := Option.ite_none_right_eq_some.1 hstep
      exact (pending_take htake).le
  | finish w task =>
      obtain ⟨hcontains, ⟨⟩⟩ := Option.ite_none_right_eq_some.1 hstep
      have hmem := List.contains_iff_mem.1 (Bool.and_eq_true_iff.1 hcontains).1
      exact (pending_finish hmem).le
  | done w task =>
      obtain ⟨hcontains, ⟨⟩⟩ := Option.ite_none_right_eq_some.1 hstep
      have hmem := List.contains_iff_mem.1 hcontains
      have hpending := pending_done hmem
      omega
  | signalStop =>
      cases hstep
      exact le_rfl
  | wait =>
      obtain ⟨-, ⟨⟩⟩ := Option.ite_none_right_eq_some.1 hstep
      exact le_rfl

end ThreadPool

/-- The counter counts modulo 2³². -/
structure Accounts (s : ThreadPool W T) : Prop where
  counter_eq : s.pendingTasks.counter = UInt32.ofNat s.pending
  accepted_eq : s.taken ++ s.tasks.buffer = s.accepted
  taken_perm : (s.finished ++ s.running.map Prod.snd).Perm s.taken

namespace Accounts

variable {s s' : ThreadPool W T}

omit [DecidableEq W] [DecidableEq T] in
theorem initial : Accounts ({} : ThreadPool W T) where
  counter_eq := rfl
  accepted_eq := rfl
  taken_perm := .refl _

omit [DecidableEq W] [DecidableEq T] in
theorem counter_done (h : Accounts s) {n : ℕ} (hn : s.pending = n + 1) :
    (s.pendingTasks.done 1).counter = UInt32.ofNat n := by
  rw [WaitGroup.done, h.counter_eq, hn, UInt32.ofNat_add]
  exact UInt32.add_sub_cancel _ _

theorem put (h : Accounts s) {caller : Option W} {task : T} (hmem : (caller, task) ∈ s.executing) :
    Accounts (s.put caller task) := by
  have hcounter := h.counter_eq
  rw [← ThreadPool.pending_put hmem] at hcounter
  rw [ThreadPool.put, UnboundedMRMWQueue.put] at *
  split_ifs at * with hclosed
  · exact ⟨hcounter, h.accepted_eq, h.taken_perm⟩
  · refine ⟨hcounter, ?_, h.taken_perm⟩
    rw [← h.accepted_eq, List.append_assoc]

omit [DecidableEq W] [DecidableEq T] in
theorem take (h : Accounts s) {w : W} (htake : s.take w = some s') : Accounts s' := by
  have hcounter := h.counter_eq
  rw [← ThreadPool.pending_take htake] at hcounter
  rcases ThreadPool.take_eq_some htake with ⟨task, buffer, hbuffer, rfl⟩ | rfl
  · refine ⟨hcounter, ?_, ?_⟩
    · rw [← h.accepted_eq, hbuffer, List.append_assoc]
      rfl
    · rw [List.map_append, ← List.append_assoc]
      exact h.taken_perm.append_right [task]
  · exact ⟨hcounter, h.accepted_eq, h.taken_perm⟩

theorem finish (h : Accounts s) {w : W} {task : T} (hmem : (w, task) ∈ s.running) :
    Accounts (s.finish w task) := by
  refine ⟨?_, h.accepted_eq, ?_⟩
  · rw [ThreadPool.pending_finish hmem]
    exact h.counter_eq
  · refine .trans ?_ h.taken_perm
    change (s.finished ++ [task] ++ (s.running.erase (w, task)).map Prod.snd).Perm _
    rw [List.append_assoc]
    exact ((List.perm_cons_erase hmem).map Prod.snd).symm.append_left s.finished

theorem step (h : Accounts s) {event : PoolEvent W T} (hstep : s.step event = some s') :
    Accounts s' := by
  cases event with
  | add caller task =>
      obtain ⟨-, ⟨⟩⟩ := Option.ite_none_right_eq_some.1 hstep
      refine ⟨?_, h.accepted_eq, h.taken_perm⟩
      rw [ThreadPool.pending_add, UInt32.ofNat_add, ← h.counter_eq]
      rfl
  | put caller task =>
      obtain ⟨hcontains, ⟨⟩⟩ := Option.ite_none_right_eq_some.1 hstep
      have hmem := List.contains_iff_mem.1 hcontains
      exact h.put hmem
  | undo caller task =>
      obtain ⟨hcontains, ⟨⟩⟩ := Option.ite_none_right_eq_some.1 hstep
      have hmem := List.contains_iff_mem.1 hcontains
      exact ⟨h.counter_done (ThreadPool.pending_undo hmem), h.accepted_eq, h.taken_perm⟩
  | take w =>
      obtain ⟨-, htake⟩ := Option.ite_none_right_eq_some.1 hstep
      exact h.take htake
  | finish w task =>
      obtain ⟨hcontains, ⟨⟩⟩ := Option.ite_none_right_eq_some.1 hstep
      have hmem := List.contains_iff_mem.1 (Bool.and_eq_true_iff.1 hcontains).1
      exact h.finish hmem
  | done w task =>
      obtain ⟨hcontains, ⟨⟩⟩ := Option.ite_none_right_eq_some.1 hstep
      have hmem := List.contains_iff_mem.1 hcontains
      exact ⟨h.counter_done (ThreadPool.pending_done hmem), h.accepted_eq, h.taken_perm⟩
  | signalStop =>
      cases hstep
      exact ⟨h.counter_eq, h.accepted_eq, h.taken_perm⟩
  | wait =>
      obtain ⟨-, ⟨⟩⟩ := Option.ite_none_right_eq_some.1 hstep
      exact h

/-- The rest of what the pool is meant to do follows from the counter being right. -/
theorem sound_iff (h : Accounts s) : Sound s ↔ s.pending < 2 ^ 32 := by
  have hmod : s.pendingTasks.counter.toNat = s.pending % 2 ^ 32 := by
    rw [h.counter_eq]
    exact UInt32.toNat_ofNat'
  constructor
  · intro hsound
    rw [← hsound.counter_eq]
    exact s.pendingTasks.counter.toNat_lt
  · intro hlt
    have hcounter : s.pendingTasks.counter.toNat = s.pending := by
      rw [hmod, Nat.mod_eq_of_lt hlt]
    refine ⟨hcounter, ?_, h.accepted_eq, h.taken_perm, ?_, ?_⟩
    · rintro caller task s' - hrun
      exact ThreadPool.pendingTasks_rejected hrun
    · intro hbuffer w hw
      obtain ⟨task, buffer, heq⟩ := List.exists_cons_of_ne_nil hbuffer
      rw [ThreadPool.step, if_pos hw, ThreadPool.take, UnboundedMRMWQueue.take, heq]
      rfl
    · intro hwait
      have hzero : s.pendingTasks.counter = 0 := by
        rw [ThreadPool.step] at hwait
        split_ifs at hwait with hreturns
        · exact of_decide_eq_true hreturns
        · cases hwait
      have hpending : s.pending = 0 := by
        rw [← hcounter, hzero]
        rfl
      have hbuffer : s.tasks.buffer = [] := by
        rw [← List.length_eq_zero_iff]
        simp only [ThreadPool.pending] at hpending
        omega
      have hrunning : s.running = [] := by
        rw [← List.length_eq_zero_iff]
        simp only [ThreadPool.pending] at hpending
        omega
      have hperm := h.taken_perm
      have haccepted := h.accepted_eq
      rw [hrunning, List.map_nil, List.append_nil] at hperm
      rw [hbuffer, List.append_nil] at haccepted
      exact haccepted ▸ hperm

end Accounts

/-- The pool does what it is meant to do all along a run exactly when every `Execute` of the run
starts with room in the counter. -/
theorem pool_sound_iff {events : List (PoolEvent W T)} {s : ThreadPool W T}
    (hrun : run ThreadPool.step {} events = some s) :
    (∀ l t, l <+: events → run ThreadPool.step {} l = some t → Sound t) ↔
      ∀ l event t, l ++ [event] <+: events → run ThreadPool.step {} l = some t →
        t.HasRoom event := by
  have hinitial : Sound ({} : ThreadPool W T) := by
    rw [Accounts.initial.sound_iff]
    exact Nat.two_pow_pos 32
  refine forall_prefix_iff Accounts.initial hinitial ?_ hrun
  intro t event t' haccounts hsound hstep
  have haccounts' := haccounts.step hstep
  refine ⟨haccounts', ?_⟩
  rw [haccounts'.sound_iff]
  by_cases hevent : ∀ caller task, event ≠ .add caller task
  · have hlt := haccounts.sound_iff.1 hsound
    have hle := ThreadPool.pending_step hevent hstep
    refine iff_of_true (by omega) ?_
    cases event with
    | add caller task => exact absurd rfl (hevent caller task)
    | _ => trivial
  · push Not at hevent
    obtain ⟨caller, task, rfl⟩ := hevent
    obtain ⟨-, ⟨⟩⟩ := Option.ite_none_right_eq_some.1 hstep
    rw [ThreadPool.pending_add, ThreadPool.HasRoom]

instance (s : ThreadPool W T) : (event : PoolEvent W T) → Decidable (s.HasRoom event)
  | .add _ _ => inferInstanceAs (Decidable (s.pending + 1 < 2 ^ 32))
  | .put _ _ | .undo _ _ | .take _ | .finish _ _ | .done _ _ | .signalStop | .wait =>
      inferInstanceAs (Decidable True)

def submittingRun : List (PoolEvent ℕ ℕ) :=
  [.add none 1, .put none 1, .take 0, .add (some 0) 2, .put (some 0) 2, .signalStop, .take 1,
    .add none 3, .finish 0 1, .put none 3, .done 0 1, .undo none 3, .finish 1 2, .done 1 2, .wait]

theorem pool_sound_submitting :
    ∃ s, run ThreadPool.step {} submittingRun = some s ∧ s.finished = [1, 2] ∧ Sound s := by
  obtain ⟨s, hchecked, hfinished⟩ : ∃ s,
      runIn ThreadPool.step (fun s event => decide (s.HasRoom event)) {} submittingRun = some s ∧
      s.finished = [1, 2] :=
    ⟨_, rfl, rfl⟩
  have hrun := run_of_runIn hchecked
  have hsound := (pool_sound_iff hrun).2 (ok_of_runIn hchecked) _ s List.prefix_rfl hrun
  exact ⟨s, hrun, hfinished, hsound⟩

def loaded (task : T) (n : ℕ) : ThreadPool W T :=
  { tasks := { buffer := List.replicate n task }
    pendingTasks := { counter := UInt32.ofNat n }
    accepted := List.replicate n task }

theorem reachable_loaded (task : T) (n : ℕ) :
    Reachable ThreadPool.step ({} : ThreadPool W T) (loaded task n) := by
  induction n with
  | zero => exact .refl
  | succ n ih =>
      have hrun : run ThreadPool.step (loaded task n : ThreadPool W T)
          [.add none task, .put none task] = some (loaded task (n + 1)) := by
        simp [run, loaded, ThreadPool.step, ThreadPool.mayExecute, ThreadPool.add, ThreadPool.put,
          UnboundedMRMWQueue.put, WaitGroup.add, List.replicate_succ']
      exact ih.run (fun _ _ _ => trivial) hrun

/-- With 2³² tasks in the queue the counter is zero: `Wait` returns, and none of them has run. -/
theorem wait_returns_early :
    ∃ s : ThreadPool ℕ ℕ, Reachable ThreadPool.step {} s ∧ (s.step .wait).isSome ∧
      s.accepted.length = 2 ^ 32 ∧ s.finished = [] ∧ ¬ Sound s := by
  refine ⟨loaded 0 (2 ^ 32), reachable_loaded 0 (2 ^ 32), rfl, List.length_replicate, rfl, ?_⟩
  intro h
  have hlength : ([] : List ℕ).length = (List.replicate (2 ^ 32) 0).length :=
    (h.wait_sound rfl).length_eq
  rw [List.length_nil, List.length_replicate] at hlength
  omega

end BroadcastService.Runtime

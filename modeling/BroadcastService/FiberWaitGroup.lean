import BroadcastService.FiberSuspension
import BroadcastService.TransitionSystem

/-!
# The fiber wait group

`FiberWaitGroup` of `concurrency/fiber_sync.hpp` with its `FiberOneShotEvent`. An operation on the
counter is one step, and so is a critical section of the spin lock. `firing` counts the calls of
`Fire` that have yet to enter theirs, `awaking` are the local lists of the calls that have left it.

`total` is the sum of what was added less what was subtracted, and `zeroed` says that a `Done` has
brought the counter to zero. `waited` and `resumed` record the fibers that were suspended by `Wait`
and those that came back from it.
-/

namespace BroadcastService.FiberSync
open TransitionSystem

variable {F : Type*} [DecidableEq F]

structure FiberWaitGroup (F : Type*) where
  counter : UInt64 := 0
  sleepers : List F := []
  isFired : Bool := false
  fibers : Fibers F := {}
  firing : ℕ := 0
  awaking : List (List F) := []
  total : ℕ := 0
  zeroed : Bool := false
  waited : List F := []
  resumed : List F := []

inductive WaitGroupEvent (F : Type*)
  | add (count : UInt64)
  | done (count : UInt64)
  | fire
  | awake (i : ℕ)
  | wait (f : F)
  | resume (f : F)

namespace FiberWaitGroup

variable (s : FiberWaitGroup F)

def add (count : UInt64) : FiberWaitGroup F :=
  { s with counter := s.counter + count, total := s.total + count.toNat }

/-- The old value of the counter decides whether `Fire` is called. -/
def done (count : UInt64) : FiberWaitGroup F :=
  { s with
    counter := s.counter - count
    firing := if s.counter = 1 then s.firing + 1 else s.firing
    total := s.total - count.toNat
    zeroed := s.zeroed || (s.counter ≠ 0 && s.counter - count = 0) }

/-- `Fire` up to the release of the spin lock. -/
def fire : FiberWaitGroup F :=
  { s with
    sleepers := []
    isFired := true
    firing := s.firing - 1
    awaking := s.awaking ++ [s.sleepers] }

def awake (i : ℕ) : Option (FiberWaitGroup F) :=
  match s.awaking[i]? with
  | some (sleeper :: sleepers) => (s.fibers.awake sleeper).map fun fibers =>
      { s with fibers := fibers, awaking := s.awaking.set i sleepers }
  | _ => none

def wait (f : F) : FiberWaitGroup F :=
  if s.isFired then s
  else
    { s with
      sleepers := s.sleepers ++ [f]
      fibers := s.fibers.suspend f
      waited := s.waited ++ [f] }

def resume (f : F) : FiberWaitGroup F :=
  { s with fibers := s.fibers.resume f, resumed := s.resumed ++ [f] }

/-- The running total never falls below zero. -/
def step : WaitGroupEvent F → Option (FiberWaitGroup F)
  | .add count => some (s.add count)
  | .done count => if count.toNat ≤ s.total then some (s.done count) else none
  | .fire => if 0 < s.firing then some s.fire else none
  | .awake i => s.awake i
  | .wait f => if s.fibers.parked f then none else some (s.wait f)
  | .resume f => if f ∈ s.fibers.executor then some (s.resume f) else none

/-- The event is fired, or a `Done` is in its call of `Fire`. -/
def Fired : Prop := s.isFired = true ∨ 0 < s.firing

end FiberWaitGroup

/-- The event is fired from when the counter first reached zero. The fibers that waited are those
that were scheduled and those that are to be, each once; a `Fire` schedules all it found, and
afterwards no fiber sleeps and `Wait` returns at once. -/
structure Fires (s : FiberWaitGroup F) : Prop where
  fired_iff : s.Fired ↔ s.zeroed = true
  waited_perm : (s.resumed ++ s.fibers.executor ++ s.awaking.flatten ++ s.sleepers).Perm s.waited
  awake_isSome : ∀ i sleeper sleepers, s.awaking[i]? = some (sleeper :: sleepers) →
    (s.step (.awake i)).isSome
  sleepers_eq : s.isFired = true → s.sleepers = []
  wait_eq : s.isFired = true → ∀ f, s.fibers.parked f = false → s.step (.wait f) = some s

/-- While no `Done` has brought the counter to zero, one finds the counter at one exactly when it
subtracts all of it. -/
def FiberWaitGroup.Exact (s : FiberWaitGroup F) : WaitGroupEvent F → Prop
  | .done count =>
      s.zeroed = true ∨ s.counter = 0 ∨ (s.counter = count ↔ s.counter = 1)
  | _ => True

instance (s : FiberWaitGroup F) : (event : WaitGroupEvent F) → Decidable (s.Exact event)
  | .done count =>
      inferInstanceAs (Decidable (s.zeroed = true ∨ s.counter = 0 ∨ (s.counter = count ↔ _)))
  | .add _ | .fire | .awake _ | .wait _ | .resume _ => inferInstanceAs (Decidable True)

omit [DecidableEq F] in
theorem flatten_set_perm {ls : List (List F)} {i : ℕ} {f : F} {l : List F}
    (h : ls[i]? = some (f :: l)) : ls.flatten.Perm (f :: (ls.set i l).flatten) := by
  induction ls generalizing i with
  | nil => simp at h
  | cons l' ls ih =>
      cases i with
      | zero =>
          cases Option.some.inj h
          exact .refl _
      | succ i =>
          rw [List.getElem?_cons_succ] at h
          exact ((ih h).append_left l').trans List.perm_middle

omit [DecidableEq F] in
theorem FiberWaitGroup.awake_eq_some {s s' : FiberWaitGroup F} {i : ℕ} (h : s.awake i = some s') :
    ∃ f l fibers, s.awaking[i]? = some (f :: l) ∧ s.fibers.awake f = some fibers ∧
      s' = { s with fibers := fibers, awaking := s.awaking.set i l } := by
  rw [FiberWaitGroup.awake] at h
  split at h
  · next f l hi =>
      obtain ⟨fibers, hfibers, rfl⟩ := Option.map_eq_some_iff.1 h
      exact ⟨f, l, fibers, hi, hfibers, rfl⟩
  · cases h

structure Sleeping (s : FiberWaitGroup F) : Prop where
  waiting : s.fibers.Waiting (s.awaking.flatten ++ s.sleepers)
  waited_perm : (s.resumed ++ s.fibers.executor ++ s.awaking.flatten ++ s.sleepers).Perm s.waited
  sleepers_eq : s.isFired = true → s.sleepers = []

namespace Sleeping

variable {s s' : FiberWaitGroup F}

omit [DecidableEq F] in
theorem initial : Sleeping ({} : FiberWaitGroup F) where
  waiting := .initial
  waited_perm := .refl _
  sleepers_eq _ := rfl

omit [DecidableEq F] in
theorem fire (h : Sleeping s) : Sleeping s.fire := by
  have hflatten : (s.awaking ++ [s.sleepers]).flatten ++ [] = s.awaking.flatten ++ s.sleepers := by
    simp
  refine ⟨?_, ?_, fun _ => rfl⟩
  · change s.fibers.Waiting ((s.awaking ++ [s.sleepers]).flatten ++ [])
    rw [hflatten]
    exact h.waiting
  · change (s.resumed ++ s.fibers.executor ++ (s.awaking ++ [s.sleepers]).flatten ++ []).Perm _
    rw [List.append_assoc, hflatten, ← List.append_assoc]
    exact h.waited_perm

omit [DecidableEq F] in
theorem awake (h : Sleeping s) {i : ℕ} {f : F} {l : List F} (hi : s.awaking[i]? = some (f :: l)) :
    ∃ s', s.awake i = some s' ∧ Sleeping s' := by
  have hperm := flatten_set_perm hi
  obtain ⟨hawake, hwaiting⟩ := (h.waiting.perm (hperm.append_right s.sleepers)).awake
  refine ⟨{ s with
    fibers := { s.fibers with executor := s.fibers.executor ++ [f] }
    awaking := s.awaking.set i l }, ?_, hwaiting, ?_, h.sleepers_eq⟩
  · simp only [FiberWaitGroup.awake, hi, hawake, Option.map_some]
  · refine .trans (.append_right s.sleepers ?_) h.waited_perm
    simp only [List.append_assoc, List.singleton_append]
    exact (hperm.symm.append_left s.fibers.executor).append_left s.resumed

theorem wait (h : Sleeping s) {f : F} (hf : s.fibers.parked f = false) : Sleeping (s.wait f) := by
  rw [FiberWaitGroup.wait]
  split_ifs with hfired
  · exact h
  · refine ⟨?_, ?_, fun hfired' => absurd hfired' hfired⟩
    · have hwaiting := h.waiting.suspend hf
      rw [List.append_assoc] at hwaiting
      exact hwaiting
    · have hperm := h.waited_perm.append_right [f]
      rw [List.append_assoc] at hperm
      exact hperm

theorem resume (h : Sleeping s) {f : F} (hf : f ∈ s.fibers.executor) : Sleeping (s.resume f) := by
  refine ⟨h.waiting.resume hf, ?_, h.sleepers_eq⟩
  refine .trans ?_ h.waited_perm
  refine .append_right s.sleepers (.append_right s.awaking.flatten ?_)
  change (s.resumed ++ [f] ++ s.fibers.executor.erase f).Perm _
  rw [List.append_assoc]
  exact (List.perm_cons_erase hf).symm.append_left s.resumed

theorem step (h : Sleeping s) {event : WaitGroupEvent F} (hstep : s.step event = some s') :
    Sleeping s' := by
  cases event with
  | add count =>
      cases hstep
      exact ⟨h.waiting, h.waited_perm, h.sleepers_eq⟩
  | done count =>
      obtain ⟨-, ⟨⟩⟩ := Option.ite_none_right_eq_some.1 hstep
      exact ⟨h.waiting, h.waited_perm, h.sleepers_eq⟩
  | fire =>
      obtain ⟨-, ⟨⟩⟩ := Option.ite_none_right_eq_some.1 hstep
      exact h.fire
  | awake i =>
      obtain ⟨f, l, fibers, hi, -, -⟩ := FiberWaitGroup.awake_eq_some hstep
      obtain ⟨s'', hawake, h'⟩ := h.awake hi
      exact Option.some.inj (hawake.symm.trans hstep) ▸ h'
  | wait f =>
      obtain ⟨hparked, ⟨⟩⟩ := Option.ite_none_left_eq_some.1 hstep
      exact h.wait (Bool.eq_false_iff.2 hparked)
  | resume f =>
      obtain ⟨hf, ⟨⟩⟩ := Option.ite_none_right_eq_some.1 hstep
      exact h.resume hf

/-- The rest of what the wait group is meant to do does not depend on the counter. -/
theorem fires_iff (h : Sleeping s) : Fires s ↔ (s.Fired ↔ s.zeroed = true) := by
  refine ⟨fun hfires => hfires.fired_iff, ?_⟩
  intro hfired
  refine ⟨hfired, h.waited_perm, ?_, h.sleepers_eq, ?_⟩
  · intro i f l hi
    obtain ⟨s', hawake, -⟩ := h.awake hi
    rw [FiberWaitGroup.step, hawake]
    rfl
  · intro hfired f hf
    rw [FiberWaitGroup.step, hf, FiberWaitGroup.wait, if_pos hfired]
    rfl

end Sleeping

namespace FiberWaitGroup

variable {s s' : FiberWaitGroup F}

omit [DecidableEq F] in
theorem fired_done (count : UInt64) : (s.done count).Fired ↔ s.Fired ∨ s.counter = 1 := by
  simp only [Fired, done, or_assoc]
  refine or_congr_right ?_
  split_ifs with hone <;> simp [hone]

omit [DecidableEq F] in
theorem zeroed_done (count : UInt64) :
    (s.done count).zeroed = true ↔ s.zeroed = true ∨ (s.counter ≠ 0 ∧ s.counter = count) := by
  have hsub : s.counter - count = 0 ↔ s.counter = count := by
    rw [UInt64.sub_eq_iff_eq_add, UInt64.zero_add]
  simp [done, hsub]

theorem fired_step {event : WaitGroupEvent F} (hevent : ∀ count, event ≠ .done count)
    (hstep : s.step event = some s') : (s'.Fired ↔ s.Fired) ∧ s'.zeroed = s.zeroed := by
  cases event with
  | add count =>
      cases hstep
      exact ⟨Iff.rfl, rfl⟩
  | done count => exact absurd rfl (hevent count)
  | fire =>
      obtain ⟨hfiring, ⟨⟩⟩ := Option.ite_none_right_eq_some.1 hstep
      exact ⟨iff_of_true (.inl rfl) (.inr hfiring), rfl⟩
  | awake i =>
      obtain ⟨f, l, fibers, -, -, rfl⟩ := awake_eq_some hstep
      exact ⟨Iff.rfl, rfl⟩
  | wait f =>
      obtain ⟨-, ⟨⟩⟩ := Option.ite_none_left_eq_some.1 hstep
      rw [wait]
      split_ifs <;> exact ⟨Iff.rfl, rfl⟩
  | resume f =>
      obtain ⟨-, ⟨⟩⟩ := Option.ite_none_right_eq_some.1 hstep
      exact ⟨Iff.rfl, rfl⟩

/-- The event stays fired exactly from the first zero on when the step is exact. -/
theorem fired_iff_step {event : WaitGroupEvent F} (hfired : s.Fired ↔ s.zeroed = true)
    (hstep : s.step event = some s') : (s'.Fired ↔ s'.zeroed = true) ↔ s.Exact event := by
  by_cases hevent : ∀ count, event ≠ .done count
  · obtain ⟨hfired', hzeroed'⟩ := fired_step hevent hstep
    rw [hfired', hzeroed', hfired]
    cases event with
    | done count => exact absurd rfl (hevent count)
    | _ => simp [Exact]
  · push Not at hevent
    obtain ⟨count, rfl⟩ := hevent
    obtain ⟨-, ⟨⟩⟩ := Option.ite_none_right_eq_some.1 hstep
    rw [fired_done, zeroed_done, hfired, Exact]
    by_cases hzeroed : s.zeroed = true
    · simp [hzeroed]
    · by_cases hzero : s.counter = 0
      · simp [hzeroed, hzero]
      · rw [or_iff_right hzeroed, or_iff_right hzeroed, or_iff_right hzeroed, or_iff_right hzero,
          and_iff_right hzero]
        exact Iff.comm

end FiberWaitGroup

/-- The wait group does what it is meant to do all along a run exactly when all `Done` of the run
are exact. -/
theorem waitGroup_fires_iff {events : List (WaitGroupEvent F)} {s : FiberWaitGroup F}
    (hrun : run FiberWaitGroup.step {} events = some s) :
    (∀ l t, l <+: events → run FiberWaitGroup.step {} l = some t → Fires t) ↔
      ∀ l event t, l ++ [event] <+: events → run FiberWaitGroup.step {} l = some t →
        t.Exact event := by
  have hinitial : Fires ({} : FiberWaitGroup F) := by
    rw [Sleeping.initial.fires_iff]
    simp [FiberWaitGroup.Fired]
  refine forall_prefix_iff Sleeping.initial hinitial ?_ hrun
  intro t event t' hsleeping hfires hstep
  have hsleeping' := hsleeping.step hstep
  refine ⟨hsleeping', ?_⟩
  rw [hsleeping'.fires_iff]
  exact FiberWaitGroup.fired_iff_step hfires.fired_iff hstep

/-- Two units are added at once and subtracted one by one, with a fiber waiting. -/
theorem waitGroup_fires_two :
    ∃ s, run FiberWaitGroup.step ({} : FiberWaitGroup ℕ)
        [.add 2, .wait 7, .done 1, .done 1, .fire, .awake 0] = some s ∧
      s.counter = 0 ∧ s.fibers.executor = [7] ∧ Fires s := by
  obtain ⟨s, hchecked, hcounter, hexecutor⟩ : ∃ s,
      runIn FiberWaitGroup.step (fun s event => decide (s.Exact event)) ({} : FiberWaitGroup ℕ)
        [.add 2, .wait 7, .done 1, .done 1, .fire, .awake 0] = some s ∧
      s.counter = 0 ∧ s.fibers.executor = [7] :=
    ⟨_, rfl, rfl, rfl⟩
  have hrun := run_of_runIn hchecked
  have hfires := (waitGroup_fires_iff hrun).2 (ok_of_runIn hchecked) _ s List.prefix_rfl hrun
  exact ⟨s, hrun, hcounter, hexecutor, hfires⟩

/-- Both units are subtracted at once: the event is not fired, and the fiber sleeps on. Subtracting
nothing from one unit fires the event while the counter is one. -/
theorem done_misses_zero :
    (∃ s, run FiberWaitGroup.step ({} : FiberWaitGroup ℕ) [.add 2, .wait 7, .done 2] = some s ∧
      s.counter = 0 ∧ s.isFired = false ∧ s.firing = 0 ∧ s.sleepers = [7] ∧ ¬ Fires s) ∧
    ∃ s, run FiberWaitGroup.step ({} : FiberWaitGroup ℕ) [.add 1, .done 0, .fire] = some s ∧
      s.counter = 1 ∧ s.isFired = true ∧ ¬ Fires s := by
  constructor
  · obtain ⟨s, hrun, hcounter, hfired, hfiring, hsleepers, hzeroed⟩ : ∃ s, run FiberWaitGroup.step
        ({} : FiberWaitGroup ℕ) [.add 2, .wait 7, .done 2] = some s ∧ s.counter = 0 ∧
        s.isFired = false ∧ s.firing = 0 ∧ s.sleepers = [7] ∧ s.zeroed = true :=
      ⟨_, rfl, rfl, rfl, rfl, rfl, rfl⟩
    refine ⟨s, hrun, hcounter, hfired, hfiring, hsleepers, ?_⟩
    intro h
    have hfire := h.fired_iff.2 hzeroed
    simp [FiberWaitGroup.Fired, hfired, hfiring] at hfire
  · obtain ⟨s, hrun, hcounter, hfired, hzeroed⟩ : ∃ s, run FiberWaitGroup.step
        ({} : FiberWaitGroup ℕ) [.add 1, .done 0, .fire] = some s ∧ s.counter = 1 ∧
        s.isFired = true ∧ s.zeroed = false :=
      ⟨_, rfl, rfl, rfl, rfl⟩
    refine ⟨s, hrun, hcounter, hfired, ?_⟩
    intro h
    have hzeroed' := h.fired_iff.1 (.inl hfired)
    exact Bool.false_ne_true (hzeroed.symm.trans hzeroed')

end BroadcastService.FiberSync

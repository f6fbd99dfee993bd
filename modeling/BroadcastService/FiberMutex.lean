import BroadcastService.FiberSuspension
import BroadcastService.TransitionSystem

/-!
# The fiber mutex

`FiberMutex` of `concurrency/fiber_sync.hpp`. A critical section of the spin lock is one step, with
the suspension of the fiber in it. `sleepers` is the queue of strategies; `awaking` are the fibers
in `Unlock` that have popped a strategy and not yet called its `Awake`.

`holds` says whose `Lock` has returned without an `Unlock` since; `queued` and `resumed` record the
fibers in the order in which they queued and in which their `Lock` returned.
-/

namespace BroadcastService.FiberSync
open TransitionSystem

variable {F : Type*} [DecidableEq F]

structure FiberMutex (F : Type*) where
  isLocked : Bool := false
  sleepers : List F := []
  fibers : Fibers F := {}
  awaking : List (F × F) := []
  holds : F → Bool := fun _ => false
  queued : List F := []
  resumed : List F := []

inductive MutexEvent (F : Type*)
  | lock (f : F)
  | unlock (f : F)
  | awake (f sleeper : F)
  | resume (f : F)

namespace FiberMutex

variable (s : FiberMutex F)

def running (f : F) : Bool := !s.fibers.parked f && s.awaking.all fun p => p.1 ≠ f

def lock (f : F) : FiberMutex F :=
  if s.isLocked then
    { s with
      sleepers := s.sleepers ++ [f]
      fibers := s.fibers.suspend f
      queued := s.queued ++ [f] }
  else { s with isLocked := true, holds := Function.update s.holds f true }

def unlock (f : F) : FiberMutex F :=
  match s.sleepers with
  | sleeper :: sleepers =>
      { s with
        sleepers := sleepers
        awaking := s.awaking ++ [(f, sleeper)]
        holds := Function.update s.holds f false }
  | [] => { s with isLocked := false, holds := Function.update s.holds f false }

/-- The rest of `Unlock`. -/
def awake (f sleeper : F) : Option (FiberMutex F) :=
  (s.fibers.awake sleeper).map fun fibers =>
    { s with fibers := fibers, awaking := s.awaking.erase (f, sleeper) }

def resume (f : F) : FiberMutex F :=
  { s with
    fibers := s.fibers.resume f
    holds := Function.update s.holds f true
    resumed := s.resumed ++ [f] }

/-- Any fiber may lock, only the holder unlocks. -/
def step : MutexEvent F → Option (FiberMutex F)
  | .lock f => if s.running f then some (s.lock f) else none
  | .unlock f => if s.running f && s.holds f then some (s.unlock f) else none
  | .awake f sleeper => if (f, sleeper) ∈ s.awaking then s.awake f sleeper else none
  | .resume f => if f ∈ s.fibers.executor then some (s.resume f) else none

/-- The sleeper to which each `Unlock` in progress hands the mutex. -/
def popped : List F := s.awaking.map Prod.snd

/-- The mutex was handed to the fiber, whose `Lock` has yet to return. -/
def Handed (f : F) : Prop := f ∈ s.popped ∨ f ∈ s.fibers.executor

def Owns (f : F) : Prop := s.holds f = true ∨ s.Handed f

end FiberMutex

/-- Where the ownership is: `popped f g` between the two parts of an `Unlock` by `f`. -/
inductive Owner (F : Type*)
  | free
  | held (f : F)
  | popped (f g : F)
  | scheduled (g : F)

namespace Owner

def isLocked : Owner F → Bool
  | free => false
  | _ => true

def awaking : Owner F → List (F × F)
  | popped f g => [(f, g)]
  | _ => []

def executor : Owner F → List F
  | scheduled g => [g]
  | _ => []

end Owner

structure OwnedBy (s : FiberMutex F) (o : Owner F) : Prop where
  isLocked_eq : s.isLocked = o.isLocked
  holds_iff : ∀ f, s.holds f = true ↔ o = .held f
  awaking_eq : s.awaking = o.awaking
  executor_eq : s.fibers.executor = o.executor
  sleepers_of_free : o = .free → s.sleepers = []
  queued_eq : s.resumed ++ s.fibers.executor ++ s.popped ++ s.sleepers = s.queued
  waiting : s.fibers.Waiting (s.popped ++ s.sleepers)

namespace OwnedBy

variable {s s' : FiberMutex F} {o : Owner F}

omit [DecidableEq F] in
theorem initial : OwnedBy ({} : FiberMutex F) .free where
  isLocked_eq := rfl
  holds_iff f := by simp
  awaking_eq := rfl
  executor_eq := rfl
  sleepers_of_free _ := rfl
  queued_eq := rfl
  waiting := .initial

theorem holds_update {holds : F → Bool} (h : ∀ g, ¬ holds g = true) (f g : F) :
    Function.update holds f true g = true ↔ Owner.held f = .held g := by
  rw [Function.update_apply, Owner.held.injEq]
  split_ifs with hg
  · simp [hg]
  · exact iff_of_false (h g) (Ne.symm hg)

theorem lock_sleep (h : OwnedBy s o) {f : F} (hparked : s.fibers.parked f = false)
    (hlocked : s.isLocked = true) : OwnedBy (s.lock f) o := by
  rw [FiberMutex.lock, if_pos hlocked]
  refine ⟨h.isLocked_eq, h.holds_iff, h.awaking_eq, h.executor_eq, ?_, ?_, ?_⟩
  · rintro rfl
    rw [h.isLocked_eq] at hlocked
    cases hlocked
  · exact (List.append_assoc ..).symm.trans (congrArg (· ++ [f]) h.queued_eq)
  · have hwaiting := h.waiting.suspend hparked
    rw [List.append_assoc] at hwaiting
    exact hwaiting

theorem lock_free (h : OwnedBy s o) {f : F} (hlocked : s.isLocked = false) :
    OwnedBy (s.lock f) (.held f) := by
  obtain rfl : o = .free := by
    have hfree := h.isLocked_eq.symm.trans hlocked
    cases o with
    | free => rfl
    | held f => cases hfree
    | popped f g => cases hfree
    | scheduled g => cases hfree
  rw [FiberMutex.lock, if_neg (by rw [hlocked]; exact Bool.false_ne_true)]
  refine ⟨rfl, holds_update ?_ f, h.awaking_eq, h.executor_eq, nofun, h.queued_eq, h.waiting⟩
  intro g
  rw [h.holds_iff]
  exact nofun

/-- The mutex goes to the first sleeper, or becomes free when there is none. -/
theorem unlock (h : OwnedBy s o) {f : F} (hf : s.holds f = true) :
    ∃ o', OwnedBy (s.unlock f) o' := by
  obtain rfl := (h.holds_iff f).1 hf
  have hawaking : s.awaking = [] := h.awaking_eq
  have hexecutor : s.fibers.executor = [] := h.executor_eq
  have hholds : ∀ g, Function.update s.holds f false g = false := by
    intro g
    rw [Function.update_apply]
    split_ifs with hg
    · rfl
    · rw [Bool.eq_false_iff, Ne, h.holds_iff g, Owner.held.injEq]
      exact fun heq => hg heq.symm
  have hqueued := h.queued_eq
  have hwaiting := h.waiting
  rw [FiberMutex.popped, hawaking] at hqueued hwaiting
  rw [FiberMutex.unlock]
  split
  · next g sleepers hsleepers =>
      rw [hsleepers] at hqueued hwaiting
      refine ⟨.popped f g, h.isLocked_eq, ?_, ?_, hexecutor, nofun, ?_, ?_⟩
      · intro g'
        simp [hholds g']
      · exact congrArg (· ++ [(f, g)]) hawaking
      · simpa [FiberMutex.popped, hawaking] using hqueued
      · simpa [FiberMutex.popped, hawaking] using hwaiting
  · next hsleepers =>
      refine ⟨.free, rfl, ?_, hawaking, hexecutor, fun _ => hsleepers, h.queued_eq, h.waiting⟩
      intro g'
      simp [hholds g']

theorem awake (h : OwnedBy s o) {f g : F} (hmem : (f, g) ∈ s.awaking) :
    ∃ s', s.awake f g = some s' ∧ OwnedBy s' (.scheduled g) := by
  obtain rfl : o = .popped f g := by
    rw [h.awaking_eq] at hmem
    cases o with
    | free => cases hmem
    | held f => cases hmem
    | popped f' g' =>
        cases List.mem_singleton.1 hmem
        rfl
    | scheduled g => cases hmem
  have hawaking : s.awaking = [(f, g)] := h.awaking_eq
  have hexecutor : s.fibers.executor = [] := h.executor_eq
  have herase : s.awaking.erase (f, g) = [] := by
    rw [hawaking, List.erase_cons_head]
  have hqueued := h.queued_eq
  have hwaiting := h.waiting
  rw [FiberMutex.popped, hawaking] at hqueued hwaiting
  obtain ⟨hawake, hwaiting⟩ := hwaiting.awake
  refine ⟨_, by rw [FiberMutex.awake, hawake, Option.map_some], ?_⟩
  refine ⟨h.isLocked_eq, ?_, herase, ?_, nofun, ?_, ?_⟩
  · intro g'
    rw [h.holds_iff]
    simp
  · exact congrArg (· ++ [g]) hexecutor
  · simpa [FiberMutex.popped, herase] using hqueued
  · simpa [FiberMutex.popped, herase] using hwaiting

theorem resume (h : OwnedBy s o) {g : F} (hmem : g ∈ s.fibers.executor) :
    OwnedBy (s.resume g) (.held g) := by
  obtain rfl : o = .scheduled g := by
    rw [h.executor_eq] at hmem
    cases o with
    | free => cases hmem
    | held f => cases hmem
    | popped f g => cases hmem
    | scheduled g' =>
        cases List.mem_singleton.1 hmem
        rfl
  have hexecutor : s.fibers.executor = [g] := h.executor_eq
  have herase : s.fibers.executor.erase g = [] := by
    rw [hexecutor, List.erase_cons_head]
  have hqueued := h.queued_eq
  rw [hexecutor] at hqueued
  refine ⟨h.isLocked_eq, holds_update ?_ g, h.awaking_eq, herase, nofun, ?_, h.waiting.resume hmem⟩
  · intro g'
    rw [h.holds_iff]
    exact nofun
  · change s.resumed ++ [g] ++ s.fibers.executor.erase g ++ s.popped ++ s.sleepers = s.queued
    rw [herase, List.append_nil]
    exact hqueued

theorem step (h : OwnedBy s o) {event : MutexEvent F} (hstep : s.step event = some s') :
    ∃ o', OwnedBy s' o' := by
  cases event with
  | lock f =>
      rw [FiberMutex.step] at hstep
      split_ifs at hstep with hrunning
      cases hstep
      cases hlocked : s.isLocked with
      | true =>
          simp only [FiberMutex.running, Bool.and_eq_true, Bool.not_eq_true'] at hrunning
          exact ⟨o, h.lock_sleep hrunning.1 hlocked⟩
      | false => exact ⟨.held f, h.lock_free hlocked⟩
  | unlock f =>
      rw [FiberMutex.step] at hstep
      split_ifs at hstep with hrunning
      cases hstep
      exact h.unlock (Bool.and_eq_true_iff.1 hrunning).2
  | awake f g =>
      rw [FiberMutex.step] at hstep
      split_ifs at hstep with hmem
      obtain ⟨s'', hawake, h'⟩ := h.awake hmem
      cases hawake.symm.trans hstep
      exact ⟨_, h'⟩
  | resume g =>
      rw [FiberMutex.step] at hstep
      split_ifs at hstep with hmem
      cases hstep
      exact ⟨_, h.resume hmem⟩

theorem of_reachable (h : Reachable FiberMutex.step {} s) : ∃ o, OwnedBy s o := by
  apply h.invariant ⟨.free, initial⟩
  rintro s event s' - ⟨o, ho⟩ - hstep
  exact ho.step hstep

omit [DecidableEq F] in
/-- The fiber that holds the mutex or was handed it. -/
theorem owns_iff (h : OwnedBy s o) (f : F) :
    s.Owns f ↔ o = .held f ∨ (∃ g, o = .popped g f) ∨ o = .scheduled f := by
  rw [FiberMutex.Owns, FiberMutex.Handed, FiberMutex.popped, h.holds_iff, h.awaking_eq,
    h.executor_eq]
  cases o with
  | free => simp [Owner.awaking, Owner.executor]
  | held g => simp [Owner.awaking, Owner.executor]
  | popped g g' => simp [Owner.awaking, Owner.executor, eq_comm]
  | scheduled g => simp [Owner.awaking, Owner.executor, eq_comm]

omit [DecidableEq F] in
theorem owns_unique (h : OwnedBy s o) {f g : F} (hf : s.Owns f) (hg : s.Owns g) : f = g := by
  rw [h.owns_iff] at hf hg
  rcases hf with rfl | ⟨f', rfl⟩ | rfl <;> simpa using hg

omit [DecidableEq F] in
theorem isLocked_iff (h : OwnedBy s o) : s.isLocked = true ↔ ∃ f, s.Owns f := by
  simp only [h.owns_iff, h.isLocked_eq]
  cases o <;> simp [Owner.isLocked]

omit [DecidableEq F] in
theorem parked_of_free (h : OwnedBy s o) (hfree : s.isLocked = false) (f : F) :
    s.fibers.parked f = false := by
  have hlocked := h.isLocked_eq.symm.trans hfree
  rw [Bool.eq_false_iff, Ne, h.waiting.parked_iff]
  cases o with
  | free =>
      rw [FiberMutex.popped, h.executor_eq, h.awaking_eq, h.sleepers_of_free rfl]
      exact List.not_mem_nil
  | held f => cases hlocked
  | popped f g => cases hlocked
  | scheduled g => cases hlocked

end OwnedBy

/-- At most one fiber has the mutex, which is locked exactly then; no fiber sleeps while it is free.
What queued is what was resumed, then the fiber to which the mutex was handed, then the sleepers,
and a popped sleeper can be scheduled. -/
theorem mutex_sound {s : FiberMutex F} (h : Reachable FiberMutex.step {} s) :
    (∀ f g, s.Owns f → s.Owns g → f = g) ∧
    (s.isLocked = true ↔ ∃ f, s.Owns f) ∧
    (s.isLocked = false → ∀ f, s.fibers.parked f = false) ∧
    s.resumed ++ s.fibers.executor ++ s.popped ++ s.sleepers = s.queued ∧
    (s.fibers.executor ++ (s.popped ++ s.sleepers)).Nodup ∧
    ∀ p ∈ s.awaking, (s.step (.awake p.1 p.2)).isSome := by
  obtain ⟨o, ho⟩ := OwnedBy.of_reachable h
  refine ⟨fun f g => ho.owns_unique, ho.isLocked_iff, ho.parked_of_free, ho.queued_eq,
    ho.waiting.nodup, ?_⟩
  rintro ⟨f, g⟩ hmem
  obtain ⟨s', hawake, -⟩ := ho.awake hmem
  rw [FiberMutex.step, if_pos hmem, hawake]
  rfl

/-- Two fibers queue behind the first one. The first gets the mutex back in line: it queues while
the second holds the mutex, which then hands it to the third. -/
theorem mutex_sound_three :
    ∃ s, Reachable FiberMutex.step ({} : FiberMutex ℕ) s ∧
      (s.queued = [2, 3, 1] ∧ s.resumed = [2] ∧ s.sleepers = [1] ∧ s.awaking = [(2, 3)]) ∧
      (∀ f g, s.Owns f → s.Owns g → f = g) ∧ (s.isLocked = true ↔ ∃ f, s.Owns f) := by
  obtain ⟨s, hs, heq⟩ : ∃ s, Reachable FiberMutex.step ({} : FiberMutex ℕ) s ∧
      s.queued = [2, 3, 1] ∧ s.resumed = [2] ∧ s.sleepers = [1] ∧ s.awaking = [(2, 3)] :=
    exists_reachable
      [.lock 1, .lock 2, .lock 3, .unlock 1, .awake 1 2, .resume 2, .lock 1, .unlock 2] (by decide)
  obtain ⟨hunique, hlocked, -⟩ := mutex_sound hs
  exact ⟨s, hs, heq, hunique, hlocked⟩

end BroadcastService.FiberSync

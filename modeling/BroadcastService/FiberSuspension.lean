import Mathlib.Data.List.Nodup
import Mathlib.Data.List.Perm.Basic
import Mathlib.Logic.Function.Basic

/-!
# Suspended fibers

`SleepQueueSuspendStrategy` of `concurrency/fiber_sync.hpp` with what `concurrency/fiber.cpp` does
for it, for fibers of any type. A strategy lies on the stack of the fiber that it suspends and is
named by that fiber; `fiber` is its field `fiber_`, which is null again when the strategy is gone.
`executor` are the fibers that are scheduled. `Suspend` is called, and releases the spin lock, after
the fiber was parked. The write `suspender_ = nullptr` of `Fiber::Task`, which comes after that and
so may meet a fiber that runs again, is left out.
-/

namespace BroadcastService.FiberSync

variable {F : Type*} [DecidableEq F]

structure Fibers (F : Type*) where
  fiber : F → Option F := fun _ => none
  parked : F → Bool := fun _ => false
  executor : List F := []

namespace Fibers

variable (s : Fibers F)

def suspend (f : F) : Fibers F :=
  { s with
    fiber := Function.update s.fiber f (some f)
    parked := Function.update s.parked f true }

def awake (sleeper : F) : Option (Fibers F) :=
  (s.fiber sleeper).map fun fiber => { s with executor := s.executor ++ [fiber] }

def resume (f : F) : Fibers F where
  fiber := Function.update s.fiber f none
  parked := Function.update s.parked f false
  executor := s.executor.erase f

/-- The parked fibers are those on the executor and those of the list, each of them once. -/
structure Waiting (l : List F) : Prop where
  nodup : (s.executor ++ l).Nodup
  parked_iff : ∀ f, s.parked f = true ↔ f ∈ s.executor ++ l
  fiber_eq : ∀ f ∈ s.executor ++ l, s.fiber f = some f

end Fibers

namespace Fibers.Waiting

variable {s : Fibers F} {l l' : List F} {f : F}

omit [DecidableEq F] in
theorem initial : Waiting ({} : Fibers F) [] where
  nodup := List.nodup_nil
  parked_iff f := by simp
  fiber_eq f hf := by simp at hf

omit [DecidableEq F] in
theorem perm (h : s.Waiting l) (hperm : l.Perm l') : s.Waiting l' := by
  have happend := hperm.append_left s.executor
  refine ⟨happend.nodup_iff.1 h.nodup, ?_, ?_⟩
  · intro f
    rw [h.parked_iff, happend.mem_iff]
  · intro f hf
    exact h.fiber_eq f (happend.mem_iff.2 hf)

theorem suspend (h : s.Waiting l) (hf : s.parked f = false) : (s.suspend f).Waiting (l ++ [f]) := by
  have hnot : f ∉ s.executor ++ l := by
    rw [← h.parked_iff, hf]
    exact Bool.false_ne_true
  have hmem : ∀ g, g ∈ (s.suspend f).executor ++ (l ++ [f]) ↔ g ∈ s.executor ++ l ∨ g = f := by
    intro g
    simp [Fibers.suspend, or_assoc]
  refine ⟨?_, ?_, ?_⟩
  · rw [← List.append_assoc]
    exact h.nodup.append (List.nodup_singleton f) (List.disjoint_singleton.2 hnot)
  · intro g
    change Function.update s.parked f true g = true ↔ _
    rw [hmem, ← h.parked_iff g, Function.update_apply]
    split_ifs with hg <;> simp [hg]
  · intro g hg
    change Function.update s.fiber f (some f) g = some g
    rw [Function.update_apply]
    split_ifs with hgf
    · rw [hgf]
    · exact h.fiber_eq g (((hmem g).1 hg).resolve_right hgf)

omit [DecidableEq F] in
/-- The strategy of a sleeper still lies on the stack of its fiber. -/
theorem awake (h : s.Waiting (f :: l)) :
    s.awake f = some { s with executor := s.executor ++ [f] } ∧
      Waiting { s with executor := s.executor ++ [f] } l := by
  have hfiber : s.fiber f = some f := h.fiber_eq f (by simp)
  have happend : s.executor ++ f :: l = s.executor ++ [f] ++ l := List.append_cons ..
  refine ⟨?_, ?_, ?_, ?_⟩
  · rw [Fibers.awake, hfiber, Option.map_some]
  · exact happend ▸ h.nodup
  · exact happend ▸ h.parked_iff
  · exact happend ▸ h.fiber_eq

theorem resume (h : s.Waiting l) (hf : f ∈ s.executor) : (s.resume f).Waiting l := by
  have hmem : ∀ g, g ∈ (s.resume f).executor ++ l ↔ g ≠ f ∧ g ∈ s.executor ++ l := by
    intro g
    change g ∈ s.executor.erase f ++ l ↔ _
    rw [← List.erase_append_left l hf]
    exact h.nodup.mem_erase_iff
  refine ⟨?_, ?_, ?_⟩
  · change (s.executor.erase f ++ l).Nodup
    rw [← List.erase_append_left l hf]
    exact h.nodup.erase f
  · intro g
    change Function.update s.parked f false g = true ↔ _
    rw [hmem, ← h.parked_iff g, Function.update_apply]
    split_ifs with hg <;> simp [hg]
  · intro g hg
    obtain ⟨hne, hg⟩ := (hmem g).1 hg
    change Function.update s.fiber f none g = some g
    rw [Function.update_of_ne hne]
    exact h.fiber_eq g hg

end Fibers.Waiting

end BroadcastService.FiberSync

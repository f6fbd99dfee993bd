import Mathlib.Data.List.FinRange
import Mathlib.Data.List.Perm.Basic
import Mathlib.Tactic

/-!
# Best-effort broadcast

A best-effort broadcast sends one copy to every peer of the hosts table and then one to the local
process. The processes of a system of `n` hosts are `Fin n`.
-/

namespace BroadcastService

variable {n : ℕ} {μ : Type*}

def getPeers (me : Fin n) : List (Fin n) := (List.finRange n).filter fun p => p ≠ me

def bestEffortBroadcast (me : Fin n) (message : μ) : List (Fin n × μ) :=
  ((getPeers me).map fun peer => (peer, message)) ++ [(me, message)]

@[simp] theorem mem_bestEffortBroadcast {me p : Fin n} {message b : μ} :
    (p, b) ∈ bestEffortBroadcast me message ↔ b = message := by
  simp only [bestEffortBroadcast, getPeers, List.mem_append, List.mem_map, List.mem_filter,
    List.mem_finRange, true_and, decide_eq_true_eq, Prod.mk.injEq, List.mem_singleton]
  constructor
  · rintro (⟨q, _, _, rfl⟩ | ⟨_, rfl⟩) <;> rfl
  · rintro rfl
    by_cases hp : p = me
    · exact .inr ⟨hp, rfl⟩
    · exact .inl ⟨p, hp, rfl, rfl⟩

theorem countP_bestEffortBroadcast (me p : Fin n) (message : μ) (f : Fin n × μ → Bool)
    (hf : ∀ d, f d = true → d.1 = p) :
    (bestEffortBroadcast me message).countP f = if f (p, message) = true then 1 else 0 := by
  have hperm : (bestEffortBroadcast me message).Perm
      ((List.finRange n).map fun q => (q, message)) := by
    have hmap : bestEffortBroadcast me message =
        (getPeers me ++ [me]).map fun q => (q, message) := by simp [bestEffortBroadcast]
    rw [hmap]
    refine List.Perm.map _ ((List.perm_ext_iff_of_nodup ?_ (List.nodup_finRange n)).2 ?_)
    · refine List.Nodup.append ((List.nodup_finRange n).filter _) (List.nodup_singleton me) ?_
      simp [getPeers]
    · intro q
      by_cases hq : q = me <;> simp [getPeers, hq]
  rw [hperm.countP_eq, List.countP_map]
  have hcongr : (List.finRange n).countP (f ∘ fun q => (q, message)) =
      (List.finRange n).countP fun q => decide (q = p ∧ f (p, message) = true) := by
    refine List.countP_congr fun q _ => ?_
    simp only [Function.comp_apply, decide_eq_true_eq]
    constructor
    · intro h
      have hq : q = p := hf _ h
      exact ⟨hq, hq ▸ h⟩
    · rintro ⟨rfl, h⟩
      exact h
  rw [hcongr]
  split_ifs with h
  · simp only [h, and_true]
    have := List.count_eq_one_of_mem (List.nodup_finRange n) (List.mem_finRange p)
    simpa [List.count, BEq.beq] using this
  · simp [h]

end BroadcastService

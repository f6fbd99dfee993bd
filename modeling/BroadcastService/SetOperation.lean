import Mathlib.Data.Finset.Card
import Mathlib.Data.List.Nodup
import Mathlib.Tactic

/-!
# Sets stored in vectors

`vectorSetUnion` is the append-style union of `util/set_operation.hpp`: the hash set it consults is
built once from the left operand and is not updated while elements are appended. On duplicate-free
operands it is the union of sets, and comparing its length with that of the right operand decides
inclusion of the left operand in the right one.
-/

namespace BroadcastService

variable {α : Type*} [DecidableEq α]

def vectorSetUnion (lhsSet rhsSet : List α) : List α :=
  rhsSet.foldl (fun acc rhsItem => if rhsItem ∈ lhsSet then acc else acc ++ [rhsItem]) lhsSet

theorem vectorSetUnion_eq (lhs rhs : List α) :
    vectorSetUnion lhs rhs = lhs ++ rhs.filter (fun x => x ∉ lhs) := by
  have h : ∀ acc, rhs.foldl (fun acc x => if x ∈ lhs then acc else acc ++ [x]) acc =
      acc ++ rhs.filter (fun x => x ∉ lhs) := by
    induction rhs with
    | nil => simp
    | cons x rhs ih =>
        intro acc
        by_cases hx : x ∈ lhs
        · simp [hx, ih]
        · simp [hx, ih]
  exact h lhs

@[simp] theorem mem_vectorSetUnion {lhs rhs : List α} {x : α} :
    x ∈ vectorSetUnion lhs rhs ↔ x ∈ lhs ∨ x ∈ rhs := by
  rw [vectorSetUnion_eq]
  by_cases hx : x ∈ lhs <;> simp [hx]

theorem nodup_vectorSetUnion {lhs rhs : List α} (hl : lhs.Nodup) (hr : rhs.Nodup) :
    (vectorSetUnion lhs rhs).Nodup := by
  rw [vectorSetUnion_eq]
  refine List.Nodup.append hl (hr.filter _) fun x hx hx' => ?_
  simp [hx] at hx'

theorem subset_vectorSetUnion_left (lhs rhs : List α) : lhs ⊆ vectorSetUnion lhs rhs :=
  fun _ hx => mem_vectorSetUnion.2 (.inl hx)

theorem subset_vectorSetUnion_right (lhs rhs : List α) : rhs ⊆ vectorSetUnion lhs rhs :=
  fun _ hx => mem_vectorSetUnion.2 (.inr hx)

/-- The acceptor's size comparison is a subset test when both vectors are sets. -/
theorem length_vectorSetUnion_eq_iff {lhs rhs : List α} (hl : lhs.Nodup) (hr : rhs.Nodup) :
    (vectorSetUnion lhs rhs).length = rhs.length ↔ lhs ⊆ rhs := by
  have hcard := List.toFinset_card_of_nodup (nodup_vectorSetUnion hl hr)
  have hsub : rhs.toFinset ⊆ (vectorSetUnion lhs rhs).toFinset := fun x hx => by
    simpa using Or.inr (List.mem_toFinset.1 hx)
  rw [← hcard, ← List.toFinset_card_of_nodup hr]
  constructor
  · intro h x hx
    rw [← List.mem_toFinset, Finset.eq_of_subset_of_card_le hsub h.le]
    simpa using Or.inl hx
  · intro h
    congr 1
    refine Finset.Subset.antisymm (fun x hx => ?_) hsub
    rcases mem_vectorSetUnion.1 (List.mem_toFinset.1 hx) with hx | hx
    · exact List.mem_toFinset.2 (h hx)
    · exact List.mem_toFinset.2 hx

end BroadcastService

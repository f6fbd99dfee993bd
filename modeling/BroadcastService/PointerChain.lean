import Mathlib.Data.List.Nodup
import Mathlib.Logic.Function.Basic
import Mathlib.Tactic

/-!
# Chains of pointers

A memory of nodes with one pointer each. `Chain next p l` says that following the pointers from `p`
visits the nodes of `l` and ends with a null pointer. Writing a pointer keeps the chains that do not
visit the node, and writing that of a last node appends one chain to another.
-/

namespace PointerChain

variable {N : Type*} [DecidableEq N]

def Chain (next : N → Option N) : Option N → List N → Prop
  | p, [] => p = none
  | p, a :: l => p = some a ∧ Chain next (next a) l

/-- The nodes on the way from `p`, at most `fuel` of them. -/
def walk : ℕ → (N → Option N) → Option N → List N
  | 0, _, _ => []
  | _ + 1, _, none => []
  | fuel + 1, next, some a => a :: walk fuel next (next a)

variable {next next' : N → Option N} {p q : Option N} {l l' : List N} {a b : N}

omit [DecidableEq N] in
@[simp] theorem chain_nil : Chain next p [] ↔ p = none := Iff.rfl

omit [DecidableEq N] in
@[simp] theorem chain_cons : Chain next p (a :: l) ↔ p = some a ∧ Chain next (next a) l := Iff.rfl

omit [DecidableEq N] in
theorem Chain.head_eq (h : Chain next p l) : p = l.head? := by
  cases l with
  | nil => exact h
  | cons a l => exact h.1

omit [DecidableEq N] in
theorem Chain.congr (h : Chain next p l) (heq : ∀ a ∈ l, next' a = next a) : Chain next' p l := by
  induction l generalizing p with
  | nil => exact h
  | cons a l ih =>
      refine ⟨h.1, ?_⟩
      rw [heq a List.mem_cons_self]
      exact ih h.2 fun b hb => heq b (List.mem_cons_of_mem a hb)

theorem Chain.update (h : Chain next p l) (ha : a ∉ l) :
    Chain (Function.update next a q) p l := by
  refine h.congr fun b hb => Function.update_of_ne ?_ _ _
  rintro rfl
  exact ha hb

theorem Chain.cons (h : Chain next p l) (ha : a ∉ l) :
    Chain (Function.update next a p) (some a) (a :: l) := by
  refine ⟨rfl, ?_⟩
  rw [Function.update_self]
  exact h.update ha

theorem Chain.append (h : Chain next p l) (h' : Chain next q l') (hlast : l.getLast? = some a)
    (hnodup : (l ++ l').Nodup) : Chain (Function.update next a q) p (l ++ l') := by
  induction l generalizing p with
  | nil => cases hlast
  | cons b l ih =>
      have hnodup' := List.nodup_cons.1 (List.cons_append ▸ hnodup)
      cases l with
      | nil =>
          obtain rfl : b = a := Option.some.inj hlast
          refine ⟨h.1, ?_⟩
          rw [Function.update_self]
          exact h'.update (by simpa using hnodup'.1)
      | cons c l =>
          rw [List.getLast?_cons_cons] at hlast
          refine ⟨h.1, ?_⟩
          have hne : b ≠ a := by
            rintro rfl
            exact hnodup'.1 (List.mem_append_left _ (List.mem_of_getLast? hlast))
          rw [Function.update_of_ne hne]
          exact ih h.2 hlast hnodup'.2

omit [DecidableEq N] in
theorem Chain.walk_eq (h : Chain next p l) {fuel : ℕ} (hfuel : l.length < fuel) :
    walk fuel next p = l := by
  induction l generalizing p fuel with
  | nil =>
      obtain rfl := h
      cases fuel <;> rfl
  | cons a l ih =>
      obtain ⟨rfl, hrest⟩ := h
      cases fuel with
      | zero => omega
      | succ fuel => rw [walk, ih hrest (by simpa using hfuel)]

end PointerChain

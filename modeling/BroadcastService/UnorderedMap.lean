import Mathlib.Data.List.Basic
import Mathlib.Tactic

/-!
# The shared unordered map

`concurrency/mrmw_map.hpp`, one operation at a time. `Set` emplaces, so it keeps the value of a key
that is present, and `Drain` moves the values out but leaves the keys in the map.
-/

namespace BroadcastService

structure MRMWUnorderedMap (K V : Type*) where
  buffer : List (K × V) := []
  deriving DecidableEq

namespace MRMWUnorderedMap

variable {K V : Type*} [DecidableEq K] (m : MRMWUnorderedMap K V) (k k' : K) (v : V)

def get : Option V := (m.buffer.find? fun e => e.1 = k).map (·.2)

def has : Bool := (m.get k).isSome

def set : MRMWUnorderedMap K V := if m.has k then m else ⟨m.buffer ++ [(k, v)]⟩

def take : Option V × MRMWUnorderedMap K V := (m.get k, ⟨m.buffer.filter fun e => e.1 ≠ k⟩)

/-- `movedFrom` is what moving a value out leaves behind. -/
def drain (movedFrom : V → V) : List V × MRMWUnorderedMap K V :=
  (m.buffer.map (·.2), ⟨m.buffer.map fun e => (e.1, movedFrom e.2)⟩)

@[simp] theorem get_empty : (⟨[]⟩ : MRMWUnorderedMap K V).get k = none := rfl

theorem get_append (l : List (K × V)) :
    (⟨m.buffer ++ l⟩ : MRMWUnorderedMap K V).get k =
      (m.get k).or ((⟨l⟩ : MRMWUnorderedMap K V).get k) := by
  simp only [get, List.find?_append]
  cases m.buffer.find? fun e => decide (e.1 = k) <;> simp

theorem get_set : (m.set k v).get k' =
    if k' = k then some ((m.get k).getD v) else m.get k' := by
  unfold set has
  cases hk : m.get k with
  | some u =>
      rw [if_pos (by rfl)]
      split_ifs with he
      · rw [he, hk]
        rfl
      · rfl
  | none =>
      rw [if_neg (by simp), get_append]
      split_ifs with he
      · rw [he, hk]
        simp [get]
      · simp [get, Ne.symm he]

theorem get_take : (m.take k).2.get k' = if k' = k then none else m.get k' := by
  simp only [get, take, List.find?_filter]
  split_ifs with he
  · subst he
    rw [Option.map_eq_none_iff, List.find?_eq_none]
    simp
  · congr 1
    apply List.find?_congr
    intro e _
    by_cases h : e.1 = k' <;> simp [h, he]

theorem get_drain (movedFrom : V → V) :
    (m.drain movedFrom).2.get k = (m.get k).map movedFrom := by
  simp only [get, drain, List.find?_map, Option.map_map]
  rfl

theorem mem_of_get {m : MRMWUnorderedMap K V} {k : K} {v : V} (h : m.get k = some v) :
    (k, v) ∈ m.buffer := by
  obtain ⟨e, he, rfl⟩ := Option.map_eq_some_iff.1 h
  have hk : e.1 = k := by simpa using List.find?_some he
  rw [← hk]
  exact List.mem_of_find?_eq_some he

@[simp] theorem take_fst : (m.take k).1 = m.get k := rfl

section Distinct

variable {m : MRMWUnorderedMap K V} {k : K} {v : V}

theorem get_eq_none_iff : m.get k = none ↔ k ∉ m.buffer.map (·.1) := by
  simp only [get, Option.map_eq_none_iff, List.find?_eq_none, decide_eq_true_eq, List.mem_map,
    not_exists, not_and]

theorem set_of_get (h : m.get k = some v) (v' : V) : m.set k v' = m := by
  rw [set, if_pos (by rw [has, h]; rfl)]

theorem set_of_get_none (h : m.get k = none) (v : V) : m.set k v = ⟨m.buffer ++ [(k, v)]⟩ := by
  rw [set, if_neg (by rw [has, h]; simp)]

theorem nodup_set (h : (m.buffer.map (·.1)).Nodup) (v : V) :
    ((m.set k v).buffer.map (·.1)).Nodup := by
  cases hget : m.get k with
  | some old =>
      rw [set_of_get hget]
      exact h
  | none =>
      rw [set_of_get_none hget, List.map_append]
      apply h.append (List.nodup_singleton _)
      simpa using get_eq_none_iff.1 hget

theorem nodup_take (h : (m.buffer.map (·.1)).Nodup) (k : K) :
    ((m.take k).2.buffer.map (·.1)).Nodup :=
  h.sublist (List.filter_sublist.map _)

omit [DecidableEq K] in
theorem nodup_drain (h : (m.buffer.map (·.1)).Nodup) (movedFrom : V → V) :
    ((m.drain movedFrom).2.buffer.map (·.1)).Nodup := by
  rw [drain, List.map_map]
  exact h

theorem filter_of_not_mem {l : List (K × V)} (h : k ∉ l.map (·.1)) :
    l.filter (fun e => e.1 ≠ k) = l := by
  apply List.filter_eq_self.2
  intro e he
  simp only [ne_eq, decide_not, Bool.not_eq_eq_eq_not, Bool.not_true, decide_eq_false_iff_not]
  rintro rfl
  exact h (List.mem_map_of_mem he)

theorem perm_take (hkeys : (m.buffer.map (·.1)).Nodup) (h : m.get k = some v) :
    m.buffer.Perm ((k, v) :: (m.take k).2.buffer) := by
  obtain ⟨l, r, hsplit⟩ := List.append_of_mem (mem_of_get h)
  rw [hsplit, List.map_append, List.map_cons, List.nodup_middle, List.nodup_cons,
    List.mem_append, not_or] at hkeys
  have htake : (m.take k).2.buffer = l ++ r := by
    rw [take, hsplit, List.filter_append, List.filter_cons_of_neg (by simp),
      filter_of_not_mem hkeys.1.1, filter_of_not_mem hkeys.1.2]
  rw [htake, hsplit]
  exact List.perm_middle

theorem perm_take_values (hkeys : (m.buffer.map (·.1)).Nodup) (k : K) :
    ((m.take k).1.toList ++ (m.take k).2.buffer.map (·.2)).Perm (m.buffer.map (·.2)) := by
  rw [take_fst]
  cases hget : m.get k with
  | some v => exact ((perm_take hkeys hget).map (·.2)).symm
  | none =>
      have hkeep : (m.take k).2.buffer = m.buffer := filter_of_not_mem (get_eq_none_iff.1 hget)
      rw [hkeep]
      exact List.Perm.refl _

end Distinct

section Presence

variable {m : MRMWUnorderedMap K V} {k : K}

theorem has_eq_false_iff : m.has k = false ↔ m.get k = none := by
  rw [has, Option.isSome_eq_false_iff, Option.isNone_iff_eq_none]

theorem buffer_eq_nil_iff : m.buffer = [] ↔ ∀ k, m.has k = false := by
  simp only [has_eq_false_iff, get_eq_none_iff]
  rw [← List.map_eq_nil_iff, List.eq_nil_iff_forall_not_mem]

theorem has_set (m : MRMWUnorderedMap K V) (k : K) (v : V) :
    (m.set k v).has = Function.update m.has k true := by
  funext k'
  simp only [has, get_set, Function.update_apply]
  split_ifs <;> rfl

theorem has_take (m : MRMWUnorderedMap K V) (k : K) :
    (m.take k).2.has = Function.update m.has k false := by
  funext k'
  simp only [has, get_take, Function.update_apply]
  split_ifs <;> rfl

theorem has_drain (m : MRMWUnorderedMap K V) (movedFrom : V → V) :
    (m.drain movedFrom).2.has = m.has := by
  funext k
  rw [has, get_drain, Option.isSome_map, has]

end Presence

end MRMWUnorderedMap

end BroadcastService

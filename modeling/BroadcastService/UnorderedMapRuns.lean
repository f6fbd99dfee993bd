import BroadcastService.TransitionSystem
import BroadcastService.UnorderedMap

/-!
# The values handed out by a shared map

Sequences of `Set`, `Take`, `Has` and `Drain` on one `MRMWUnorderedMap`. `Take` extracts the entry
whose value it returns. `Drain` returns the values of all entries and keeps the entries, so their
keys stay present and what moving left behind is handed out again. Every value is handed out once,
and a key is present only from its `Set` to the next `Take` or `Drain`, exactly as long as `Drain`
is called on empty maps alone.
-/

namespace BroadcastService
open TransitionSystem MRMWUnorderedMap

inductive MapCall (K V : Type*)
  | set (k : K) (v : V)
  | take (k : K)
  | has (k : K)
  | drain

/-- A map with the values that were stored into it and returned from it. `present` tells which keys
were set since they were last taken or drained. -/
structure MapRun (K V : Type*) where
  map : MRMWUnorderedMap K V := {}
  present : K → Bool := fun _ => false
  stored : List V := []
  returned : List V := []

namespace MapRun

variable {K V : Type*} [DecidableEq K] (movedFrom : V → V)

/-- A key is set only while it is not in the map. -/
def step (r : MapRun K V) : MapCall K V → Option (MapRun K V)
  | .set k v =>
      if r.map.has k then none
      else some { r with
        map := r.map.set k v
        present := Function.update r.present k true
        stored := r.stored ++ [v] }
  | .take k =>
      let (value, map) := r.map.take k
      some { r with
        map
        present := Function.update r.present k false
        returned := r.returned ++ value.toList }
  | .has _ => some r
  | .drain =>
      let (values, map) := r.map.drain movedFrom
      some { r with
        map
        present := fun _ => false
        returned := r.returned ++ values }

/-- The values that were stored are those that were returned, each once, and those still in the map.
A key is in the map as long as it is present: otherwise `Has` denies it and `Take` returns nothing,
and if there is no such key then neither does `Drain`. -/
structure HandsOutOnce (r : MapRun K V) : Prop where
  returned : (r.returned ++ r.map.buffer.map (·.2)).Perm r.stored
  has : ∀ k, r.map.has k = r.present k
  take : ∀ k, r.present k = false → (r.map.take k).1 = none
  drain : (∀ k, r.present k = false) → (r.map.drain movedFrom).1 = []

/-- A `Drain` finds the map empty. -/
def DrainsEmpty (r : MapRun K V) : MapCall K V → Prop
  | .drain => r.map.buffer = []
  | _ => True

instance (r : MapRun K V) (c : MapCall K V) : Decidable (r.DrainsEmpty c) :=
  match c with
  | .drain => inferInstanceAs (Decidable (r.map.buffer = []))
  | .set _ _ | .take _ | .has _ => isTrue trivial

def Distinct (r : MapRun K V) : Prop := (r.map.buffer.map (·.1)).Nodup

variable {movedFrom} {r r' : MapRun K V}

/-- What `Take` and `Drain` return follows from what `Has` says. -/
theorem handsOutOnce_of_has (hreturned : (r.returned ++ r.map.buffer.map (·.2)).Perm r.stored)
    (hhas : r.map.has = r.present) : r.HandsOutOnce movedFrom := by
  refine ⟨hreturned, congrFun hhas, ?_, ?_⟩
  · intro k hk
    rw [← hhas] at hk
    exact has_eq_false_iff.1 hk
  · intro hnone
    rw [← hhas] at hnone
    rw [MRMWUnorderedMap.drain, buffer_eq_nil_iff.2 hnone]
    rfl

theorem handsOutOnce_set {k : K} (v : V) (h : r.HandsOutOnce movedFrom)
    (hk : r.map.has k = false) :
    HandsOutOnce movedFrom { r with
      map := r.map.set k v
      present := Function.update r.present k true
      stored := r.stored ++ [v] } := by
  apply handsOutOnce_of_has
  · rw [set_of_get_none (has_eq_false_iff.1 hk), List.map_append, ← List.append_assoc]
    exact h.returned.append_right [v]
  · change (r.map.set k v).has = Function.update r.present k true
    rw [has_set, funext h.has]

theorem handsOutOnce_take (k : K) (hkeys : r.Distinct) (h : r.HandsOutOnce movedFrom) :
    HandsOutOnce movedFrom { r with
      map := (r.map.take k).2
      present := Function.update r.present k false
      returned := r.returned ++ (r.map.take k).1.toList } := by
  apply handsOutOnce_of_has
  · refine List.Perm.trans ?_ h.returned
    rw [List.append_assoc]
    exact (perm_take_values hkeys k).append_left r.returned
  · change (r.map.take k).2.has = Function.update r.present k false
    rw [has_take, funext h.has]

theorem handsOutOnce_drain (h : r.HandsOutOnce movedFrom) :
    HandsOutOnce movedFrom { r with
      map := (r.map.drain movedFrom).2
      present := fun _ => false
      returned := r.returned ++ (r.map.drain movedFrom).1 } ↔ r.map.buffer = [] := by
  constructor
  · intro h'
    apply buffer_eq_nil_iff.2
    intro k
    rw [← has_drain r.map movedFrom]
    exact h'.has k
  · intro hnil
    have hreturned := h.returned
    rw [hnil] at hreturned
    apply handsOutOnce_of_has
    · simpa [MRMWUnorderedMap.drain, hnil] using hreturned
    · change (r.map.drain movedFrom).2.has = fun _ => false
      rw [has_drain]
      exact funext (buffer_eq_nil_iff.1 hnil)

theorem handsOutOnce_step {c : MapCall K V} (hkeys : r.Distinct) (h : r.HandsOutOnce movedFrom)
    (hstep : r.step movedFrom c = some r') :
    r'.Distinct ∧ (r'.HandsOutOnce movedFrom ↔ r.DrainsEmpty c) := by
  cases c with
  | set k v =>
      obtain ⟨hk, ⟨⟩⟩ := Option.ite_none_left_eq_some.1 hstep
      refine ⟨nodup_set hkeys v, iff_of_true ?_ trivial⟩
      exact handsOutOnce_set v h (Bool.eq_false_of_not_eq_true hk)
  | take k =>
      cases hstep
      refine ⟨nodup_take hkeys k, iff_of_true ?_ trivial⟩
      exact handsOutOnce_take k hkeys h
  | has k =>
      cases hstep
      exact ⟨hkeys, iff_of_true h trivial⟩
  | drain =>
      cases hstep
      exact ⟨nodup_drain hkeys movedFrom, handsOutOnce_drain h⟩

/-- Along every sequence of calls the map hands each value out once exactly when every `Drain` finds
it empty. -/
theorem handsOutOnce_iff {calls : List (MapCall K V)}
    (hrun : run (step movedFrom) {} calls = some r) :
    (∀ l t, l <+: calls → run (step movedFrom) {} l = some t → t.HandsOutOnce movedFrom) ↔
      ∀ l c t, l ++ [c] <+: calls → run (step movedFrom) {} l = some t → t.DrainsEmpty c := by
  have hnew : HandsOutOnce movedFrom ({} : MapRun K V) := handsOutOnce_of_has .rfl rfl
  refine forall_prefix_iff (I := Distinct) List.nodup_nil hnew ?_ hrun
  intro s c s' hkeys h hstep
  exact handsOutOnce_step hkeys h hstep

def takenOut : List (MapCall UInt64 UInt64) := [.drain, .set 1 10, .has 1, .take 1, .drain]

theorem handsOutOnce_takenOut :
    ∃ r, run (step id) {} takenOut = some r ∧ r.returned = [10] ∧
      ∀ l t, l <+: takenOut → run (step id) {} l = some t → t.HandsOutOnce id := by
  obtain ⟨r, hrun, hreturned⟩ : ∃ r,
      runIn (step id) (fun s c => decide (DrainsEmpty s c)) {} takenOut = some r ∧
        r.returned = [10] := ⟨_, rfl, rfl⟩
  refine ⟨r, run_of_runIn hrun, hreturned, (handsOutOnce_iff (run_of_runIn hrun)).2 ?_⟩
  exact ok_of_runIn hrun

/-- A value that is drained and then taken is returned twice; after the `Drain` its key is still in
the map. -/
theorem drained_twice :
    (run (step id) ({} : MapRun UInt64 UInt64) [.set 1 10, .drain]).map (·.map.has 1) = some true ∧
      (run (step id) ({} : MapRun UInt64 UInt64) [.set 1 10, .drain, .take 1]).map (·.returned) =
        some [10, 10] ∧
      ¬∀ l t, l <+: [.set 1 10, .drain, .take 1] →
        run (step id) ({} : MapRun UInt64 UInt64) l = some t → t.HandsOutOnce id := by
  refine ⟨rfl, rfl, ?_⟩
  intro h
  have hdrained := (h [.set 1 10, .drain] _ (by simp) rfl).has 1
  cases hdrained

end MapRun

end BroadcastService

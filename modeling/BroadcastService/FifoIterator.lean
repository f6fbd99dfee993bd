import BroadcastService.FifoOrder

/-!
# The iterator of the drain loop

The loop of the URB callback compares `next_ids_[src]` with the key behind an iterator of
`pendings_[src]`, and stops at a key that is not the next identifier. With no entry left there is no
such key: the iterator is `end()`, and the loop reads behind it (`readEnd`). That happens exactly
when the identifiers of the source that were URB-delivered so far have no gap (`drain_iterator`), so
with every message that is delivered in order.
-/

namespace BroadcastService

variable {P : Type*} [DecidableEq P]

/-- The loop reads behind the map exactly if it leaves the map empty. -/
theorem readEnd_mem_drain {localID s q : P} {l : List (ℕ × Bytes)} {fifo : FIFOBroadcast P}
    (hl : fifo.pendings s = l) :
    .readEnd q ∈ (fifo.drain localID s l).2 ↔
      q = s ∧ (fifo.drain localID s l).1.pendings s = [] := by
  induction l generalizing fifo with
  | nil => simp [FIFOBroadcast.drain, hl]
  | cons e l ih =>
      by_cases he : fifo.nextIds s = e.1
      · rw [drain_cons l he _ rfl]
        have hrest := @ih (FIFOBroadcast.deliver localID
          { fifo with
            nextIds := Function.update fifo.nextIds s ((fifo.nextIds s + 1) % idSpace)
            pendings := Function.update fifo.pendings s l } s e.1 e.2).1
          (by
            rw [FIFOBroadcast.deliver_pendings]
            exact Function.update_self ..)
        simpa using hrest
      · rw [FIFOBroadcast.drain, if_neg he]
        simp [hl]

theorem readEnd_mem_onURBDelivery {localID q : P} {fifo : FIFOBroadcast P} {x : URBIdentifier P}
    {message : Bytes} :
    .readEnd q ∈ (fifo.onURBDelivery localID x message).2 ↔
      q = x.peer ∧ (fifo.onURBDelivery localID x message).1.pendings x.peer = [] := by
  by_cases hnext : fifo.nextIds x.peer = x.urbId
  · rw [onURBDelivery_direct hnext _ rfl]
    rw [List.mem_cons, readEnd_mem_drain rfl]
    simp
  · rw [onURBDelivery_emplace hnext _ rfl]
    exact readEnd_mem_drain rfl

/-- An identifier of the source is missing below one that was URB-delivered. -/
def HasGap (D : List (URBIdentifier P × Bytes)) (s : P) : Prop :=
  ∃ i j, i < j ∧ ⟨s, j⟩ ∈ D.map (·.1) ∧ ⟨s, i⟩ ∉ D.map (·.1)

/-- A message is pending exactly if an earlier one of its source is missing. -/
theorem FifoInv.pendings_eq_nil_iff {A : Prop} {localID : P} {fifo : FIFOBroadcast P}
    {D : List (URBIdentifier P × Bytes)} {F : List (FIFODelivery P)} {K : P → ℕ}
    (h : FifoInv A localID fifo D F K) (s : P) : fifo.pendings s = [] ↔ ¬HasGap D s := by
  have hmem : ∀ i, ⟨s, i⟩ ∈ D.map (·.1) ↔ ∃ m, (⟨s, i⟩, m) ∈ D := by simp
  rw [List.eq_nil_iff_forall_not_mem]
  constructor
  · rintro hempty ⟨i, j, hij, hj, hi⟩
    obtain ⟨m, hm⟩ := (hmem j).1 hj
    have hle : K s ≤ i := by
      by_contra hlt
      exact hi ((hmem i).2 (h.core.below s i (not_le.1 hlt)))
    exact hempty (j, m) ((h.pending.mem s j m).2 ⟨by omega, hm⟩)
  · rintro hgap ⟨j, m⟩ hpending
    obtain ⟨hle, hm⟩ := (h.pending.mem s j m).1 hpending
    have hne : K s ≠ j := by
      rintro rfl
      exact h.stop s m hm
    refine hgap ⟨K s, j, by omega, (hmem j).2 ⟨m, hm⟩, ?_⟩
    intro hnext
    obtain ⟨m', hm'⟩ := (hmem (K s)).1 hnext
    exact h.stop s m' hm'

theorem readEnd_mem_step {localID : P} {events : List (FIFOEvent P)} {e : FIFOEvent P}
    (h : Admissible (events ++ [e])) (s : P) :
    .readEnd s ∈ ((FIFOBroadcast.run localID {} events).1.step localID e).2 ↔
      ∃ x message, e = .urbDeliver x message ∧ x.peer = s ∧
        ¬HasGap (urbDeliveries (events ++ [e])) s := by
  cases e with
  | broadcast message =>
      simp [FIFOBroadcast.step, FIFOBroadcast.broadcast, UniformReliableBroadcast.broadcast]
  | urbDeliver x message =>
      obtain ⟨K, hK⟩ := fifoRun (A := False) localID h False.elim
      rw [FIFOBroadcast.run_append_singleton] at hK
      have hempty := hK.inv.pendings_eq_nil_iff x.peer
      change (FIFOBroadcast.onURBDelivery _ _ x message).1.pendings x.peer = [] ↔ _ at hempty
      change FIFOOutput.readEnd s ∈ (FIFOBroadcast.onURBDelivery _ _ x message).2 ↔ _
      rw [readEnd_mem_onURBDelivery, hempty]
      constructor
      · rintro ⟨rfl, hgap⟩
        exact ⟨x, message, rfl, rfl, hgap⟩
      · rintro ⟨x', message', he, rfl, hgap⟩
        obtain ⟨rfl, rfl⟩ := FIFOEvent.urbDeliver.inj he
        exact ⟨rfl, hgap⟩

/-- Every evaluation of the loop condition is made on an entry exactly if, after each delivery, an
identifier of its source is missing below one that was delivered. -/
theorem drain_iterator (localID : P) {events : List (FIFOEvent P)} (h : Admissible events) :
    (∀ s, .readEnd s ∉ (FIFOBroadcast.run localID {} events).2) ↔
      ∀ before x message after, events = before ++ .urbDeliver x message :: after →
        HasGap (urbDeliveries (before ++ [.urbDeliver x message])) x.peer := by
  induction events using List.reverseRecOn with
  | nil => simp [FIFOBroadcast.run]
  | append_singleton events e ih =>
      rw [FIFOBroadcast.run_append_singleton]
      have hstep := @readEnd_mem_step _ _ localID events e h
      have hih := ih h.init
      constructor
      · intro hreads before x message after hsplit
        rcases List.eq_nil_or_concat after with rfl | ⟨after, e', rfl⟩
        · obtain ⟨rfl, he⟩ := List.append_inj' hsplit rfl
          obtain rfl := List.singleton_inj.1 he
          by_contra hgap
          exact hreads x.peer (List.mem_append_right _ ((hstep _).2 ⟨x, message, rfl, rfl, hgap⟩))
        · rw [List.concat_eq_append, ← List.cons_append, ← List.append_assoc] at hsplit
          obtain ⟨rfl, -⟩ := List.append_inj' hsplit rfl
          exact hih.1 (fun s hs => hreads s (List.mem_append_left _ hs)) before x message after rfl
      · intro hgaps s hs
        rcases List.mem_append.1 hs with hs | hs
        · refine hih.2 (fun before x message after hsplit => ?_) s hs
          exact hgaps before x message (after ++ [e]) (by rw [hsplit]; simp)
        · obtain ⟨x, message, rfl, rfl, hgap⟩ := (hstep s).1 hs
          exact hgap (hgaps events x message [] rfl)

/-- The second message of a source, while the first one is missing. -/
theorem drain_iterator_outOfOrder :
    Admissible [.urbDeliver (⟨1, 1⟩ : URBIdentifier (Fin 2)) [9]] ∧
      ∀ s, .readEnd s ∉ (FIFOBroadcast.run (0 : Fin 2) {} [.urbDeliver ⟨1, 1⟩ [9]]).2 := by
  have hadmissible : Admissible [.urbDeliver (⟨1, 1⟩ : URBIdentifier (Fin 2)) [9]] :=
    ⟨by decide, by decide⟩
  refine ⟨hadmissible, (drain_iterator 0 hadmissible).2 ?_⟩
  intro before x message after hsplit
  have hlength := congrArg List.length hsplit
  obtain rfl : before = [] := List.eq_nil_of_length_eq_zero (by simp at hlength; omega)
  obtain ⟨he, -⟩ := List.cons.inj hsplit
  obtain ⟨rfl, rfl⟩ := FIFOEvent.urbDeliver.inj he
  exact ⟨0, 1, by decide, by decide, by decide⟩

/-- The loop reads behind an empty map on entry, and behind the last pending message once it has
been delivered. -/
theorem drain_reads_end :
    (Admissible [FIFOEvent.urbDeliver (⟨1, 0⟩ : URBIdentifier (Fin 2)) [8]] ∧
      .readEnd 1 ∈ (FIFOBroadcast.run (0 : Fin 2) {} [.urbDeliver ⟨1, 0⟩ [8]]).2) ∧
    Admissible [.urbDeliver (⟨1, 1⟩ : URBIdentifier (Fin 2)) [9], .urbDeliver ⟨1, 0⟩ [8]] ∧
      .readEnd 1 ∈ (FIFOBroadcast.run (0 : Fin 2) {}
        [.urbDeliver ⟨1, 1⟩ [9], .urbDeliver ⟨1, 0⟩ [8]]).2 := by
  refine ⟨⟨⟨by decide, by decide⟩, by decide⟩, ⟨by decide, by decide⟩, by decide⟩

end BroadcastService

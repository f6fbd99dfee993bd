import BroadcastService.FifoStack
import BroadcastService.UrbAgreement

/-!
# FIFO broadcast as a sequence for each source

What a process delivers of a source is at every moment a beginning of what the source broadcast
(`delivered_isPrefix`). In a world in which a living majority has no unhandled messages, the members
of the majority have delivered the same of every source, which goes at least as far as what any
process has delivered, and everything of the sources among them (`fifo_agreement`).
-/

namespace BroadcastService
open MessagePassing

section Numbered

variable {α : Type*} {l l' : List (ℕ × α)} {k k' : ℕ}

theorem number_of_getElem? (hl : l.map (·.1) = List.range k) {i : ℕ} {a : ℕ × α}
    (ha : l[i]? = some a) : a.1 = i := by
  have hmap : (l.map (·.1))[i]? = some a.1 := by rw [List.getElem?_map, ha, Option.map_some]
  rw [hl] at hmap
  obtain ⟨hi, he⟩ := List.getElem?_eq_some_iff.1 hmap
  rw [List.getElem_range] at he
  exact he.symm

/-- Of two lists that are numbered from zero, one that is part of the other is its beginning. -/
theorem prefix_of_numbered (hl : l.map (·.1) = List.range k) (hl' : l'.map (·.1) = List.range k')
    (hsub : l ⊆ l') : l <+: l' := by
  apply List.prefix_iff_getElem?.2
  intro i hi
  have hi' : l[i]? = some l[i] := List.getElem?_eq_getElem hi
  obtain ⟨j, hj⟩ := List.mem_iff_getElem?.1 (hsub (List.mem_of_getElem? hi'))
  have hij : i = j := (number_of_getElem? hl hi').symm.trans (number_of_getElem? hl' hj)
  rwa [← hij] at hj

end Numbered

variable {n : ℕ}

def broadcastMessages {P : Type*} (t : List (FIFOOutput P)) : List (ℕ × Bytes) :=
  (urbTrace t).filterMap fun o => match o with
    | .broadcast urbId message => some (urbId, message)
    | _ => none

def deliveredFrom {P : Type*} [DecidableEq P] (s : P) (t : List (FIFOOutput P)) :
    List (ℕ × Bytes) :=
  ((deliveries t).filter fun d => d.peer = s).map fun d => (d.id, d.message)

theorem map_broadcastMessages {P : Type*} (t : List (FIFOOutput P)) :
    (broadcastMessages t).map (·.1) = broadcastIds (urbTrace t) := by
  rw [broadcastMessages, broadcastIds, List.map_filterMap]
  apply List.filterMap_congr
  intro o _
  cases o <;> rfl

theorem mem_broadcastMessages {P : Type*} {t : List (FIFOOutput P)} {i : ℕ} {message : Bytes} :
    (i, message) ∈ broadcastMessages t ↔ .broadcast i message ∈ urbTrace t := by
  rw [broadcastMessages, List.mem_filterMap]
  constructor
  · rintro ⟨o, ho, he⟩
    cases o with
    | broadcast i' message' =>
        obtain ⟨rfl, rfl⟩ := Prod.mk.inj (Option.some.inj he)
        exact ho
    | _ => cases he
  · exact fun h => ⟨_, h, rfl⟩

theorem mem_urbDelivered {P : Type*} {t : List (FIFOOutput P)} {x : URBIdentifier P}
    {message : Bytes} : (x, message) ∈ urbDelivered t ↔ .deliver x message ∈ urbTrace t := by
  rw [urbDelivered, List.mem_filterMap]
  constructor
  · rintro ⟨o, ho, he⟩
    cases o with
    | deliver x' message' =>
        obtain ⟨rfl, rfl⟩ := Prod.mk.inj (Option.some.inj he)
        exact ho
    | _ => cases he
  · exact fun h => ⟨_, h, rfl⟩

section Reachable

variable {w : FifoWorld n} (hw : (fifoProgram n).Reachable w)
include hw

/-- The messages of a source are delivered as far as the URB layer has delivered them without a
gap. -/
theorem exists_delivered (p s : Fin n) : ∃ k,
    (deliveredFrom s (w.trace p)).map (·.1) = List.range k ∧
    (∀ i < k, ⟨s, i⟩ ∈ deliveredIds (urbTrace (w.trace p))) ∧
    ⟨s, k⟩ ∉ deliveredIds (urbTrace (w.trace p)) := by
  obtain ⟨K, hK⟩ := (fifo_urb_reachable hw).2 p
  refine ⟨K s, ?_, fun i hi => ?_, fun hm => ?_⟩
  · rw [deliveredFrom, List.map_map]
    exact hK.core.order s
  · obtain ⟨m, hm⟩ := hK.core.below s i hi
    rw [← map_urbDelivered]
    exact List.mem_map.2 ⟨_, hm, rfl⟩
  · rw [← map_urbDelivered] at hm
    obtain ⟨⟨x, m⟩, hm, rfl⟩ := List.mem_map.1 hm
    exact hK.stop s m hm

theorem broadcastMessages_numbered (s : Fin n) :
    (broadcastMessages (w.trace s)).map (·.1) = List.range (w.node s).urb.ids := by
  rw [map_broadcastMessages]
  exact ((urbOrigin (fifo_urb_reachable hw).1).drawn s).ids

/-- A process delivers what the source broadcast, in the order of the broadcasts and without
gaps. -/
theorem delivered_isPrefix (p s : Fin n) :
    deliveredFrom s (w.trace p) <+: broadcastMessages (w.trace s) := by
  have ho := urbOrigin (fifo_urb_reachable hw).1
  obtain ⟨k, hids, _⟩ := exists_delivered hw p s
  apply prefix_of_numbered hids (broadcastMessages_numbered hw s)
  rintro ⟨i, message⟩ hm
  obtain ⟨d, hfilter, he⟩ := List.mem_map.1 hm
  obtain ⟨hd, hpeer⟩ := List.mem_filter.1 hfilter
  obtain ⟨rfl, rfl⟩ := Prod.mk.inj he
  obtain rfl : d.peer = s := of_decide_eq_true hpeer
  obtain ⟨K, hK⟩ := (fifo_urb_reachable hw).2 p
  have hdelivered := mem_urbDelivered.1 (hK.core.payload d hd)
  exact mem_broadcastMessages.2 (ho.source p _ ((ho.node p).payload _ _ hdelivered))

end Reachable

/-- What a member of a quiet majority has best-effort broadcast, all members have delivered. -/
theorem delivered_of_relayed {w : UrbWorld n} (hw : (urbProgram n).Reachable w)
    {C : Finset (Fin n)} (hC : n < 2 * C.card) (hquiet : Quiet w C) {x : URBIdentifier (Fin n)}
    {c : Fin n} (hc : c ∈ C) (hbeb : x ∈ bebIds (w.trace c)) {p : Fin n} (hp : p ∈ C) :
    x ∈ deliveredIds (w.trace p) := by
  have hall : ∀ q ∈ C, x ∈ bebIds (w.trace q) := by
    intro q hq
    obtain ⟨m, hm, hto, _⟩ := handled_of_quiet hquiet hw hc hq hbeb
    obtain ⟨rfl, rfl⟩ : m.dst = q ∧ m.body.identifier = x := of_decide_eq_true hto
    exact relayed_of_handled hw hm
  by_contra hnot
  have hcopies : C.card ≤ w.handled.countP (isCopyTo x p) :=
    card_le_countP _ fun q hq => handled_of_quiet hquiet hw hq hp (hall q hq)
  have hle := acks_le_half hw x p hnot
  rw [acks_eq_countP hw x p hnot] at hle
  omega

theorem delivered_of_delivered {w : UrbWorld n} (hw : (urbProgram n).Reachable w)
    {C : Finset (Fin n)} (hC : n < 2 * C.card) (hquiet : Quiet w C) {x : URBIdentifier (Fin n)}
    {q p : Fin n} (hq : x ∈ deliveredIds (w.trace q)) (hp : p ∈ C) :
    x ∈ deliveredIds (w.trace p) := by
  obtain ⟨c, hc, hcC⟩ := quorum_intersect (Q := relays w.toHistory x) (C := C)
    (by simpa using majority_relayed hw hq) (by simpa using (by omega : n / 2 < C.card))
  exact delivered_of_relayed hw hC hquiet hcC (Finset.mem_filter.1 hc).2 hp

theorem quiet_world {w : FifoWorld n} {C : Finset (Fin n)} (h : Quiet w C) :
    Quiet ((fifoProjection n).world w) C := by
  refine ⟨h.alive, fun m hm => ?_⟩
  obtain ⟨m', hm', he⟩ := List.mem_filterMap.1 hm
  obtain rfl := Option.some.inj he
  exact h.handled m' hm'

/-- Let more than half of the processes be alive with no unhandled message between two of them. They
have delivered the same of every source, at least what any other process has delivered of it, and
if the source is one of them, everything it broadcast. -/
theorem fifo_agreement {w : FifoWorld n} (hw : (fifoProgram n).Reachable w) {C : Finset (Fin n)}
    (hC : n < 2 * C.card) (hquiet : Quiet w C) {p : Fin n} (hp : p ∈ C) (s : Fin n) :
    (∀ q, deliveredFrom s (w.trace q) <+: deliveredFrom s (w.trace p)) ∧
    (∀ q ∈ C, deliveredFrom s (w.trace q) = deliveredFrom s (w.trace p)) ∧
    (s ∈ C → deliveredFrom s (w.trace p) = broadcastMessages (w.trace s)) := by
  have hurb := (fifo_urb_reachable hw).1
  have hquiet' := quiet_world hquiet
  -- A member of the majority has delivered at least as much as any process.
  have hle : ∀ q, ∀ p ∈ C, (deliveredFrom s (w.trace q)).length ≤
      (deliveredFrom s (w.trace p)).length := by
    intro q p hp
    obtain ⟨k, hk, hbelow, _⟩ := exists_delivered hw q s
    obtain ⟨k', hk', _, hstop⟩ := exists_delivered hw p s
    have hlength := congrArg List.length hk
    have hlength' := congrArg List.length hk'
    rw [List.length_map, List.length_range] at hlength hlength'
    rw [hlength, hlength']
    by_contra hlt
    exact hstop (delivered_of_delivered hurb hC hquiet' (hbelow k' (by omega)) hp)
  refine ⟨fun q => ?_, fun q hq => ?_, fun hs => ?_⟩
  · exact List.prefix_of_prefix_length_le (delivered_isPrefix hw q s) (delivered_isPrefix hw p s)
      (hle q p hp)
  · exact (List.prefix_of_prefix_length_le (delivered_isPrefix hw q s) (delivered_isPrefix hw p s)
      (hle q p hp)).eq_of_length_le (hle p q hq)
  · apply (delivered_isPrefix hw p s).eq_of_length_le
    obtain ⟨k, hk, _, hstop⟩ := exists_delivered hw p s
    have hlength := congrArg List.length hk
    have hlength' := congrArg List.length (broadcastMessages_numbered hw s)
    rw [List.length_map, List.length_range] at hlength hlength'
    rw [hlength, hlength']
    by_contra hlt
    have hdrawn := (urbOrigin hurb).drawn s
    have hid : k ∈ broadcastIds (urbTrace (w.trace s)) := by
      change k ∈ broadcastIds (((fifoProjection n).world w).trace s)
      rw [hdrawn.ids]
      exact List.mem_range.2 (not_le.1 hlt)
    obtain ⟨message, hm⟩ := mem_broadcastIds.1 hid
    exact hstop (delivered_of_relayed hurb hC hquiet' hs
      (mem_bebIds.2 ⟨message, hdrawn.sent k message hm⟩) hp)

theorem fifo_agreement_cleaned : ∃ w : FifoWorld 2, (fifoProgram 2).Reachable w ∧
    Quiet w Finset.univ ∧ deliveredFrom 0 (w.trace 1) = [(0, [7]), (1, [8])] ∧
    (∀ q, deliveredFrom 0 (w.trace q) <+: deliveredFrom 0 (w.trace 1)) ∧
    (∀ q ∈ Finset.univ, deliveredFrom 0 (w.trace q) = deliveredFrom 0 (w.trace 1)) ∧
    ((0 : Fin 2) ∈ Finset.univ → deliveredFrom 0 (w.trace 1) = broadcastMessages (w.trace 0)) := by
  obtain ⟨w, hr, halive, hin, hd⟩ : ∃ w, (fifoProgram 2).Reachable w ∧
      (∀ p, w.crashed p = false) ∧ w.inflight = [] ∧
      deliveredFrom 0 (w.trace 1) = [(0, [7]), (1, [8])] :=
    TransitionSystem.exists_reachable (cleanedBroadcasts 0) (by decide +kernel)
  have hquiet : Quiet w Finset.univ := ⟨fun p _ => halive p, by simp [hin]⟩
  exact ⟨w, hr, hquiet, hd, fifo_agreement hr (by decide) hquiet (Finset.mem_univ 1) 0⟩

end BroadcastService

import BroadcastService.UrbCounting

/-!
# Uniform agreement

An undelivered identifier never has more than `n / 2` acks, although the handler does not test the
counter at the first copy (`acks_le_half`). Together with the majority witness of every delivery
this gives uniform agreement in every world in which a living majority has no unhandled messages.
-/

namespace BroadcastService
open MessagePassing

variable {n : ℕ}

/-- A process that has handled a copy has best-effort broadcast the message itself. -/
theorem relayed_of_handled {w : UrbWorld n} (hw : (urbProgram n).Reachable w)
    {m : Packet (Fin n) (URBMessage (Fin n))} (hm : m ∈ w.handled) :
    m.body.identifier ∈ bebIds (w.trace m.dst) := by
  revert m
  apply urb_invariant hw (I := fun h => ∀ {m}, m ∈ h.handled →
    m.body.identifier ∈ bebIds (h.trace m.dst))
  · exact fun hm => by cases hm
  · intro w p y _ ih _ m hm
    obtain ⟨message, hbeb⟩ := mem_bebIds.1 (ih hm)
    exact mem_bebIds.2 ⟨message, History.trace_subset_act _ _ _ _ hbeb⟩
  · intro w src dst m urb' outs hw ih _ hr m' hm'
    have hlocal := (urbOrigin hw).node dst
    rcases List.mem_append.1 hm' with hm' | hm'
    · obtain ⟨message, hbeb⟩ := mem_bebIds.1 (ih hm')
      exact mem_bebIds.2 ⟨message, History.trace_subset_act
        (w.toHistory.receive ⟨src, dst, m⟩) dst m'.dst _ hbeb⟩
    · obtain rfl := List.mem_singleton.1 hm'
      rw [History.act_trace_self, bebIds_append, List.mem_append]
      cases hr with
      | ignored hx => exact .inl (hlocal.delivered_beb hx)
      | relayed g hg hx hp => exact .inr (by simp [bebIds])
      | delivered g hg hx message hp ha =>
          exact .inl (mem_bebIds.2 ⟨message, ((hlocal.pending _ _).1 hp).1⟩)
      | counted g hg hx message hp ha =>
          exact .inl (mem_bebIds.2 ⟨message, ((hlocal.pending _ _).1 hp).1⟩)

/-- The first copy is the only one that is not tested, and it comes from another process, so one
ack does not exceed half of the processes. -/
theorem acks_le_half {w : UrbWorld n} (hw : (urbProgram n).Reachable w)
    (x : URBIdentifier (Fin n)) (p : Fin n) (hx : x ∉ deliveredIds (w.trace p)) :
    (w.node p).acks x ≤ n / 2 := by
  revert hx
  apply urb_invariant hw (I := fun h => x ∉ deliveredIds (h.trace p) → (h.node p).acks x ≤ n / 2)
  · exact fun _ => Nat.zero_le _
  · intro w q y _ ih _ hx
    obtain ⟨hacks, hdelivered⟩ := act_onInput_counting w.toHistory p q y
    rw [hdelivered] at hx
    rw [hacks]
    exact ih hx
  · intro w src dst m urb' outs hw ih hm hr hx
    by_cases hq : p = dst
    · subst hq
      rw [History.act_trace_self] at hx
      rw [History.act_node_self, hr.acks_eq hx src p]
      rw [deliveredIds_append, List.mem_append] at hx
      have hold := ih fun hd => hx (.inl hd)
      by_cases he : m.identifier = x
      · subst he
        have hone : [(⟨src, p, m⟩ : Packet (Fin n) (URBMessage (Fin n)))].countP
            (isCopyTo m.identifier p) = 1 := by simp [isCopyTo]
        rw [hone]
        cases hr with
        | ignored hd => exact absurd (.inl hd) hx
        | delivered g hg hd message hp ha => exact absurd (.inr (by simp [deliveredIds])) hx
        | counted g hg hd message hp ha => exact ha
        | relayed g hg hd hp =>
            have hnot := ((urbOrigin hw).node p).pending_none hd hp
            have hzero : (w.node p).acks m.identifier = 0 := by
              rw [acks_eq_countP hw m.identifier p hd, List.countP_eq_zero]
              intro m' hm' hcopy
              simp only [isCopyTo, decide_eq_true_eq] at hcopy
              apply hnot
              rw [← hcopy.1, ← hcopy.2]
              exact relayed_of_handled hw hm'
            have hne : src.val ≠ p.val := by
              intro hsp
              apply hnot
              rw [← Fin.ext hsp]
              exact mem_bebIds.2 ⟨m.message, beb_of_inflight hw hm⟩
            have := src.isLt
            have := p.isLt
            omega
      · have hzero : [(⟨src, p, m⟩ : Packet (Fin n) (URBMessage (Fin n)))].countP
            (isCopyTo x p) = 0 := by simp [isCopyTo, he]
        rw [hzero]
        exact hold
    · rw [History.act_trace_ne _ _ _ _ hq] at hx
      rw [History.act_node_ne _ _ _ _ hq]
      exact ih hx

/-- In a quiet world a copy of every best-effort broadcast of a member of `C` was handled by every
member of `C`. -/
theorem handled_of_quiet {w : UrbWorld n} {C : Finset (Fin n)} (hquiet : Quiet w C)
    (hw : (urbProgram n).Reachable w) {x : URBIdentifier (Fin n)} {q p : Fin n} (hq : q ∈ C)
    (hp : p ∈ C) (hx : x ∈ bebIds (w.trace q)) :
    ∃ m ∈ w.handled, isCopyTo x p m = true ∧ m.src = q := by
  have hcount := hquiet.countP_handled hw hq hp (isCopy x q p) fun _ => isCopy_ends
  have hpos : 0 < w.handled.countP (isCopy x q p) := by
    rw [hcount, countP_isCopy_packets]
    exact List.count_pos_iff.2 hx
  obtain ⟨m, hm, hcopy⟩ := List.countP_pos_iff.1 hpos
  obtain ⟨hto, hsrc⟩ := Bool.and_eq_true_iff.1 hcopy
  exact ⟨m, hm, hto, of_decide_eq_true hsrc⟩

/-- Let more than half of the processes be alive with no unhandled message between two of them. What
any process has delivered, or one of them has broadcast, all of them have delivered. -/
theorem urb_uniform_agreement {w : UrbWorld n} (hw : (urbProgram n).Reachable w)
    {C : Finset (Fin n)} (hC : n < 2 * C.card) (hquiet : Quiet w C) {x : URBIdentifier (Fin n)}
    (hx : (∃ q, x ∈ deliveredIds (w.trace q)) ∨
      x.peer ∈ C ∧ x.urbId ∈ broadcastIds (w.trace x.peer)) :
    ∀ p ∈ C, x ∈ deliveredIds (w.trace p) := by
  have hhalf : n / 2 < C.card := by omega
  obtain ⟨c, hc, hbeb⟩ : ∃ c ∈ C, x ∈ bebIds (w.trace c) := by
    rcases hx with ⟨q, hq⟩ | ⟨hsrc, hb⟩
    · obtain ⟨c, hc, hcC⟩ := quorum_intersect (Q := relays w.toHistory x) (C := C)
        (by simpa using majority_relayed hw hq) (by simpa using hhalf)
      exact ⟨c, hcC, (Finset.mem_filter.1 hc).2⟩
    · obtain ⟨message, hm⟩ := mem_broadcastIds.1 hb
      exact ⟨x.peer, hsrc, mem_bebIds.2 ⟨message, ((urbOrigin hw).drawn _).sent _ _ hm⟩⟩
  have hall : ∀ q ∈ C, x ∈ bebIds (w.trace q) := by
    intro q hq
    obtain ⟨m, hm, hto, _⟩ := handled_of_quiet hquiet hw hc hq hbeb
    obtain ⟨rfl, rfl⟩ : m.dst = q ∧ m.body.identifier = x := of_decide_eq_true hto
    exact relayed_of_handled hw hm
  intro p hp
  by_contra hnot
  have hcopies : C.card ≤ w.handled.countP (isCopyTo x p) :=
    card_le_countP _ fun q hq => handled_of_quiet hquiet hw hq hp (hall q hq)
  have hle := acks_le_half hw x p hnot
  rw [acks_eq_countP hw x p hnot] at hle
  omega

theorem urb_uniform_agreement_relayed : ∃ w : UrbWorld 2, (urbProgram 2).Reachable w ∧
    Quiet w Finset.univ ∧ ⟨0, 0⟩ ∈ deliveredIds (w.trace 0) ∧
    ∀ p ∈ Finset.univ, ⟨0, 0⟩ ∈ deliveredIds (w.trace p) := by
  obtain ⟨w, hr, halive, hin, hd⟩ : ∃ w, (urbProgram 2).Reachable w ∧
      (∀ p, w.crashed p = false) ∧ w.inflight = [] ∧ ⟨0, 0⟩ ∈ deliveredIds (w.trace 0) :=
    TransitionSystem.exists_reachable (relayedBroadcast 0) (by decide +kernel)
  have hquiet : Quiet w Finset.univ := ⟨fun p _ => halive p, by simp [hin]⟩
  exact ⟨w, hr, hquiet, hd, urb_uniform_agreement hr (by decide) hquiet (.inl ⟨0, hd⟩)⟩

end BroadcastService

import BroadcastService.UrbIntegrity
import BroadcastService.Quorum

/-!
# Majority witnesses of uniform reliable broadcast

A process sends every process at most one copy of a message, so the plain counter `acks_` of an
undelivered identifier is the number of distinct processes a copy came from, and a delivery is
witnessed by best-effort broadcasts of more than half of the processes.
-/

namespace BroadcastService
open MessagePassing

variable {n : ℕ}

def isCopyTo (x : URBIdentifier (Fin n)) (p : Fin n)
    (m : Packet (Fin n) (URBMessage (Fin n))) : Bool :=
  decide (m.dst = p ∧ m.body.identifier = x)

def isCopy (x : URBIdentifier (Fin n)) (q p : Fin n)
    (m : Packet (Fin n) (URBMessage (Fin n))) : Bool :=
  isCopyTo x p m && decide (m.src = q)

theorem isCopy_ends {x : URBIdentifier (Fin n)} {q p : Fin n}
    {m : Packet (Fin n) (URBMessage (Fin n))} (h : isCopy x q p m = true) :
    m.src = q ∧ m.dst = p := by
  simp only [isCopy, isCopyTo, Bool.and_eq_true, decide_eq_true_eq] at h
  exact ⟨h.2, h.1.1⟩

theorem countP_isCopy_packets (x : URBIdentifier (Fin n)) (q p : Fin n)
    (t : List (URBOutput (Fin n))) :
    ((urbProgram n).packets q t).countP (isCopy x q p) = (bebIds t).count x := by
  induction t with
  | nil => rfl
  | cons o t ih =>
      rw [show o :: t = [o] ++ t from rfl, Program.packets_append, List.countP_append, ih,
        bebIds_append, List.count_append]
      congr 1
      cases o with
      | beb m =>
          simp only [Program.packets, List.flatMap_cons, List.flatMap_nil, List.append_nil,
            List.countP_map]
          refine (countP_bestEffortBroadcast q p m _ ?_).trans ?_
          · intro d hd
            simp_all [isCopy, isCopyTo]
          · simp [isCopy, isCopyTo, bebIds, List.count_cons]
      | broadcast i message => rfl
      | deliver y message => rfl

theorem countP_isCopy_le_one {w : UrbWorld n} (hw : (urbProgram n).Reachable w)
    (x : URBIdentifier (Fin n)) (q p : Fin n) :
    w.inflight.countP (isCopy x q p) + w.handled.countP (isCopy x q p) ≤ 1 := by
  have hsent := Program.countP_sent hw q (isCopy x q p) fun _ h => (isCopy_ends h).1
  rw [countP_isCopy_packets] at hsent
  have hone := List.nodup_iff_count_le_one.1 ((urbOrigin hw).node q).beb_nodup x
  omega

def relays (h : UrbHistory n) (x : URBIdentifier (Fin n)) : Finset (Fin n) :=
  Finset.univ.filter fun q => x ∈ bebIds (h.trace q)

def receivedFrom (h : UrbHistory n) (x : URBIdentifier (Fin n)) (p : Fin n) : Finset (Fin n) :=
  Finset.univ.filter fun q => ∃ m ∈ h.handled, isCopyTo x p m = true ∧ m.src = q

theorem card_receivedFrom {w : UrbWorld n} (hw : (urbProgram n).Reachable w)
    (x : URBIdentifier (Fin n)) (p : Fin n) :
    (receivedFrom w.toHistory x p).card = w.handled.countP (isCopyTo x p) := by
  apply card_senders_eq_countP
  intro q
  exact le_trans (Nat.le_add_left _ _) (countP_isCopy_le_one hw x q p)

theorem deliveredIds_onInput {urb : UniformReliableBroadcast (Fin n)} (p : Fin n)
    (x : URBInput (Fin n)) : deliveredIds (urb.onInput p x).2 = [] := by
  cases x <;> rfl

theorem acks_onInput {urb : UniformReliableBroadcast (Fin n)} (p : Fin n)
    (x : URBInput (Fin n)) : (urb.onInput p x).1.acks = urb.acks := by
  cases x <;> rfl

theorem act_onInput_counting (h : UrbHistory n) (p q : Fin n) (y : URBInput (Fin n)) :
    ((h.act q ((h.node q).onInput q y)).node p).acks = (h.node p).acks ∧
      deliveredIds ((h.act q ((h.node q).onInput q y)).trace p) = deliveredIds (h.trace p) := by
  by_cases hq : p = q
  · subst hq
    rw [History.act_node_self, acks_onInput, History.act_trace_self, deliveredIds_append,
      deliveredIds_onInput, List.append_nil]
    exact ⟨rfl, rfl⟩
  · rw [History.act_node_ne _ _ _ _ hq, History.act_trace_ne _ _ _ _ hq]
    exact ⟨rfl, rfl⟩

theorem Handling.acks_eq {urb urb' : UniformReliableBroadcast (Fin n)}
    {t outs : List (URBOutput (Fin n))} {m : URBMessage (Fin n)}
    (hr : Handling n urb t m urb' outs) {x : URBIdentifier (Fin n)}
    (hx : x ∉ deliveredIds (t ++ outs)) (src dst : Fin n) :
    urb'.acks x = urb.acks x +
      [(⟨src, dst, m⟩ : Packet (Fin n) (URBMessage (Fin n)))].countP (isCopyTo x dst) := by
  have hcopy : [(⟨src, dst, m⟩ : Packet (Fin n) (URBMessage (Fin n)))].countP (isCopyTo x dst) =
      if m.identifier = x then 1 else 0 := by
    by_cases he : m.identifier = x <;> simp [isCopyTo, he]
  rw [hcopy]
  cases hr with
  | ignored hm =>
      have hne : m.identifier ≠ x := fun he => hx (by simpa [he] using hm)
      simp [hne]
  | relayed g hg hm hp =>
      by_cases he : x = m.identifier
      · subst he
        simp [hg.acks]
      · simp [Function.update_of_ne he, hg.acks, Ne.symm he]
  | delivered g hg hm message hp ha =>
      have he : x ≠ m.identifier := fun he => hx (by simp [he, deliveredIds])
      simp [Function.update_of_ne he, hg.acks, Ne.symm he]
  | counted g hg hm message hp ha =>
      by_cases he : x = m.identifier
      · subst he
        simp [hg.acks]
      · simp [Function.update_of_ne he, hg.acks, Ne.symm he]

theorem acks_eq_countP {w : UrbWorld n} (hw : (urbProgram n).Reachable w)
    (x : URBIdentifier (Fin n)) (p : Fin n) (hx : x ∉ deliveredIds (w.trace p)) :
    (w.node p).acks x = w.handled.countP (isCopyTo x p) := by
  revert hx
  apply urb_invariant hw (I := fun h => x ∉ deliveredIds (h.trace p) →
    (h.node p).acks x = h.handled.countP (isCopyTo x p))
  · exact fun _ => rfl
  · intro w q y _ ih _ hx
    obtain ⟨hacks, hdelivered⟩ := act_onInput_counting w.toHistory p q y
    rw [hdelivered] at hx
    rw [hacks]
    exact ih hx
  · intro w src dst m urb' outs _ ih _ hr hx
    rw [History.act_handled, History.receive_handled, List.countP_append]
    by_cases hq : p = dst
    · subst hq
      rw [History.act_trace_self] at hx
      rw [History.act_node_self, hr.acks_eq hx src p, ih]
      rw [deliveredIds_append, List.mem_append] at hx
      exact fun hd => hx (.inl hd)
    · rw [History.act_trace_ne _ _ _ _ hq] at hx
      rw [History.act_node_ne _ _ _ _ hq]
      have hzero : [(⟨src, dst, m⟩ : Packet (Fin n) (URBMessage (Fin n)))].countP
          (isCopyTo x p) = 0 := by simp [isCopyTo, Ne.symm hq]
      rw [hzero]
      exact ih hx

theorem relays_mono {h h' : UrbHistory n} (hsub : ∀ q, h.trace q ⊆ h'.trace q)
    (x : URBIdentifier (Fin n)) : relays h x ⊆ relays h' x := by
  intro q hq
  simp only [relays, Finset.mem_filter, Finset.mem_univ, true_and] at hq ⊢
  obtain ⟨message, hm⟩ := mem_bebIds.1 hq
  exact mem_bebIds.2 ⟨message, hsub q hm⟩

theorem copies_le_relays {w : UrbWorld n} (hw : (urbProgram n).Reachable w) {src p : Fin n}
    {m : URBMessage (Fin n)} (hm : ⟨src, p, m⟩ ∈ w.inflight) (x : URBIdentifier (Fin n)) :
    (w.handled ++ [(⟨src, p, m⟩ : Packet (Fin n) (URBMessage (Fin n)))]).countP (isCopyTo x p) ≤
      (relays w.toHistory x).card := by
  rw [← card_senders_eq_countP]
  · apply Finset.card_le_card
    intro q hq
    obtain ⟨⟨src', dst, m'⟩, hmem, hcopy, rfl⟩ := (Finset.mem_filter.1 hq).2
    simp only [isCopyTo, decide_eq_true_eq] at hcopy
    obtain ⟨rfl, rfl⟩ := hcopy
    have hbeb : .beb m' ∈ w.trace src' := by
      rcases List.mem_append.1 hmem with h | h
      · exact beb_of_handled hw h
      · exact beb_of_inflight hw (List.mem_singleton.1 h ▸ hm)
    simp only [relays, Finset.mem_filter, Finset.mem_univ, true_and]
    exact mem_bebIds.2 ⟨m'.message, hbeb⟩
  · intro q
    have hone := countP_isCopy_le_one hw x q p
    have hin : [(⟨src, p, m⟩ : Packet (Fin n) (URBMessage (Fin n)))].countP (isCopy x q p) ≤
        w.inflight.countP (isCopy x q p) := (List.singleton_sublist.2 hm).countP_le
    change (w.handled ++ [(⟨src, p, m⟩ : Packet (Fin n) (URBMessage (Fin n)))]).countP
      (isCopy x q p) ≤ 1
    rw [List.countP_append]
    omega

theorem majority_relayed {w : UrbWorld n} (hw : (urbProgram n).Reachable w)
    {x : URBIdentifier (Fin n)} {p : Fin n} (hx : x ∈ deliveredIds (w.trace p)) :
    n / 2 < (relays w.toHistory x).card := by
  revert p
  apply urb_invariant hw (I := fun h => ∀ {p}, x ∈ deliveredIds (h.trace p) →
    n / 2 < (relays h x).card)
  · exact fun hx => by cases hx
  · intro w q y _ ih _ p hx
    apply lt_of_lt_of_le (ih (p := p) ?_)
    · exact Finset.card_le_card (relays_mono (fun _ => History.trace_subset_act _ _ _ _) x)
    · by_cases hp : p = q
      · subst hp
        rwa [History.act_trace_self, deliveredIds_append, deliveredIds_onInput,
          List.append_nil] at hx
      · rwa [History.act_trace_ne _ _ _ _ hp] at hx
  · intro w src dst m urb' outs hw ih hm hr p hx
    have hmono : (relays w.toHistory x).card ≤
        (relays ((w.toHistory.receive ⟨src, dst, m⟩).act dst (urb', outs)) x).card :=
      Finset.card_le_card (relays_mono
        (fun q => History.trace_subset_act (w.toHistory.receive ⟨src, dst, m⟩) dst q _) x)
    apply lt_of_lt_of_le ?_ hmono
    by_cases hp : p = dst
    · subst hp
      rw [History.act_trace_self, deliveredIds_append, List.mem_append] at hx
      rcases hx with hx | hx
      · exact ih hx
      · cases hr with
        | delivered g hg hnot message hpend ha =>
            obtain rfl : x = m.identifier := by simpa [deliveredIds] using hx
            have hcount := acks_eq_countP hw m.identifier p hnot
            have hle := copies_le_relays hw hm m.identifier
            rw [List.countP_append, ← hcount] at hle
            simp only [isCopyTo, and_self, decide_true, List.countP_singleton, if_true] at hle
            omega
        | _ => simp [deliveredIds] at hx
    · rw [History.act_trace_ne _ _ _ _ hp] at hx
      exact ih hx

/-- A process best-effort broadcasts an identifier at most once; every delivery is witnessed by more
than half of the processes; the counter of an undelivered identifier is the number of processes a
copy was received from. -/
theorem urb_majority_witness {w : UrbWorld n} (hw : (urbProgram n).Reachable w) (p : Fin n)
    (x : URBIdentifier (Fin n)) :
    (bebIds (w.trace p)).count x ≤ 1 ∧
      (x ∈ deliveredIds (w.trace p) → n < 2 * (relays w.toHistory x).card) ∧
      (x ∉ deliveredIds (w.trace p) →
        (w.node p).acks x = (receivedFrom w.toHistory x p).card) := by
  refine ⟨List.nodup_iff_count_le_one.1 ((urbOrigin hw).node p).beb_nodup x, fun hx => ?_,
    fun hx => ?_⟩
  · have := majority_relayed hw hx
    omega
  · rw [card_receivedFrom hw]
    exact acks_eq_countP hw x p hx

def relayedBroadcast {P : Type*} (p : P) : List (Label P (URBInput P)) :=
  .input p (.broadcast [7]) :: List.replicate 4 (.handle 0)

theorem urb_majority_witness_relayed : ∃ w : UrbWorld 2, (urbProgram 2).Reachable w ∧
    ⟨0, 0⟩ ∈ deliveredIds (w.trace 1) ∧ (bebIds (w.trace 1)).count ⟨0, 0⟩ ≤ 1 ∧
    (⟨0, 0⟩ ∈ deliveredIds (w.trace 1) → 2 < 2 * (relays w.toHistory ⟨0, 0⟩).card) ∧
    (⟨0, 0⟩ ∉ deliveredIds (w.trace 1) →
      (w.node 1).acks ⟨0, 0⟩ = (receivedFrom w.toHistory ⟨0, 0⟩ 1).card) := by
  obtain ⟨w, hr, hd⟩ : ∃ w, (urbProgram 2).Reachable w ∧ ⟨0, 0⟩ ∈ deliveredIds (w.trace 1) :=
    TransitionSystem.exists_reachable (relayedBroadcast 0) (by decide +kernel)
  exact ⟨w, hr, hd, urb_majority_witness hr 1 ⟨0, 0⟩⟩

end BroadcastService

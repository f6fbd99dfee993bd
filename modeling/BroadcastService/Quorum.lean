import BroadcastService.MessagePassing

/-!
# Quorums, senders and quiet worlds

Two sets of more than half of the processes intersect, and senders that contribute at most one
packet each are as many as their packets. A world is quiet for a set of living processes when they
have handled every message of one to another.
-/

namespace MessagePassing

variable {P μ : Type*} [Fintype P] [DecidableEq P]

/-- Two sets of processes with more than half of the processes each have a common member. -/
theorem quorum_intersect {Q C : Finset P} (hQ : Fintype.card P / 2 < Q.card)
    (hC : Fintype.card P / 2 < C.card) :
    ∃ p, p ∈ Q ∧ p ∈ C := by
  by_contra hne
  have hdisj : Disjoint Q C := Finset.disjoint_left.2 fun p hp hp' => hne ⟨p, hp, hp'⟩
  have hle := Finset.card_le_univ (Q.disjUnion C hdisj)
  rw [Finset.card_disjUnion] at hle
  omega

/-- Packets that pass a test, at most one of them for each sender, have that many senders. -/
theorem card_senders_eq_countP {l : List (Packet P μ)} (f : Packet P μ → Bool)
    (hone : ∀ a, l.countP (fun m => f m && decide (m.src = a)) ≤ 1) :
    (Finset.univ.filter fun a => ∃ m ∈ l, f m = true ∧ m.src = a).card = l.countP f := by
  have hnodup : ((l.filter f).map Packet.src).Nodup := by
    refine List.nodup_iff_count_le_one.2 fun a => ?_
    rw [List.count, List.countP_map, List.countP_filter]
    refine le_trans (le_of_eq (List.countP_congr fun m _ => ?_)) (hone a)
    simp [and_comm]
  have hset : (Finset.univ.filter fun a => ∃ m ∈ l, f m = true ∧ m.src = a) =
      ((l.filter f).map Packet.src).toFinset := by
    ext a
    simp [and_assoc]
  rw [hset, List.toFinset_card_of_nodup hnodup, List.length_map, List.countP_eq_length_filter]

omit [Fintype P] in
theorem card_le_countP {l : List (Packet P μ)} (f : Packet P μ → Bool) {C : Finset P}
    (h : ∀ a ∈ C, ∃ m ∈ l, f m = true ∧ m.src = a) : C.card ≤ l.countP f := by
  have hsub : C ⊆ ((l.filter f).map Packet.src).toFinset := by
    intro a ha
    obtain ⟨m, hm, hf, hsrc⟩ := h a ha
    exact List.mem_toFinset.2 (List.mem_map.2 ⟨m, List.mem_filter.2 ⟨hm, hf⟩, hsrc⟩)
  refine (Finset.card_le_card hsub).trans ((List.toFinset_card_le _).trans ?_)
  rw [List.length_map, List.countP_eq_length_filter]

variable {σ ι ω : Type*}

/-- The members of `C` are alive and have handled every message of one to another. -/
structure Quiet (w : World P σ μ ω) (C : Finset P) : Prop where
  alive : ∀ p ∈ C, w.crashed p = false
  handled : ∀ m ∈ w.inflight, m.src ∈ C → m.dst ∉ C

omit [Fintype P] in
theorem Quiet.countP_handled {A : Program P σ μ ι ω} {w : World P σ μ ω} {C : Finset P}
    (h : Quiet w C) (hw : A.Reachable w) {p q : P} (hp : p ∈ C) (hq : q ∈ C)
    (f : Packet P μ → Bool) (hf : ∀ m, f m = true → m.src = p ∧ m.dst = q) :
    w.handled.countP f = (A.packets p (w.trace p)).countP f := by
  refine Program.countP_handled_of_quiet hw (h.alive p hp) f (fun m hm => (hf m hm).1) ?_
  intro m hm
  by_contra hfm
  obtain ⟨hsrc, hdst⟩ := hf m (Bool.eq_true_of_not_eq_false hfm)
  exact h.handled m hm (hsrc ▸ hp) (hdst ▸ hq)

end MessagePassing

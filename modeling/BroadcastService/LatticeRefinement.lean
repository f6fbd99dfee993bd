import BroadcastService.LatticeComparability

/-!
# Refinements of a proposal

A nack carries an element that the proposal it answers does not have (`nack_news`). A proposer that
moves to its next number has counted a nack to the current one, so it broadcasts a strictly larger
set than before (`growing`), and the number of refinements is bounded by the elements proposed in
the round that its own initial proposal lacks.
-/

namespace BroadcastService
open MessagePassing

variable {n r : ℕ}

theorem nack_news {w : RoundWorld n} (hw : (roundProgram n r).Reachable w)
    (hset : Proposals List.Nodup w.toHistory) {a p : Fin n} {acc : Accept}
    (hacc : .reply p acc ∈ w.trace a) (hnack : acc.status = .nack) :
    ∃ v, Answers w.toHistory p acc v ∧ ∃ x ∈ acc.acceptedValue, x ∉ v := by
  revert a p acc
  refine round_invariant_of hw hset (I := fun h => ∀ {a p acc}, .reply p acc ∈ h.trace a →
    acc.status = .nack → ∃ v, Answers h p acc v ∧ ∃ x ∈ acc.acceptedValue, x ∉ v) ?_ ?_ ?_
  · exact fun hacc => by cases hacc
  · intro w p v b _ _ ih _ _ a q acc hacc hnack
    rcases (History.mem_act_trace ..).1 hacc with hacc | ⟨_, hacc⟩
    · obtain ⟨u, hu, hx⟩ := ih hacc hnack
      exact ⟨u, History.trace_subset_act _ _ _ _ hu, hx⟩
    · cases b <;> simp [RoundNode.onPropose] at hacc
  · intro w src dst m s outs hw hset ih hm hr a q acc hacc hnack
    have hmono := RoundHistory.subset_react w.toHistory src dst m s outs
    rcases (RoundHistory.mem_react_trace ..).1 hacc with hacc | ⟨rfl, hnew⟩
    · obtain ⟨u, hu, hx⟩ := ih hacc hnack
      exact ⟨u, hmono q hu, hx⟩
    · cases hr with
      | ack pr hlen =>
          obtain ⟨_, rfl⟩ : q = src ∧ acc = _ := by simpa using hnew
          cases hnack
      | nack pr hlen =>
          obtain ⟨rfl, rfl⟩ : q = src ∧ acc = _ := by simpa using hnew
          have hpr := broadcast_of_inflight hw hm
          have hnot := mt (length_vectorSetUnion_eq_iff (values_nodup hw hset a).accepted
            ((values_nodup hw hset q).outputs _ hpr)).2 hlen
          obtain ⟨x, hx, hxv⟩ : ∃ x ∈ (w.node a).state.acceptedValue, x ∉ pr.proposedValue := by
            simpa [List.subset_def, RoundOutput.value] using hnot
          exact ⟨pr.proposedValue, hmono q hpr, x, subset_vectorSetUnion_left _ _ hx, hxv⟩
      | _ => simp at hnew

/-- The value of an undecided proposer contains the one it broadcast last, strictly once it has
counted a nack, and its broadcasts increase strictly. -/
structure Growing (s : RoundNode) (t : List (RoundOutput (Fin n))) : Prop where
  current : s.state.completed = false → ∀ v, .broadcast ⟨v, s.state.activeProposalNumber⟩ ∈ t →
    v ⊆ s.state.proposedValue ∧ (0 < s.state.nacks → ∃ x ∈ s.state.proposedValue, x ∉ v)
  strict : ∀ k v v', .broadcast ⟨v, k⟩ ∈ t → .broadcast ⟨v', k + 1⟩ ∈ t →
    v ⊆ v' ∧ ∃ x ∈ v', x ∉ v

theorem Growing.count {s : RoundNode} {t : List (RoundOutput (Fin n))} (h : Growing s t)
    (hc : s.state.completed = false) {a : Accept} {v : ProposalT}
    (hv : .broadcast ⟨v, s.state.activeProposalNumber⟩ ∈ t)
    (ha : a.status = .nack → ∃ x ∈ a.acceptedValue, x ∉ v) :
    v ⊆ (s.state.count a).proposedValue ∧
      (0 < (s.state.count a).nacks → ∃ x ∈ (s.state.count a).proposedValue, x ∉ v) := by
  obtain ⟨hsub, hnews⟩ := h.current hc v hv
  refine ⟨List.Subset.trans hsub (s.state.subset_count a), ?_⟩
  unfold RoundState.count
  cases hs : a.status with
  | ack => exact hnews
  | nack =>
      intro _
      obtain ⟨x, hx, hxv⟩ := ha hs
      exact ⟨x, subset_vectorSetUnion_right _ _ hx, hxv⟩

theorem Growing.react {maj : ℕ} {s : RoundNode} {t outs : List (RoundOutput (Fin n))}
    {src : Fin n} {m : RoundMessage} {s' : RoundState} (h : Growing s t) (hnum : Numbered s t)
    (hr : Reaction maj s.state src m s' outs)
    (ha : ∀ a, m = .accept a → a.status = .nack → s.state.activeProposalNumber = a.proposalNumber →
      ∀ v, .broadcast ⟨v, s.state.activeProposalNumber⟩ ∈ t → ∃ x ∈ a.acceptedValue, x ∉ v) :
    Growing { s with state := s' } (t ++ outs) := by
  cases hr with
  | counted a hc hn hacks hsum =>
      refine ⟨fun _ v hv => ?_, by simpa using h.strict⟩
      have hv' : .broadcast ⟨v, s.state.activeProposalNumber⟩ ∈ t := by simpa using hv
      exact h.count hc hv' fun hs => ha a rfl hs hn v hv'
  | decided a hc hn hacks => exact ⟨by simp, by simpa using h.strict⟩
  | moved a hc hn hacks hnacks hsum =>
      have hfresh : ∀ v k, .broadcast ⟨v, k⟩ ∈ t → k ≤ s.state.activeProposalNumber :=
        fun v k hv => hnum.le_current hv
      have hcases : ∀ v k, .broadcast ⟨v, k⟩ ∈ t ++ [RoundOutput.broadcast
          ⟨(s.state.count a).proposedValue, s.state.activeProposalNumber + 1⟩] →
          .broadcast ⟨v, k⟩ ∈ t ∨ v = (s.state.count a).proposedValue ∧
            k = s.state.activeProposalNumber + 1 := fun v k hv => by simpa using hv
      refine ⟨fun _ v hv => ?_, fun k v v' hv hv' => ?_⟩
      · rcases hcases v _ hv with hv | ⟨rfl, _⟩
        · have := hfresh v _ hv
          simp at this
        · exact ⟨fun _ hx => hx, by simp⟩
      · rcases hcases v k hv with hv | ⟨rfl, hk⟩ <;> rcases hcases v' _ hv' with hv' | ⟨rfl, hk'⟩
        · exact h.strict k v v' hv hv'
        · obtain rfl : k = s.state.activeProposalNumber := by omega
          obtain ⟨hsub, hnews⟩ := h.count hc hv fun hs => ha a rfl hs hn v hv
          exact ⟨hsub, hnews hnacks⟩
        · have := hfresh v' _ hv'
          omega
        · omega
  | _ => exact ⟨by simpa using h.current, by simpa using h.strict⟩

theorem growing {w : RoundWorld n} (hw : (roundProgram n r).Reachable w)
    (hset : Proposals List.Nodup w.toHistory) (p : Fin n) : Growing (w.node p) (w.trace p) := by
  revert p
  refine round_invariant_of hw hset (I := fun h => ∀ p, Growing (h.node p) (h.trace p)) ?_ ?_ ?_
  · exact fun p => ⟨by simp [Program.initial], by simp [Program.initial]⟩
  · intro w p v b hw _ ih hp _
    refine History.forall_act _ _ _ (Q := fun _ => Growing) ih ?_
    obtain ⟨hnil, hnum⟩ := ((numbering hw).node p).unproposed hp
    have hnone : ∀ pr, .broadcast pr ∉ w.trace p := fun pr => by simp [← mem_broadcasts, hnil]
    have hnacks : (w.node p).state.completed = false → (w.node p).state.nacks = 0 := by
      intro hc
      rw [(counting hw p hc).nacks, List.countP_eq_zero]
      intro m hm hv
      obtain ⟨pr, hpr, _⟩ := broadcast_of_vote hw hm hv
      exact hnone pr hpr
    refine ⟨fun hc u hu => ?_, fun k u u' _ hu' => ?_⟩
    · have hu : u = v := by cases b <;> simp [RoundNode.onPropose, hnone] at hu; exact hu.1
      subst hu
      exact ⟨fun _ hx => hx, fun h => absurd (hnacks hc) h.ne'⟩
    · cases b <;> simp [RoundNode.onPropose, hnone] at hu'
  · intro w src dst m s outs hw hset ih hm hr
    refine History.forall_act _ _ _ (Q := fun _ => Growing) ih
      ((ih dst).react ((numbering hw).node dst) hr ?_)
    rintro a rfl hs hn v hv
    obtain ⟨u, hu, hx⟩ := nack_news hw hset (reply_of_inflight hw hm) hs
    have he := ((numbering hw).node dst).unique hu hv hn.symm
    rwa [(Proposal.mk.inj he).1] at hx

theorem Growing.card_lt {s : RoundNode} {t : List (RoundOutput (Fin n))} (h : Growing s t)
    {k : ℕ} {v v' : ProposalT} (hv : .broadcast ⟨v, k⟩ ∈ t) (hv' : .broadcast ⟨v', k + 1⟩ ∈ t) :
    v.toFinset ⊂ v'.toFinset := by
  obtain ⟨hsub, x, hx, hxv⟩ := h.strict k v v' hv hv'
  refine ⟨fun y hy => List.mem_toFinset.2 (hsub (List.mem_toFinset.1 hy)), fun hle => hxv ?_⟩
  exact List.mem_toFinset.1 (hle (List.mem_toFinset.2 hx))

theorem card_broadcast {w : RoundWorld n} (hw : (roundProgram n r).Reachable w)
    (hset : Proposals List.Nodup w.toHistory) {p : Fin n} {u : ProposalT} {b : Bool}
    (hu : .propose u b ∈ w.trace p) (k : ℕ) {v : ProposalT}
    (hv : .broadcast ⟨v, k⟩ ∈ w.trace p) : k + u.toFinset.card ≤ v.toFinset.card := by
  induction k generalizing v with
  | zero =>
      rw [Nat.zero_add]
      refine Finset.card_le_card fun x hx => ?_
      exact List.mem_toFinset.2 ((owned hw p).broadcast u b _ hu hv (List.mem_toFinset.1 hx))
  | succ k ih =>
      have hnum := (numbering hw).node p
      obtain ⟨v', hv'⟩ := hnum.exists_broadcast hv ((Nat.le_succ k).trans (hnum.le_current hv))
      have hlt := Finset.card_lt_card ((growing hw hset p).card_lt hv' hv)
      have := ih hv'
      omega

def initialUnion (w : LAWorld n) (r : ℕ) : Finset ProposeValueT :=
  Finset.univ.biUnion fun p => (initialProposals w p r).flatten.toFinset

theorem mem_initialUnion {w : LAWorld n} {x : ProposeValueT} :
    x ∈ initialUnion w r ↔ ∃ p, ∃ v ∈ initialProposals w p r, x ∈ v := by
  simp [initialUnion]

def BroadcastProposal (w : LAWorld n) (p : Fin n) (r : ℕ) (pr : Proposal) : Prop :=
  ∃ m, .broadcast m ∈ w.trace p ∧ m.onWire.atRound r = some pr

theorem broadcastProposal_iff {w : LAWorld n} {p : Fin n} {pr : Proposal} :
    BroadcastProposal w p r pr ↔ .broadcast pr ∈ ((roundProjection n r).world w).trace p := by
  simp only [BroadcastProposal, Projection.world, List.mem_filterMap]
  constructor
  · rintro ⟨m, hm, hpr⟩
    exact ⟨_, hm, by simp [roundProjection, LAOutput.atRound, hpr]⟩
  · rintro ⟨o, ho, he⟩
    cases o with
    | broadcast m =>
        obtain ⟨pr', hpr, he⟩ := Option.map_eq_some_iff.1 he
        exact ⟨m, ho, (RoundOutput.broadcast.inj he) ▸ hpr⟩
    | propose m => simp [roundProjection, LAOutput.atRound] at he
    | send dst m => simp [roundProjection, LAOutput.atRound] at he
    | setPromise c => simp [roundProjection, LAOutput.atRound] at he
    | callback round V => simp [roundProjection, LAOutput.atRound] at he

theorem view_activeProposalNumber {la : LatticeAgreement} {state : RoundState}
    (h : la.roundStates[r]? = some state) :
    (la.view r).activeProposalNumber = state.activeProposalNumber := by
  simp [LatticeAgreement.view, h, RoundState.erase]

theorem card_value_le_initialUnion {w : LAWorld n} (hw : (latticeProgram n).Reachable w)
    {p : Fin n} {o : RoundOutput (Fin n)} (ho : o ∈ ((roundProjection n r).world w).trace p) :
    o.value.toFinset.card ≤ (initialUnion w r).card := by
  have hvalues : ∀ x ∈ o.value, x ∈ initialUnion w r := by
    refine (values (S := fun V => ∀ x ∈ V, x ∈ initialUnion w r) (by simp) ?_
      (round_reachable hw r) ?_ p).outputs o ho
    · intro u v hu hv x hx
      exact (mem_vectorSetUnion.1 hx).elim (hu x) (hv x)
    · exact fun q v b hv x hx =>
        mem_initialUnion.2 ⟨q, v, mem_initialProposals.2 ⟨b, hv⟩, hx⟩
  exact Finset.card_le_card fun x hx => hvalues x (List.mem_toFinset.1 hx)

/-- The proposal number of a process in a round counts strictly increasing broadcasts, so it never
exceeds the number of proposed elements that its initial proposal lacks. -/
theorem lattice_refinement_bound {w : LAWorld n} (hw : (latticeProgram n).Reachable w)
    (hset : ∀ p, ∀ v ∈ initialProposals w p r, v.Nodup) (p : Fin n) :
    (∀ v ∈ initialProposals w p r, ∀ state, (w.node p).la.roundStates[r]? = some state →
      state.activeProposalNumber + v.toFinset.card ≤ (initialUnion w r).card) ∧
    ∀ k v', BroadcastProposal w p r ⟨v', k + 1⟩ →
      ∃ v, BroadcastProposal w p r ⟨v, k⟩ ∧
        ∀ u, BroadcastProposal w p r ⟨u, k⟩ → u.toFinset ⊂ v'.toFinset := by
  have hround := round_reachable hw r
  have hset' : Proposals List.Nodup ((roundProjection n r).world w).toHistory :=
    fun p v b hv => hset p v (mem_initialProposals.2 ⟨b, hv⟩)
  have hnum := (numbering hround).node p
  refine ⟨fun v hv state hst => ?_, fun k v' hv' => ?_⟩
  · obtain ⟨b, hb⟩ := mem_initialProposals.1 hv
    have hview : (((roundProjection n r).world w).node p).state.activeProposalNumber =
        state.activeProposalNumber := view_activeProposalNumber hst
    rw [← hview]
    rcases hnum.current with ⟨_, hzero⟩ | ⟨_, hlen⟩
    · rw [hzero, Nat.zero_add]
      exact card_value_le_initialUnion hw hb
    · have hpos : 0 < (broadcasts (((roundProjection n r).world w).trace p)).length := by omega
      obtain ⟨pr, hpr⟩ := List.exists_mem_of_length_pos hpos
      obtain ⟨u, hu⟩ := hnum.exists_broadcast (mem_broadcasts.1 hpr) le_rfl
      exact (card_broadcast hround hset' hb _ hu).trans (card_value_le_initialUnion hw hu)
  · simp only [broadcastProposal_iff] at hv' ⊢
    obtain ⟨v, hv⟩ := hnum.exists_broadcast hv' ((Nat.le_succ k).trans (hnum.le_current hv'))
    exact ⟨v, hv, fun u hu => (growing hround hset' p).card_lt hu hv'⟩

theorem lattice_refinement_bound_concurrent : ∃ w : LAWorld 2, (latticeProgram 2).Reachable w ∧
    BroadcastProposal w 1 0 ⟨[2, 1], 1⟩ ∧
    (∀ v ∈ initialProposals w 1 0, ∀ state, (w.node 1).la.roundStates[0]? = some state →
      state.activeProposalNumber + v.toFinset.card ≤ (initialUnion w 0).card) ∧
    ∀ k v', BroadcastProposal w 1 0 ⟨v', k + 1⟩ →
      ∃ v, BroadcastProposal w 1 0 ⟨v, k⟩ ∧
        ∀ u, BroadcastProposal w 1 0 ⟨u, k⟩ → u.toFinset ⊂ v'.toFinset := by
  obtain ⟨w, hr, hset, hb⟩ : ∃ w, (latticeProgram 2).Reachable w ∧
      (∀ p, ∀ v ∈ initialProposals w p 0, v.Nodup) ∧
      .broadcast ⟨0, [⟨[2, 1], 1⟩]⟩ ∈ w.trace 1 :=
    TransitionSystem.exists_reachable (concurrentProposals 0 1) (by decide +kernel)
  exact ⟨w, hr, ⟨_, hb, rfl⟩, lattice_refinement_bound hr hset 1⟩

end BroadcastService

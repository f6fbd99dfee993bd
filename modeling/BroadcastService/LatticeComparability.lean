import BroadcastService.LatticeCounting
import BroadcastService.LatticeValidity

/-!
# Comparability of lattice agreement

A proposer decides the value it broadcast under its current number, with acks to that number from
more than half of the processes (`decision`). On duplicate-free values the acceptor's length test is
an inclusion test, so the values an acceptor acked form a chain (`acceptorChain`). Two decisions of
a round have a common acceptor, and hence are comparable.
-/

namespace BroadcastService
open MessagePassing

variable {n r : ℕ}

def Announced (s : RoundNode) (t : List (RoundOutput (Fin n))) : Prop :=
  s.state.completed = false → s.state.nacks = 0 → (∃ pr, .broadcast pr ∈ t) →
    .broadcast ⟨s.state.proposedValue, s.state.activeProposalNumber⟩ ∈ t

theorem announced {w : RoundWorld n} (hw : (roundProgram n r).Reachable w) (p : Fin n) :
    Announced (w.node p) (w.trace p) := by
  refine round_local hw (by simp [Announced]) ?_ ?_ p
  · intro w p v b hw _ hp
    obtain ⟨hnil, hnum⟩ := ((numbering hw).node p).unproposed hp
    have hnone : ∀ pr, .broadcast pr ∉ w.trace p := fun pr => by simp [← mem_broadcasts, hnil]
    cases b <;> simp [Announced, RoundNode.onPropose, hnone, hnum]
  · intro w src dst m s outs _ ih _ hr
    cases hr with
    | counted a hc hn hacks hsum =>
        obtain ⟨status, number, value⟩ := a
        cases status with
        | ack => simpa [Announced, RoundState.count] using ih
        | nack => simp [Announced, RoundState.count]
    | decided a hc hn hacks => simp [Announced]
    | moved a hc hn hacks hnacks hsum => simp [Announced]
    | _ => simpa [Announced] using ih

/-- More than half of the processes sent `p` an ack to its proposal `k`. -/
def AckedByQuorum (h : RoundHistory n) (p : Fin n) (k : ℕ) : Prop :=
  ∃ Q : Finset (Fin n), n / 2 < Q.card ∧
    ∀ a ∈ Q, ∃ acc, .reply p acc ∈ h.trace a ∧ acc.status = .ack ∧ acc.proposalNumber = k

theorem AckedByQuorum.mono {h h' : RoundHistory n} (hsub : ∀ a, h.trace a ⊆ h'.trace a)
    {p : Fin n} {k : ℕ} (hq : AckedByQuorum h p k) : AckedByQuorum h' p k := by
  obtain ⟨Q, hcard, hQ⟩ := hq
  refine ⟨Q, hcard, fun a ha => ?_⟩
  obtain ⟨acc, hacc, hrest⟩ := hQ a ha
  exact ⟨acc, hsub a hacc, hrest⟩

theorem ackedByQuorum_of_majority {w : RoundWorld n} (hw : (roundProgram n r).Reachable w)
    {p : Fin n} {m : Packet (Fin n) RoundMessage} (hm : m ∈ w.inflight) {k : ℕ}
    (hmaj : majority n ≤ (w.handled ++ [m]).countP (isVote .ack p k)) :
    AckedByQuorum w.toHistory p k := by
  have hcard := card_senders_eq_countP (l := w.handled ++ [m]) (isVote .ack p k) fun a => ?_
  · refine ⟨_, lt_of_lt_of_le (Nat.lt_succ_self _) (hcard ▸ hmaj), fun a ha => ?_⟩
    obtain ⟨⟨src, dst, body⟩, hmem, hv, rfl⟩ := (Finset.mem_filter.1 ha).2
    cases body with
    | proposal pr => cases hv
    | accept acc =>
        simp only [isVote, decide_eq_true_eq] at hv
        obtain ⟨rfl, hk, hack⟩ := hv
        refine ⟨acc, ?_, hack, hk⟩
        rcases List.mem_append.1 hmem with h | h
        · exact reply_of_handled hw h
        · exact reply_of_inflight hw (List.mem_singleton.1 h ▸ hm)
  · have hone := countP_isAnswer_le_one hw a p k
    have hle : (w.handled ++ [m]).countP (fun x => isVote .ack p k x && decide (x.src = a)) ≤
        (w.handled ++ [m]).countP (isAnswer a p k) := by
      refine List.countP_mono_left fun x _ hx => ?_
      obtain ⟨src, dst, body⟩ := x
      cases body <;> simp_all [isVote, isAnswer]
    have hin : [m].countP (isAnswer a p k) ≤ w.inflight.countP (isAnswer a p k) :=
      (List.singleton_sublist.2 hm).countP_le
    refine hle.trans ?_
    rw [List.countP_append]
    omega

/-- An answer that completes a majority of acks is an ack, and none of the earlier ones is a nack.
-/
theorem Counted.decided {handled : List (Packet (Fin n) RoundMessage)} {p : Fin n}
    {s : RoundState} (h : Counted handled p s) {a : Accept}
    (hacks : majority n ≤ (s.count a).acks) :
    s.nacks = 0 ∧ (s.count a).proposedValue = s.proposedValue := by
  have hlt := h.acks_lt
  have hsum := h.sum_lt
  unfold RoundState.count at hacks ⊢
  split at hacks
  · simp only at hacks
    exact ⟨by omega, rfl⟩
  · simp only at hacks
    omega

theorem decision {w : RoundWorld n} (hw : (roundProgram n r).Reachable w) {p : Fin n}
    {V : ProposalT} (hV : .callback V ∈ w.trace p) :
    ∃ k, .broadcast ⟨V, k⟩ ∈ w.trace p ∧ AckedByQuorum w.toHistory p k := by
  revert p V
  refine round_invariant hw (I := fun h => ∀ {p V}, .callback V ∈ h.trace p →
    ∃ k, .broadcast ⟨V, k⟩ ∈ h.trace p ∧ AckedByQuorum h p k) ?_ ?_ ?_
  · exact fun hV => by cases hV
  · intro w p v b _ ih _ q V hV
    rcases (History.mem_act_trace ..).1 hV with hV | ⟨_, hV⟩
    · obtain ⟨k, hk, hq⟩ := ih hV
      exact ⟨k, History.trace_subset_act _ _ _ _ hk,
        hq.mono fun a => History.trace_subset_act _ _ _ _⟩
    · cases b <;> simp [RoundNode.onPropose] at hV
  · intro w src dst m s outs hw ih hm hr q V hV
    have hmono := RoundHistory.subset_react w.toHistory src dst m s outs
    rcases (RoundHistory.mem_react_trace ..).1 hV with hold | ⟨rfl, hnew⟩
    · obtain ⟨k, hk, hq⟩ := ih hold
      exact ⟨k, hmono q hk, hq.mono hmono⟩
    · cases hr with
      | decided a hc hn hacks =>
          obtain ⟨hnacks, hvalue⟩ := (counting hw q hc).decided hacks
          obtain rfl : V = (w.node q).state.proposedValue := by simpa [hvalue] using hnew
          obtain ⟨pr, hpr, _⟩ := (numbering hw).answered src q a (reply_of_inflight hw hm)
          refine ⟨_, hmono q (announced hw q hc hnacks ⟨pr, hpr⟩), AckedByQuorum.mono hmono
            (ackedByQuorum_of_majority hw hm ?_)⟩
          rw [List.countP_append, ← (counting hw q hc).acks,
            ← RoundState.count_acks a _ src q hn]
          exact hacks
      | _ => simp at hnew

/-- `p` broadcast a value with the number that `acc` answers. -/
def Answers (h : RoundHistory n) (p : Fin n) (acc : Accept) (v : ProposalT) : Prop :=
  .broadcast ⟨v, acc.proposalNumber⟩ ∈ h.trace p

/-- The values acked by an acceptor are below its accepted value and comparable to each other. -/
structure AcceptorChain (h : RoundHistory n) (a : Fin n) : Prop where
  below : ∀ p acc, .reply p acc ∈ h.trace a → acc.status = .ack →
    ∃ v, Answers h p acc v ∧ v ⊆ (h.node a).state.acceptedValue
  comparable : ∀ p acc q acc', .reply p acc ∈ h.trace a → acc.status = .ack →
    .reply q acc' ∈ h.trace a → acc'.status = .ack →
    ∃ v v', Answers h p acc v ∧ Answers h q acc' v' ∧ (v ⊆ v' ∨ v' ⊆ v)

theorem AcceptorChain.keep {h h' : RoundHistory n} {a : Fin n} (hc : AcceptorChain h a)
    (hsub : ∀ p, h.trace p ⊆ h'.trace p)
    (hreply : ∀ p acc, .reply p acc ∈ h'.trace a → acc.status = .ack → .reply p acc ∈ h.trace a)
    (hacc : (h.node a).state.acceptedValue ⊆ (h'.node a).state.acceptedValue) :
    AcceptorChain h' a := by
  refine ⟨fun p acc hm hack => ?_, fun p acc q acc' hm hack hm' hack' => ?_⟩
  · obtain ⟨v, hv, hle⟩ := hc.below p acc (hreply p acc hm hack) hack
    exact ⟨v, hsub p hv, List.Subset.trans hle hacc⟩
  · obtain ⟨v, v', hv, hv', hle⟩ := hc.comparable p acc q acc' (hreply p acc hm hack) hack
      (hreply q acc' hm' hack') hack'
    exact ⟨v, v', hsub p hv, hsub q hv', hle⟩

/-- An ack of a value that contains the accepted value extends the chain at its top. -/
theorem AcceptorChain.extend {h h' : RoundHistory n} {a src : Fin n} {acc₀ : Accept}
    {v₀ : ProposalT} (hc : AcceptorChain h a) (hsub : ∀ p, h.trace p ⊆ h'.trace p)
    (hv₀ : Answers h src acc₀ v₀) (hle₀ : (h.node a).state.acceptedValue ⊆ v₀)
    (hacc : (h'.node a).state.acceptedValue = v₀)
    (hreply : ∀ p acc, .reply p acc ∈ h'.trace a →
      .reply p acc ∈ h.trace a ∨ p = src ∧ acc = acc₀) : AcceptorChain h' a := by
  have hbelow : ∀ p acc, .reply p acc ∈ h.trace a → acc.status = .ack →
      ∃ v, Answers h' p acc v ∧ v ⊆ v₀ := by
    intro p acc hm hack
    obtain ⟨v, hv, hle⟩ := hc.below p acc hm hack
    exact ⟨v, hsub p hv, List.Subset.trans hle hle₀⟩
  have hnew : Answers h' src acc₀ v₀ := hsub src hv₀
  refine ⟨fun p acc hm hack => ?_, fun p acc q acc' hm hack hm' hack' => ?_⟩
  · rw [hacc]
    rcases hreply p acc hm with hm | ⟨rfl, rfl⟩
    · exact hbelow p acc hm hack
    · exact ⟨v₀, hnew, fun _ hx => hx⟩
  · rcases hreply p acc hm with hm | ⟨rfl, rfl⟩ <;> rcases hreply q acc' hm' with hm' | ⟨rfl, rfl⟩
    · obtain ⟨v, v', hv, hv', hle⟩ := hc.comparable p acc q acc' hm hack hm' hack'
      exact ⟨v, v', hsub p hv, hsub q hv', hle⟩
    · obtain ⟨v, hv, hle⟩ := hbelow p acc hm hack
      exact ⟨v, v₀, hv, hnew, .inl hle⟩
    · obtain ⟨v, hv, hle⟩ := hbelow q acc' hm' hack'
      exact ⟨v₀, v, hnew, hv, .inr hle⟩
    · exact ⟨v₀, v₀, hnew, hnew, .inl fun _ hx => hx⟩

theorem values_nodup {w : RoundWorld n} (hw : (roundProgram n r).Reachable w)
    (hset : Proposals List.Nodup w.toHistory) (p : Fin n) :
    Valued List.Nodup (w.node p).state (w.trace p) :=
  values List.nodup_nil (fun _ _ => nodup_vectorSetUnion) hw hset p

theorem acceptorChain {w : RoundWorld n} (hw : (roundProgram n r).Reachable w)
    (hset : Proposals List.Nodup w.toHistory) (a : Fin n) : AcceptorChain w.toHistory a := by
  refine round_invariant_of hw hset (I := fun h => AcceptorChain h a) ?_ ?_ ?_
  · exact ⟨fun p acc hm => (List.not_mem_nil hm).elim,
      fun p acc q acc' hm => (List.not_mem_nil hm).elim⟩
  · intro w p v b _ _ ih _ _
    refine ih.keep (fun q => History.trace_subset_act _ _ _ _) ?_ ?_
    · intro q acc hm _
      rcases (History.mem_act_trace ..).1 hm with hm | ⟨_, hm⟩
      · exact hm
      · cases b <;> simp [RoundNode.onPropose] at hm
    · by_cases ha : a = p
      · subst ha
        rw [History.act_node_self]
        exact fun _ hx => hx
      · rw [History.act_node_ne _ _ _ _ ha]
        exact fun _ hx => hx
  · intro w src dst m s outs hw hset hchain hm hr
    have hmono := RoundHistory.subset_react w.toHistory src dst m s outs
    by_cases ha : a = dst
    · subst ha
      have hnode := RoundHistory.react_node_self w.toHistory src a m s outs
      have hreply : ∀ p acc,
          .reply p acc ∈ (RoundHistory.react w.toHistory src a m s outs).trace a →
          .reply p acc ∈ w.trace a ∨ .reply p acc ∈ outs :=
        fun p acc h => ((RoundHistory.mem_react_trace ..).1 h).imp_right And.right
      cases hr with
      | ack pr hlen =>
          have hpr := broadcast_of_inflight hw hm
          have hans : Answers w.toHistory src ⟨.ack, pr.activeProposalNumber, []⟩
              pr.proposedValue := hpr
          refine hchain.extend hmono hans ?_ (by rw [hnode]) fun p acc h => ?_
          · exact (length_vectorSetUnion_eq_iff (values_nodup hw hset a).accepted
              ((values_nodup hw hset src).outputs _ hpr)).1 hlen
          · simpa using hreply p acc h
      | nack pr hlen =>
          refine hchain.keep hmono (fun p acc h hack => ?_) ?_
          · refine (hreply p acc h).resolve_right fun h' => ?_
            obtain ⟨_, rfl⟩ : p = src ∧ acc = _ := by simpa using h'
            cases hack
          · rw [hnode]
            exact subset_vectorSetUnion_left _ _
      | _ =>
          refine hchain.keep hmono (fun p acc h _ => ?_) ?_
          · simpa using hreply p acc h
          · rw [hnode]
            simp
    · refine hchain.keep hmono (fun p acc h _ => ?_) ?_
      · exact ((RoundHistory.mem_react_trace ..).1 h).resolve_right fun h' => ha h'.1
      · rw [RoundHistory.react_node_ne _ _ _ _ _ _ ha]
        exact fun _ hx => hx

/-- Two decisions of a round are comparable when every initial proposal of it is a set. -/
theorem lattice_comparability {w : LAWorld n} (hw : (latticeProgram n).Reachable w)
    (hset : ∀ p, ∀ v ∈ initialProposals w p r, v.Nodup) {p q : Fin n} {V W : ProposalT}
    (hV : .callback r V ∈ w.trace p) (hW : .callback r W ∈ w.trace q) : V ⊆ W ∨ W ⊆ V := by
  have hround := round_reachable hw r
  obtain ⟨k, hk, Q, hQ, hackQ⟩ := decision hround (callback_atRound hV)
  obtain ⟨l, hl, C, hC, hackC⟩ := decision hround (callback_atRound hW)
  obtain ⟨a, haQ, haC⟩ := quorum_intersect (Q := Q) (C := C) (by simpa using hQ)
    (by simpa using hC)
  obtain ⟨acc, hacc, hack, rfl⟩ := hackQ a haQ
  obtain ⟨acc', hacc', hack', rfl⟩ := hackC a haC
  have hchain := acceptorChain hround
    (fun p v b hv => hset p v (mem_initialProposals.2 ⟨b, hv⟩)) a
  obtain ⟨v, v', hv, hv', hle⟩ := hchain.comparable p acc q acc' hacc hack hacc' hack'
  have heV : (⟨v, _⟩ : Proposal) = ⟨V, _⟩ := ((numbering hround).node p).unique hv hk rfl
  have heW : (⟨v', _⟩ : Proposal) = ⟨W, _⟩ := ((numbering hround).node q).unique hv' hl rfl
  rwa [(Proposal.mk.inj heV).1, (Proposal.mk.inj heW).1] at hle

theorem lattice_comparability_concurrent : ∃ w : LAWorld 2, (latticeProgram 2).Reachable w ∧
    .callback 0 [1] ∈ w.trace 0 ∧ .callback 0 [2, 1] ∈ w.trace 1 ∧
    (([1] : ProposalT) ⊆ [2, 1] ∨ ([2, 1] : ProposalT) ⊆ [1]) := by
  obtain ⟨w, hr, hset, hV, hW⟩ : ∃ w, (latticeProgram 2).Reachable w ∧
      (∀ p, ∀ v ∈ initialProposals w p 0, v.Nodup) ∧
      .callback 0 [1] ∈ w.trace 0 ∧ .callback 0 [2, 1] ∈ w.trace 1 :=
    TransitionSystem.exists_reachable (concurrentProposals 0 1) (by decide +kernel)
  exact ⟨w, hr, hV, hW, lattice_comparability hr hset hV hW⟩

end BroadcastService

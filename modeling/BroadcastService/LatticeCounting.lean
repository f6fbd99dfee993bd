import BroadcastService.LatticeNumbering
import BroadcastService.Quorum

/-!
# Answers and counters of a round

An acceptor answers every proposal it handles exactly once (`answers`), so it sends a proposer at
most one answer to a number (`countP_isAnswer_le_one`). The counters `acks` and
`nacks` of an undecided proposer are the numbers of acks and nacks to its current number that it has
handled (`counting`).
-/

namespace BroadcastService
open MessagePassing

variable {n r : ℕ}

def isProposal (p a : Fin n) (k : ℕ) (m : Packet (Fin n) RoundMessage) : Bool :=
  match m.body with
  | .proposal pr => decide (m.src = p ∧ m.dst = a ∧ pr.activeProposalNumber = k)
  | .accept _ => false

def isAnswer (a p : Fin n) (k : ℕ) (m : Packet (Fin n) RoundMessage) : Bool :=
  match m.body with
  | .proposal _ => false
  | .accept acc => decide (m.src = a ∧ m.dst = p ∧ acc.proposalNumber = k)

theorem isProposal_ends {p a : Fin n} {k : ℕ} {m : Packet (Fin n) RoundMessage}
    (h : isProposal p a k m = true) : m.src = p ∧ m.dst = a := by
  obtain ⟨src, dst, body⟩ := m
  cases body <;> simp_all [isProposal]

theorem isAnswer_ends {a p : Fin n} {k : ℕ} {m : Packet (Fin n) RoundMessage}
    (h : isAnswer a p k m = true) : m.src = a ∧ m.dst = p := by
  obtain ⟨src, dst, body⟩ := m
  cases body <;> simp_all [isAnswer]

theorem countP_isAnswer_broadcast (a p q : Fin n) (k : ℕ) (pr : Proposal) :
    ((roundProgram n r).packets q [.broadcast pr]).countP (isAnswer a p k) = 0 := by
  refine List.countP_eq_zero.2 fun m hm => ?_
  obtain ⟨_, o, ho, hd⟩ := (roundProgram n r).mem_packets.1 hm
  obtain rfl := List.mem_singleton.1 ho
  have hbody : m.body = .proposal pr := mem_bestEffortBroadcast.1 hd
  simp [isAnswer, hbody]

theorem Reaction.countP_isAnswer {maj : ℕ} {s s' : RoundState} {src dst : Fin n}
    {m : RoundMessage} {outs : List (RoundOutput (Fin n))} (hr : Reaction maj s src m s' outs)
    (p : Fin n) (k : ℕ) :
    ((roundProgram n r).packets dst outs).countP (isAnswer dst p k) =
      [(⟨src, dst, m⟩ : Packet (Fin n) RoundMessage)].countP (isProposal p dst k) := by
  cases hr with
  | moved a hc hn hacks hnacks hsum => exact countP_isAnswer_broadcast ..
  | _ => simp [Program.packets, roundProgram, roundEmit, isAnswer, isProposal, List.countP_cons]

/-- An acceptor has answered exactly the proposals it has handled. -/
theorem answers {w : RoundWorld n} (hw : (roundProgram n r).Reachable w) (a p : Fin n) (k : ℕ) :
    ((roundProgram n r).packets a (w.trace a)).countP (isAnswer a p k) =
      w.handled.countP (isProposal p a k) := by
  refine round_invariant hw (I := fun h => ((roundProgram n r).packets a (h.trace a)).countP
    (isAnswer a p k) = h.handled.countP (isProposal p a k)) rfl ?_ ?_
  · intro w q v b _ ih _
    by_cases hq : a = q
    · subst hq
      rw [History.act_trace_self, Program.packets_append, List.countP_append, ih]
      have hzero : ((roundProgram n r).packets a ((w.node a).onPropose (v, b)).2).countP
          (isAnswer a p k) = 0 := by
        cases b with
        | false => rfl
        | true => exact countP_isAnswer_broadcast ..
      rw [hzero]
      rfl
    · rw [History.act_trace_ne _ _ _ _ hq]
      exact ih
  · intro w src dst m s outs _ ih _ hr
    simp only [RoundHistory.react, History.act_handled, History.receive_handled,
      List.countP_append]
    by_cases hq : a = dst
    · subst hq
      rw [History.act_trace_self, Program.packets_append, List.countP_append,
        hr.countP_isAnswer, History.receive_trace, ih]
    · rw [History.act_trace_ne _ _ _ _ hq]
      have hzero :
          [(⟨src, dst, m⟩ : Packet (Fin n) RoundMessage)].countP (isProposal p a k) = 0 := by
        cases m <;> simp [isProposal, Ne.symm hq]
      rw [hzero]
      exact ih

theorem countP_isProposal_packets (p a : Fin n) (k : ℕ) (t : List (RoundOutput (Fin n))) :
    ((roundProgram n r).packets p t).countP (isProposal p a k) =
      ((broadcasts t).map (·.activeProposalNumber)).count k := by
  induction t with
  | nil => rfl
  | cons o t ih =>
      rw [show o :: t = [o] ++ t from rfl, Program.packets_append, List.countP_append, ih,
        broadcasts_append, List.map_append, List.count_append]
      congr 1
      cases o with
      | broadcast pr =>
          simp only [Program.packets, List.flatMap_cons, List.flatMap_nil, List.append_nil,
            List.countP_map]
          refine (countP_bestEffortBroadcast p a (RoundMessage.proposal pr) _ ?_).trans ?_
          · rintro ⟨d, body⟩ hd
            cases body <;> simp_all [isProposal]
          · simp [isProposal, broadcasts, List.count_cons]
      | reply dst acc => simp [Program.packets, roundProgram, roundEmit, isProposal, broadcasts]
      | propose v b => rfl
      | callback v => rfl

theorem countP_isAnswer_le_one {w : RoundWorld n} (hw : (roundProgram n r).Reachable w)
    (a p : Fin n) (k : ℕ) :
    w.inflight.countP (isAnswer a p k) + w.handled.countP (isAnswer a p k) ≤ 1 := by
  have hsent := Program.countP_sent hw a (isAnswer a p k) fun _ h => (isAnswer_ends h).1
  have hprop := Program.countP_sent hw p (isProposal p a k) fun _ h => (isProposal_ends h).1
  rw [answers hw] at hsent
  rw [countP_isProposal_packets, ((numbering hw).node p).numbers] at hprop
  have hone : (List.range (broadcasts (w.trace p)).length).count k ≤ 1 :=
    List.nodup_iff_count_le_one.1 List.nodup_range k
  omega

def isVote (status : AcceptStatus) (p : Fin n) (k : ℕ) (m : Packet (Fin n) RoundMessage) : Bool :=
  match m.body with
  | .proposal _ => false
  | .accept acc => decide (m.dst = p ∧ acc.proposalNumber = k ∧ acc.status = status)

structure Counted (handled : List (Packet (Fin n) RoundMessage)) (p : Fin n) (s : RoundState) :
    Prop where
  acks : s.acks = handled.countP (isVote .ack p s.activeProposalNumber)
  nacks : s.nacks = handled.countP (isVote .nack p s.activeProposalNumber)
  acks_lt : s.acks < majority n
  sum_lt : s.nacks = 0 ∨ s.acks + s.nacks < majority n

theorem RoundState.count_acks (a : Accept) (s : RoundState) (src p : Fin n)
    (hn : s.activeProposalNumber = a.proposalNumber) :
    (s.count a).acks = s.acks + [(⟨src, p, .accept a⟩ : Packet (Fin n) RoundMessage)].countP
      (isVote .ack p s.activeProposalNumber) := by
  unfold RoundState.count
  split <;> simp [isVote, *]

theorem RoundState.count_nacks (a : Accept) (s : RoundState) (src p : Fin n)
    (hn : s.activeProposalNumber = a.proposalNumber) :
    (s.count a).nacks = s.nacks + [(⟨src, p, .accept a⟩ : Packet (Fin n) RoundMessage)].countP
      (isVote .nack p s.activeProposalNumber) := by
  unfold RoundState.count
  split <;> simp [isVote, *]

theorem Counted.congr {handled : List (Packet (Fin n) RoundMessage)} {p : Fin n}
    {s s' : RoundState} {m : Packet (Fin n) RoundMessage} (h : Counted handled p s)
    (hnum : s'.activeProposalNumber = s.activeProposalNumber) (hacks : s'.acks = s.acks)
    (hnacks : s'.nacks = s.nacks)
    (hm : ∀ status, isVote status p s.activeProposalNumber m = false) :
    Counted (handled ++ [m]) p s' := by
  refine ⟨?_, ?_, hacks ▸ h.acks_lt, by rw [hacks, hnacks]; exact h.sum_lt⟩
  · simp [hnum, hacks, h.acks, hm]
  · simp [hnum, hnacks, h.nacks, hm]

theorem broadcast_of_vote {w : RoundWorld n} (hw : (roundProgram n r).Reachable w) {p : Fin n}
    {status : AcceptStatus} {k : ℕ} {m : Packet (Fin n) RoundMessage} (hm : m ∈ w.handled)
    (hv : isVote status p k m = true) :
    ∃ pr, .broadcast pr ∈ w.trace p ∧ pr.activeProposalNumber = k := by
  obtain ⟨src, dst, body⟩ := m
  cases body with
  | proposal pr => cases hv
  | accept acc =>
      simp only [isVote, decide_eq_true_eq] at hv
      obtain ⟨rfl, rfl, _⟩ := hv
      exact (numbering hw).answered src dst acc (reply_of_handled hw hm)

/-- The counters of an undecided proposer are its handled acks and nacks to its current number. -/
theorem counting {w : RoundWorld n} (hw : (roundProgram n r).Reachable w) (p : Fin n)
    (hp : (w.node p).state.completed = false) : Counted w.handled p (w.node p).state := by
  revert hp
  refine round_invariant hw (I := fun h => (h.node p).state.completed = false →
    Counted h.handled p (h.node p).state) ?_ ?_ ?_
  · intro _
    exact ⟨rfl, rfl, Nat.succ_pos _, .inl rfl⟩
  · intro w q v b _ ih _ hc
    by_cases hq : p = q
    · subst hq
      rw [History.act_node_self] at hc ⊢
      exact ⟨(ih hc).acks, (ih hc).nacks, (ih hc).acks_lt, (ih hc).sum_lt⟩
    · rw [History.act_node_ne _ _ _ _ hq] at hc ⊢
      exact ih hc
  · intro w src dst m s outs hw ih hm hr hc
    by_cases hq : p = dst
    · subst hq
      rw [RoundHistory.react_node_self] at hc ⊢
      rw [RoundHistory.react_handled]
      cases hr with
      | ack pr h => exact (ih hc).congr rfl rfl rfl fun _ => rfl
      | nack pr h => exact (ih hc).congr rfl rfl rfl fun _ => rfl
      | stale a h =>
          refine (ih hc).congr rfl rfl rfl fun status => ?_
          have hne := h.resolve_left (ne_true_of_eq_false hc)
          simp [isVote, Ne.symm hne]
      | counted a hc' hn hacks hsum =>
          refine ⟨?_, ?_, hacks, hsum⟩
          · rw [RoundState.count_activeProposalNumber, List.countP_append, ← (ih hc').acks,
              RoundState.count_acks a _ src p hn]
          · rw [RoundState.count_activeProposalNumber, List.countP_append, ← (ih hc').nacks,
              RoundState.count_nacks a _ src p hn]
      | decided a hc' hn hacks => cases hc
      | moved a hc' hn hacks hnacks hsum =>
          have hzero : ∀ status, (w.handled ++
              [(⟨src, p, .accept a⟩ : Packet (Fin n) RoundMessage)]).countP
              (isVote status p ((w.node p).state.activeProposalNumber + 1)) = 0 := by
            refine fun status => List.countP_eq_zero.2 fun m' hm' hv => ?_
            rcases List.mem_append.1 hm' with h | h
            · obtain ⟨pr, hpr, he⟩ := broadcast_of_vote hw h hv
              have hle := ((numbering hw).node p).le_current hpr
              omega
            · obtain rfl := List.mem_singleton.1 h
              simp [isVote, ← hn] at hv
          exact ⟨(hzero _).symm, (hzero _).symm, Nat.succ_pos _, .inl rfl⟩
    · rw [RoundHistory.react_node_ne _ _ _ _ _ _ hq] at hc ⊢
      refine (ih hc).congr rfl rfl rfl fun status => ?_
      cases m <;> simp [isVote, Ne.symm hq]

end BroadcastService

import BroadcastService.LatticeRound

/-!
# What a process of a round can do

`Reaction` lists the six things the handlers of a round can do with a message, and
`round_invariant` carries a property that proposing and every reaction keep to all reachable worlds
of the round.
-/

namespace BroadcastService
open MessagePassing

variable {P : Type*} {n r : ℕ}

def RoundState.count (a : Accept) (state : RoundState) : RoundState :=
  match a.status with
  | .ack => { state with acks := state.acks + 1 }
  | .nack =>
      { state with
        nacks := state.nacks + 1
        proposedValue := vectorSetUnion state.proposedValue a.acceptedValue }

/-- Everything the handling of a message of the round can do. -/
inductive Reaction (maj : ℕ) (s : RoundState) (src : P) :
    RoundMessage → RoundState → List (RoundOutput P) → Prop
  | ack (p : Proposal)
      (h : (vectorSetUnion s.acceptedValue p.proposedValue).length = p.proposedValue.length) :
      Reaction maj s src (.proposal p) { s with acceptedValue := p.proposedValue }
        [.reply src { status := .ack, proposalNumber := p.activeProposalNumber }]
  | nack (p : Proposal)
      (h : (vectorSetUnion s.acceptedValue p.proposedValue).length ≠ p.proposedValue.length) :
      Reaction maj s src (.proposal p)
        { s with acceptedValue := vectorSetUnion s.acceptedValue p.proposedValue }
        [.reply src { status := .nack, proposalNumber := p.activeProposalNumber,
                      acceptedValue := vectorSetUnion s.acceptedValue p.proposedValue }]
  | stale (a : Accept) (h : s.completed = true ∨ s.activeProposalNumber ≠ a.proposalNumber) :
      Reaction maj s src (.accept a) s []
  | counted (a : Accept) (hc : s.completed = false)
      (hn : s.activeProposalNumber = a.proposalNumber) (hacks : (s.count a).acks < maj)
      (hsum : (s.count a).nacks = 0 ∨ (s.count a).acks + (s.count a).nacks < maj) :
      Reaction maj s src (.accept a) (s.count a) []
  | decided (a : Accept) (hc : s.completed = false)
      (hn : s.activeProposalNumber = a.proposalNumber) (hacks : maj ≤ (s.count a).acks) :
      Reaction maj s src (.accept a) { s.count a with completed := true }
        [.callback (s.count a).proposedValue]
  | moved (a : Accept) (hc : s.completed = false)
      (hn : s.activeProposalNumber = a.proposalNumber) (hacks : (s.count a).acks < maj)
      (hnacks : 0 < (s.count a).nacks) (hsum : maj ≤ (s.count a).acks + (s.count a).nacks) :
      Reaction maj s src (.accept a)
        { s.count a with
          activeProposalNumber := s.activeProposalNumber + 1
          acks := 0
          nacks := 0 }
        [.broadcast ⟨(s.count a).proposedValue, s.activeProposalNumber + 1⟩]

@[simp] theorem RoundState.count_activeProposalNumber (a : Accept) (s : RoundState) :
    (s.count a).activeProposalNumber = s.activeProposalNumber := by
  unfold count
  split <;> rfl

@[simp] theorem RoundState.count_acceptedValue (a : Accept) (s : RoundState) :
    (s.count a).acceptedValue = s.acceptedValue := by
  unfold count
  split <;> rfl

@[simp] theorem RoundState.count_completed (a : Accept) (s : RoundState) :
    (s.count a).completed = s.completed := by
  unfold count
  split <;> rfl

theorem RoundState.subset_count (a : Accept) (s : RoundState) :
    s.proposedValue ⊆ (s.count a).proposedValue := by
  unfold count
  split
  · exact fun _ h => h
  · exact subset_vectorSetUnion_left _ _

theorem checkAckNackConditions_reaction (maj : ℕ) (s : RoundState) (src : P) (a : Accept)
    (hc : s.completed = false) (hn : s.activeProposalNumber = a.proposalNumber) :
    Reaction maj s src (.accept a)
      (RoundState.checkAckNackConditions (P := P) maj r (s.count a)).1
      ((RoundState.checkAckNackConditions (P := P) maj r (s.count a)).2.filterMap
        (LAOutput.atRound r)) := by
  unfold RoundState.checkAckNackConditions
  split_ifs with h₁ h₂
  · have hd : Reaction maj s src _ _ _ := .decided a hc hn h₁
    simpa [RoundState.decideRound, LAOutput.atRound, List.filterMap_cons] using hd
  · have hwire : ∀ p : Proposal, (⟨r, [p]⟩ : ProposalMessage).onWire.atRound r = some p :=
      fun p => by simp [ProposalMessage.atRound, ProposalMessage.onWire]
    have hm : Reaction maj s src _ _ _ := .moved a hc hn (not_le.1 h₁) h₂.1 h₂.2
    simpa [RoundState.moveToNextProposalNumber, LAOutput.atRound, hwire] using hm
  · refine .counted a hc hn (not_le.1 h₁) ?_
    omega

theorem onMessage_reaction (s : RoundNode) (src : P) (m : RoundMessage) :
    Reaction (majority n) s.state src m (s.onMessage n r src m).1.state
      (s.onMessage n r src m).2 ∧ (s.onMessage n r src m).1.proposed = s.proposed := by
  refine ⟨?_, by cases m <;> rfl⟩
  cases m with
  | proposal p =>
      simp only [RoundNode.onMessage, RoundState.handlePropose]
      split_ifs with h
      · exact .ack p h
      · exact .nack p h
  | accept a =>
      simp only [RoundNode.onMessage]
      by_cases hc : s.state.completed = true
      · have he : RoundState.handleAccept (P := P) (majority n) r a s.state = (s.state, []) := by
          cases hs : a.status <;> simp [RoundState.handleAccept, hs, RoundState.handleAck,
            RoundState.handleNack, hc]
        rw [he]
        exact .stale a (.inl hc)
      by_cases hn : s.state.activeProposalNumber = a.proposalNumber
      · have he : RoundState.handleAccept (P := P) (majority n) r a s.state =
            (s.state.count a).checkAckNackConditions (majority n) r := by
          cases hs : a.status <;> simp [RoundState.handleAccept, hs, RoundState.handleAck,
            RoundState.handleNack, hc, hn, RoundState.count]
        rw [he]
        exact checkAckNackConditions_reaction _ _ _ _ (by simpa using hc) hn
      · have he : RoundState.handleAccept (P := P) (majority n) r a s.state = (s.state, []) := by
          cases hs : a.status <;> simp [RoundState.handleAccept, hs, RoundState.handleAck,
            RoundState.handleNack, hc, hn]
        rw [he]
        exact .stale a (.inr hn)

abbrev RoundHistory (n : ℕ) := History (Fin n) RoundNode RoundMessage (RoundOutput (Fin n))

abbrev RoundWorld (n : ℕ) := World (Fin n) RoundNode RoundMessage (RoundOutput (Fin n))

/-- The history after `dst` has reacted to a message. -/
def RoundHistory.react (h : RoundHistory n) (src dst : Fin n) (m : RoundMessage) (s : RoundState)
    (outs : List (RoundOutput (Fin n))) : RoundHistory n :=
  (h.receive ⟨src, dst, m⟩).act dst ({ h.node dst with state := s }, outs)

section React

variable (h : RoundHistory n) (src dst : Fin n) (m : RoundMessage) (s : RoundState)
  (outs : List (RoundOutput (Fin n)))

theorem RoundHistory.mem_react_trace {q : Fin n} {o : RoundOutput (Fin n)} :
    o ∈ (RoundHistory.react h src dst m s outs).trace q ↔ o ∈ h.trace q ∨ q = dst ∧ o ∈ outs :=
  History.mem_act_trace ..

theorem RoundHistory.subset_react (q : Fin n) :
    h.trace q ⊆ (RoundHistory.react h src dst m s outs).trace q :=
  History.trace_subset_act (h.receive ⟨src, dst, m⟩) dst q _

theorem RoundHistory.react_node_self :
    (RoundHistory.react h src dst m s outs).node dst = { h.node dst with state := s } :=
  History.act_node_self ..

theorem RoundHistory.react_node_ne {q : Fin n} (hq : q ≠ dst) :
    (RoundHistory.react h src dst m s outs).node q = h.node q :=
  History.act_node_ne _ _ _ _ hq

theorem RoundHistory.react_handled :
    (RoundHistory.react h src dst m s outs).handled = h.handled ++ [⟨src, dst, m⟩] := rfl

end React

theorem round_invariant {w : RoundWorld n} {I : RoundHistory n → Prop}
    (hw : (roundProgram n r).Reachable w) (h₀ : I (roundProgram n r).initial.toHistory)
    (hpropose : ∀ (w : RoundWorld n) p v b, (roundProgram n r).Reachable w → I w.toHistory →
      (w.node p).proposed = false → I (w.toHistory.act p ((w.node p).onPropose (v, b))))
    (hreact : ∀ (w : RoundWorld n) src dst m s outs, (roundProgram n r).Reachable w →
      I w.toHistory → ⟨src, dst, m⟩ ∈ w.inflight →
      Reaction (majority n) (w.node dst).state src m s outs →
      I (RoundHistory.react w.toHistory src dst m s outs)) : I w.toHistory := by
  refine Program.history_invariant hw h₀ ?_ ?_
  · rintro w p ⟨v, b⟩ t hr hI he hx
    obtain rfl := Option.some.inj hx
    exact hpropose w p v b hr hI (by simpa [roundProgram] using he)
  · rintro w ⟨src, dst, m⟩ t hr hI hm hx
    obtain rfl := Option.some.inj hx
    obtain ⟨hreac, hprop⟩ := onMessage_reaction (n := n) (r := r) (w.node dst) src m
    have ht : ((w.node dst).onMessage n r src m).1 =
        { w.node dst with state := ((w.node dst).onMessage n r src m).1.state } :=
      RoundNode.ext rfl hprop
    have := hreact w src dst m _ _ hr hI hm hreac
    rw [RoundHistory.react, ← ht] at this
    exact this

/-- Every initial proposal so far satisfies `S`. -/
def Proposals (S : ProposalT → Prop) (h : RoundHistory n) : Prop :=
  ∀ p v b, .propose v b ∈ h.trace p → S v

theorem round_invariant_of {w : RoundWorld n} {I : RoundHistory n → Prop} {S : ProposalT → Prop}
    (hw : (roundProgram n r).Reachable w) (hS : Proposals S w.toHistory)
    (h₀ : I (roundProgram n r).initial.toHistory)
    (hpropose : ∀ (w : RoundWorld n) p v b, (roundProgram n r).Reachable w →
      Proposals S w.toHistory → I w.toHistory → (w.node p).proposed = false → S v →
      I (w.toHistory.act p ((w.node p).onPropose (v, b))))
    (hreact : ∀ (w : RoundWorld n) src dst m s outs, (roundProgram n r).Reachable w →
      Proposals S w.toHistory → I w.toHistory → ⟨src, dst, m⟩ ∈ w.inflight →
      Reaction (majority n) (w.node dst).state src m s outs →
      I (RoundHistory.react w.toHistory src dst m s outs)) : I w.toHistory := by
  revert hS
  refine round_invariant hw (I := fun h => Proposals S h → I h) (fun _ => h₀) ?_ ?_
  · intro w p v b hw ih hp hS
    have hold : Proposals S w.toHistory :=
      fun q u c hu => hS q u c (History.trace_subset_act _ _ _ _ hu)
    exact hpropose w p v b hw hold (ih hold) hp (hS p v b (by simp [RoundNode.onPropose]))
  · intro w src dst m s outs hw ih hm hr hS
    have hold : Proposals S w.toHistory :=
      fun q u c hu => hS q u c (RoundHistory.subset_react _ _ _ _ _ _ _ hu)
    exact hreact w src dst m s outs hw hold (ih hold) hm hr

theorem round_local {w : RoundWorld n} {Q : RoundNode → List (RoundOutput (Fin n)) → Prop}
    (hw : (roundProgram n r).Reachable w) (h₀ : Q {} [])
    (hpropose : ∀ (w : RoundWorld n) p v b, (roundProgram n r).Reachable w →
      Q (w.node p) (w.trace p) → (w.node p).proposed = false →
      Q ((w.node p).onPropose (P := Fin n) (v, b)).1
        (w.trace p ++ ((w.node p).onPropose (v, b)).2))
    (hreact : ∀ (w : RoundWorld n) src dst m s outs, (roundProgram n r).Reachable w →
      Q (w.node dst) (w.trace dst) → ⟨src, dst, m⟩ ∈ w.inflight →
      Reaction (majority n) (w.node dst).state src m s outs →
      Q { w.node dst with state := s } (w.trace dst ++ outs)) (p : Fin n) :
    Q (w.node p) (w.trace p) := by
  revert p
  refine round_invariant hw (I := fun h => ∀ p, Q (h.node p) (h.trace p)) (fun _ => h₀) ?_ ?_
  · intro w p v b hw ih hp
    exact History.forall_act _ _ _ (Q := fun _ => Q) ih (hpropose w p v b hw (ih p) hp)
  · intro w src dst m s outs hw ih hm hr
    exact History.forall_act _ _ _ (Q := fun _ => Q) ih
      (hreact w src dst m s outs hw (ih dst) hm hr)

theorem mem_packets_proposal {p q : Fin n} {pr : Proposal} {t : List (RoundOutput (Fin n))} :
    ⟨p, q, .proposal pr⟩ ∈ (roundProgram n r).packets p t ↔ .broadcast pr ∈ t := by
  rw [Program.mem_packets]
  constructor
  · rintro ⟨_, o, ho, hd⟩
    cases o with
    | broadcast pr' =>
        obtain rfl := RoundMessage.proposal.inj (mem_bestEffortBroadcast.1 hd)
        exact ho
    | reply dst a => simp [roundProgram, roundEmit] at hd
    | propose v b => simp [roundProgram, roundEmit] at hd
    | callback v => simp [roundProgram, roundEmit] at hd
  · exact fun h => ⟨rfl, _, h, mem_bestEffortBroadcast.2 rfl⟩

theorem mem_packets_accept {p q : Fin n} {a : Accept} {t : List (RoundOutput (Fin n))} :
    ⟨p, q, .accept a⟩ ∈ (roundProgram n r).packets p t ↔ .reply q a ∈ t := by
  rw [Program.mem_packets]
  constructor
  · rintro ⟨_, o, ho, hd⟩
    cases o with
    | broadcast pr => cases mem_bestEffortBroadcast.1 hd
    | reply dst a' =>
        simp only [roundProgram, roundEmit, List.mem_singleton, Prod.mk.injEq,
          RoundMessage.accept.injEq] at hd
        obtain ⟨rfl, rfl⟩ := hd
        exact ho
    | propose v b => simp [roundProgram, roundEmit] at hd
    | callback v => simp [roundProgram, roundEmit] at hd
  · exact fun h => ⟨rfl, _, h, by simp [roundProgram, roundEmit]⟩

section Sent

variable {w : RoundWorld n} {p q : Fin n} {pr : Proposal} {a : Accept}

theorem broadcast_of_inflight (hw : (roundProgram n r).Reachable w)
    (hm : ⟨p, q, .proposal pr⟩ ∈ w.inflight) : .broadcast pr ∈ w.trace p :=
  mem_packets_proposal.1 (Program.mem_sent_of_inflight hw hm)

theorem reply_of_inflight (hw : (roundProgram n r).Reachable w)
    (hm : ⟨p, q, .accept a⟩ ∈ w.inflight) : .reply q a ∈ w.trace p :=
  mem_packets_accept.1 (Program.mem_sent_of_inflight hw hm)

theorem reply_of_handled (hw : (roundProgram n r).Reachable w)
    (hm : ⟨p, q, .accept a⟩ ∈ w.handled) : .reply q a ∈ w.trace p :=
  mem_packets_accept.1 (Program.mem_sent_of_handled hw hm)

end Sent

end BroadcastService

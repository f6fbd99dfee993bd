import BroadcastService.LatticeEntries

/-!
# The acceptor of a round

The accepted value of a round is a function of the proposals handled for it
(`replay_acceptedValue`).

`HandlePropose` compares two vectors by their lengths. As long as no vector holds an integer twice
this is the comparison of sets it is meant to be (`acceptor_step`); a repetition in any proposal can
make the next answer wrong.
-/

namespace BroadcastService.LatticeWire

/-- The accepted value after a proposal. -/
def acceptValue (acceptedValue proposedValue : List UInt32) : List UInt32 :=
  if (vectorSetUnion acceptedValue proposedValue).length = proposedValue.length then proposedValue
  else vectorSetUnion acceptedValue proposedValue

namespace RoundState

variable {networkSize : ℕ} {round : UInt32}

theorem handlePropose_acceptedValue (proposal : Proposal) (state : RoundState) :
    (state.handlePropose proposal).1.acceptedValue =
      acceptValue state.acceptedValue proposal.proposedValue := by
  rw [handlePropose, acceptValue]
  split_ifs
  · rfl
  · rfl

theorem replay_acceptedValue (start : RoundState) (events : List RoundEvent) :
    (replay networkSize round start events).acceptedValue =
      ((proposals events).map (·.proposedValue)).foldl acceptValue start.acceptedValue := by
  induction events generalizing start with
  | nil => rfl
  | cons event events ih =>
      rw [replay, List.foldl_cons, ← replay, ih]
      match event with
      | .propose value => rfl
      | .entry (.accept accept) =>
          simp only [step, handleEntry, (handleAccept_frame accept start).1]
          rfl
      | .entry (.proposal proposal) =>
          simp only [step, handleEntry, handlePropose_acceptedValue]
          rfl

end RoundState

theorem nodup_acceptValue {acceptedValue proposedValue : List UInt32} (ha : acceptedValue.Nodup)
    (hp : proposedValue.Nodup) : (acceptValue acceptedValue proposedValue).Nodup := by
  rw [acceptValue]
  split_ifs
  · exact hp
  · exact nodup_vectorSetUnion ha hp

theorem nodup_foldl_acceptValue {values : List (List UInt32)} (h : ∀ value ∈ values, value.Nodup)
    {acceptedValue : List UInt32} (ha : acceptedValue.Nodup) :
    (values.foldl acceptValue acceptedValue).Nodup := by
  induction values generalizing acceptedValue with
  | nil => exact ha
  | cons value values ih =>
      apply ih
      · intro value' hvalue'
        exact h value' (List.mem_cons_of_mem value hvalue')
      · exact nodup_acceptValue ha (h value List.mem_cons_self)

/-- What a step of the acceptor is for: the answer compares two sets, the accepted set becomes their
union, and a nack carries it. -/
structure AcceptorStep (state : RoundState) (proposal : Proposal) : Prop where
  ack_iff : (state.handlePropose proposal).2.status = .ack ↔
    state.acceptedValue ⊆ proposal.proposedValue
  nack_iff : (state.handlePropose proposal).2.status = .nack ↔
    ¬state.acceptedValue ⊆ proposal.proposedValue
  union : ∀ x, x ∈ (state.handlePropose proposal).1.acceptedValue ↔
    x ∈ state.acceptedValue ∨ x ∈ proposal.proposedValue
  carried : (state.handlePropose proposal).2.status = .nack →
    ∀ x, x ∈ (state.handlePropose proposal).2.acceptedValue ↔
      x ∈ state.acceptedValue ∨ x ∈ proposal.proposedValue

theorem acceptorStep_of_nodup {state : RoundState} {proposal : Proposal}
    (ha : state.acceptedValue.Nodup) (hp : proposal.proposedValue.Nodup) :
    AcceptorStep state proposal := by
  have hcompare := length_vectorSetUnion_eq_iff ha hp
  by_cases hsub : state.acceptedValue ⊆ proposal.proposedValue
  · have hanswer : state.handlePropose proposal =
        ({ state with acceptedValue := proposal.proposedValue },
          ⟨.ack, proposal.activeProposalNumber, []⟩) := by
      rw [RoundState.handlePropose, if_pos (hcompare.2 hsub)]
    constructor
    · simp [hanswer, hsub]
    · simp [hanswer, hsub]
    · intro x
      rw [hanswer]
      exact ⟨.inr, fun hx => hx.elim (fun h => hsub h) id⟩
    · simp [hanswer]
  · have hanswer : state.handlePropose proposal =
        ({ state with
            acceptedValue := vectorSetUnion state.acceptedValue proposal.proposedValue },
          ⟨.nack, proposal.activeProposalNumber,
            vectorSetUnion state.acceptedValue proposal.proposedValue⟩) := by
      rw [RoundState.handlePropose, if_neg (fun h => hsub (hcompare.1 h))]
    constructor
    · simp [hanswer, hsub]
    · simp [hanswer, hsub]
    · simp [hanswer]
    · simp [hanswer]

theorem handlePropose_of_nil {state : RoundState} (h : state.acceptedValue = [])
    (proposal : Proposal) :
    (state.handlePropose proposal).1.acceptedValue = proposal.proposedValue := by
  rw [RoundState.handlePropose_acceptedValue, h, acceptValue, vectorSetUnion_eq]
  simp

/-- Once a vector with a repetition was accepted, its own set is refused. -/
theorem not_acceptorStep_dedup {state : RoundState} (h : ¬state.acceptedValue.Nodup)
    (number : UInt32) : ¬AcceptorStep state ⟨state.acceptedValue.dedup, number⟩ := by
  intro hstep
  have hack := hstep.ack_iff.2 fun x hx => List.mem_dedup.2 hx
  have hunion : vectorSetUnion state.acceptedValue state.acceptedValue.dedup =
      state.acceptedValue := by
    rw [vectorSetUnion_eq, List.filter_eq_nil_iff.2, List.append_nil]
    intro x hx
    simpa using hx
  rw [RoundState.handlePropose, hunion] at hack
  split_ifs at hack with hlength
  · have hdedup := (List.dedup_sublist state.acceptedValue).eq_of_length hlength.symm
    exact h (List.dedup_eq_self.1 hdedup)

theorem acceptorStep_replay (networkSize : ℕ) (round : UInt32) (contract : ℕ)
    (future : Option (Option ℕ)) {events : List RoundEvent} {proposal : Proposal}
    (hnodup : ∀ handled ∈ proposals events ++ [proposal], handled.proposedValue.Nodup) :
    AcceptorStep (RoundState.replay networkSize round (.fresh contract future) events)
      proposal := by
  have hhandled : ∀ value ∈ (proposals events).map (·.proposedValue), value.Nodup := by
    intro value hvalue
    obtain ⟨handled, hmem, rfl⟩ := List.mem_map.1 hvalue
    exact hnodup handled (List.mem_append_left _ hmem)
  apply acceptorStep_of_nodup
  · rw [RoundState.replay_acceptedValue]
    exact nodup_foldl_acceptValue hhandled List.nodup_nil
  · exact hnodup proposal (List.mem_append_right _ List.mem_cons_self)

/-- In every run of proposals without repetitions each answer is right, and after any proposal with
a repetition one can be wrong. -/
theorem acceptor_step (networkSize : ℕ) (round : UInt32) (contract : ℕ)
    (future : Option (Option ℕ)) :
    (∀ (events : List RoundEvent) (proposal : Proposal),
      (∀ handled ∈ proposals events ++ [proposal], handled.proposedValue.Nodup) →
        AcceptorStep (RoundState.replay networkSize round (.fresh contract future) events)
          proposal) ∧
    ∀ proposal : Proposal, ¬proposal.proposedValue.Nodup →
      ∃ next : Proposal, next.proposedValue.Nodup ∧
        ¬AcceptorStep (RoundState.replay networkSize round (.fresh contract future)
          [.entry (.proposal proposal)]) next := by
  constructor
  · intro events proposal hnodup
    exact acceptorStep_replay networkSize round contract future hnodup
  · intro proposal hrepeats
    refine ⟨⟨proposal.proposedValue.dedup, 0⟩, List.nodup_dedup _, ?_⟩
    have haccepted : (RoundState.replay networkSize round (.fresh contract future)
        [.entry (.proposal proposal)]).acceptedValue = proposal.proposedValue :=
      handlePropose_of_nil rfl proposal
    rw [← haccepted] at hrepeats ⊢
    exact not_acceptorStep_dedup hrepeats 0

def acceptedPair : RoundState :=
  RoundState.replay 3 0 (.fresh 0 none) [.entry (.proposal ⟨[1, 2], 0⟩)]

theorem acceptor_step_pair : AcceptorStep acceptedPair ⟨[2, 3], 0⟩ ∧
    (acceptedPair.handlePropose ⟨[2, 3], 0⟩).2 = ⟨.nack, 0, [1, 2, 3]⟩ := by
  refine ⟨(acceptor_step 3 0 0 none).1 [.entry (.proposal ⟨[1, 2], 0⟩)] ⟨[2, 3], 0⟩ ?_, by decide⟩
  decide

/-- The vector `1 1` is as long as the accepted one, so the value 2 is lost with an ack. -/
theorem acceptor_loses_value :
    acceptedPair.handlePropose ⟨[1, 1], 0⟩ =
      ({ acceptedPair with acceptedValue := [1, 1] }, ⟨.ack, 0, []⟩) ∧
    ¬AcceptorStep acceptedPair ⟨[1, 1], 0⟩ := by
  refine ⟨by decide, ?_⟩
  intro hstep
  have hlost : (2 : UInt32) ∈ (acceptedPair.handlePropose ⟨[1, 1], 0⟩).1.acceptedValue :=
    (hstep.union 2).2 (.inl (by decide))
  revert hlost
  decide

end BroadcastService.LatticeWire

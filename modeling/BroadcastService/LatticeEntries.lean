import BroadcastService.LatticeObject

/-!
# Events of a round

A round sees its own `Propose`, the proposals of all processes and the answers to its own. `replay`
runs a sequence of these events on the state of the round. `Answered` lists what the handling of an
answer can do.
-/

namespace BroadcastService.LatticeWire

/-- An element of a proposal or accept message. -/
inductive Entry
  | proposal (proposal : Proposal)
  | accept (accept : Accept)
  deriving DecidableEq

inductive RoundEvent
  | propose (value : List UInt32)
  | entry (entry : Entry)
  deriving DecidableEq

namespace RoundState

def fresh (contract : ℕ) (preliminaryFuture : Option (Option ℕ)) : RoundState :=
  { promise := contract, preliminaryFuture }

def handleEntry (networkSize : ℕ) (round : UInt32) (state : RoundState) :
    Entry → RoundState × List Output
  | .proposal proposal => ((state.handlePropose proposal).1, [])
  | .accept accept => state.handleAccept networkSize round accept

/-- The part of `InitializeNextRoundState` on a state; a kept future is moved from. -/
def propose (value : List UInt32) (state : RoundState) : RoundState :=
  { state with
    proposedValue := value
    preliminaryFuture := state.preliminaryFuture.map fun _ => none }

def step (networkSize : ℕ) (round : UInt32) (state : RoundState) : RoundEvent → RoundState
  | .propose value => state.propose value
  | .entry entry => (state.handleEntry networkSize round entry).1

def replay (networkSize : ℕ) (round : UInt32) (start : RoundState) (events : List RoundEvent) :
    RoundState :=
  events.foldl (step networkSize round) start

end RoundState

def proposals (events : List RoundEvent) : List Proposal :=
  events.filterMap fun
    | .entry (.proposal proposal) => some proposal
    | _ => none

theorem LatticeAgreement.initializeNextRoundState_cases {la la' : LatticeAgreement}
    {round : UInt32} {value : List UInt32} {future : Option ℕ}
    (h : la.initializeNextRoundState round value = some (la', future)) :
    (∃ state, la.roundStates[round.toNat]? = some state ∧ state.preliminaryFuture = some future ∧
      la' = { la with roundStates := la.roundStates.set round.toNat (state.propose value) }) ∨
    la.roundStates.length = round.toNat ∧ future = some la.contracts ∧
      la' = ⟨la.roundStates ++ [(RoundState.fresh la.contracts none).propose value],
        la.contracts + 1⟩ := by
  rw [initializeNextRoundState] at h
  split at h
  · rename_i state hstate
    obtain ⟨future', hfuture, heq⟩ := Option.map_eq_some_iff.1 h
    obtain ⟨rfl, rfl⟩ := Prod.mk.inj heq
    refine .inl ⟨state, hstate, hfuture, ?_⟩
    simp [RoundState.propose, hfuture]
  · split_ifs at h with hround
    obtain ⟨rfl, rfl⟩ := Prod.mk.inj (Option.some.inj h)
    exact .inr ⟨hround.symm, rfl, rfl⟩

namespace RoundState

def count (accept : Accept) (state : RoundState) : RoundState :=
  match accept.status with
  | .ack => { state with acks := state.acks + 1 }
  | .nack =>
      { state with
        nacks := state.nacks + 1
        proposedValue := vectorSetUnion state.proposedValue accept.acceptedValue }
  | .other _ _ => state

@[simp] theorem count_activeProposalNumber (accept : Accept) (state : RoundState) :
    (state.count accept).activeProposalNumber = state.activeProposalNumber := by
  unfold count
  split <;> rfl

/-- Everything the handling of an answer can do. -/
inductive Answered (networkSize : ℕ) (round : UInt32) (accept : Accept) (state : RoundState) :
    RoundState × List Output → Prop
  | skipped
      (h : state.completed = true ∨ state.activeProposalNumber ≠ accept.proposalNumber ∨
        accept.status ≠ .ack ∧ accept.status ≠ .nack) :
      Answered networkSize round accept state (state, [])
  | counted (hopen : state.completed = false)
      (hnumber : state.activeProposalNumber = accept.proposalNumber)
      (hacks : (state.count accept).acks.toNat < majority networkSize)
      (hsum : 0 < (state.count accept).nacks →
        ((state.count accept).acks + (state.count accept).nacks).toNat < majority networkSize) :
      Answered networkSize round accept state (state.count accept, [])
  | decided (hopen : state.completed = false)
      (hnumber : state.activeProposalNumber = accept.proposalNumber)
      (hacks : majority networkSize ≤ (state.count accept).acks.toNat) :
      Answered networkSize round accept state ((state.count accept).decideRound round)
  | moved (hopen : state.completed = false)
      (hnumber : state.activeProposalNumber = accept.proposalNumber)
      (hacks : (state.count accept).acks.toNat < majority networkSize)
      (hnacks : 0 < (state.count accept).nacks)
      (hsum : majority networkSize ≤
        ((state.count accept).acks + (state.count accept).nacks).toNat) :
      Answered networkSize round accept state ((state.count accept).moveToNextProposalNumber round)

variable {networkSize : ℕ} {round : UInt32}

theorem checkAckNackConditions_answered {accept : Accept} {state : RoundState}
    (hopen : state.completed = false)
    (hnumber : state.activeProposalNumber = accept.proposalNumber) :
    Answered networkSize round accept state
      ((state.count accept).checkAckNackConditions networkSize round) := by
  rw [checkAckNackConditions]
  split_ifs with hacks hmove
  · exact .decided hopen hnumber hacks
  · exact .moved hopen hnumber (not_le.1 hacks) hmove.1 hmove.2
  · refine .counted hopen hnumber (not_le.1 hacks) fun hnacks => ?_
    by_contra hsum
    exact hmove ⟨hnacks, not_lt.1 hsum⟩

theorem handleAccept_answered (accept : Accept) (state : RoundState) :
    Answered networkSize round accept state (state.handleAccept networkSize round accept) := by
  by_cases hcompleted : state.completed = true
  · have hskip : state.handleAccept networkSize round accept = (state, []) := by
      rw [handleAccept]
      cases accept.status <;> simp [handleAck, handleNack, hcompleted]
    rw [hskip]
    exact .skipped (.inl hcompleted)
  · by_cases hnumber : state.activeProposalNumber = accept.proposalNumber
    · have hopen : state.completed = false := Bool.eq_false_iff.2 hcompleted
      have hcheck := @checkAckNackConditions_answered networkSize round accept state hopen hnumber
      rw [handleAccept]
      cases hstatus : accept.status with
      | ack =>
          rw [count, hstatus] at hcheck
          simpa [handleAck, hopen, hnumber] using hcheck
      | nack =>
          rw [count, hstatus] at hcheck
          simpa [handleNack, hopen, hnumber] using hcheck
      | other value h => exact .skipped (.inr (.inr (by simp [hstatus])))
    · have hskip : state.handleAccept networkSize round accept = (state, []) := by
        rw [handleAccept]
        cases accept.status <;> simp [handleAck, handleNack, hnumber]
      rw [hskip]
      exact .skipped (.inr (.inl hnumber))

theorem handleAccept_frame (accept : Accept) (state : RoundState) :
    let state' := (state.handleAccept networkSize round accept).1
    state'.acceptedValue = state.acceptedValue ∧ state'.promise = state.promise ∧
      state'.preliminaryFuture = state.preliminaryFuture ∧
      (state.completed = true → state'.completed = true) := by
  have hanswered := @handleAccept_answered networkSize round accept state
  generalize state.handleAccept networkSize round accept = result at hanswered
  have hcount : (state.count accept).acceptedValue = state.acceptedValue ∧
      (state.count accept).promise = state.promise ∧
      (state.count accept).preliminaryFuture = state.preliminaryFuture ∧
      (state.completed = true → (state.count accept).completed = true) := by
    rw [count]
    split
    · exact ⟨rfl, rfl, rfl, id⟩
    · exact ⟨rfl, rfl, rfl, id⟩
    · exact ⟨rfl, rfl, rfl, id⟩
  obtain ⟨haccepted, hpromise, hfuture, hcompleted⟩ := hcount
  cases hanswered with
  | skipped h => exact ⟨rfl, rfl, rfl, id⟩
  | counted hopen hnumber hacks hsum => exact ⟨haccepted, hpromise, hfuture, hcompleted⟩
  | decided hopen hnumber hacks => exact ⟨haccepted, hpromise, hfuture, fun _ => rfl⟩
  | moved hopen hnumber hacks hnacks hsum => exact ⟨haccepted, hpromise, hfuture, hcompleted⟩

theorem handlePropose_frame (proposal : Proposal) (state : RoundState) :
    (state.handlePropose proposal).1 =
      { state with acceptedValue := (state.handlePropose proposal).1.acceptedValue } := by
  rw [handlePropose]
  split_ifs
  · rfl
  · rfl

theorem handleEntry_frame (entry : Entry) (state : RoundState) :
    let state' := (state.handleEntry networkSize round entry).1
    state'.promise = state.promise ∧ state'.preliminaryFuture = state.preliminaryFuture ∧
      (state.completed = true → state'.completed = true) := by
  cases entry with
  | accept accept => exact (handleAccept_frame accept state).2
  | proposal proposal =>
      simp only [handleEntry]
      rw [handlePropose_frame]
      exact ⟨rfl, rfl, id⟩

theorem handleEntry_outputs (entry : Entry) (state : RoundState) :
    let (state', outs) := state.handleEntry networkSize round entry
    (∀ contract round' value, .decide contract round' value ∉ outs) ∨
      (∃ value, outs = [.decide state.promise round value]) ∧ state.completed = false ∧
        state'.completed = true := by
  cases entry with
  | proposal proposal => exact .inl fun _ _ _ => List.not_mem_nil
  | accept accept =>
      have hanswered := @handleAccept_answered networkSize round accept state
      have hframe := (@handleAccept_frame networkSize round accept state).2.1
      simp only [handleEntry]
      generalize state.handleAccept networkSize round accept = result at hanswered hframe ⊢
      cases hanswered with
      | skipped h => exact .inl fun _ _ _ => List.not_mem_nil
      | counted hopen hnumber hacks hsum => exact .inl fun _ _ _ => List.not_mem_nil
      | decided hopen hnumber hacks =>
          refine .inr ⟨⟨(state.count accept).proposedValue, ?_⟩, hopen, rfl⟩
          rw [← hframe]
          rfl
      | moved hopen hnumber hacks hnacks hsum =>
          refine .inl fun contract round' value hmem => ?_
          cases List.mem_singleton.1 hmem

theorem replay_promise (start : RoundState) (events : List RoundEvent) :
    (replay networkSize round start events).promise = start.promise := by
  induction events generalizing start with
  | nil => rfl
  | cons event events ih =>
      refine (ih (step networkSize round start event)).trans ?_
      cases event with
      | propose value => rfl
      | entry entry => exact (handleEntry_frame entry start).1

theorem replay_append (start : RoundState) (events events' : List RoundEvent) :
    replay networkSize round start (events ++ events') =
      replay networkSize round (replay networkSize round start events) events' :=
  List.foldl_append

end RoundState

end BroadcastService.LatticeWire

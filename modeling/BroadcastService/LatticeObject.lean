import BroadcastService.LatticeWire

/-!
# The lattice agreement object with the widths of the source

The class of `primitives/lattice_agreement.hpp` once more, now with its 32-bit counters and round
ids and with messages as they are on the wire. A promise and its future are one contract, named by
the number of contracts made before it. A `preliminary_future` that was moved from still has a
value, a future without a contract. A result of `none` stands for a failed assertion.

`Output` records what a call does besides changing the state: `broadcast` is the best-effort
broadcast of a wrapped proposal message, `send` an answer to a peer, and `decide` a call of `Decide`
with the contract it fulfils and the arguments of the callback.

`widened` relates the handlers of a round to those on natural numbers: they agree until a counter
wraps.
-/

namespace BroadcastService.LatticeWire

structure RoundState where
  activeProposalNumber : UInt32 := 0
  acks : UInt32 := 0
  nacks : UInt32 := 0
  proposedValue : List UInt32 := []
  acceptedValue : List UInt32 := []
  completed : Bool := false
  promise : ℕ
  preliminaryFuture : Option (Option ℕ) := none
  deriving DecidableEq

inductive Output
  | broadcast (message : ProposalMessage)
  | send (peer : UInt8) (message : AcceptMessage)
  | decide (contract : ℕ) (round : UInt32) (value : List UInt32)
  deriving DecidableEq

namespace RoundState

def handlePropose (proposal : Proposal) (state : RoundState) : RoundState × Accept :=
  let acceptedValue := vectorSetUnion state.acceptedValue proposal.proposedValue
  if acceptedValue.length = proposal.proposedValue.length then
    ({ state with acceptedValue := proposal.proposedValue },
      ⟨.ack, proposal.activeProposalNumber, []⟩)
  else
    ({ state with acceptedValue },
      ⟨.nack, proposal.activeProposalNumber, acceptedValue⟩)

def decideRound (round : UInt32) (state : RoundState) : RoundState × List Output :=
  ({ state with completed := true }, [.decide state.promise round state.proposedValue])

def moveToNextProposalNumber (round : UInt32) (state : RoundState) : RoundState × List Output :=
  let next := state.activeProposalNumber + 1
  ({ state with activeProposalNumber := next, acks := 0, nacks := 0 },
    [.broadcast ⟨round, [⟨state.proposedValue, next⟩]⟩])

/-- The majority is a `size_t`; the sum of the counters is a 32-bit number. -/
def checkAckNackConditions (networkSize : ℕ) (round : UInt32) (state : RoundState) :
    RoundState × List Output :=
  if majority networkSize ≤ state.acks.toNat then state.decideRound round
  else if 0 < state.nacks ∧ majority networkSize ≤ (state.acks + state.nacks).toNat then
    state.moveToNextProposalNumber round
  else (state, [])

def handleAck (networkSize : ℕ) (round : UInt32) (accept : Accept) (state : RoundState) :
    RoundState × List Output :=
  if state.completed then (state, [])
  else if state.activeProposalNumber = accept.proposalNumber then
    checkAckNackConditions networkSize round { state with acks := state.acks + 1 }
  else (state, [])

def handleNack (networkSize : ℕ) (round : UInt32) (accept : Accept) (state : RoundState) :
    RoundState × List Output :=
  if state.completed then (state, [])
  else if state.activeProposalNumber = accept.proposalNumber then
    checkAckNackConditions networkSize round
      { state with
        nacks := state.nacks + 1
        proposedValue := vectorSetUnion state.proposedValue accept.acceptedValue }
  else (state, [])

/-- The `switch` of `HandleAcceptMessage`. -/
def handleAccept (networkSize : ℕ) (round : UInt32) (accept : Accept) :
    RoundState → RoundState × List Output :=
  match accept.status with
  | .ack => handleAck networkSize round accept
  | .nack => handleNack networkSize round accept
  | .other _ _ => fun state => (state, [])

end RoundState

structure LatticeAgreement where
  roundStates : List RoundState := []
  contracts : ℕ := 0
  deriving DecidableEq

namespace LatticeAgreement

variable (la : LatticeAgreement)

/-- A state that a message has created, with its future kept for `Propose`. -/
def emptyRoundState (contract : ℕ) : RoundState :=
  { promise := contract, preliminaryFuture := some (some contract) }

def appendEmptyRoundState : LatticeAgreement where
  roundStates := la.roundStates ++ [emptyRoundState la.contracts]
  contracts := la.contracts + 1

/-- The loop appends empty round states while `round >= round_states_.size()`. -/
def initializeEmptyRoundStates (round : UInt32) : LatticeAgreement :=
  appendEmptyRoundState^[round.toNat + 1 - la.roundStates.length] la

def initializeNextRoundState (round : UInt32) (proposal : List UInt32) :
    Option (LatticeAgreement × Option ℕ) :=
  match la.roundStates[round.toNat]? with
  | some state =>
      state.preliminaryFuture.map fun future =>
        ({ la with
            roundStates := la.roundStates.set round.toNat
              { state with proposedValue := proposal, preliminaryFuture := some none } }, future)
  | none =>
      if round.toNat = la.roundStates.length then
        some ({ roundStates := la.roundStates ++
                  [{ proposedValue := proposal, promise := la.contracts }],
                contracts := la.contracts + 1 }, some la.contracts)
      else none

def getRoundState (round : UInt32) : Option (LatticeAgreement × RoundState) :=
  let la :=
    if la.roundStates.length ≤ round.toNat then la.initializeEmptyRoundStates round else la
  la.roundStates[round.toNat]?.map fun state => (la, state)

/-- Run a handler on the round state that `GetRoundState` returns a reference to. -/
def withRoundState {β : Type*} (round : UInt32) (f : RoundState → RoundState × β) :
    Option (LatticeAgreement × β) :=
  (la.getRoundState round).map fun (la, state) =>
    let (state, out) := f state
    ({ la with roundStates := la.roundStates.set round.toNat state }, out)

def handlePropose (round : UInt32) (proposal : Proposal) : Option (LatticeAgreement × Accept) :=
  la.withRoundState round (RoundState.handlePropose proposal)

/-- A status that is none of the two named ones is skipped. -/
def handleAccept (networkSize : ℕ) (round : UInt32) (accept : Accept) :
    Option (LatticeAgreement × List Output) :=
  match accept.status with
  | .other _ _ => some (la, [])
  | _ => la.withRoundState round (RoundState.handleAccept networkSize round accept)

def handleProposals (la : LatticeAgreement) (round : UInt32) :
    List Proposal → Option (LatticeAgreement × List Accept)
  | [] => some (la, [])
  | proposal :: proposals =>
      (la.handlePropose round proposal).bind fun (la, accept) =>
        (la.handleProposals (round + 1) proposals).map fun (la, accepts) => (la, accept :: accepts)

def handleProposalMessage (src : UInt8) (message : ProposalMessage) :
    Option (LatticeAgreement × List Output) :=
  (la.handleProposals message.firstRoundId message.proposals).map fun (la, accepts) =>
    (la, [.send src ⟨message.firstRoundId, accepts⟩])

def handleAccepts (networkSize : ℕ) (la : LatticeAgreement) (round : UInt32) :
    List Accept → Option (LatticeAgreement × List Output)
  | [] => some (la, [])
  | accept :: accepts =>
      (la.handleAccept networkSize round accept).bind fun (la, outs) =>
        (la.handleAccepts networkSize (round + 1) accepts).map fun (la, outs') =>
          (la, outs ++ outs')

def handleAcceptMessage (networkSize : ℕ) (message : AcceptMessage) :
    Option (LatticeAgreement × List Output) :=
  la.handleAccepts networkSize message.firstRoundId message.accepts

def initializeRoundStates (la : LatticeAgreement) (round : UInt32) :
    List Proposal → Option (LatticeAgreement × List (Option ℕ))
  | [] => some (la, [])
  | proposal :: proposals =>
      (la.initializeNextRoundState round proposal.proposedValue).bind fun (la, future) =>
        (la.initializeRoundStates (round + 1) proposals).map fun (la, futures) =>
          (la, future :: futures)

/-- `Propose`: the new state, the futures it returns and what it does. -/
def propose (message : ProposalMessage) :
    Option (LatticeAgreement × List (Option ℕ) × List Output) :=
  (la.initializeRoundStates message.firstRoundId message.proposals).map fun (la, futures) =>
    (la, futures, [.broadcast message])

/-- `GetReliableTransportCallback`. A decide message is read and dropped. -/
def receive (networkSize : ℕ) (peer : UInt8) (bytes : Bytes) :
    Option (LatticeAgreement × List Output) := do
  let message ← LAMessage.unmarshal bytes
  match message.type with
  | .proposal =>
      let (proposalMessage, _) ← ProposalMessage.unmarshal ⟨0, []⟩ message.message
      la.handleProposalMessage peer proposalMessage
  | .accept =>
      let (acceptMessage, _) ← AcceptMessage.unmarshal ⟨0, []⟩ message.message
      la.handleAcceptMessage networkSize acceptMessage
  | .decide => (binaryUnmarshalPrimitiveType 4 message.message).map fun _ => (la, [])
  | .other _ _ => some (la, [])

end LatticeAgreement

def Proposal.widened (proposal : Proposal) : BroadcastService.Proposal :=
  ⟨proposal.proposedValue, proposal.activeProposalNumber.toNat⟩

def Accept.narrowed (accept : BroadcastService.Accept) : Accept :=
  ⟨AcceptStatus.narrowed accept.status, UInt32.ofNat accept.proposalNumber, accept.acceptedValue⟩

/-- What a round does, in the words of the handlers on natural numbers. -/
def Output.widened : Output → List (LAOutput UInt8)
  | .broadcast message =>
      [.broadcast ⟨message.firstRoundId.toNat, message.proposals.map Proposal.widened⟩]
  | .decide contract round value => [.setPromise contract, .callback round.toNat value]
  | .send _ _ => []

namespace RoundState

def widened (state : RoundState) : BroadcastService.RoundState where
  activeProposalNumber := state.activeProposalNumber.toNat
  acks := state.acks.toNat
  nacks := state.nacks.toNat
  proposedValue := state.proposedValue
  acceptedValue := state.acceptedValue
  completed := state.completed
  promise := state.promise

theorem handlePropose_widened (proposal : BroadcastService.Proposal) (state : RoundState) :
    let wire : Proposal := ⟨proposal.proposedValue, UInt32.ofNat proposal.activeProposalNumber⟩
    (state.handlePropose wire).1.widened = (state.widened.handlePropose proposal).1 ∧
      (state.handlePropose wire).2 = Accept.narrowed (state.widened.handlePropose proposal).2 := by
  simp only [BroadcastService.RoundState.handlePropose, handlePropose, widened]
  by_cases h : (vectorSetUnion state.acceptedValue proposal.proposedValue).length =
      proposal.proposedValue.length
  · simp only [h, if_true, true_and]
    rfl
  · simp only [h, if_false, true_and]
    rfl

/-- No counter wraps in the next step. -/
structure Roomy (state : RoundState) : Prop where
  counted : state.acks.toNat + state.nacks.toNat + 1 < 2 ^ 32
  number : state.activeProposalNumber.toNat + 1 < 2 ^ 32

theorem checkAckNackConditions_widened (networkSize : ℕ) (round : UInt32) (state : RoundState)
    (hcounted : state.acks.toNat + state.nacks.toNat < 2 ^ 32)
    (hnumber : state.activeProposalNumber.toNat + 1 < 2 ^ 32) :
    state.widened.checkAckNackConditions (majority networkSize) round.toNat =
      ((state.checkAckNackConditions networkSize round).1.widened,
        (state.checkAckNackConditions networkSize round).2.flatMap Output.widened) := by
  have hsum : (state.acks + state.nacks).toNat = state.acks.toNat + state.nacks.toNat := by
    rw [UInt32.toNat_add, Nat.mod_eq_of_lt hcounted]
  have hnext : (state.activeProposalNumber + 1).toNat = state.activeProposalNumber.toNat + 1 := by
    rw [UInt32.toNat_add, UInt32.toNat_one, Nat.mod_eq_of_lt hnumber]
  have hpos : 0 < state.nacks ↔ 0 < state.nacks.toNat := UInt32.lt_iff_toNat_lt
  simp only [BroadcastService.RoundState.checkAckNackConditions, checkAckNackConditions, hsum, hpos]
  by_cases hdecide : majority networkSize ≤ state.acks.toNat
  · simp only [widened, hdecide, if_true]
    rfl
  · by_cases hmove : 0 < state.nacks.toNat ∧
        majority networkSize ≤ state.acks.toNat + state.nacks.toNat
    · simp only [widened, hdecide, hmove, if_true, if_false, and_self]
      simp [BroadcastService.RoundState.moveToNextProposalNumber, moveToNextProposalNumber,
        Output.widened, Proposal.widened, hnext]
    · simp only [widened, hdecide, hmove, if_false]
      rfl

/-- The two tests before an answer is counted; `counted` is the state with the answer counted. -/
theorem counted_widened (networkSize : ℕ) (round : UInt32) {number : ℕ} (hnumber : number < 2 ^ 32)
    (state counted : RoundState)
    (hcounted : counted.acks.toNat + counted.nacks.toNat < 2 ^ 32)
    (hnext : counted.activeProposalNumber.toNat + 1 < 2 ^ 32) :
    (if state.completed then (state.widened, [])
      else if state.activeProposalNumber.toNat = number then
        counted.widened.checkAckNackConditions (majority networkSize) round.toNat
      else (state.widened, [])) =
      Prod.map widened (List.flatMap Output.widened)
        (if state.completed then (state, [])
        else if state.activeProposalNumber = UInt32.ofNat number then
          counted.checkAckNackConditions networkSize round
        else (state, [])) := by
  have heq : state.activeProposalNumber = UInt32.ofNat number ↔
      state.activeProposalNumber.toNat = number := by
    rw [← UInt32.toNat_inj, UInt32.toNat_ofNat_of_lt' hnumber]
  rw [checkAckNackConditions_widened networkSize round counted hcounted hnext]
  simp only [heq]
  split_ifs
  · rfl
  · rfl
  · rfl

theorem handleAccept_widened (networkSize : ℕ) (round : UInt32)
    {accept : BroadcastService.Accept} (haccept : accept.proposalNumber < 2 ^ 32)
    {state : RoundState} (h : state.Roomy) :
    state.widened.handleAccept (majority networkSize) round.toNat accept =
      Prod.map widened (List.flatMap Output.widened)
        (state.handleAccept networkSize round (Accept.narrowed accept)) := by
  obtain ⟨status, number, value⟩ := accept
  have hroom := h.counted
  cases status with
  | ack =>
      have hacks : (state.acks + 1).toNat = state.acks.toNat + 1 := by
        rw [UInt32.toNat_add, UInt32.toNat_one, Nat.mod_eq_of_lt (by omega)]
      have hcounted : (state.acks + 1).toNat + state.nacks.toNat < 2 ^ 32 := by omega
      simp only [BroadcastService.RoundState.handleAccept, BroadcastService.RoundState.handleAck,
        widened]
      rw [← hacks]
      exact counted_widened networkSize round haccept state { state with acks := state.acks + 1 }
        hcounted h.number
  | nack =>
      have hnacks : (state.nacks + 1).toNat = state.nacks.toNat + 1 := by
        rw [UInt32.toNat_add, UInt32.toNat_one, Nat.mod_eq_of_lt (by omega)]
      have hcounted : state.acks.toNat + (state.nacks + 1).toNat < 2 ^ 32 := by omega
      simp only [BroadcastService.RoundState.handleAccept, BroadcastService.RoundState.handleNack,
        widened]
      rw [← hnacks]
      exact counted_widened networkSize round haccept state
        { state with
          nacks := state.nacks + 1
          proposedValue := vectorSetUnion state.proposedValue value } hcounted h.number

end RoundState

end BroadcastService.LatticeWire

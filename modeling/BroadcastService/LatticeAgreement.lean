import BroadcastService.MessagePassing
import BroadcastService.SetOperation
import BroadcastService.BestEffortBroadcast

/-!
# The lattice agreement object and its network

The handlers of `primitives/lattice_agreement.hpp`, written on an explicit state. A promise and its
future are one contract, named by the number of contracts made before it. `LAOutput` records, in
order, what a call does besides changing the state: `propose` is the call of `Propose` itself,
`broadcast` a best-effort broadcast of a proposal message, `send` an accept message to one peer,
`setPromise` the fulfilment of a contract and `callback` a decision.

Round ids and counters are natural numbers: a round is opened next to an existing one, so a 32-bit
round id does not wrap before `2 ^ 32` rounds were proposed. A message is narrowed twice on the
wire: the number of its proposals to 8 bits, in `onWire`, and the number of values of a proposal to
32 bits, which is left to `LatticeWire`.
-/

namespace BroadcastService
open MessagePassing

abbrev ProposeValueT := UInt32
abbrev ProposalT := List ProposeValueT

structure Proposal where
  proposedValue : ProposalT
  activeProposalNumber : ℕ := 0
  deriving DecidableEq

structure ProposalMessage where
  firstRoundId : ℕ
  proposals : List Proposal
  deriving DecidableEq

inductive AcceptStatus
  | ack
  | nack
  deriving DecidableEq

structure Accept where
  status : AcceptStatus
  proposalNumber : ℕ
  acceptedValue : ProposalT := []
  deriving DecidableEq

structure AcceptMessage where
  firstRoundId : ℕ
  accepts : List Accept
  deriving DecidableEq

inductive LAMessage
  | proposal (message : ProposalMessage)
  | accept (message : AcceptMessage)
  | decide (round : ℕ)
  deriving DecidableEq

/-- What a peer decodes: `Marshal` writes every proposal but stores their number in 8 bits. -/
def ProposalMessage.onWire (m : ProposalMessage) : ProposalMessage :=
  { m with proposals := m.proposals.take (m.proposals.length % 2 ^ 8) }

def AcceptMessage.onWire (m : AcceptMessage) : AcceptMessage :=
  { m with accepts := m.accepts.take (m.accepts.length % 2 ^ 8) }

structure RoundState where
  activeProposalNumber : ℕ := 0
  acks : ℕ := 0
  nacks : ℕ := 0
  proposedValue : ProposalT := []
  acceptedValue : ProposalT := []
  completed : Bool := false
  promise : ℕ := 0
  preliminaryFuture : Option ℕ := none
  deriving DecidableEq

inductive LAOutput (P : Type*)
  | propose (message : ProposalMessage)
  | broadcast (message : ProposalMessage)
  | send (dst : P) (message : AcceptMessage)
  | setPromise (contract : ℕ)
  | callback (round : ℕ) (value : ProposalT)
  deriving DecidableEq

variable {P : Type*}

namespace RoundState

def handlePropose (proposal : Proposal) (state : RoundState) : RoundState × Accept :=
  let accepted := vectorSetUnion state.acceptedValue proposal.proposedValue
  if accepted.length = proposal.proposedValue.length then
    ({ state with acceptedValue := proposal.proposedValue },
      { status := .ack, proposalNumber := proposal.activeProposalNumber })
  else
    ({ state with acceptedValue := accepted },
      { status := .nack, proposalNumber := proposal.activeProposalNumber,
        acceptedValue := accepted })

def decideRound (round : ℕ) (state : RoundState) : RoundState × List (LAOutput P) :=
  ({ state with completed := true },
    [.setPromise state.promise, .callback round state.proposedValue])

def moveToNextProposalNumber (round : ℕ) (state : RoundState) :
    RoundState × List (LAOutput P) :=
  let next := state.activeProposalNumber + 1
  ({ state with activeProposalNumber := next, acks := 0, nacks := 0 },
    [.broadcast ⟨round, [⟨state.proposedValue, next⟩]⟩])

def checkAckNackConditions (majority : ℕ) (round : ℕ) (state : RoundState) :
    RoundState × List (LAOutput P) :=
  if majority ≤ state.acks then
    state.decideRound round
  else if 0 < state.nacks ∧ majority ≤ state.acks + state.nacks then
    state.moveToNextProposalNumber round
  else (state, [])

def handleAck (majority : ℕ) (round : ℕ) (accept : Accept) (state : RoundState) :
    RoundState × List (LAOutput P) :=
  if state.completed then (state, [])
  else if state.activeProposalNumber = accept.proposalNumber then
    checkAckNackConditions majority round { state with acks := state.acks + 1 }
  else (state, [])

def handleNack (majority : ℕ) (round : ℕ) (accept : Accept) (state : RoundState) :
    RoundState × List (LAOutput P) :=
  if state.completed then (state, [])
  else if state.activeProposalNumber = accept.proposalNumber then
    checkAckNackConditions majority round
      { state with
        nacks := state.nacks + 1
        proposedValue := vectorSetUnion state.proposedValue accept.acceptedValue }
  else (state, [])

/-- The `switch` of `HandleAcceptMessage`. -/
def handleAccept (majority : ℕ) (round : ℕ) (accept : Accept) :
    RoundState → RoundState × List (LAOutput P) :=
  match accept.status with
  | .ack => handleAck majority round accept
  | .nack => handleNack majority round accept

end RoundState

structure LatticeAgreement where
  roundStates : List RoundState := []
  contracts : ℕ := 0
  deriving DecidableEq

def majority (networkSize : ℕ) : ℕ := networkSize / 2 + 1

namespace LatticeAgreement

def appendEmptyRoundState (la : LatticeAgreement) : LatticeAgreement where
  roundStates := la.roundStates ++
    [{ promise := la.contracts, preliminaryFuture := some la.contracts }]
  contracts := la.contracts + 1

/-- The loop appends empty round states while `round >= round_states_.size()`. -/
def initializeEmptyRoundStates (la : LatticeAgreement) (round : ℕ) : LatticeAgreement :=
  appendEmptyRoundState^[round + 1 - la.roundStates.length] la

/-- `none` stands for a failed assertion. -/
def initializeNextRoundState (la : LatticeAgreement) (round : ℕ) (proposal : ProposalT) :
    Option (LatticeAgreement × ℕ) :=
  match la.roundStates[round]? with
  | some state =>
      let roundStates := la.roundStates.set round { state with proposedValue := proposal }
      state.preliminaryFuture.map fun future => ({ la with roundStates }, future)
  | none =>
      if round = la.roundStates.length then
        some ({ roundStates := la.roundStates ++
                  [{ proposedValue := proposal, promise := la.contracts }],
                contracts := la.contracts + 1 }, la.contracts)
      else none

def getRoundState (la : LatticeAgreement) (round : ℕ) : LatticeAgreement × RoundState :=
  let la := la.initializeEmptyRoundStates round
  (la, la.roundStates.getD round {})

/-- Run a handler on the round state that `GetRoundState` returns a reference to. -/
def withRoundState {β : Type*} (la : LatticeAgreement) (round : ℕ)
    (f : RoundState → RoundState × β) : LatticeAgreement × β :=
  let (la, state) := la.getRoundState round
  let (state, out) := f state
  ({ la with roundStates := la.roundStates.set round state }, out)

def handleProposals (la : LatticeAgreement) (round : ℕ) :
    List Proposal → LatticeAgreement × List Accept
  | [] => (la, [])
  | proposal :: proposals =>
      let (la, accept) := la.withRoundState round (RoundState.handlePropose proposal)
      let (la, accepts) := la.handleProposals (round + 1) proposals
      (la, accept :: accepts)

def handleProposalMessage (la : LatticeAgreement) (src : P) (message : ProposalMessage) :
    LatticeAgreement × List (LAOutput P) :=
  let (la, accepts) := la.handleProposals message.firstRoundId message.proposals
  (la, [.send src ⟨message.firstRoundId, accepts⟩])

def handleAccepts (networkSize : ℕ) (la : LatticeAgreement) (round : ℕ) :
    List Accept → LatticeAgreement × List (LAOutput P)
  | [] => (la, [])
  | accept :: accepts =>
      let (la, outs) := la.withRoundState round
        (RoundState.handleAccept (majority networkSize) round accept)
      let (la, outs') := la.handleAccepts networkSize (round + 1) accepts
      (la, outs ++ outs')

def handleAcceptMessage (networkSize : ℕ) (la : LatticeAgreement) (message : AcceptMessage) :
    LatticeAgreement × List (LAOutput P) :=
  la.handleAccepts networkSize message.firstRoundId message.accepts

def initializeRoundStates (la : LatticeAgreement) (round : ℕ) :
    List Proposal → Option (LatticeAgreement × List ℕ)
  | [] => some (la, [])
  | proposal :: proposals =>
      (la.initializeNextRoundState round proposal.proposedValue).bind fun (la, future) =>
        (la.initializeRoundStates (round + 1) proposals).map fun (la, futures) =>
          (la, future :: futures)

/-- `Propose`: the new state, the futures it returns and what it does. -/
def propose (la : LatticeAgreement) (message : ProposalMessage) :
    Option (LatticeAgreement × List ℕ × List (LAOutput P)) :=
  (la.initializeRoundStates message.firstRoundId message.proposals).map fun (la, futures) =>
    (la, futures, [.propose message, .broadcast message])

end LatticeAgreement

/-- A process: the lattice agreement object and the rounds the application has proposed in. -/
structure LAProcess where
  la : LatticeAgreement := {}
  rounds : List ℕ := []
  deriving DecidableEq

namespace LAProcess

/-- The rounds from `first` on are proposed with the values of the batch. -/
def proposeBatch (s : LAProcess) (first : ℕ) (batch : List ProposalT) :
    Option (LAProcess × List (LAOutput P)) :=
  (s.la.propose ⟨first, batch.map fun value => { proposedValue := value }⟩).map
    fun (la, _, outs) => (⟨la, s.rounds ++ List.range' first batch.length⟩, outs)

def onMessage (networkSize : ℕ) (s : LAProcess) (src : P) :
    LAMessage → LAProcess × List (LAOutput P)
  | .proposal message =>
      let (la, outs) := s.la.handleProposalMessage src message
      ({ s with la }, outs)
  | .accept message =>
      let (la, outs) := s.la.handleAcceptMessage networkSize message
      ({ s with la }, outs)
  | .decide _ => (s, [])

end LAProcess

def latticeEmit {n : ℕ} (me : Fin n) : LAOutput (Fin n) → List (Fin n × LAMessage)
  | .broadcast message => bestEffortBroadcast me (.proposal message.onWire)
  | .send dst message => [(dst, .accept message.onWire)]
  | _ => []

/-- `n` processes that propose batches of rounds, no round more than once. -/
def latticeProgram (n : ℕ) :
    Program (Fin n) LAProcess LAMessage (ℕ × List ProposalT) (LAOutput (Fin n)) where
  start _ := {}
  enabled _ s _ x := decide (∀ r ∈ List.range' x.1 x.2.length, r ∉ s.rounds)
  onInput _ s x := s.proposeBatch x.1 x.2
  onMessage _ s src message := some (s.onMessage n src message)
  emit := latticeEmit

end BroadcastService

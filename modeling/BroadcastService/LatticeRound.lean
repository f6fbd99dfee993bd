import BroadcastService.LatticeAgreement

/-!
# One round of lattice agreement

`roundProgram n r` is the program in which only round `r` is run, with one proposal or accept in
each message. A batched message holds at most one entry of a round, found by its position
(`atRound`). A round that `Propose` opens beyond the 8-bit count of its message is proposed without
being broadcast.

The handlers of a round treat round states alike that differ only in their promise and preliminary
future, which depend on whether `Propose` or an earlier message created the state.
-/

namespace BroadcastService
open MessagePassing

variable {P : Type*}

def entryAt {α : Type*} (first : ℕ) (l : List α) (r : ℕ) : Option α :=
  if first ≤ r then l[r - first]? else none

@[simp] theorem entryAt_nil {α : Type*} (first r : ℕ) :
    entryAt first ([] : List α) r = none := by simp [entryAt]

@[simp] theorem entryAt_self {α : Type*} (first : ℕ) (a : α) (l : List α) :
    entryAt first (a :: l) first = some a := by simp [entryAt]

theorem entryAt_succ_self {α : Type*} (first : ℕ) (l : List α) :
    entryAt (first + 1) l first = none := by simp [entryAt]

theorem entryAt_cons_ne {α : Type*} {first r : ℕ} (a : α) (l : List α) (h : r ≠ first) :
    entryAt first (a :: l) r = entryAt (first + 1) l r := by
  simp only [entryAt]
  by_cases hr : first ≤ r
  · have hsub : r - first = r - (first + 1) + 1 := by omega
    rw [if_pos hr, if_pos (show first + 1 ≤ r by omega), hsub, List.getElem?_cons_succ]
  · rw [if_neg hr, if_neg (by omega)]

def ProposalMessage.atRound (m : ProposalMessage) (r : ℕ) : Option Proposal :=
  entryAt m.firstRoundId m.proposals r

def AcceptMessage.atRound (m : AcceptMessage) (r : ℕ) : Option Accept :=
  entryAt m.firstRoundId m.accepts r

theorem ProposalMessage.atRound_onWire {m : ProposalMessage} {r : ℕ} {p : Proposal}
    (h : m.onWire.atRound r = some p) : m.atRound r = some p := by
  simp only [atRound, onWire, entryAt, List.getElem?_take] at h ⊢
  split_ifs at h ⊢
  exact h

theorem ProposalMessage.onWire_of_length_lt {m : ProposalMessage}
    (h : m.proposals.length < 2 ^ 8) : m.onWire = m := by
  rw [onWire, Nat.mod_eq_of_lt h, List.take_length]

theorem AcceptMessage.onWire_of_length_lt {m : AcceptMessage} (h : m.accepts.length < 2 ^ 8) :
    m.onWire = m := by
  rw [onWire, Nat.mod_eq_of_lt h, List.take_length]

theorem ProposalMessage.length_onWire_lt (m : ProposalMessage) :
    m.onWire.proposals.length < 2 ^ 8 := by
  simp only [onWire, List.length_take]
  exact lt_of_le_of_lt (min_le_left _ _) (Nat.mod_lt _ (by norm_num))

inductive RoundMessage
  | proposal (proposal : Proposal)
  | accept (accept : Accept)
  deriving DecidableEq

inductive RoundOutput (P : Type*)
  | propose (value : ProposalT) (onWire : Bool)
  | broadcast (proposal : Proposal)
  | reply (dst : P) (accept : Accept)
  | callback (value : ProposalT)
  deriving DecidableEq

def LAMessage.atRound (r : ℕ) : LAMessage → Option RoundMessage
  | .proposal m => (m.atRound r).map .proposal
  | .accept m => (m.atRound r).map .accept
  | .decide _ => none

def LAOutput.atRound (r : ℕ) : LAOutput P → Option (RoundOutput P)
  | .propose m => (m.atRound r).map fun p =>
      .propose p.proposedValue (m.onWire.atRound r).isSome
  | .broadcast m => (m.onWire.atRound r).map .broadcast
  | .send dst m => (m.onWire.atRound r).map (.reply dst)
  | .setPromise _ => none
  | .callback round value => if round = r then some (.callback value) else none

@[ext] structure RoundNode where
  state : RoundState := {}
  proposed : Bool := false
  deriving DecidableEq

namespace RoundNode

def onPropose (s : RoundNode) (x : ProposalT × Bool) : RoundNode × List (RoundOutput P) :=
  ({ state := { s.state with proposedValue := x.1 }, proposed := true },
    .propose x.1 x.2 :: if x.2 then [.broadcast { proposedValue := x.1 }] else [])

def onMessage (networkSize : ℕ) (r : ℕ) (s : RoundNode) (src : P) :
    RoundMessage → RoundNode × List (RoundOutput P)
  | .proposal p =>
      let (state, accept) := s.state.handlePropose p
      ({ s with state }, [.reply src accept])
  | .accept a =>
      let (state, outs) := s.state.handleAccept (majority networkSize) r a
      ({ s with state }, outs.filterMap (LAOutput.atRound r))

end RoundNode

def roundEmit {n : ℕ} (me : Fin n) : RoundOutput (Fin n) → List (Fin n × RoundMessage)
  | .broadcast p => bestEffortBroadcast me (.proposal p)
  | .reply dst a => [(dst, .accept a)]
  | _ => []

/-- Round `r` alone. The flag of an input says whether the proposal reaches the wire. -/
def roundProgram (n : ℕ) (r : ℕ) :
    Program (Fin n) RoundNode RoundMessage (ProposalT × Bool) (RoundOutput (Fin n)) where
  start _ := {}
  enabled _ s _ _ := !s.proposed
  onInput _ s x := some (s.onPropose x)
  onMessage _ s src m := some (s.onMessage n r src m)
  emit := roundEmit

def RoundState.erase (state : RoundState) : RoundState :=
  { state with promise := 0, preliminaryFuture := none }

@[simp] theorem RoundState.erase_erase (state : RoundState) : state.erase.erase = state.erase := rfl

theorem RoundState.handlePropose_erase (p : Proposal) (state : RoundState) :
    state.erase.handlePropose p = ((state.handlePropose p).1.erase, (state.handlePropose p).2) := by
  obtain ⟨_, _, _, _, accepted, _, _, _⟩ := state
  dsimp only [handlePropose, erase]
  split_ifs <;> rfl

theorem RoundState.handleAccept_erase (maj : ℕ) (r : ℕ) (a : Accept) (state : RoundState) :
    (handleAccept (P := P) maj r a state.erase).1 = (handleAccept (P := P) maj r a state).1.erase ∧
      (handleAccept (P := P) maj r a state.erase).2.filterMap (LAOutput.atRound r) =
        (handleAccept (P := P) maj r a state).2.filterMap (LAOutput.atRound r) := by
  obtain ⟨status, number, value⟩ := a
  obtain ⟨_, _, _, _, _, _, _, _⟩ := state
  cases status <;>
    dsimp only [handleAccept, handleAck, handleNack, checkAckNackConditions, decideRound,
      moveToNextProposalNumber, erase] <;>
    split_ifs <;> simp [LAOutput.atRound, List.filterMap_cons]

/-- The outputs of a handler of one round are invisible in every other round. -/
theorem RoundState.handleAccept_atRound_ne {r round : ℕ} (h : r ≠ round) (maj : ℕ)
    (a : Accept) (state : RoundState) :
    (handleAccept (P := P) maj round a state).2.filterMap (LAOutput.atRound r) = [] := by
  have hb : ∀ p : Proposal, (⟨round, [p]⟩ : ProposalMessage).onWire.atRound r = none := by
    intro p
    simp only [ProposalMessage.atRound, ProposalMessage.onWire]
    rw [show List.take (List.length [p] % 2 ^ 8) [p] = [p] from rfl, entryAt_cons_ne _ _ h,
      entryAt_nil]
  obtain ⟨status, number, value⟩ := a
  cases status <;>
    dsimp only [handleAccept, handleAck, handleNack, checkAckNackConditions, decideRound,
      moveToNextProposalNumber] <;>
    split_ifs <;> simp [LAOutput.atRound, List.filterMap_cons, hb, Ne.symm h]

end BroadcastService

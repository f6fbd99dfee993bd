import BroadcastService.LatticeAcceptor

/-!
# The proposer of a round

A proposer hears answers with any status, number and value, in any order and any number of times.
`ProposerRun` keeps, next to the state of the round, the last proposal it broadcast, the answers
handled since, and for every call of `Decide` what these were. The order of the two tests in
`CheckAckNackConditions` matters because a nack changes the proposed value: as it runs after each
single answer, the acks and nacks counted stay below the majority together, and acks alone reach it
only without a nack (`proposer_decides_broadcast`).

The counters have 32 bits. With a majority they cannot hold, no round decides.
-/

namespace BroadcastService.LatticeWire

def Accept.IsAck (number : UInt32) (accept : Accept) : Prop :=
  accept.status = .ack ∧ accept.proposalNumber = number

def Accept.IsNack (number : UInt32) (accept : Accept) : Prop :=
  accept.status = .nack ∧ accept.proposalNumber = number

instance (number : UInt32) : DecidablePred (Accept.IsAck number) :=
  fun _ => inferInstanceAs (Decidable (_ ∧ _))

instance (number : UInt32) : DecidablePred (Accept.IsNack number) :=
  fun _ => inferInstanceAs (Decidable (_ ∧ _))

/-- A call of `Decide`: the value it passes on, the state it leaves, and at that moment the last
proposal that was broadcast and the answers handled since. -/
structure Decision where
  value : List UInt32
  state : RoundState
  broadcast : Proposal
  heard : List Accept
  deriving DecidableEq

structure ProposerRun where
  state : RoundState
  broadcast : Proposal
  heard : List Accept := []
  decisions : List Decision := []
  deriving DecidableEq

def Output.broadcastProposals : Output → List Proposal
  | .broadcast message => message.proposals
  | _ => []

def Output.decidedValue : Output → Option (List UInt32)
  | .decide _ _ value => some value
  | _ => none

namespace ProposerRun

/-- The run begins when `Propose` has broadcast the value, with the default proposal number. -/
def start (state : RoundState) (value : List UInt32) : ProposerRun :=
  { state, broadcast := ⟨value, 0⟩ }

/-- What an answer, with the state and the outputs its handler leaves, adds to the run. -/
def record (run : ProposerRun) (accept : Accept) (result : RoundState × List Output) :
    ProposerRun :=
  let (state, outs) := result
  let heard := run.heard ++ [accept]
  let decided := outs.filterMap Output.decidedValue
  let decisions := run.decisions ++ decided.map fun value => ⟨value, state, run.broadcast, heard⟩
  match (outs.flatMap Output.broadcastProposals).getLast? with
  | some proposal => { state, broadcast := proposal, heard := [], decisions }
  | none => { state, broadcast := run.broadcast, heard, decisions }

def handle (networkSize : ℕ) (round : UInt32) (run : ProposerRun) : Entry → ProposerRun
  | .proposal proposal => { run with state := (run.state.handlePropose proposal).1 }
  | .accept accept => run.record accept (run.state.handleAccept networkSize round accept)

def handleAll (networkSize : ℕ) (round : UInt32) (run : ProposerRun) (entries : List Entry) :
    ProposerRun :=
  entries.foldl (handle networkSize round) run

theorem record_quiet (run : ProposerRun) (accept : Accept) (state : RoundState) :
    run.record accept (state, []) = { run with state, heard := run.heard ++ [accept] } := by
  simp [record]

theorem record_decideRound (run : ProposerRun) (accept : Accept) (round : UInt32)
    (state : RoundState) :
    run.record accept (state.decideRound round) =
      { run with
        state := { state with completed := true }
        heard := run.heard ++ [accept]
        decisions := run.decisions ++ [⟨state.proposedValue, { state with completed := true },
          run.broadcast, run.heard ++ [accept]⟩] } :=
  rfl

theorem record_moveToNextProposalNumber (run : ProposerRun) (accept : Accept) (round : UInt32)
    (state : RoundState) :
    run.record accept (state.moveToNextProposalNumber round) =
      { state := (state.moveToNextProposalNumber round).1
        broadcast := ⟨state.proposedValue, state.activeProposalNumber + 1⟩
        heard := []
        decisions := run.decisions } := by
  simp [record, RoundState.moveToNextProposalNumber, Output.decidedValue, Output.broadcastProposals]

end ProposerRun

/-- The counters of an open round are those of the answers handled since the last broadcast, and at
most `limit` together. Without a nack the proposed value is the one that was broadcast. -/
structure Counting (limit : ℕ) (state : RoundState) (broadcast : Proposal) (heard : List Accept) :
    Prop where
  total : state.acks.toNat + state.nacks.toNat ≤ limit
  acks : state.acks.toNat = heard.countP (Accept.IsAck state.activeProposalNumber)
  nacks : state.nacks.toNat = heard.countP (Accept.IsNack state.activeProposalNumber)
  value : state.nacks.toNat = 0 → state.proposedValue = broadcast.proposedValue

namespace Counting

variable {limit : ℕ} {state : RoundState} {broadcast : Proposal} {heard : List Accept}

theorem skip (h : Counting limit state broadcast heard) (accept : Accept)
    (hskip : state.activeProposalNumber ≠ accept.proposalNumber ∨
      accept.status ≠ .ack ∧ accept.status ≠ .nack) :
    Counting limit state broadcast (heard ++ [accept]) := by
  have hack : ¬accept.IsAck state.activeProposalNumber := by
    rintro ⟨hstatus, hnumber⟩
    exact hskip.elim (fun hne => hne hnumber.symm) fun hother => hother.1 hstatus
  have hnack : ¬accept.IsNack state.activeProposalNumber := by
    rintro ⟨hstatus, hnumber⟩
    exact hskip.elim (fun hne => hne hnumber.symm) fun hother => hother.2 hstatus
  refine ⟨h.total, ?_, ?_, h.value⟩
  · simp [h.acks, hack]
  · simp [h.nacks, hnack]

theorem count (h : Counting limit state broadcast heard) (hlimit : limit + 1 < 2 ^ 32)
    {accept : Accept} (hnumber : state.activeProposalNumber = accept.proposalNumber) :
    Counting (limit + 1) (state.count accept) broadcast (heard ++ [accept]) := by
  have htotal := h.total
  have hacks : (state.acks + 1).toNat = state.acks.toNat + 1 := by
    rw [UInt32.toNat_add, UInt32.toNat_one, Nat.mod_eq_of_lt (by omega)]
  have hnacks : (state.nacks + 1).toNat = state.nacks.toNat + 1 := by
    rw [UInt32.toNat_add, UInt32.toNat_one, Nat.mod_eq_of_lt (by omega)]
  cases hstatus : accept.status with
  | ack =>
      simp only [RoundState.count, hstatus]
      refine ⟨?_, ?_, ?_, h.value⟩
      · simp only [hacks]
        omega
      · simp [hacks, h.acks, Accept.IsAck, hstatus, hnumber]
      · simp [h.nacks, Accept.IsNack, hstatus]
  | nack =>
      simp only [RoundState.count, hstatus]
      refine ⟨?_, ?_, ?_, ?_⟩
      · simp only [hnacks]
        omega
      · simp [h.acks, Accept.IsAck, hstatus]
      · simp [hnacks, h.nacks, Accept.IsNack, hstatus, hnumber]
      · simp [hnacks]
  | other value hvalue =>
      have hskip := h.skip accept (.inr (by simp [hstatus]))
      simp only [RoundState.count, hstatus]
      exact { hskip with total := by omega }

theorem no_nack (h : Counting limit state broadcast heard) (hacks : limit ≤ state.acks.toNat) :
    state.nacks.toNat = 0 := by
  have htotal := h.total
  omega

theorem below (h : Counting (limit + 1) state broadcast heard) (hlimit : limit + 1 < 2 ^ 32)
    (hacks : state.acks.toNat < limit + 1)
    (hsum : 0 < state.nacks → (state.acks + state.nacks).toNat < limit + 1) :
    Counting limit state broadcast heard := by
  have htotal := h.total
  refine { h with total := ?_ }
  by_cases hnacks : 0 < state.nacks
  · have hlt := hsum hnacks
    rw [UInt32.toNat_add, Nat.mod_eq_of_lt (by omega)] at hlt
    omega
  · rw [UInt32.lt_iff_toNat_lt, UInt32.toNat_zero] at hnacks
    omega

end Counting

/-- `Decide` ran on the proposal that was last broadcast, after a majority of acks for it and no
nack. -/
structure Decision.Sound (networkSize : ℕ) (d : Decision) : Prop where
  nacks : d.state.nacks = 0
  noNack : ∀ accept ∈ d.heard, ¬accept.IsNack d.state.activeProposalNumber
  number : d.broadcast.activeProposalNumber = d.state.activeProposalNumber
  value : d.value = d.broadcast.proposedValue
  acks : majority networkSize ≤ d.heard.countP (Accept.IsAck d.state.activeProposalNumber)

structure ProposerInv (networkSize : ℕ) (run : ProposerRun) : Prop where
  number : run.broadcast.activeProposalNumber = run.state.activeProposalNumber
  counting : run.state.completed = false →
    Counting (networkSize / 2) run.state run.broadcast run.heard
  undecided : run.state.completed = false → run.decisions = []
  once : run.decisions.length ≤ 1
  sound : ∀ d ∈ run.decisions, d.Sound networkSize

variable {networkSize : ℕ} {round : UInt32} {run : ProposerRun}

theorem ProposerInv.handle_proposal (h : ProposerInv networkSize run) (proposal : Proposal) :
    ProposerInv networkSize (run.handle networkSize round (.proposal proposal)) := by
  simp only [ProposerRun.handle]
  rw [RoundState.handlePropose_frame]
  refine ⟨h.number, ?_, h.undecided, h.once, h.sound⟩
  intro hopen
  obtain ⟨htotal, hacks, hnacks, hvalue⟩ := h.counting hopen
  exact ⟨htotal, hacks, hnacks, hvalue⟩

theorem Counting.decision_sound {state : RoundState} {broadcast : Proposal} {heard : List Accept}
    (h : Counting (majority networkSize) state broadcast heard)
    (hnumber : broadcast.activeProposalNumber = state.activeProposalNumber)
    (hacks : majority networkSize ≤ state.acks.toNat) :
    Decision.Sound networkSize
      ⟨state.proposedValue, { state with completed := true }, broadcast, heard⟩ := by
  have hnone := h.no_nack hacks
  refine ⟨UInt32.toNat_inj.1 hnone, ?_, hnumber, h.value hnone, h.acks ▸ hacks⟩
  have hcount := h.nacks.symm.trans hnone
  simpa using List.countP_eq_zero.1 hcount

theorem ProposerInv.handle_accept (h : ProposerInv networkSize run)
    (hsmall : majority networkSize < 2 ^ 32) (accept : Accept) :
    ProposerInv networkSize (run.handle networkSize round (.accept accept)) := by
  have hanswered := @RoundState.handleAccept_answered networkSize round accept run.state
  rw [ProposerRun.handle]
  generalize run.state.handleAccept networkSize round accept = result at hanswered ⊢
  cases hanswered with
  | skipped hskip =>
      rw [ProposerRun.record_quiet]
      refine ⟨h.number, ?_, h.undecided, h.once, h.sound⟩
      intro hopen
      refine (h.counting hopen).skip accept (hskip.resolve_left ?_)
      simpa using hopen
  | counted hopen hnumber hacks hsum =>
      have hcount := (h.counting hopen).count hsmall hnumber
      rw [ProposerRun.record_quiet]
      refine ⟨?_, ?_, ?_, h.once, h.sound⟩
      · simpa using h.number
      · intro _
        exact hcount.below hsmall hacks hsum
      · intro _
        exact h.undecided hopen
  | decided hopen hnumber hacks =>
      have hcount := (h.counting hopen).count hsmall hnumber
      have hnext : run.broadcast.activeProposalNumber =
          (run.state.count accept).activeProposalNumber := by
        simpa using h.number
      rw [ProposerRun.record_decideRound, h.undecided hopen]
      refine ⟨hnext, ?_, ?_, le_rfl, ?_⟩
      · intro hcompleted
        cases hcompleted
      · intro hcompleted
        cases hcompleted
      · intro d hd
        rw [List.mem_singleton.1 hd]
        exact hcount.decision_sound hnext hacks
  | moved hopen hnumber hacks hnacks hsum =>
      rw [ProposerRun.record_moveToNextProposalNumber]
      refine ⟨rfl, ?_, ?_, h.once, h.sound⟩
      · intro _
        exact ⟨Nat.zero_le _, rfl, rfl, fun _ => rfl⟩
      · intro _
        exact h.undecided hopen

theorem ProposerInv.handleAll (h : ProposerInv networkSize run)
    (hsmall : majority networkSize < 2 ^ 32) (entries : List Entry) :
    ProposerInv networkSize (run.handleAll networkSize round entries) := by
  induction entries generalizing run with
  | nil => exact h
  | cons entry entries ih =>
      apply ih
      cases entry with
      | proposal proposal => exact h.handle_proposal proposal
      | accept accept => exact h.handle_accept hsmall accept

theorem handleAll_decisions_eq (hlarge : 2 ^ 32 ≤ majority networkSize) (entries : List Entry) :
    (run.handleAll networkSize round entries).decisions = run.decisions := by
  induction entries generalizing run with
  | nil => rfl
  | cons entry entries ih =>
      refine ih.trans ?_
      match entry with
      | .proposal proposal => rfl
      | .accept accept =>
          have hanswered := @RoundState.handleAccept_answered networkSize round accept run.state
          rw [ProposerRun.handle]
          generalize run.state.handleAccept networkSize round accept = result at hanswered ⊢
          cases hanswered with
          | skipped hskip => rw [ProposerRun.record_quiet]
          | counted hopen hnumber hacks hsum => rw [ProposerRun.record_quiet]
          | decided hopen hnumber hacks =>
              have hlt := (run.state.count accept).acks.toNat_lt
              omega
          | moved hopen hnumber hacks hnacks hsum =>
              rw [ProposerRun.record_moveToNextProposalNumber]

/-- Only answers move the counters. -/
theorem RoundState.replay_counters (start : RoundState) {events : List RoundEvent}
    (h : ∀ accept, .entry (.accept accept) ∉ events) :
    let state := replay networkSize round start events
    state.activeProposalNumber = start.activeProposalNumber ∧ state.acks = start.acks ∧
      state.nacks = start.nacks := by
  induction events generalizing start with
  | nil => exact ⟨rfl, rfl, rfl⟩
  | cons event events ih =>
      have hrest := ih (step networkSize round start event)
        fun accept haccept => h accept (List.mem_cons_of_mem event haccept)
      match event with
      | .propose value => exact hrest
      | .entry (.accept accept) => exact absurd List.mem_cons_self (h accept)
      | .entry (.proposal proposal) =>
          simp only [step, handleEntry] at hrest
          rw [handlePropose_frame] at hrest
          simp only [replay, List.foldl_cons, step, handleEntry]
          rw [handlePropose_frame]
          exact hrest

/-- No answer was handled for the round yet; it may have a state, created by proposals of others. -/
def LatticeAgreement.Unanswered (la : LatticeAgreement) (round : UInt32) : Prop :=
  ∀ state, la.roundStates[round.toNat]? = some state →
    state.activeProposalNumber = 0 ∧ state.acks = 0 ∧ state.nacks = 0

theorem proposerInv_start {la la' : LatticeAgreement} {value : List UInt32} {future : Option ℕ}
    {state : RoundState} (hunanswered : la.Unanswered round)
    (hpropose : la.initializeNextRoundState round value = some (la', future))
    (hstate : la'.roundStates[round.toNat]? = some state) :
    ProposerInv networkSize (ProposerRun.start state value) := by
  have hfields : state.activeProposalNumber = 0 ∧ state.acks = 0 ∧ state.nacks = 0 ∧
      state.proposedValue = value := by
    obtain ⟨early, hearly, -, rfl⟩ | ⟨hlength, -, rfl⟩ :=
      LatticeAgreement.initializeNextRoundState_cases hpropose
    · have hlt := (List.getElem?_eq_some_iff.1 hearly).1
      rw [List.getElem?_set_self hlt] at hstate
      obtain rfl := Option.some.inj hstate
      obtain ⟨hnumber, hacks, hnacks⟩ := hunanswered early hearly
      exact ⟨hnumber, hacks, hnacks, rfl⟩
    · rw [← hlength, List.getElem?_concat_length] at hstate
      obtain rfl := Option.some.inj hstate
      exact ⟨rfl, rfl, rfl, rfl⟩
  obtain ⟨hnumber, hacks, hnacks, hvalue⟩ := hfields
  refine ⟨hnumber.symm, ?_, fun _ => rfl, Nat.zero_le 1, fun d hd => absurd hd List.not_mem_nil⟩
  intro _
  refine ⟨?_, ?_, ?_, fun _ => hvalue⟩
  · simp [ProposerRun.start, hacks, hnacks]
  · simp [ProposerRun.start, hacks]
  · simp [ProposerRun.start, hnacks]

/-- Whatever answers follow a `Propose`, the round decides at most once, and then the value of its
last broadcast. -/
theorem proposer_decides_broadcast {la la' : LatticeAgreement} {value : List UInt32}
    {future : Option ℕ} {state : RoundState} (networkSize : ℕ) (round : UInt32)
    (hunanswered : la.Unanswered round)
    (hpropose : la.initializeNextRoundState round value = some (la', future))
    (hstate : la'.roundStates[round.toNat]? = some state) (entries : List Entry) :
    let run := (ProposerRun.start state value).handleAll networkSize round entries
    run.decisions.length ≤ 1 ∧ ∀ d ∈ run.decisions, d.Sound networkSize := by
  by_cases hsmall : majority networkSize < 2 ^ 32
  · have hstart : ProposerInv networkSize (ProposerRun.start state value) :=
      proposerInv_start hunanswered hpropose hstate
    have hrun := @ProposerInv.handleAll networkSize round _ hstart hsmall entries
    exact ⟨hrun.once, hrun.sound⟩
  · have hnone := @handleAll_decisions_eq networkSize round (ProposerRun.start state value)
      (not_lt.1 hsmall) entries
    simp only [hnone]
    exact ⟨Nat.zero_le 1, fun d hd => absurd hd List.not_mem_nil⟩

def earlyRound : LatticeAgreement :=
  { roundStates := [{ acceptedValue := [5], promise := 0, preliminaryFuture := some (some 0) }]
    contracts := 1 }

def lateAnswers : List Entry :=
  [.accept ⟨.ack, 0, []⟩, .accept ⟨.nack, 0, [2]⟩, .accept ⟨.ack, 0, []⟩, .accept ⟨.ack, 1, []⟩,
    .accept ⟨.ack, 1, []⟩, .accept ⟨.ack, 1, []⟩]

theorem proposer_decides_broadcast_late :
    let state : RoundState :=
      { proposedValue := [1], acceptedValue := [5], promise := 0, preliminaryFuture := some none }
    let run := (ProposerRun.start state [1]).handleAll 3 0 lateAnswers
    run.decisions.map (·.value) = [[1, 2]] ∧ run.decisions.length ≤ 1 ∧
      ∀ d ∈ run.decisions, d.Sound 3 := by
  have hunanswered : earlyRound.Unanswered 0 := by
    intro state hstate
    obtain rfl := Option.some.inj hstate
    exact ⟨rfl, rfl, rfl⟩
  refine ⟨by decide, ?_⟩
  exact proposer_decides_broadcast 3 0 hunanswered rfl rfl lateAnswers

end BroadcastService.LatticeWire

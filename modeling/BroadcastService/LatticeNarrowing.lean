import BroadcastService.LatticeEntries
import BroadcastService.LatticeProjection
import BroadcastService.LatticeRoundSteps

/-!
# Lattice agreement on 32 bits and on natural numbers

The object of the source with its 32-bit counters and round ids does what the object on natural
numbers does, as long as no proposal number wraps: proposals come from a set `V` of values, messages
stay below round `2 ^ 32`, and the state of a round is related to the one it narrows. The counters
of acks and nacks never wrap, since a proposer that has heard from a majority decides or moves on.
-/

namespace BroadcastService.LatticeWire

variable {P : Type*} {V : Finset UInt32} {n : ℕ}

/-- A set of values from `V`, as a vector. -/
def Valid (V : Finset UInt32) (value : List UInt32) : Prop := value.Nodup ∧ ∀ x ∈ value, x ∈ V

theorem Valid.nil : Valid V [] := ⟨List.nodup_nil, by simp⟩

theorem Valid.union {u v : List UInt32} (hu : Valid V u) (hv : Valid V v) :
    Valid V (vectorSetUnion u v) := by
  refine ⟨nodup_vectorSetUnion hu.1 hv.1, fun x hx => ?_⟩
  exact (mem_vectorSetUnion.1 hx).elim (hu.2 x) (hv.2 x)

theorem Valid.length_le {value : List UInt32} (h : Valid V value) : value.length ≤ V.card := by
  rw [← List.toFinset_card_of_nodup h.1]
  exact Finset.card_le_card fun x hx => h.2 x (List.mem_toFinset.1 hx)

/-- What the state of a round cannot leave. -/
structure Bounded (V : Finset UInt32) (n : ℕ) (state : BroadcastService.RoundState) : Prop where
  proposed : Valid V state.proposedValue
  accepted : Valid V state.acceptedValue
  counted : state.acks + state.nacks ≤ majority n
  undecided : state.completed = false → state.acks + state.nacks < majority n

theorem Bounded.empty (promise : ℕ) (future : Option ℕ) :
    Bounded V n { promise, preliminaryFuture := future } :=
  ⟨.nil, .nil, Nat.zero_le _, fun _ => Nat.succ_pos _⟩

def messageValue : RoundMessage → List UInt32
  | .proposal proposal => proposal.proposedValue
  | .accept accept => accept.acceptedValue

theorem Bounded.count {state : BroadcastService.RoundState} (h : Bounded V n state)
    (hc : state.completed = false) {accept : BroadcastService.Accept}
    (hv : Valid V accept.acceptedValue) :
    Valid V (state.count accept).proposedValue ∧
      (state.count accept).acks + (state.count accept).nacks ≤ majority n := by
  have hlt := h.undecided hc
  unfold BroadcastService.RoundState.count
  cases accept.status with
  | ack => exact ⟨h.proposed, by simp only; omega⟩
  | nack => exact ⟨h.proposed.union hv, by simp only; omega⟩

theorem Bounded.react {state state' : BroadcastService.RoundState} {src : P} {m : RoundMessage}
    {outs : List (RoundOutput P)} (h : Bounded V n state)
    (hr : Reaction (majority n) state src m state' outs) (hv : Valid V (messageValue m)) :
    Bounded V n state' := by
  cases hr with
  | ack proposal hlength => exact ⟨h.proposed, hv, h.counted, h.undecided⟩
  | nack proposal hlength => exact ⟨h.proposed, h.accepted.union hv, h.counted, h.undecided⟩
  | stale accept hstale => exact h
  | counted accept hc hnumber hacks hsum =>
      obtain ⟨hproposed, hle⟩ := h.count hc hv
      exact ⟨hproposed, by simpa using h.accepted, hle, fun _ => by omega⟩
  | decided accept hc hnumber hacks =>
      obtain ⟨hproposed, hle⟩ := h.count hc hv
      exact ⟨hproposed, by simpa using h.accepted, hle, by simp⟩
  | moved accept hc hnumber hacks hnacks hsum =>
      obtain ⟨hproposed, -⟩ := h.count hc hv
      exact ⟨hproposed, by simpa using h.accepted, Nat.zero_le _, fun _ => Nat.succ_pos _⟩

/-- The same state up to the widths of its counters and the future it keeps for `Propose`, which is
kept on one side if it is on the other. -/
structure RoundState.Narrows (state : RoundState) (wide : BroadcastService.RoundState) : Prop where
  widened : { state.widened with preliminaryFuture := wide.preliminaryFuture } = wide
  future : state.preliminaryFuture.isSome = wide.preliminaryFuture.isSome

def Proposal.narrowed (proposal : BroadcastService.Proposal) : Proposal :=
  ⟨proposal.proposedValue, UInt32.ofNat proposal.activeProposalNumber⟩

section Round

variable {state : RoundState} {wide : BroadcastService.RoundState}

theorem handlePropose_future (wide : BroadcastService.RoundState)
    (proposal : BroadcastService.Proposal) (future : Option ℕ) :
    { wide with preliminaryFuture := future }.handlePropose proposal =
      ({ (wide.handlePropose proposal).1 with preliminaryFuture := future },
        (wide.handlePropose proposal).2) := by
  simp only [BroadcastService.RoundState.handlePropose]
  split_ifs
  · rfl
  · rfl

theorem handleAccept_future (wide : BroadcastService.RoundState) (round : ℕ)
    (accept : BroadcastService.Accept) (future : Option ℕ) :
    { wide with preliminaryFuture := future }.handleAccept (P := P) (majority n) round accept =
      ({ (wide.handleAccept (P := P) (majority n) round accept).1 with
          preliminaryFuture := future },
        (wide.handleAccept (majority n) round accept).2) := by
  obtain ⟨status, number, value⟩ := accept
  cases status <;>
    simp only [BroadcastService.RoundState.handleAccept, BroadcastService.RoundState.handleAck,
      BroadcastService.RoundState.handleNack, BroadcastService.RoundState.checkAckNackConditions,
      BroadcastService.RoundState.decideRound,
      BroadcastService.RoundState.moveToNextProposalNumber] <;>
    split_ifs <;> rfl

theorem RoundState.Narrows.handlePropose (h : state.Narrows wide)
    (proposal : BroadcastService.Proposal) :
    (state.handlePropose (Proposal.narrowed proposal)).1.Narrows (wide.handlePropose proposal).1 ∧
      (state.handlePropose (Proposal.narrowed proposal)).2 =
        Accept.narrowed (wide.handlePropose proposal).2 := by
  obtain ⟨hstate, haccept⟩ := handlePropose_widened proposal state
  have hwide := handlePropose_future state.widened proposal wide.preliminaryFuture
  rw [h.widened] at hwide
  rw [hwide]
  refine ⟨⟨?_, ?_⟩, haccept⟩
  · exact congrArg (fun s : BroadcastService.RoundState =>
      { s with preliminaryFuture := wide.preliminaryFuture }) hstate
  · rw [← h.future]
    simp only [RoundState.handlePropose]
    split_ifs
    · rfl
    · rfl

/-- An output without the contract that it fulfils. -/
inductive Effect
  | broadcast (message : ProposalMessage)
  | send (peer : UInt8) (message : AcceptMessage)
  | decide (round : UInt32) (value : List UInt32)

def Output.effect : Output → Effect
  | .broadcast message => .broadcast message
  | .send peer message => .send peer message
  | .decide _ round value => .decide round value

def effectOf (peerId : P → UInt8) : LAOutput P → Option Effect
  | .broadcast message => some (.broadcast (ProposalMessage.narrowed message))
  | .send dst message => some (.send (peerId dst) (AcceptMessage.narrowed message))
  | .callback round value => some (.decide (UInt32.ofNat round) value)
  | _ => none

theorem handleAccept_peers (wide : BroadcastService.RoundState) (peerId : P → UInt8) (round : ℕ)
    (accept : BroadcastService.Accept) :
    (wide.handleAccept (P := P) (majority n) round accept).1 =
        (wide.handleAccept (P := UInt8) (majority n) round accept).1 ∧
      (wide.handleAccept (majority n) round accept).2.filterMap (effectOf peerId) =
        (wide.handleAccept (majority n) round accept).2.filterMap (effectOf id) := by
  obtain ⟨status, number, value⟩ := accept
  cases status <;>
    simp only [BroadcastService.RoundState.handleAccept, BroadcastService.RoundState.handleAck,
      BroadcastService.RoundState.handleNack, BroadcastService.RoundState.checkAckNackConditions,
      BroadcastService.RoundState.decideRound,
      BroadcastService.RoundState.moveToNextProposalNumber] <;>
    split_ifs <;> exact ⟨rfl, rfl⟩

theorem narrowed_widened (message : ProposalMessage) : ProposalMessage.narrowed
    ⟨message.firstRoundId.toNat, message.proposals.map Proposal.widened⟩ = message := by
  have hproposal : ∀ proposal : Proposal, Proposal.narrowed proposal.widened = proposal := by
    intro proposal
    rw [Proposal.narrowed, Proposal.widened, UInt32.ofNat_toNat]
  have hproposals : (message.proposals.map Proposal.widened).map Proposal.narrowed =
      message.proposals := by
    simp only [List.map_map, Function.comp_def, hproposal, List.map_id']
  rw [ProposalMessage.narrowed, UInt32.ofNat_toNat]
  exact congrArg (ProposalMessage.mk message.firstRoundId) hproposals

theorem handleAccept_effects (round : UInt32) (accept : Accept) :
    ((state.handleAccept n round accept).2.flatMap Output.widened).filterMap (effectOf id) =
      (state.handleAccept n round accept).2.map Output.effect := by
  have hanswered := @RoundState.handleAccept_answered n round accept state
  generalize state.handleAccept n round accept = result at hanswered
  cases hanswered with
  | skipped h => rfl
  | counted hopen hnumber hacks hsum => rfl
  | decided hopen hnumber hacks =>
      exact congrArg (fun r => [Effect.decide r (state.count accept).proposedValue])
        UInt32.ofNat_toNat
  | moved hopen hnumber hacks hnacks hsum =>
      exact congrArg (fun message => [Effect.broadcast message]) (narrowed_widened _)

/-- The counters of a bounded state do not wrap in the next step. -/
theorem RoundState.Narrows.roomy (h : state.Narrows wide) (hb : Bounded V n wide)
    (hn : majority n + 1 < 2 ^ 32) (hnumber : wide.activeProposalNumber + 1 < 2 ^ 32) :
    state.Roomy := by
  have hcounted := hb.counted
  rw [← h.widened] at hcounted hnumber
  constructor
  · exact lt_of_le_of_lt (Nat.succ_le_succ hcounted) hn
  · exact hnumber

theorem RoundState.Narrows.handleAccept (h : state.Narrows wide) (hb : Bounded V n wide)
    (hn : majority n + 1 < 2 ^ 32) (hnumber : wide.activeProposalNumber + 1 < 2 ^ 32)
    (peerId : P → UInt8) {round : UInt32} {accept : BroadcastService.Accept}
    (haccept : accept.proposalNumber < 2 ^ 32) :
    (state.handleAccept n round (Accept.narrowed accept)).1.Narrows
        (wide.handleAccept (P := P) (majority n) round.toNat accept).1 ∧
      (state.handleAccept n round (Accept.narrowed accept)).2.map Output.effect =
        (wide.handleAccept (majority n) round.toNat accept).2.filterMap (effectOf peerId) := by
  obtain ⟨hsame, heffects⟩ := handleAccept_peers (n := n) wide peerId round.toNat accept
  rw [hsame, heffects]
  have hwidened := handleAccept_widened n round haccept (h.roomy hb hn hnumber)
  have hwide := handleAccept_future (P := UInt8) (n := n) state.widened round.toNat accept
    wide.preliminaryFuture
  rw [h.widened, hwidened] at hwide
  rw [hwide]
  refine ⟨⟨rfl, ?_⟩, (handleAccept_effects round _).symm⟩
  have hframe := @handleAccept_frame n round (Accept.narrowed accept) state
  exact (congrArg Option.isSome hframe.2.2.1).trans h.future

end Round

/-- An ack carries no value. -/
def Answer (V : Finset UInt32) (accept : BroadcastService.Accept) : Prop :=
  Valid V accept.acceptedValue ∧ (accept.status = .ack → accept.acceptedValue = [])

structure FitsProposals (V : Finset UInt32) (message : BroadcastService.ProposalMessage) :
    Prop where
  rounds : message.firstRoundId + message.proposals.length ≤ 2 ^ 32
  length : message.proposals.length < 256
  values : ∀ proposal ∈ message.proposals, Valid V proposal.proposedValue

structure FitsAccepts (V : Finset UInt32) (message : BroadcastService.AcceptMessage) : Prop where
  rounds : message.firstRoundId + message.accepts.length ≤ 2 ^ 32
  length : message.accepts.length < 256
  answers : ∀ accept ∈ message.accepts, Answer V accept

/-- Messages fit the widths of the wire, and their values come from `V`. -/
def Fits (V : Finset UInt32) : LAOutput P → Prop
  | .propose message => FitsProposals V message
  | .broadcast message => FitsProposals V message
  | .send _ message => FitsAccepts V message
  | .callback round _ => round < 2 ^ 32
  | .setPromise _ => True

theorem Bounded.handlePropose {wide : BroadcastService.RoundState} (h : Bounded V n wide)
    {proposal : BroadcastService.Proposal} (hv : Valid V proposal.proposedValue) :
    Bounded V n (wide.handlePropose proposal).1 ∧ Answer V (wide.handlePropose proposal).2 := by
  constructor
  · exact h.react (onMessage_reaction (r := 0) ⟨wide, false⟩ (0 : UInt8) (.proposal proposal)).1 hv
  · simp only [BroadcastService.RoundState.handlePropose]
    split_ifs
    · exact ⟨.nil, fun _ => rfl⟩
    · exact ⟨h.accepted.union hv, by simp⟩

theorem Bounded.handleAccept {wide : BroadcastService.RoundState} (h : Bounded V n wide)
    (peerId : P → UInt8) (round : ℕ) {accept : BroadcastService.Accept}
    (hv : Valid V accept.acceptedValue) :
    Bounded V n (wide.handleAccept (P := P) (majority n) round accept).1 := by
  rw [(handleAccept_peers wide peerId round accept).1]
  exact h.react (onMessage_reaction (r := round) ⟨wide, false⟩ (0 : UInt8) (.accept accept)).1 hv

theorem checkAckNackConditions_fits (maj : ℕ) {round : ℕ} (hround : round < 2 ^ 32)
    (wide : BroadcastService.RoundState) (h : Valid V wide.proposedValue) :
    ∀ o ∈ (wide.checkAckNackConditions (P := P) maj round).2,
      Fits V o ∧ ∀ message, o ≠ .propose message := by
  unfold BroadcastService.RoundState.checkAckNackConditions
  split_ifs
  · simpa [BroadcastService.RoundState.decideRound, Fits] using hround
  · intro o ho
    obtain rfl := List.mem_singleton.1 ho
    refine ⟨⟨hround, by simp, ?_⟩, by simp⟩
    intro proposal hproposal
    obtain rfl := List.mem_singleton.1 hproposal
    exact h
  · simp

theorem Bounded.handleAccept_fits {wide : BroadcastService.RoundState} (h : Bounded V n wide)
    {round : ℕ} (hround : round < 2 ^ 32) {accept : BroadcastService.Accept}
    (hv : Valid V accept.acceptedValue) :
    ∀ o ∈ (wide.handleAccept (P := P) (majority n) round accept).2,
      Fits V o ∧ ∀ message, o ≠ .propose message := by
  obtain ⟨status, number, value⟩ := accept
  cases status with
  | ack =>
      simp only [BroadcastService.RoundState.handleAccept, BroadcastService.RoundState.handleAck]
      split_ifs
      · simp
      · exact checkAckNackConditions_fits _ hround _ h.proposed
      · simp
  | nack =>
      simp only [BroadcastService.RoundState.handleAccept, BroadcastService.RoundState.handleNack]
      split_ifs
      · simp
      · exact checkAckNackConditions_fits _ hround _ (h.proposed.union hv)
      · simp

theorem ofNat_succ (round : ℕ) : UInt32.ofNat round + 1 = UInt32.ofNat (round + 1) :=
  (UInt32.ofNat_add round 1).symm

theorem forall₂_set {α β : Type*} {R : α → β → Prop} {l : List α} {l' : List β}
    (h : List.Forall₂ R l l') {a : α} {b : β} (hab : R a b) (i : ℕ) :
    List.Forall₂ R (l.set i a) (l'.set i b) := by
  induction h generalizing i with
  | nil => exact .nil
  | cons hhead htail ih =>
      cases i with
      | zero => exact .cons hab htail
      | succ i => exact .cons hhead (ih i)

theorem forall₂_getElem? {α β : Type*} {R : α → β → Prop} {l : List α} {l' : List β}
    (h : List.Forall₂ R l l') (i : ℕ) : Option.Rel R l[i]? l'[i]? := by
  induction h generalizing i with
  | nil => exact .none
  | cons hhead htail ih =>
      cases i with
      | zero => exact .some hhead
      | succ i => exact ih i

namespace LatticeAgreement

/-- Related states of all rounds, with contracts of the same names. -/
structure Narrows (V : Finset UInt32) (n : ℕ) (la : LatticeAgreement)
    (wide : BroadcastService.LatticeAgreement) : Prop where
  states : List.Forall₂ (fun state wide => state.Narrows wide ∧ Bounded V n wide)
    la.roundStates wide.roundStates
  contracts : la.contracts = wide.contracts

namespace Narrows

variable {la la' : LatticeAgreement} {wide : BroadcastService.LatticeAgreement}

theorem appendEmptyRoundState (h : la.Narrows V n wide) :
    la.appendEmptyRoundState.Narrows V n wide.appendEmptyRoundState := by
  refine ⟨List.rel_append h.states (.cons ⟨⟨?_, rfl⟩, .empty _ _⟩ .nil), ?_⟩
  · rw [h.contracts]
    rfl
  · exact congrArg (· + 1) h.contracts

theorem initializeEmptyRoundStates (h : la.Narrows V n wide) (round : UInt32) :
    (la.initializeEmptyRoundStates round).Narrows V n
      (wide.initializeEmptyRoundStates round.toNat) := by
  rw [LatticeAgreement.initializeEmptyRoundStates,
    BroadcastService.LatticeAgreement.initializeEmptyRoundStates, h.states.length_eq]
  induction round.toNat + 1 - wide.roundStates.length with
  | zero => exact h
  | succ k ih =>
      rw [Function.iterate_succ_apply', Function.iterate_succ_apply']
      exact ih.appendEmptyRoundState

theorem getRoundState (h : la.Narrows V n wide) (round : UInt32) :
    ∃ la' state, la.getRoundState round = some (la', state) ∧
      la'.Narrows V n (wide.getRoundState round.toNat).1 ∧
      state.Narrows (wide.getRoundState round.toNat).2 ∧
      Bounded V n (wide.getRoundState round.toNat).2 := by
  have hla := h.initializeEmptyRoundStates round
  have hopen : (if la.roundStates.length ≤ round.toNat then la.initializeEmptyRoundStates round
      else la) = la.initializeEmptyRoundStates round := by
    split_ifs with hlength
    · rfl
    · rw [LatticeAgreement.initializeEmptyRoundStates, Nat.sub_eq_zero_of_le (by omega)]
      rfl
  have hlt := wide.lt_length_initializeEmptyRoundStates round.toNat
  have hstate := forall₂_getElem? hla.states round.toNat
  rw [List.getElem?_eq_getElem hlt] at hstate
  generalize hc : (la.initializeEmptyRoundStates round).roundStates[round.toNat]? = entry
    at hstate
  cases hstate with
  | @some state _ hstate =>
      refine ⟨la.initializeEmptyRoundStates round, state, ?_, hla, ?_⟩
      · simp only [LatticeAgreement.getRoundState, hopen, hc]
        rfl
      · simpa [BroadcastService.LatticeAgreement.getRoundState, List.getD_eq_getElem?_getD,
          List.getElem?_eq_getElem hlt] using hstate

/-- Two handlers that agree on the state of a round agree on the object. -/
theorem withRoundState {α β : Type*} {Q : α → β → Prop} (h : la.Narrows V n wide) (round : UInt32)
    {f : RoundState → RoundState × α}
    {g : BroadcastService.RoundState → BroadcastService.RoundState × β}
    (hfg : ∀ state : RoundState, state.Narrows (wide.getRoundState round.toNat).2 →
      Bounded V n (wide.getRoundState round.toNat).2 →
      (f state).1.Narrows (g (wide.getRoundState round.toNat).2).1 ∧
        Bounded V n (g (wide.getRoundState round.toNat).2).1 ∧
        Q (f state).2 (g (wide.getRoundState round.toNat).2).2) :
    ∃ la' out, la.withRoundState round f = some (la', out) ∧
      la'.Narrows V n (wide.withRoundState round.toNat g).1 ∧
      Q out (wide.withRoundState round.toNat g).2 := by
  obtain ⟨la', state, hget, hla', hstate, hbounded⟩ := h.getRoundState round
  obtain ⟨hnarrows, hbounded', hout⟩ := hfg state hstate hbounded
  refine ⟨{ la' with roundStates := la'.roundStates.set round.toNat (f state).1 }, (f state).2, ?_,
    ⟨forall₂_set hla'.states ⟨hnarrows, hbounded'⟩ round.toNat, hla'.contracts⟩, hout⟩
  rw [LatticeAgreement.withRoundState, hget]
  rfl

theorem handleProposals (h : la.Narrows V n wide) {first : ℕ}
    {proposals : List BroadcastService.Proposal} (hround : first + proposals.length ≤ 2 ^ 32)
    (hv : ∀ proposal ∈ proposals, Valid V proposal.proposedValue) :
    ∃ la', la.handleProposals (UInt32.ofNat first) (proposals.map Proposal.narrowed) =
        some (la', (wide.handleProposals first proposals).2.map Accept.narrowed) ∧
      la'.Narrows V n (wide.handleProposals first proposals).1 ∧
      ∀ accept ∈ (wide.handleProposals first proposals).2, Answer V accept := by
  induction proposals generalizing la wide first with
  | nil => exact ⟨la, rfl, h, by simp [BroadcastService.LatticeAgreement.handleProposals]⟩
  | cons proposal proposals ih =>
      rw [List.length_cons] at hround
      have hfirst : (UInt32.ofNat first).toNat = first :=
        UInt32.toNat_ofNat_of_lt' (show first < 2 ^ 32 by omega)
      have hrest : first + 1 + proposals.length ≤ 2 ^ 32 := by omega
      obtain ⟨la₁, accept, hstep, hla₁, rfl, hanswer⟩ := h.withRoundState (UInt32.ofNat first)
        (f := RoundState.handlePropose (Proposal.narrowed proposal))
        (g := BroadcastService.RoundState.handlePropose proposal)
        (Q := fun accept wide => accept = Accept.narrowed wide ∧ Answer V wide)
        fun state hstate hbounded => by
          obtain ⟨hnarrows, haccept⟩ := hstate.handlePropose proposal
          obtain ⟨hbounded', hanswer⟩ := hbounded.handlePropose (hv proposal List.mem_cons_self)
          exact ⟨hnarrows, hbounded', haccept, hanswer⟩
      rw [hfirst] at hstep hla₁ hanswer
      obtain ⟨la₂, hsteps, hla₂, hanswers⟩ := ih hla₁ hrest
        fun p hp => hv p (List.mem_cons_of_mem _ hp)
      refine ⟨la₂, ?_, hla₂, List.forall_mem_cons.2 ⟨hanswer, hanswers⟩⟩
      rw [List.map_cons, LatticeAgreement.handleProposals, LatticeAgreement.handlePropose, hstep,
        Option.bind_some, ofNat_succ]
      simp only [hsteps]
      rfl

omit la in
theorem activeProposalNumber_getRoundState (wide : BroadcastService.LatticeAgreement) (round : ℕ) :
    (wide.getRoundState round).2.activeProposalNumber =
      (wide.view round).activeProposalNumber := by
  rw [← wide.view_initializeEmptyRoundStates round round]
  rfl

theorem handleAccepts (h : la.Narrows V n wide) (hn : majority n + 1 < 2 ^ 32)
    (peerId : P → UInt8) {first : ℕ} {accepts : List BroadcastService.Accept}
    (hround : first + accepts.length ≤ 2 ^ 32)
    (hnumber : ∀ r, first ≤ r → (wide.view r).activeProposalNumber + 1 < 2 ^ 32)
    (ha : ∀ accept ∈ accepts, accept.proposalNumber < 2 ^ 32 ∧ Valid V accept.acceptedValue) :
    ∃ la' outs, la.handleAccepts n (UInt32.ofNat first) (accepts.map Accept.narrowed) =
        some (la', outs) ∧
      la'.Narrows V n (wide.handleAccepts (P := P) n first accepts).1 ∧
      outs.map Output.effect =
        (wide.handleAccepts n first accepts).2.filterMap (effectOf peerId) ∧
      ∀ o ∈ (wide.handleAccepts (P := P) n first accepts).2,
        Fits V o ∧ ∀ message, o ≠ .propose message := by
  induction accepts generalizing la wide first with
  | nil => exact ⟨la, [], rfl, h, rfl, by simp [BroadcastService.LatticeAgreement.handleAccepts]⟩
  | cons accept accepts ih =>
      rw [List.length_cons] at hround
      obtain ⟨hsmall, hvalue⟩ := ha accept List.mem_cons_self
      have hlt : first < 2 ^ 32 := by omega
      have hfirst : (UInt32.ofNat first).toNat = first := UInt32.toNat_ofNat_of_lt' hlt
      have hrest : first + 1 + accepts.length ≤ 2 ^ 32 := by omega
      obtain ⟨la₁, outs, hstep, hla₁, houts, hfits⟩ := h.withRoundState (UInt32.ofNat first)
        (f := RoundState.handleAccept n (UInt32.ofNat first) (Accept.narrowed accept))
        (g := BroadcastService.RoundState.handleAccept (P := P) (majority n)
          (UInt32.ofNat first).toNat accept)
        (Q := fun outs wide => outs.map Output.effect = wide.filterMap (effectOf peerId) ∧
          ∀ o ∈ wide, Fits V o ∧ ∀ message, o ≠ .propose message)
        fun state hstate hbounded => by
          have hsucc : (wide.getRoundState (UInt32.ofNat first).toNat).2.activeProposalNumber + 1 <
              2 ^ 32 := by
            rw [activeProposalNumber_getRoundState, hfirst]
            exact hnumber first le_rfl
          obtain ⟨hnarrows, heffects⟩ := hstate.handleAccept hbounded hn hsucc peerId hsmall
          exact ⟨hnarrows, hbounded.handleAccept peerId _ hvalue, heffects,
            hbounded.handleAccept_fits (UInt32.ofNat first).toNat_lt hvalue⟩
      rw [hfirst] at hla₁ houts hfits
      obtain ⟨_, -, -, -, hviews⟩ := wide.withRoundState_spec first
        (BroadcastService.RoundState.handleAccept (P := P) (majority n) first accept)
      have hnumber' : ∀ r, first + 1 ≤ r → ((wide.withRoundState first
          (BroadcastService.RoundState.handleAccept (P := P) (majority n) first accept)).1.view
            r).activeProposalNumber + 1 < 2 ^ 32 := by
        intro r hr
        rw [hviews r (by omega)]
        exact hnumber r (by omega)
      obtain ⟨la₂, outs', hsteps, hla₂, houts', hfits'⟩ := ih hla₁ hrest hnumber'
        fun a h => ha a (List.mem_cons_of_mem _ h)
      have hnarrowed : la.handleAccept n (UInt32.ofNat first) (Accept.narrowed accept) =
          some (la₁, outs) := by
        rw [← hstep]
        obtain ⟨status, number, value⟩ := accept
        cases status with
        | ack => rfl
        | nack => rfl
      refine ⟨la₂, outs ++ outs', ?_, hla₂, ?_, ?_⟩
      · rw [List.map_cons, LatticeAgreement.handleAccepts, hnarrowed, Option.bind_some, ofNat_succ]
        simp only [hsteps]
        rfl
      · rw [List.map_append, houts, houts', ← List.filterMap_append]
        rfl
      · intro o ho
        exact (List.mem_append.1 ho).elim (hfits o) (hfits' o)

theorem initializeNextRoundState (h : la.Narrows V n wide) {round : UInt32} {value : List UInt32}
    (hv : Valid V value) {future : Option ℕ}
    (hs : la.initializeNextRoundState round value = some (la', future)) :
    ∃ wide' future', wide.initializeNextRoundState round.toNat value = some (wide', future') ∧
      la'.Narrows V n wide' := by
  unfold LatticeAgreement.initializeNextRoundState at hs
  unfold BroadcastService.LatticeAgreement.initializeNextRoundState
  have hstate := forall₂_getElem? h.states round.toNat
  generalize la.roundStates[round.toNat]? = entry at hs hstate
  generalize wide.roundStates[round.toNat]? = entry' at hstate
  cases hstate with
  | @some state state' hstate =>
      obtain ⟨hnarrows, hbounded⟩ := hstate
      obtain ⟨future, hfuture, he⟩ := Option.map_eq_some_iff.1 hs
      obtain ⟨rfl, -⟩ := Prod.mk.inj he
      have hsome : state'.preliminaryFuture.isSome := by
        rw [← hnarrows.future, hfuture]
        rfl
      obtain ⟨future', hfuture'⟩ := Option.isSome_iff_exists.1 hsome
      have hproposed : RoundState.Narrows
          { state with proposedValue := value, preliminaryFuture := some none }
          { state' with proposedValue := value } := by
        refine ⟨?_, hsome.symm⟩
        exact congrArg (fun s : BroadcastService.RoundState => { s with proposedValue := value })
          hnarrows.widened
      have hbounded' : Bounded V n { state' with proposedValue := value } :=
        ⟨hv, hbounded.accepted, hbounded.counted, hbounded.undecided⟩
      exact ⟨_, _, Option.map_eq_some_iff.2 ⟨future', hfuture', rfl⟩,
        forall₂_set h.states ⟨hproposed, hbounded'⟩ round.toNat, h.contracts⟩
  | none =>
      obtain ⟨hlength, he⟩ := Option.ite_none_right_eq_some.1 hs
      obtain ⟨rfl, -⟩ := Prod.mk.inj (Option.some.inj he)
      refine ⟨_, _, if_pos (hlength.trans h.states.length_eq),
        ⟨List.rel_append h.states (.cons ⟨⟨?_, rfl⟩, ?_⟩ .nil), congrArg (· + 1) h.contracts⟩⟩
      · rw [h.contracts]
        rfl
      · exact ⟨hv, .nil, Nat.zero_le _, fun _ => Nat.succ_pos _⟩

theorem initializeRoundStates (h : la.Narrows V n wide) {first : ℕ}
    {proposals : List BroadcastService.Proposal} (hround : first + proposals.length ≤ 2 ^ 32)
    (hv : ∀ proposal ∈ proposals, Valid V proposal.proposedValue) {futures : List (Option ℕ)}
    (hs : la.initializeRoundStates (UInt32.ofNat first) (proposals.map Proposal.narrowed) =
      some (la', futures)) :
    ∃ wide' futures', wide.initializeRoundStates first proposals = some (wide', futures') ∧
      la'.Narrows V n wide' := by
  induction proposals generalizing la wide first futures with
  | nil =>
      obtain ⟨rfl, -⟩ := Prod.mk.inj (Option.some.inj hs)
      exact ⟨wide, [], rfl, h⟩
  | cons proposal proposals ih =>
      rw [List.length_cons] at hround
      have hfirst : (UInt32.ofNat first).toNat = first :=
        UInt32.toNat_ofNat_of_lt' (show first < 2 ^ 32 by omega)
      have hrest : first + 1 + proposals.length ≤ 2 ^ 32 := by omega
      obtain ⟨⟨la₁, future⟩, hstep, hs⟩ := Option.bind_eq_some_iff.1 hs
      obtain ⟨⟨la₂, futures⟩, hsteps, he⟩ := Option.map_eq_some_iff.1 hs
      obtain ⟨rfl, -⟩ := Prod.mk.inj he
      obtain ⟨wide₁, future', hwide₁, h₁⟩ :=
        h.initializeNextRoundState (hv proposal List.mem_cons_self) hstep
      rw [hfirst] at hwide₁
      rw [ofNat_succ] at hsteps
      obtain ⟨wide₂, futures', hwide₂, h₂⟩ := ih h₁ hrest
        (fun p hp => hv p (List.mem_cons_of_mem _ hp)) hsteps
      refine ⟨wide₂, future' :: futures', ?_, h₂⟩
      rw [BroadcastService.LatticeAgreement.initializeRoundStates, hwide₁]
      simp only [Option.bind_some, hwide₂]
      rfl

end Narrows

end LatticeAgreement

end BroadcastService.LatticeWire

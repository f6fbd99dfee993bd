import BroadcastService.LatticeBookkeeping

/-!
# The rounds of a `Propose` call on the wire

`Propose` opens a round for every proposal of its message, and broadcasts the message. `Marshal`
stores the number of proposals in 8 bits and the number of integers in a value in 32 bits. Whatever
a peer decodes has fewer than 256 proposals (`ProposalMessage.unmarshal_bounds`), so the rounds that
were opened are really proposed exactly if the counts of the message fit (`opened_rounds_proposed`).
-/

namespace BroadcastService.LatticeWire

theorem length_of_unmarshalValues {size : ℕ} {bytes rest : Bytes} {values : List UInt32}
    (h : unmarshalValues size bytes = some (values, rest)) : values.length = size := by
  obtain ⟨⟨numbers, rest'⟩, hnumbers, heq⟩ := Option.map_eq_some_iff.1 h
  obtain ⟨rfl, -⟩ := Prod.mk.inj heq
  rw [List.length_map, length_of_unmarshalArrayType hnumbers]

theorem unmarshalEach_forall {α : Type*} {unmarshal : α → Bytes → Option (α × Bytes)}
    {P : α → Prop}
    (hP : ∀ object bytes entry rest, unmarshal object bytes = some (entry, rest) → P entry)
    {objects entries : List α} {bytes rest : Bytes}
    (h : unmarshalEach unmarshal objects bytes = some (entries, rest)) :
    entries.length = objects.length ∧ ∀ entry ∈ entries, P entry := by
  induction objects generalizing bytes entries rest with
  | nil =>
      obtain ⟨rfl, -⟩ := Prod.mk.inj (Option.some.inj h)
      exact ⟨rfl, fun entry hentry => absurd hentry List.not_mem_nil⟩
  | cons object objects ih =>
      simp only [unmarshalEach, Option.bind_eq_bind, Option.bind_eq_some_iff] at h
      obtain ⟨⟨entry, bytes'⟩, hentry, ⟨entries', rest'⟩, hentries, heq⟩ := h
      obtain ⟨rfl, -⟩ := Prod.mk.inj (Option.some.inj heq)
      obtain ⟨hlength, hall⟩ := ih hentries
      refine ⟨by rw [List.length_cons, List.length_cons, hlength], ?_⟩
      exact List.forall_mem_cons.2 ⟨hP object bytes entry bytes' hentry, hall⟩

theorem Proposal.unmarshal_bounds {object proposal : Proposal} {bytes rest : Bytes}
    (h : unmarshal object bytes = some (proposal, rest)) :
    proposal.proposedValue.length < 2 ^ 32 := by
  simp only [unmarshal, Option.bind_eq_bind, Option.bind_eq_some_iff] at h
  obtain ⟨⟨size, bytes'⟩, hsize, ⟨values, bytes''⟩, hvalues, ⟨number, rest'⟩, -, heq⟩ := h
  obtain ⟨rfl, -⟩ := Prod.mk.inj (Option.some.inj heq)
  rw [length_of_unmarshalValues hvalues]
  exact lt_of_unmarshalPrimitiveType hsize

theorem ProposalMessage.unmarshal_bounds {decoded : ProposalMessage} {bytes rest : Bytes}
    (h : unmarshal ⟨0, []⟩ bytes = some (decoded, rest)) :
    decoded.proposals.length < 256 ∧ decoded.Sized := by
  simp only [unmarshal, Option.bind_eq_bind, Option.bind_eq_some_iff] at h
  obtain ⟨⟨first, bytes'⟩, -, ⟨count, bytes''⟩, hcount, ⟨proposals, rest'⟩, hproposals, heq⟩ := h
  obtain ⟨rfl, -⟩ := Prod.mk.inj (Option.some.inj heq)
  obtain ⟨hlength, hsized⟩ := unmarshalEach_forall
    (fun object bytes proposal rest hproposal => Proposal.unmarshal_bounds hproposal) hproposals
  refine ⟨?_, hsized⟩
  have hlt := lt_of_unmarshalPrimitiveType hcount
  simpa [hlength] using hlt

/-- `Propose` returns a future for every proposal. -/
theorem LatticeAgreement.length_initializeRoundStates {la la' : LatticeAgreement} {round : UInt32}
    {proposals : List Proposal} {futures : List (Option ℕ)}
    (h : la.initializeRoundStates round proposals = some (la', futures)) :
    futures.length = proposals.length := by
  induction proposals generalizing la la' round futures with
  | nil =>
      obtain ⟨-, rfl⟩ := Prod.mk.inj (Option.some.inj h)
      rfl
  | cons proposal proposals ih =>
      obtain ⟨⟨la₁, future⟩, -, hrest⟩ := Option.bind_eq_some_iff.1 h
      obtain ⟨⟨la₂, futures'⟩, hfutures, heq⟩ := Option.map_eq_some_iff.1 hrest
      obtain ⟨-, rfl⟩ := Prod.mk.inj heq
      rw [List.length_cons, ih hfutures, List.length_cons]

theorem LatticeAgreement.length_propose {la la' : LatticeAgreement} {message : ProposalMessage}
    {futures : List (Option ℕ)} {outs : List Output}
    (h : la.propose message = some (la', futures, outs)) :
    futures.length = message.proposals.length := by
  obtain ⟨⟨la₁, futures'⟩, hinit, heq⟩ := Option.map_eq_some_iff.1 h
  obtain ⟨-, hrest⟩ := Prod.mk.inj heq
  obtain ⟨rfl, -⟩ := Prod.mk.inj hrest
  exact length_initializeRoundStates hinit

def ProposalMessage.broadcastBytes (message : ProposalMessage) : Bytes :=
  (format.wrapMessage message).buffer

theorem LatticeAgreement.receive_proposal {bytes rest : Bytes} {received : LAMessage}
    {message : ProposalMessage} (hreceived : LAMessage.unmarshal bytes = some received)
    (htype : received.type = .proposal)
    (hmessage : ProposalMessage.unmarshal ⟨0, []⟩ received.message = some (message, rest))
    (networkSize : ℕ) (src : UInt8) (la : LatticeAgreement) :
    la.receive networkSize src bytes = la.handleProposalMessage src message := by
  simp only [receive, hreceived, Option.bind_eq_bind, Option.bind_some, htype, hmessage]

/-- The rounds that were opened, those with a future, are the rounds a peer is asked about, with the
same values, and it answers each of them. -/
structure ReallyProposed (networkSize : ℕ) (src : UInt8) (message : ProposalMessage)
    (futures : List (Option ℕ)) : Prop where
  decoded : ∃ received decoded rest, LAMessage.unmarshal message.broadcastBytes = some received ∧
    received.type = .proposal ∧
    ProposalMessage.unmarshal ⟨0, []⟩ received.message = some (decoded, rest) ∧
    decoded.firstRoundId = message.firstRoundId ∧ decoded.proposals.length = futures.length ∧
    decoded.proposals.map (·.proposedValue) = message.proposals.map (·.proposedValue)
  answered : ∀ peer : Session, Session.Reaches networkSize {} peer → ∃ la' accepts,
    peer.la.receive networkSize src message.broadcastBytes =
      some (la', [.send src ⟨message.firstRoundId, accepts⟩]) ∧
    accepts.length = futures.length

theorem ReallyProposed.bounds {networkSize : ℕ} {src : UInt8} {message : ProposalMessage}
    {futures : List (Option ℕ)} (h : ReallyProposed networkSize src message futures) :
    message.proposals.length < 256 ∧ message.Sized := by
  obtain ⟨received, decoded, rest, -, -, hdecoded, -, -, hvalues⟩ := h.decoded
  obtain ⟨hcount, hsized⟩ := ProposalMessage.unmarshal_bounds hdecoded
  constructor
  · have hlength := congrArg List.length hvalues
    rw [List.length_map, List.length_map] at hlength
    omega
  · intro proposal hproposal
    have hmem : proposal.proposedValue ∈ decoded.proposals.map (·.proposedValue) := by
      rw [hvalues]
      exact List.mem_map_of_mem hproposal
    obtain ⟨proposal', hproposal', heq⟩ := List.mem_map.1 hmem
    rw [← heq]
    exact hsized proposal' hproposal'

theorem opened_rounds_proposed {la la' : LatticeAgreement} {message : ProposalMessage}
    {futures : List (Option ℕ)} {outs : List Output} (networkSize : ℕ) (src : UInt8)
    (hpropose : la.propose message = some (la', futures, outs)) :
    ReallyProposed networkSize src message futures ↔
      message.proposals.length < 256 ∧ message.Sized := by
  have hfutures := LatticeAgreement.length_propose hpropose
  constructor
  · exact ReallyProposed.bounds
  · rintro ⟨hcount, hsized⟩
    have hfresh : (⟨0, []⟩ : ProposalMessage).proposals = [] := rfl
    have hround := ProposalMessage.roundTrip (Nat.le_of_lt_succ hcount) hsized
    obtain ⟨received, hreceived, htype, hdecoded⟩ := hround.unwrapped ⟨0, []⟩ hfresh
    refine ⟨⟨received, message, [], hreceived, htype, hdecoded, rfl, hfutures.symm, rfl⟩, ?_⟩
    intro peer hpeer
    have hbook := ((bookkeeping_start networkSize).reaches hpeer).1
    obtain ⟨s', accepts, hhandle, hlength, -⟩ :=
      hbook.handleProposals message.firstRoundId message.proposals
    refine ⟨s'.la, accepts, ?_, hlength.trans hfutures.symm⟩
    have hreceive := peer.la.receive_proposal hreceived htype hdecoded networkSize src
    rw [ProposalMessage.broadcastBytes, hreceive, LatticeAgreement.handleProposalMessage, hhandle]
    rfl

def twoRounds : ProposalMessage := ⟨0, [⟨[1, 2], 0⟩, ⟨[3], 0⟩]⟩

theorem opened_rounds_proposed_two :
    twoRounds.proposals.length < 256 ∧ ReallyProposed 3 7 twoRounds [some 0, some 1] := by
  have hpropose : ∃ la' outs,
      LatticeAgreement.propose {} twoRounds = some (la', [some 0, some 1], outs) := ⟨_, _, rfl⟩
  have hsized : twoRounds.Sized := by
    intro proposal hproposal
    simp only [twoRounds, List.mem_cons, List.not_mem_nil, or_false] at hproposal
    obtain rfl | rfl := hproposal
    · decide
    · decide
  obtain ⟨la', outs, hpropose⟩ := hpropose
  exact ⟨by decide, (opened_rounds_proposed 3 7 hpropose).2 ⟨by decide, hsized⟩⟩

def overfullBatch : ProposalMessage := ⟨0, List.replicate 256 ⟨[], 0⟩⟩

/-- 256 rounds are opened, and a peer is asked about none. -/
theorem opened_rounds_lost : ∃ la' futures outs,
    LatticeAgreement.propose {} overfullBatch = some (la', futures, outs) ∧
    futures.length = 256 ∧
    (∀ bytes, (ProposalMessage.unmarshal ⟨0, []⟩ (overfullBatch.marshal bytes)).map Prod.fst =
      some ⟨0, []⟩) ∧
    ¬ReallyProposed 3 7 overfullBatch futures := by
  have hcount : overfullBatch.proposals.length = 256 := List.length_replicate
  obtain ⟨la', futures, hinit, -⟩ := (bookkeeping_start 3).initializeRoundStates
    overfullBatch.proposals (by rw [hcount]; decide)
  have hpropose : LatticeAgreement.propose {} overfullBatch =
      some (la', futures, [.broadcast overfullBatch]) := by
    rw [LatticeAgreement.propose]
    exact congrArg _ hinit
  have hsized : overfullBatch.Sized := by
    intro proposal hproposal
    obtain rfl := List.eq_of_mem_replicate hproposal
    decide
  refine ⟨la', futures, _, hpropose, ?_, ?_, ?_⟩
  · rw [LatticeAgreement.length_propose hpropose, hcount]
  · intro bytes
    rw [ProposalMessage.unmarshal_marshal hsized rfl, hcount]
    rfl
  · intro hproposed
    have hlt := hproposed.bounds.1
    omega

end BroadcastService.LatticeWire

import BroadcastService.FifoDeployment
import BroadcastService.LatticeNarrowing
import BroadcastService.LatticeRefinement

/-!
# Lattice agreement over a lossy network

All layers of lattice agreement together: the object with its 32-bit counters, whose messages are
wrapped, marshalled and sent over the reliable transport, and datagrams that the network may lose,
duplicate and reorder. Batches hold fewer than 256 proposals, rounds stay below `2 ^ 32`, and
proposals are sets of values from a set `V` with fewer than `2 ^ 32 - 1` elements. Then no counter
wraps and every message is decoded to what was sent: a proposal number counts broadcasts that grow
strictly within `V`. Hence the processes do what `latticeProgram` does over perfect links, and two
decisions of a round are comparable (`lattice_over_datagrams`).
-/

namespace BroadcastService.LatticeWire
open MessagePassing Transport TransitionSystem

variable {n : ℕ} {ids : PeerIds (Fin n)} {V : Finset UInt32}

/-- `proposed` are the batches that `Propose` was called with, with their first round. -/
structure Process where
  la : LatticeAgreement := {}
  proposed : List (ℕ × List (List UInt32)) := []

namespace Process

def rounds (process : Process) : List ℕ :=
  process.proposed.flatMap fun batch => List.range' batch.1 batch.2.length

def proposals (process : Process) (r : ℕ) : List (List UInt32) :=
  process.proposed.filterMap fun batch => entryAt batch.1 batch.2 r

def propose (process : Process) (first : UInt32) (batch : List (List UInt32)) :
    Option (Process × List Output) :=
  (process.la.propose ⟨first, batch.map fun value => ⟨value, 0⟩⟩).map fun (la, _, outs) =>
    (⟨la, process.proposed ++ [(first.toNat, batch)]⟩, outs)

def receive (networkSize : ℕ) (process : Process) (peer : UInt8) (bytes : Bytes) :
    Option (Process × List Output) :=
  (process.la.receive networkSize peer bytes).map fun (la, outs) => ({ process with la }, outs)

end Process

/-- What the application may call `Propose` with. -/
def mayPropose (V : Finset UInt32) (process : Process) (first : UInt32)
    (batch : List (List UInt32)) : Bool :=
  decide (first.toNat + batch.length ≤ 2 ^ 32 ∧ batch.length < 256) &&
    batch.all (fun value => decide value.Nodup && value.all (fun x => decide (x ∈ V))) &&
    (List.range' first.toNat batch.length).all fun r => decide (r ∉ process.rounds)

theorem mayPropose_iff {process : Process} {first : UInt32} {batch : List (List UInt32)} :
    mayPropose V process first batch = true ↔
      (first.toNat + batch.length ≤ 2 ^ 32 ∧ batch.length < 256) ∧
      (∀ value ∈ batch, Valid V value) ∧
      ∀ r ∈ List.range' first.toNat batch.length, r ∉ process.rounds := by
  simp only [mayPropose, Bool.and_eq_true, List.all_eq_true, decide_eq_true_eq, Valid, and_assoc]

def Effect.emit (ids : PeerIds (Fin n)) (me : Fin n) : Effect → List (Fin n × Bytes)
  | .broadcast message =>
      bestEffortBroadcast me (ProposalMessage.format.wrapMessage message).buffer
  | .send peer message =>
      ((ids.host peer).map fun q => (q, (AcceptMessage.format.wrapMessage message).buffer)).toList
  | .decide _ _ => []

def latticeBytes (n : ℕ) (ids : PeerIds (Fin n)) (V : Finset UInt32) :
    Program (Fin n) Process Bytes (UInt32 × List (List UInt32)) Output where
  start _ := {}
  enabled _ process _ x := mayPropose V process x.1 x.2
  onInput _ process x := process.propose x.1 x.2
  onMessage _ process src bytes := process.receive n (ids.peerId src) bytes
  emit me output := output.effect.emit ids me

/-- What `WrapMessage` makes of a message. -/
def encode : BroadcastService.LAMessage → Bytes
  | .proposal message =>
      (ProposalMessage.format.wrapMessage (ProposalMessage.narrowed message)).buffer
  | .accept message => (AcceptMessage.format.wrapMessage (AcceptMessage.narrowed message)).buffer
  | .decide round => (⟨.decide, binaryMarshalPrimitiveType 4 round⟩ : LAMessage).buffer

theorem FitsProposals.sized {message : BroadcastService.ProposalMessage}
    (h : FitsProposals V message) (hV : V.card + 1 < 2 ^ 32) :
    (ProposalMessage.narrowed message).Sized := by
  intro proposal hproposal
  obtain ⟨wide, hwide, rfl⟩ := List.mem_map.1 hproposal
  exact lt_of_le_of_lt (h.values wide hwide).length_le (by omega)

theorem FitsAccepts.asBuilt {message : BroadcastService.AcceptMessage} (h : FitsAccepts V message)
    (hV : V.card + 1 < 2 ^ 32) : (AcceptMessage.narrowed message).AsBuilt := by
  intro accept haccept
  obtain ⟨⟨status, number, value⟩, hwide, rfl⟩ := List.mem_map.1 haccept
  obtain ⟨hvalid, hack⟩ := h.answers _ hwide
  cases status with
  | ack => exact .inl ⟨rfl, hack rfl⟩
  | nack => exact .inr ⟨rfl, lt_of_le_of_lt hvalid.length_le (by omega)⟩

/-- A message on the wire is decoded to the message of the handlers, narrowed. -/
theorem receive_proposal (la : LatticeAgreement) (peer : UInt8)
    {message : BroadcastService.ProposalMessage} (h : FitsProposals V message)
    (hV : V.card + 1 < 2 ^ 32) :
    la.receive n peer (encode (.proposal message)) =
      la.handleProposalMessage peer (ProposalMessage.narrowed message) := by
  have hround := ProposalMessage.roundTrip
    (by simpa [ProposalMessage.narrowed] using Nat.le_of_lt_succ h.length) (h.sized hV)
  obtain ⟨received, hreceived, htype, hmessage⟩ := hround.unwrapped ⟨0, []⟩ rfl
  have hunmarshal : ProposalMessage.unmarshal ⟨0, []⟩ received.message =
      some (ProposalMessage.narrowed message, []) := hmessage
  rw [LatticeAgreement.receive, encode, hreceived]
  simp [htype, ProposalMessage.format, hunmarshal]

theorem receive_accept (la : LatticeAgreement) (peer : UInt8)
    {message : BroadcastService.AcceptMessage} (h : FitsAccepts V message)
    (hV : V.card + 1 < 2 ^ 32) :
    la.receive n peer (encode (.accept message)) =
      la.handleAcceptMessage n (AcceptMessage.narrowed message) := by
  have hround := AcceptMessage.roundTrip
    (by simpa [AcceptMessage.narrowed] using Nat.le_of_lt_succ h.length) (h.asBuilt hV)
  obtain ⟨received, hreceived, htype, hmessage⟩ := hround.unwrapped ⟨0, []⟩ rfl
  have hunmarshal : AcceptMessage.unmarshal ⟨0, []⟩ received.message =
      some (AcceptMessage.narrowed message, []) := hmessage
  rw [LatticeAgreement.receive, encode, hreceived]
  simp [htype, AcceptMessage.format, hunmarshal]

section Numbers

variable {v : LAWorld n} (hv : (latticeProgram n).Reachable v)
  (hset : ∀ p r, ∀ u ∈ initialProposals v p r, Valid V u)

include hv hset

theorem activeProposalNumber_le (p : Fin n) (r : ℕ) :
    ((v.node p).la.view r).activeProposalNumber ≤ V.card := by
  have hround := round_reachable hv r
  have hset' : Proposals List.Nodup ((roundProjection n r).world v).toHistory :=
    fun p u b hu => (hset p r u (mem_initialProposals.2 ⟨b, hu⟩)).1
  have hnum := (numbering hround).node p
  rcases hnum.current with ⟨-, hzero⟩ | ⟨hproposed, hlength⟩
  · exact le_of_eq_of_le hzero (Nat.zero_le _)
  · have hpos : 0 < (broadcasts (((roundProjection n r).world v).trace p)).length := by omega
    obtain ⟨pr, hpr⟩ := List.exists_mem_of_length_pos hpos
    obtain ⟨value, hvalue⟩ := hnum.exists_broadcast (mem_broadcasts.1 hpr) le_rfl
    obtain ⟨u, b, hu⟩ := (owned hround p).proposed.1 hproposed
    have hunion : initialUnion v r ⊆ V := by
      intro x hx
      obtain ⟨q, u, hu, hx⟩ := mem_initialUnion.1 hx
      exact (hset q r u hu).2 x hx
    calc ((v.node p).la.view r).activeProposalNumber
        ≤ ((v.node p).la.view r).activeProposalNumber + u.toFinset.card := Nat.le_add_right _ _
      _ ≤ value.toFinset.card := card_broadcast hround hset' hu _ hvalue
      _ ≤ (initialUnion v r).card := card_value_le_initialUnion hv hvalue
      _ ≤ V.card := Finset.card_le_card hunion

theorem proposalNumber_le {m : MessagePassing.Packet (Fin n) BroadcastService.LAMessage}
    (hm : m ∈ v.inflight) {message : BroadcastService.AcceptMessage} (hb : m.body = .accept message)
    {accept : BroadcastService.Accept} (ha : accept ∈ message.accepts) :
    accept.proposalNumber ≤ V.card := by
  obtain ⟨i, hi⟩ := List.mem_iff_getElem?.1 ha
  have hentry : message.atRound (message.firstRoundId + i) = some accept := by
    rw [AcceptMessage.atRound, entryAt, if_pos (Nat.le_add_right _ _), Nat.add_sub_cancel_left, hi]
  have hround := round_reachable hv (message.firstRoundId + i)
  have hinflight : ⟨m.src, m.dst, .accept accept⟩ ∈
      ((roundProjection n (message.firstRoundId + i)).world v).inflight := by
    refine List.mem_filterMap.2 ⟨m, hm, ?_⟩
    simp [Projection.packet, roundProjection, hb, BroadcastService.LAMessage.atRound, hentry]
  obtain ⟨pr, hpr, he⟩ :=
    (numbering hround).answered m.src m.dst accept (reply_of_inflight hround hinflight)
  calc accept.proposalNumber = pr.activeProposalNumber := he.symm
    _ ≤ ((v.node m.dst).la.view (message.firstRoundId + i)).activeProposalNumber :=
      ((numbering hround).node m.dst).le_current hpr
    _ ≤ V.card := activeProposalNumber_le hv hset m.dst _

end Numbers

def proposedBatch : LAOutput (Fin n) → Option (ℕ × List (List UInt32))
  | .propose message => some (message.firstRoundId, message.proposals.map (·.proposedValue))
  | _ => none

/-- A process and what it did, on bytes and on messages. -/
structure Simulates (ids : PeerIds (Fin n)) (V : Finset UInt32) (process : Process)
    (outs : List Output) (wide : LAProcess) (outs' : List (LAOutput (Fin n))) : Prop where
  la : process.la.Narrows V n wide.la
  rounds : wide.rounds = process.rounds
  proposed : outs'.filterMap proposedBatch = process.proposed
  effects : outs.map Output.effect = outs'.filterMap (effectOf ids.peerId)
  fits : ∀ o ∈ outs', Fits V o

theorem Simulates.start (ids : PeerIds (Fin n)) (V : Finset UInt32) :
    Simulates ids V {} [] {} [] :=
  ⟨⟨.nil, rfl⟩, rfl, rfl, rfl, by simp⟩

theorem packets_of_effects {outs : List Output} {outs' : List (LAOutput (Fin n))} {p : Fin n}
    (h : outs.map Output.effect = outs'.filterMap (effectOf ids.peerId))
    (hfits : ∀ o ∈ outs', Fits V o) :
    (latticeBytes n ids V).packets p outs =
      ((latticeProgram n).packets p outs').map (Packet.encoded encode) := by
  have hemit : ∀ o ∈ outs', ((latticeProgram n).emit p o).map (fun d => (d.1, encode d.2)) =
      ((effectOf ids.peerId o).toList).flatMap (Effect.emit ids p) := by
    intro o ho
    cases o with
    | broadcast message =>
        have honWire := ProposalMessage.onWire_of_length_lt (hfits _ ho).length
        simp [latticeProgram, latticeEmit, honWire, effectOf, Effect.emit, bestEffortBroadcast,
          encode]
    | send dst message =>
        have honWire := AcceptMessage.onWire_of_length_lt (hfits _ ho).length
        simp [latticeProgram, latticeEmit, honWire, effectOf, Effect.emit, ids.host_peerId, encode]
    | propose message => rfl
    | setPromise contract => rfl
    | callback round value => rfl
  have hpackets : (latticeBytes n ids V).packets p outs =
      (outs.map Output.effect).flatMap fun effect =>
        (effect.emit ids p).map fun d => ⟨p, d.1, d.2⟩ := by
    rw [List.flatMap_map]
    rfl
  rw [hpackets, h, Program.packets, List.map_flatMap, List.filterMap_eq_flatMap_toList,
    List.flatMap_assoc]
  apply List.flatMap_congr
  intro o ho
  have hmap := congrArg (List.map fun d : Fin n × Bytes =>
    (⟨p, d.1, d.2⟩ : MessagePassing.Packet (Fin n) Bytes)) (hemit o ho)
  rw [List.map_map, List.map_flatMap] at hmap
  rw [← hmap, List.map_map]
  rfl

section Steps

variable {process : Process} {outs : List Output} {wide : LAProcess}
  {outs' : List (LAOutput (Fin n))}

theorem Simulates.matched (h : Simulates ids V process outs wide outs') {p : Fin n}
    {r : Process × List Output} {r' : LAProcess × List (LAOutput (Fin n))}
    (hr : Simulates ids V r.1 (outs ++ r.2) r'.1 (outs' ++ r'.2)) :
    Matched (latticeBytes n ids V) (latticeProgram n) encode (fun _ => Simulates ids V) p outs r
      outs' r' := by
  refine ⟨hr, packets_of_effects ?_ fun o ho => hr.fits o (List.mem_append_right _ ho)⟩
  have heffects := hr.effects
  rw [List.map_append, List.filterMap_append, h.effects] at heffects
  exact List.append_cancel_left heffects

theorem Simulates.propose (h : Simulates ids V process outs wide outs') {first : UInt32}
    {batch : List (List UInt32)} {r : Process × List Output}
    (hmay : mayPropose V process first batch = true) (hs : process.propose first batch = some r) :
    (∀ r ∈ List.range' first.toNat batch.length, r ∉ wide.rounds) ∧
      ∃ r', wide.proposeBatch first.toNat batch = some r' ∧
        Simulates ids V r.1 (outs ++ r.2) r'.1 (outs' ++ r'.2) := by
  obtain ⟨⟨hround, hlength⟩, hvalues, hrounds⟩ := mayPropose_iff.1 hmay
  rw [h.rounds]
  refine ⟨hrounds, ?_⟩
  let message : BroadcastService.ProposalMessage :=
    ⟨first.toNat, batch.map fun value => { proposedValue := value }⟩
  have hnarrowed : (⟨first, batch.map fun value => ⟨value, 0⟩⟩ : ProposalMessage) =
      ProposalMessage.narrowed message := by
    simp [ProposalMessage.narrowed, message]
  have hfits : FitsProposals V message := by
    refine ⟨by simpa [message] using hround, by simpa [message] using hlength, ?_⟩
    intro proposal hproposal
    obtain ⟨value, hvalue, rfl⟩ := List.mem_map.1 hproposal
    exact hvalues value hvalue
  obtain ⟨⟨la, futures, outs₁⟩, hpropose, rfl⟩ := Option.map_eq_some_iff.1 hs
  rw [hnarrowed] at hpropose
  obtain ⟨⟨la₁, futures₁⟩, hinit, he⟩ := Option.map_eq_some_iff.1 hpropose
  simp only [Prod.mk.injEq] at he
  obtain ⟨rfl, rfl, rfl⟩ := he
  obtain ⟨la', futures', hinit', hla'⟩ := h.la.initializeRoundStates hfits.rounds hfits.values hinit
  refine ⟨(⟨la', wide.rounds ++ List.range' first.toNat batch.length⟩,
    [.propose message, .broadcast message]), ?_, ?_⟩
  · rw [LAProcess.proposeBatch, BroadcastService.LatticeAgreement.propose]
    simp only [message] at hinit'
    rw [hinit']
    rfl
  · refine ⟨hla', ?_, ?_, ?_, ?_⟩
    · simp [Process.rounds, h.rounds]
    · simp [h.proposed, proposedBatch, message, Function.comp_def]
    · rw [List.map_append, List.filterMap_append, h.effects]
      rfl
    · intro o ho
      rcases List.mem_append.1 ho with ho | ho
      · exact h.fits o ho
      · rcases List.mem_cons.1 ho with rfl | ho
        · exact hfits
        · obtain rfl := List.mem_singleton.1 ho
          exact hfits

theorem Simulates.receive_proposal (h : Simulates ids V process outs wide outs')
    (hV : V.card + 1 < 2 ^ 32) {src : Fin n} {message : BroadcastService.ProposalMessage}
    (hm : FitsProposals V message) {r : Process × List Output}
    (hs : process.receive n (ids.peerId src) (encode (.proposal message)) = some r) :
    let r' := wide.onMessage n src (.proposal message)
    Simulates ids V r.1 (outs ++ r.2) r'.1 (outs' ++ r'.2) := by
  obtain ⟨la', hla, hnarrows, hanswers⟩ := h.la.handleProposals hm.rounds hm.values
  rw [Process.receive, LatticeWire.receive_proposal _ _ hm hV,
    LatticeAgreement.handleProposalMessage] at hs
  change Option.map _ (Option.map _ (process.la.handleProposals (UInt32.ofNat message.firstRoundId)
    (message.proposals.map Proposal.narrowed))) = some r at hs
  rw [hla] at hs
  obtain rfl := Option.some.inj hs
  refine ⟨hnarrows, h.rounds, ?_, ?_, ?_⟩
  · rw [List.filterMap_append, h.proposed]
    exact List.append_nil _
  · rw [List.map_append, List.filterMap_append, h.effects]
    rfl
  · intro o ho
    rcases List.mem_append.1 ho with ho | ho
    · exact h.fits o ho
    · obtain rfl := List.mem_singleton.1 ho
      have hlength := wide.la.length_handleProposals message.firstRoundId message.proposals
      refine ⟨?_, ?_, hanswers⟩
      · simpa only [hlength] using hm.rounds
      · simpa only [hlength] using hm.length

theorem Simulates.receive_accept (h : Simulates ids V process outs wide outs')
    (hn : majority n + 1 < 2 ^ 32) (hV : V.card + 1 < 2 ^ 32)
    (hnumber : ∀ r, (wide.la.view r).activeProposalNumber ≤ V.card) {src : Fin n}
    {message : BroadcastService.AcceptMessage} (hm : FitsAccepts V message)
    (hnumbers : ∀ accept ∈ message.accepts, accept.proposalNumber ≤ V.card)
    {r : Process × List Output}
    (hs : process.receive n (ids.peerId src) (encode (.accept message)) = some r) :
    let r' := wide.onMessage n src (.accept message)
    Simulates ids V r.1 (outs ++ r.2) r'.1 (outs' ++ r'.2) := by
  have haccepts : ∀ accept ∈ message.accepts,
      accept.proposalNumber < 2 ^ 32 ∧ Valid V accept.acceptedValue := by
    intro accept haccept
    have hle := hnumbers accept haccept
    exact ⟨by omega, (hm.answers accept haccept).1⟩
  have hsmall : ∀ r, message.firstRoundId ≤ r →
      (wide.la.view r).activeProposalNumber + 1 < 2 ^ 32 := by
    intro r _
    have hle := hnumber r
    omega
  obtain ⟨la', outs₁, hla, hnarrows, heffects, hfits⟩ :=
    h.la.handleAccepts hn ids.peerId hm.rounds hsmall haccepts
  rw [Process.receive, LatticeWire.receive_accept _ _ hm hV,
    LatticeAgreement.handleAcceptMessage] at hs
  change Option.map _ (process.la.handleAccepts n (UInt32.ofNat message.firstRoundId)
    (message.accepts.map Accept.narrowed)) = some r at hs
  rw [hla] at hs
  obtain rfl := Option.some.inj hs
  refine ⟨hnarrows, h.rounds, ?_, ?_, ?_⟩
  · rw [List.filterMap_append, h.proposed]
    have hnone : (wide.la.handleAccepts (P := Fin n) n message.firstRoundId
        message.accepts).2.filterMap proposedBatch = [] := by
      rw [List.filterMap_eq_nil_iff]
      intro o ho
      cases o with
      | propose message' => exact absurd rfl ((hfits _ ho).2 message')
      | _ => rfl
    exact (congrArg _ hnone).trans (List.append_nil _)
  · rw [List.map_append, List.filterMap_append, h.effects]
    exact congrArg _ heffects
  · intro o ho
    exact (List.mem_append.1 ho).elim (h.fits o) fun ho => (hfits o ho).1

end Steps

theorem entryAt_map {α β : Type*} (f : α → β) (first : ℕ) (l : List α) (r : ℕ) :
    entryAt first (l.map f) r = (entryAt first l r).map f := by
  unfold entryAt
  split_ifs
  · exact List.getElem?_map
  · rfl

section Worlds

variable {w : World (Fin n) Process Bytes Output} {v : LAWorld n}

theorem initialProposals_of_related (h : Related encode (fun _ => Simulates ids V) w v) (p : Fin n)
    (r : ℕ) : initialProposals v p r = (w.node p).proposals r := by
  rw [Process.proposals, ← (h.node p).proposed, List.filterMap_filterMap, initialProposals]
  apply List.filterMap_congr
  intro o _
  cases o with
  | propose message =>
      exact (entryAt_map (·.proposedValue) message.firstRoundId message.proposals r).symm
  | _ => rfl

theorem valid_initialProposals (h : Related encode (fun _ => Simulates ids V) w v) (p : Fin n)
    (r : ℕ) : ∀ u ∈ initialProposals v p r, Valid V u := by
  intro u hu
  obtain ⟨o, ho, he⟩ := List.mem_filterMap.1 hu
  cases o with
  | propose message =>
      obtain ⟨proposal, hproposal, rfl⟩ := Option.map_eq_some_iff.1 he
      refine ((h.node p).fits _ ho).values proposal ?_
      obtain ⟨-, hentry⟩ := Option.ite_none_right_eq_some.1 hproposal
      exact List.mem_of_getElem? hentry
  | _ => cases he

theorem fits_of_inflight (hv : (latticeProgram n).Reachable v)
    (h : Related encode (fun _ => Simulates ids V) w v)
    {m : MessagePassing.Packet (Fin n) BroadcastService.LAMessage} (hm : m ∈ v.inflight) :
    (∃ message, m.body = .proposal message ∧ FitsProposals V message) ∨
      ∃ message, m.body = .accept message ∧ FitsAccepts V message := by
  obtain ⟨-, o, ho, hd⟩ := (latticeProgram n).mem_packets.1 (Program.mem_sent_of_inflight hv hm)
  have hfits := (h.node m.src).fits o ho
  cases o with
  | broadcast message =>
      refine .inl ⟨message, ?_, hfits⟩
      rw [mem_bestEffortBroadcast.1 hd, ProposalMessage.onWire_of_length_lt hfits.length]
  | send dst message =>
      refine .inr ⟨message, ?_, hfits⟩
      rw [(Prod.mk.inj (List.mem_singleton.1 hd)).2,
        AcceptMessage.onWire_of_length_lt hfits.length]
  | propose message => cases hd
  | setPromise contract => cases hd
  | callback round value => cases hd

theorem majority_lt (ids : PeerIds (Fin n)) : majority n + 1 < 2 ^ 32 := by
  have hinj : Function.Injective fun p => (ids.peerId p).toFin :=
    fun p q h => ids.peerId_inj.1 (UInt8.toFin_inj.1 h)
  have hcard := Fintype.card_le_of_injective _ hinj
  rw [Fintype.card_fin, Fintype.card_fin] at hcard
  have hbytes : n ≤ 256 := hcard
  rw [majority]
  omega

/-- The processes over perfect links do on bytes what they do on messages. -/
theorem related_of_reachable (hV : V.card + 1 < 2 ^ 32) (hw : (latticeBytes n ids V).Reachable w) :
    ∃ v, (latticeProgram n).Reachable v ∧ Related encode (fun _ => Simulates ids V) w v := by
  apply exists_related (fun _ => .start ids V) _ _ hw
  · intro w v _ h p x r henabled hs
    obtain ⟨hrounds, r', hr', hsim⟩ := (h.node p).propose henabled hs
    exact ⟨(x.1.toNat, x.2), r', decide_eq_true hrounds, hr', (h.node p).matched hsim⟩
  · intro w v hv h m hm r hs
    refine ⟨_, rfl, ?_⟩
    rcases fits_of_inflight hv h hm with ⟨message, hb, hfits⟩ | ⟨message, hb, hfits⟩
    · rw [hb] at hs ⊢
      exact (h.node m.dst).matched ((h.node m.dst).receive_proposal hV hfits hs)
    · have hset := fun p r => valid_initialProposals h p r
      have hnumbers : ∀ accept ∈ message.accepts, accept.proposalNumber ≤ V.card :=
        fun accept haccept => proposalNumber_le hv hset hm hb haccept
      rw [hb] at hs ⊢
      exact (h.node m.dst).matched ((h.node m.dst).receive_accept (majority_lt ids) hV
        (activeProposalNumber_le hv hset m.dst) hfits hnumbers hs)

end Worlds

theorem comparable_of_callback {v : LAWorld n} (hv : (latticeProgram n).Reachable v) {r : ℕ}
    (hset : ∀ p, ∀ u ∈ initialProposals v p r, u.Nodup) {p q : Fin n} {value value' : List UInt32}
    (hp : .callback r value ∈ v.trace p) (hq : .callback r value' ∈ v.trace q) :
    value ⊆ value' ∨ value' ⊆ value := by
  have hround := round_reachable hv r
  obtain ⟨k, hk, Q, hQ, hacksQ⟩ := decision hround (callback_atRound hp)
  obtain ⟨l, hl, C, hC, hacksC⟩ := decision hround (callback_atRound hq)
  obtain ⟨a, haQ, haC⟩ := quorum_intersect (Q := Q) (C := C) (by simpa using hQ)
    (by simpa using hC)
  obtain ⟨accept, haccept, hack, rfl⟩ := hacksQ a haQ
  obtain ⟨accept', haccept', hack', rfl⟩ := hacksC a haC
  have hchain := acceptorChain hround
    (fun p u b hu => hset p u (mem_initialProposals.2 ⟨b, hu⟩)) a
  obtain ⟨u, u', hu, hu', hle⟩ := hchain.comparable p accept q accept' haccept hack haccept' hack'
  have hvalue : (⟨u, _⟩ : BroadcastService.Proposal) = ⟨value, _⟩ :=
    ((numbering hround).node p).unique hu hk rfl
  have hvalue' : (⟨u', _⟩ : BroadcastService.Proposal) = ⟨value', _⟩ :=
    ((numbering hround).node q).unique hu' hl rfl
  rwa [(BroadcastService.Proposal.mk.inj hvalue).1,
    (BroadcastService.Proposal.mk.inj hvalue').1] at hle

theorem valid_of_callback {v : LAWorld n} (hv : (latticeProgram n).Reachable v) {r : ℕ}
    {p : Fin n} {value : List UInt32} (hp : .callback r value ∈ v.trace p) :
    (∃ u ∈ initialProposals v p r, u ⊆ value) ∧
      ∀ x ∈ value, ∃ s, ∃ u ∈ initialProposals v s r, x ∈ u := by
  have hround := round_reachable hv r
  have hcall := callback_atRound hp
  obtain ⟨hproposed, hown⟩ := (owned hround p).decision value hcall
  obtain ⟨u, b, hu⟩ := (owned hround p).proposed.1 hproposed
  refine ⟨⟨u, mem_initialProposals.2 ⟨b, hu⟩, hown u b hu⟩, ?_⟩
  apply (values (S := fun value => ∀ x ∈ value, ∃ s, ∃ u ∈ initialProposals v s r, x ∈ u) (by simp)
    _ hround _ p).outputs _ hcall
  · intro u u' hu hu' x hx
    exact (mem_vectorSetUnion.1 hx).elim (hu x) (hu' x)
  · exact fun s u b hu x hx => ⟨s, u, mem_initialProposals.2 ⟨b, hu⟩, hx⟩

/-- A decision on bytes is one on messages. -/
theorem callback_of_decide {w : World (Fin n) Process Bytes Output} {v : LAWorld n}
    (h : Related encode (fun _ => Simulates ids V) w v) {p : Fin n} {contract : ℕ} {round : UInt32}
    {value : List UInt32} (hd : .decide contract round value ∈ w.trace p) :
    .callback round.toNat value ∈ v.trace p := by
  have hmem : Effect.decide round value ∈ (w.trace p).map Output.effect :=
    List.mem_map.2 ⟨_, hd, rfl⟩
  rw [(h.node p).effects] at hmem
  obtain ⟨o, ho, he⟩ := List.mem_filterMap.1 hmem
  cases o with
  | callback r value' =>
      obtain ⟨rfl, rfl⟩ := Effect.decide.inj (Option.some.inj he)
      have hlt : r < 2 ^ 32 := (h.node p).fits _ ho
      rwa [UInt32.toNat_ofNat_of_lt' hlt]
  | propose message => cases he
  | setPromise contract => cases he
  | broadcast message => cases he
  | send dst message => cases he

/-- Over datagrams that may be lost, duplicated and reordered, but are read on the channels of their
senders, two decisions of a round are comparable, and a decision holds the proposal of the process
and nothing that was not proposed in the round. -/
theorem lattice_over_datagrams {config : UInt8 → TransportConfig} {route : UInt8 → UInt8 → UInt8}
    (hV : V.card + 1 < 2 ^ 32) {h : StackHistory (Fin n) Process Output}
    (hr : ReachableIn (stackProgram (latticeBytes n ids V) ids config route).step
      (fun _ => StackRouted ids route)
      (stackProgram (latticeBytes n ids V) ids config route).initial h)
    {p q : Fin n} {contract contract' : ℕ} {round : UInt32} {value value' : List UInt32}
    (hp : .decide contract round value ∈ (h.node p).outputs)
    (hq : .decide contract' round value' ∈ (h.node q).outputs) :
    (value ⊆ value' ∨ value' ⊆ value) ∧
      (∃ u ∈ (h.node p).user.proposals round.toNat, u ⊆ value) ∧
      ∀ x ∈ value, ∃ s, ∃ u ∈ (h.node s).user.proposals round.toNat, x ∈ u := by
  obtain ⟨w, hw, hlinks⟩ := links_of_stack hr
  obtain ⟨v, hv, hrelated⟩ := related_of_reachable hV hw
  rw [← hlinks.trace] at hp hq
  have hcallback := callback_of_decide hrelated hp
  have hproposals : ∀ s, initialProposals v s round.toNat =
      (h.node s).user.proposals round.toNat := by
    intro s
    rw [initialProposals_of_related hrelated, hlinks.node]
  refine ⟨comparable_of_callback hv ?_ hcallback (callback_of_decide hrelated hq), ?_⟩
  · exact fun s u hu => (valid_initialProposals hrelated s _ u hu).1
  · simpa only [hproposals] using valid_of_callback hv hcallback

/-- The datagram of a message with the identifier that the process gave it. -/
def datagram (source : UInt8) (id : UInt32) (message : BroadcastService.LAMessage) : Bytes :=
  (⟨.payloadMessage, id, source, encode message⟩ : Transport.Packet).datagram

section Run

variable {P ι : Type*} (p q : P)

def writes (peer : UInt8) (count : ℕ) : List (P × Transport.StackEvent P ι) :=
  List.replicate count (p, .internal peer (.write .writeReady .ok 0))

def receives (bytes : Bytes) : List (P × Transport.StackEvent P ι) :=
  [(p, .read q bytes .ok), (p, .callback 0), (p, .deliver)]

/-- A broadcast is sent to a peer and to the process itself, which handles it and its own answer. -/
def sendsOut : List (P × Transport.StackEvent P ι) :=
  [(p, .send 0), (p, .send 0), (p, .deliver), (p, .send 0), (p, .deliver)]

/-- One process proposes and decides `[1]`, then the other one proposes `[2]`, is refused and
decides `[2, 1]`. -/
def twoDecisions (x y : ι) : List (P × Transport.StackEvent P ι) :=
  [(p, .input x)] ++ sendsOut p ++ writes p 2 3 ++
    receives q p (datagram 1 0 (.proposal ⟨0, [⟨[1], 0⟩]⟩)) ++ [(q, .send 0)] ++ writes q 1 3 ++
    receives p q (datagram 2 1 (.accept ⟨0, [⟨.ack, 0, []⟩]⟩)) ++
  [(q, .input y)] ++ sendsOut q ++ writes q 1 5 ++
    receives p q (datagram 2 2 (.proposal ⟨0, [⟨[2], 0⟩]⟩)) ++ [(p, .send 0)] ++ writes p 2 5 ++
    receives q p (datagram 1 3 (.accept ⟨0, [⟨.nack, 0, [1, 2]⟩]⟩)) ++
  sendsOut q ++ writes q 1 5 ++
    receives p q (datagram 2 4 (.proposal ⟨0, [⟨[2, 1], 1⟩]⟩)) ++ [(p, .send 0)] ++ writes p 2 5 ++
    receives q p (datagram 1 5 (.accept ⟨0, [⟨.ack, 1, []⟩]⟩))

end Run

theorem lattice_over_datagrams_two : ∃ h, ReachableIn
    (stackProgram (latticeBytes 2 twoIds {1, 2}) twoIds threeHosts fun _ q => q).step
    (fun _ => StackRouted twoIds fun _ q => q)
    (stackProgram (latticeBytes 2 twoIds {1, 2}) twoIds threeHosts fun _ q => q).initial h ∧
    .decide 0 0 [1] ∈ (h.node 0).outputs ∧ .decide 0 0 [2, 1] ∈ (h.node 1).outputs ∧
    (([1] : List UInt32) ⊆ [2, 1] ∨ ([2, 1] : List UInt32) ⊆ [1]) := by
  obtain ⟨h, hr, hp, hq⟩ : ∃ h, ReachableIn
      (stackProgram (latticeBytes 2 twoIds {1, 2}) twoIds threeHosts fun _ q => q).step
      (fun _ => StackRouted twoIds fun _ q => q)
      (stackProgram (latticeBytes 2 twoIds {1, 2}) twoIds threeHosts fun _ q => q).initial h ∧
      .decide 0 0 [1] ∈ (h.node 0).outputs ∧ .decide 0 0 [2, 1] ∈ (h.node 1).outputs :=
    exists_reachableIn (twoDecisions 0 1 (0, [[1]]) (0, [[2]])) (by decide +kernel)
  exact ⟨h, hr, hp, hq, (lattice_over_datagrams (by decide) hr hp hq).1⟩

end BroadcastService.LatticeWire

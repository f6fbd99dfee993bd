import BroadcastService.LatticeRound
import BroadcastService.WorldSimulation

/-!
# Rounds do not influence each other

`view la r` is the state of round `r` up to its contracts, an empty one where it was not created.
A batch updates the view of each round it covers by the handler of that round, applied to the state
before the batch, and leaves the other views alone. Hence every reachable world of
`latticeProgram n` restricts to a reachable world of `roundProgram n r` (`round_reachable`).
-/

namespace BroadcastService
open MessagePassing

variable {P : Type*}

namespace LatticeAgreement

def view (la : LatticeAgreement) (r : ℕ) : RoundState := (la.roundStates.getD r {}).erase

theorem view_appendEmptyRoundState (la : LatticeAgreement) (r : ℕ) :
    la.appendEmptyRoundState.view r = la.view r := by
  simp only [view, appendEmptyRoundState, List.getD_eq_getElem?_getD]
  rcases Nat.lt_trichotomy r la.roundStates.length with h | h | h
  · rw [List.getElem?_append_left h]
  · subst h
    simp [RoundState.erase]
  · rw [List.getElem?_append_right h.le, List.getElem?_eq_none (l := la.roundStates) h.le]
    have : r - la.roundStates.length ≠ 0 := by omega
    simp [this]

theorem length_appendEmptyRoundState_iterate (la : LatticeAgreement) (k : ℕ) :
    (appendEmptyRoundState^[k] la).roundStates.length = la.roundStates.length + k := by
  induction k with
  | zero => rfl
  | succ k ih =>
      rw [Function.iterate_succ_apply']
      simp [appendEmptyRoundState, ih, Nat.add_assoc]

theorem view_initializeEmptyRoundStates (la : LatticeAgreement) (round r : ℕ) :
    (la.initializeEmptyRoundStates round).view r = la.view r := by
  unfold initializeEmptyRoundStates
  induction round + 1 - la.roundStates.length with
  | zero => rfl
  | succ k ih => rw [Function.iterate_succ_apply', view_appendEmptyRoundState, ih]

theorem lt_length_initializeEmptyRoundStates (la : LatticeAgreement) (round : ℕ) :
    round < (la.initializeEmptyRoundStates round).roundStates.length := by
  rw [initializeEmptyRoundStates, length_appendEmptyRoundState_iterate]
  omega

/-- A handler run on a round sees that round's state and changes no other round. -/
theorem withRoundState_spec {β : Type*} (la : LatticeAgreement) (round : ℕ)
    (f : RoundState → RoundState × β) :
    ∃ state, state.erase = la.view round ∧ (la.withRoundState round f).2 = (f state).2 ∧
      (la.withRoundState round f).1.view round = (f state).1.erase ∧
      ∀ r, r ≠ round → (la.withRoundState round f).1.view r = la.view r := by
  have hlen := la.lt_length_initializeEmptyRoundStates round
  refine ⟨(la.getRoundState round).2, la.view_initializeEmptyRoundStates round round, rfl, ?_, ?_⟩
  · simp only [withRoundState, view, List.getD_eq_getElem?_getD]
    rw [List.getElem?_set_self (by exact hlen)]
    rfl
  · intro r hr
    rw [← la.view_initializeEmptyRoundStates round r]
    simp only [withRoundState, view, List.getD_eq_getElem?_getD]
    rw [List.getElem?_set_ne (Ne.symm hr)]
    rfl

theorem handleProposals_spec (la : LatticeAgreement) (first r : ℕ) (l : List Proposal) :
    (la.handleProposals first l).1.view r =
        (entryAt first l r).elim (la.view r) (fun p => ((la.view r).handlePropose p).1) ∧
      entryAt first (la.handleProposals first l).2 r =
        (entryAt first l r).map (fun p => ((la.view r).handlePropose p).2) := by
  induction l generalizing la first with
  | nil => simp [handleProposals]
  | cons p l ih =>
      obtain ⟨state, hst, hout, hself, hne⟩ :=
        la.withRoundState_spec first (RoundState.handlePropose p)
      obtain ⟨ih₁, ih₂⟩ := ih (la.withRoundState first (RoundState.handlePropose p)).1 (first + 1)
      simp only [handleProposals]
      by_cases hr : r = first
      · subst hr
        rw [entryAt_succ_self] at ih₁
        rw [ih₁, entryAt_self, entryAt_self, Option.elim_none, Option.elim_some, Option.map_some,
          ← hst, RoundState.handlePropose_erase]
        exact ⟨hself, congrArg some hout⟩
      · rw [hne r hr] at ih₁ ih₂
        rw [entryAt_cons_ne _ _ hr, entryAt_cons_ne _ _ hr]
        exact ⟨ih₁, ih₂⟩

theorem length_handleProposals (la : LatticeAgreement) (first : ℕ) (l : List Proposal) :
    (la.handleProposals first l).2.length = l.length := by
  induction l generalizing la first with
  | nil => rfl
  | cons p l ih => simp [handleProposals, ih]

theorem handleAccepts_spec (n : ℕ) (la : LatticeAgreement) (first r : ℕ) (l : List Accept) :
    (la.handleAccepts (P := P) n first l).1.view r = (entryAt first l r).elim (la.view r)
        (fun a => ((la.view r).handleAccept (P := P) (majority n) r a).1) ∧
      (la.handleAccepts (P := P) n first l).2.filterMap (LAOutput.atRound r) =
        (entryAt first l r).elim [] (fun a =>
          ((la.view r).handleAccept (P := P) (majority n) r a).2.filterMap
            (LAOutput.atRound r)) := by
  induction l generalizing la first with
  | nil => simp [handleAccepts]
  | cons a l ih =>
      obtain ⟨state, hst, hout, hself, hne⟩ := la.withRoundState_spec first
        (RoundState.handleAccept (P := P) (majority n) first a)
      obtain ⟨ih₁, ih₂⟩ := ih (la.withRoundState first
        (RoundState.handleAccept (P := P) (majority n) first a)).1 (first + 1)
      simp only [handleAccepts, List.filterMap_append]
      by_cases hr : r = first
      · subst hr
        obtain ⟨he₁, he₂⟩ := RoundState.handleAccept_erase (P := P) (majority n) r a state
        rw [entryAt_succ_self] at ih₁ ih₂
        rw [ih₁, ih₂, entryAt_self, hself, hout]
        simp only [Option.elim_none, Option.elim_some, List.append_nil]
        rw [← hst]
        exact ⟨he₁.symm, he₂.symm⟩
      · rw [hne r hr] at ih₁ ih₂
        rw [entryAt_cons_ne _ _ hr, hout, RoundState.handleAccept_atRound_ne hr, List.nil_append]
        exact ⟨ih₁, ih₂⟩

theorem initializeNextRoundState_spec {la la' : LatticeAgreement} {round : ℕ}
    {value : ProposalT} {future : ℕ}
    (h : la.initializeNextRoundState round value = some (la', future)) (r : ℕ) :
    la'.view r = if r = round then { la.view r with proposedValue := value } else la.view r := by
  simp only [initializeNextRoundState] at h
  cases hs : la.roundStates[round]? with
  | some state =>
      rw [hs] at h
      obtain ⟨c, _, he⟩ := Option.map_eq_some_iff.1 h
      obtain ⟨rfl, rfl⟩ := Prod.mk.inj he
      obtain ⟨hlt, hget⟩ := List.getElem?_eq_some_iff.1 hs
      simp only [view, List.getD_eq_getElem?_getD]
      split_ifs with hr
      · subst hr
        simp [hlt, ← hget, RoundState.erase]
      · rw [List.getElem?_set_ne (Ne.symm hr)]
  | none =>
      rw [hs] at h
      simp only at h
      split_ifs at h with hround
      obtain ⟨rfl, rfl⟩ := Prod.mk.inj (Option.some.inj h)
      simp only [view, List.getD_eq_getElem?_getD]
      split_ifs with hr
      · subst hr
        simp [hround, RoundState.erase]
      · rcases Nat.lt_or_gt_of_ne hr with hlt | hgt
        · rw [List.getElem?_append_left (by omega)]
        · rw [List.getElem?_eq_none (by simp; omega), List.getElem?_eq_none (by omega)]

theorem initializeRoundStates_spec {la la' : LatticeAgreement} {first : ℕ}
    {l : List Proposal} {futures : List ℕ}
    (h : la.initializeRoundStates first l = some (la', futures)) (r : ℕ) :
    la'.view r = (entryAt first l r).elim (la.view r)
      (fun p => { la.view r with proposedValue := p.proposedValue }) := by
  induction l generalizing la first futures with
  | nil =>
      obtain ⟨rfl, rfl⟩ := Prod.mk.inj (Option.some.inj h)
      simp
  | cons p l ih =>
      obtain ⟨⟨la₁, future⟩, h₁, h₂⟩ := Option.bind_eq_some_iff.1 h
      obtain ⟨⟨la₂, futures₂⟩, h₃, he⟩ := Option.map_eq_some_iff.1 h₂
      obtain ⟨rfl, rfl⟩ := Prod.mk.inj he
      have hfirst := initializeNextRoundState_spec h₁ r
      rw [ih h₃]
      by_cases hr : r = first
      · subst hr
        simp [entryAt_succ_self, hfirst]
      · rw [if_neg hr] at hfirst
        rw [hfirst, entryAt_cons_ne _ _ hr]

end LatticeAgreement

variable {n : ℕ}

def roundProjection (n r : ℕ) : Projection (Fin n) LAProcess LAMessage (LAOutput (Fin n))
    RoundNode RoundMessage (RoundOutput (Fin n)) where
  node _ s := { state := s.la.view r, proposed := decide (r ∈ s.rounds) }
  body := LAMessage.atRound r
  out := LAOutput.atRound r

theorem roundProjection_emitCompatible (n r : ℕ) :
    (roundProjection n r).EmitCompatible (latticeProgram n) (roundProgram n r) := by
  intro p o
  cases o with
  | propose m => cases h : m.atRound r <;>
      simp [latticeProgram, roundProgram, latticeEmit, roundEmit, roundProjection,
        LAOutput.atRound, h]
  | broadcast m => cases h : m.onWire.atRound r <;>
      simp [latticeProgram, roundProgram, latticeEmit, roundEmit, roundProjection,
        LAOutput.atRound, LAMessage.atRound, bestEffortBroadcast, h, List.filterMap_map]
  | send dst m => cases h : m.onWire.atRound r <;>
      simp [latticeProgram, roundProgram, latticeEmit, roundEmit, roundProjection,
        LAOutput.atRound, LAMessage.atRound, h]
  | setPromise c => rfl
  | callback round value => by_cases h : round = r <;>
      simp [latticeProgram, roundProgram, latticeEmit, roundEmit, roundProjection,
        LAOutput.atRound, h]

theorem length_proposals_of_inflight {w : World (Fin n) LAProcess LAMessage (LAOutput (Fin n))}
    (hw : (latticeProgram n).Reachable w) {m : Packet (Fin n) LAMessage} (hm : m ∈ w.inflight)
    {pm : ProposalMessage} (hb : m.body = .proposal pm) : pm.proposals.length < 2 ^ 8 := by
  obtain ⟨_, o, _, ho⟩ := (latticeProgram n).mem_packets.1 (Program.mem_sent_of_inflight hw hm)
  rw [hb] at ho
  cases o with
  | broadcast msg =>
      have he : LAMessage.proposal pm = .proposal msg.onWire := mem_bestEffortBroadcast.1 ho
      rw [LAMessage.proposal.inj he]
      exact msg.length_onWire_lt
  | send dst msg => simp [latticeProgram, latticeEmit] at ho
  | propose msg => simp [latticeProgram, latticeEmit] at ho
  | setPromise c => simp [latticeProgram, latticeEmit] at ho
  | callback round value => simp [latticeProgram, latticeEmit] at ho

theorem proposeBatch_atRound {s s' : LAProcess} {first : ℕ} {batch : List ProposalT}
    {outs : List (LAOutput P)} (h : s.proposeBatch first batch = some (s', outs)) (r : ℕ) :
    ∃ m : ProposalMessage, outs = [.propose m, .broadcast m] ∧
      s'.rounds = s.rounds ++ List.range' first batch.length ∧
      (r ∈ List.range' first batch.length ↔ (m.atRound r).isSome) ∧
      (∀ p ∈ m.proposals, p.activeProposalNumber = 0) ∧
      s'.la.view r = (m.atRound r).elim (s.la.view r)
        (fun p => { s.la.view r with proposedValue := p.proposedValue }) := by
  obtain ⟨⟨la, futures, os⟩, hp, he⟩ := Option.map_eq_some_iff.1 h
  obtain ⟨rfl, rfl⟩ := Prod.mk.inj he
  obtain ⟨⟨la', futures'⟩, hi, hq⟩ := Option.map_eq_some_iff.1 hp
  simp only [Prod.mk.injEq] at hq
  obtain ⟨rfl, rfl, rfl⟩ := hq
  refine ⟨_, rfl, rfl, ?_, by simp, LatticeAgreement.initializeRoundStates_spec hi r⟩
  simp only [ProposalMessage.atRound, entryAt, List.mem_range'_1]
  split_ifs with hle
  · simp
    omega
  · simp [hle]

theorem round_reachable {w : World (Fin n) LAProcess LAMessage (LAOutput (Fin n))}
    (hw : (latticeProgram n).Reachable w) (r : ℕ) :
    (roundProgram n r).Reachable ((roundProjection n r).world w) := by
  refine (Projection.project_reachable (J := fun _ _ _ => True) hw (fun _ => rfl)
    (roundProjection_emitCompatible n r) (fun _ => trivial) ?_ ?_).1
  · rintro w p ⟨first, batch⟩ ⟨s', outs⟩ _ _ _ hen hx
    refine ⟨trivial, ?_⟩
    obtain ⟨m, rfl, hrounds, hcover, hzero, hview⟩ := proposeBatch_atRound hx r
    cases hr : m.atRound r with
    | none =>
        refine ⟨[], ?_⟩
        have hnot : r ∉ List.range' first batch.length := by simp [hcover, hr]
        have hwire : m.onWire.atRound r = none := by
          cases hw : m.onWire.atRound r with
          | none => rfl
          | some p => rw [ProposalMessage.atRound_onWire hw] at hr; cases hr
        simp [Program.inputs, roundProjection, Projection.world, hview, hr, hrounds, hnot,
          LAOutput.atRound, hwire]
    | some pr =>
        refine ⟨[(pr.proposedValue, (m.onWire.atRound r).isSome)], ?_⟩
        have hmem : pr ∈ m.proposals := by
          simp only [ProposalMessage.atRound, entryAt] at hr
          split_ifs at hr
          exact List.mem_of_getElem? hr
        have hfresh : r ∉ (w.node p).rounds :=
          of_decide_eq_true hen r (hcover.2 (by simp [hr]))
        have hin : r ∈ List.range' first batch.length := hcover.2 (by simp [hr])
        have hpr : pr = { proposedValue := pr.proposedValue } := by
          obtain ⟨value, number⟩ := pr
          have := hzero _ hmem
          simp only at this
          rw [this]
        cases hw : m.onWire.atRound r with
        | none =>
            simp [Program.inputs, roundProgram, roundProjection, Projection.world, hview, hr,
              hfresh, hrounds, hin, RoundNode.onPropose, LAOutput.atRound, hw]
        | some pw =>
            obtain rfl : pr = pw :=
              Option.some.inj (hr.symm.trans (ProposalMessage.atRound_onWire hw))
            simp [Program.inputs, roundProgram, roundProjection, Projection.world, hview, hr,
              hfresh, hrounds, hin, RoundNode.onPropose, LAOutput.atRound, hw, ← hpr]
  · rintro w ⟨src, dst, body⟩ t hr _ _ hm hx
    refine ⟨trivial,
      ((roundProjection n r).node dst t.1, t.2.filterMap (LAOutput.atRound r)), [], ?_, rfl⟩
    obtain rfl := Option.some.inj hx
    cases body with
    | proposal pm =>
        have hlen := length_proposals_of_inflight hr hm rfl
        obtain ⟨hview, haccept⟩ :=
          (w.node dst).la.handleProposals_spec pm.firstRoundId r pm.proposals
        have hwire := AcceptMessage.onWire_of_length_lt (m := ⟨pm.firstRoundId,
          ((w.node dst).la.handleProposals pm.firstRoundId pm.proposals).2⟩)
          (by simpa only [LatticeAgreement.length_handleProposals] using hlen)
        cases hp : entryAt pm.firstRoundId pm.proposals r <;>
          simp [roundProgram, roundProjection, Projection.world, LAMessage.atRound,
            ProposalMessage.atRound, AcceptMessage.atRound, LAProcess.onMessage,
            LatticeAgreement.handleProposalMessage, RoundNode.onMessage, LAOutput.atRound,
            hwire, hview, haccept, hp]
    | accept am =>
        obtain ⟨hview, houts⟩ := (w.node dst).la.handleAccepts_spec (P := Fin n) n
          am.firstRoundId r am.accepts
        cases ha : entryAt am.firstRoundId am.accepts r <;>
          simp [roundProgram, roundProjection, Projection.world, LAMessage.atRound,
            AcceptMessage.atRound, LAProcess.onMessage, LatticeAgreement.handleAcceptMessage,
            RoundNode.onMessage, hview, houts, ha]
    | decide round =>
        simp [roundProjection, Projection.world, LAMessage.atRound, LAProcess.onMessage]

end BroadcastService

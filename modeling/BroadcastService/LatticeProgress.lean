import BroadcastService.LatticeRefinement

/-!
# Lattice agreement does not get stuck

Let the members of `C`, at least a majority, be alive and no message between two of them be
unhandled. A proposer of `C` whose proposal went out has then handled an answer to its current
number from every member of `C`, which would have made it decide or move on, so it has decided. The
only rounds that stay open are those whose proposal did not fit the 8-bit count of the message that
`Propose` broadcast (`lattice_progress`).
-/

namespace BroadcastService
open MessagePassing

variable {n r : ℕ}

/-- In a quiet world every member of `C` has answered every broadcast of a proposer in it, and the
answer was handled. -/
theorem countP_isAnswer_of_quiet {w : RoundWorld n} {C : Finset (Fin n)} (h : Quiet w C)
    (hw : (roundProgram n r).Reachable w) {p a : Fin n} (hp : p ∈ C) (ha : a ∈ C)
    {pr : Proposal} (hpr : .broadcast pr ∈ w.trace p) :
    w.handled.countP (isAnswer a p pr.activeProposalNumber) = 1 := by
  rw [h.countP_handled hw ha hp _ fun _ => isAnswer_ends, answers hw,
    h.countP_handled hw hp ha _ fun _ => isProposal_ends, countP_isProposal_packets,
    ((numbering hw).node p).numbers]
  refine List.count_eq_one_of_mem List.nodup_range ?_
  rw [← ((numbering hw).node p).numbers]
  exact List.mem_map_of_mem (mem_broadcasts.2 hpr)

/-- All members of `C` have voted on the current number of a proposer in it. -/
theorem card_le_votes {w : RoundWorld n} {C : Finset (Fin n)} (h : Quiet w C)
    (hw : (roundProgram n r).Reachable w) {p : Fin n} (hp : p ∈ C) {pr : Proposal}
    (hpr : .broadcast pr ∈ w.trace p) :
    C.card ≤ w.handled.countP (isVote .ack p pr.activeProposalNumber) +
      w.handled.countP (isVote .nack p pr.activeProposalNumber) := by
  classical
  let voters (status : AcceptStatus) := C.filter fun a =>
    ∃ m ∈ w.handled, isVote status p pr.activeProposalNumber m = true ∧ m.src = a
  have hvoters : ∀ status, (voters status).card ≤
      w.handled.countP (isVote status p pr.activeProposalNumber) :=
    fun status => card_le_countP _ fun a ha => (Finset.mem_filter.1 ha).2
  have hsub : C ⊆ voters .ack ∪ voters .nack := by
    intro a ha
    have hone := countP_isAnswer_of_quiet h hw hp ha hpr
    obtain ⟨⟨src, dst, body⟩, hm, hans⟩ := List.countP_pos_iff.1 (hone ▸ Nat.one_pos)
    cases body with
    | proposal pr' => cases hans
    | accept acc =>
        simp only [isAnswer, decide_eq_true_eq] at hans
        obtain ⟨rfl, rfl, hk⟩ := hans
        cases hs : acc.status with
        | ack =>
            exact Finset.mem_union_left _
              (Finset.mem_filter.2 ⟨ha, _, hm, by simp [isVote, hk, hs], rfl⟩)
        | nack =>
            exact Finset.mem_union_right _
              (Finset.mem_filter.2 ⟨ha, _, hm, by simp [isVote, hk, hs], rfl⟩)
  calc C.card ≤ (voters .ack ∪ voters .nack).card := Finset.card_le_card hsub
    _ ≤ (voters .ack).card + (voters .nack).card := Finset.card_union_le _ _
    _ ≤ _ := Nat.add_le_add (hvoters .ack) (hvoters .nack)

theorem completed_of_quiet {w : RoundWorld n} {C : Finset (Fin n)} (h : Quiet w C)
    (hw : (roundProgram n r).Reachable w) (hC : majority n ≤ C.card) {p : Fin n} (hp : p ∈ C)
    {pr : Proposal} (hpr : .broadcast pr ∈ w.trace p) : (w.node p).state.completed = true := by
  by_contra hne
  have hcount := counting hw p (Bool.eq_false_of_not_eq_true hne)
  obtain ⟨v, hv⟩ := ((numbering hw).node p).exists_broadcast hpr le_rfl
  have hvotes := card_le_votes h hw hp hv
  have hacks := hcount.acks_lt
  have hsum := hcount.sum_lt
  rw [← hcount.acks, ← hcount.nacks] at hvotes
  omega

/-- A round is completed exactly when its decision was passed to the callback. -/
theorem completed_iff {w : RoundWorld n} (hw : (roundProgram n r).Reachable w) (p : Fin n) :
    (w.node p).state.completed = true ↔ ∃ V, .callback V ∈ w.trace p := by
  refine round_local (Q := fun s t => s.state.completed = true ↔ ∃ V, .callback V ∈ t) hw
    (by simp) ?_ ?_ p
  · intro w p v b _ ih _
    cases b <;> simpa [RoundNode.onPropose] using ih
  · intro w src dst m s outs _ ih _ hr
    cases hr with
    | decided a hc hn hacks => simp
    | _ => simpa using ih

theorem onWire_iff {w : RoundWorld n} (hw : (roundProgram n r).Reachable w) (p : Fin n)
    {v : ProposalT} {b : Bool} (hv : .propose v b ∈ w.trace p) :
    b = true ↔ ∃ pr, .broadcast pr ∈ w.trace p := by
  refine round_local (Q := fun _ t => ∀ v b, .propose v b ∈ t →
    (b = true ↔ ∃ pr, .broadcast pr ∈ t)) hw (by simp) ?_ ?_ p v b hv
  · intro w p v b hw _ hp u c hu
    have hnone : ∀ u c, .propose u c ∉ w.trace p := fun u c hu => by
      simpa [hp] using (owned hw p).proposed.2 ⟨u, c, hu⟩
    have hsilent : ∀ pr, .broadcast pr ∉ w.trace p := fun pr => by
      simp [← mem_broadcasts, (((numbering hw).node p).unproposed hp).1]
    cases b <;> simp [RoundNode.onPropose, hnone] at hu <;>
      simp [RoundNode.onPropose, hsilent, hu]
  · intro w src dst m s outs hw ih hm hr
    cases hr with
    | moved a hc hn hacks hnacks hsum =>
        intro u c hu
        obtain ⟨pr, hpr, _⟩ := (numbering hw).answered src dst a (reply_of_inflight hw hm)
        have hc : c = true := (ih u c (by simpa using hu)).2 ⟨pr, hpr⟩
        simp [hc]
    | _ => simpa using ih

def Completed (w : LAWorld n) (p : Fin n) (r : ℕ) : Prop :=
  ∃ state, (w.node p).la.roundStates[r]? = some state ∧ state.completed = true ∧
    ∃ V, .callback r V ∈ w.trace p

theorem completed_iff_atRound {w : LAWorld n} (hw : (latticeProgram n).Reachable w) (p : Fin n) :
    Completed w p r ↔ (((roundProjection n r).world w).node p).state.completed = true := by
  have hcall : (∃ V, .callback V ∈ ((roundProjection n r).world w).trace p) →
      ∃ V, .callback r V ∈ w.trace p := by
    rintro ⟨V, hV⟩
    obtain ⟨o, ho, he⟩ := List.mem_filterMap.1 hV
    cases o with
    | callback round V' =>
        simp only [roundProjection, LAOutput.atRound, Option.ite_none_right_eq_some] at he
        exact ⟨V', he.1 ▸ ho⟩
    | _ => simp [roundProjection, LAOutput.atRound] at he
  simp only [Completed]
  constructor
  · rintro ⟨state, hst, hc, _⟩
    simpa [roundProjection, Projection.world, LatticeAgreement.view, hst, RoundState.erase] using hc
  · intro hc
    have hV := hcall ((completed_iff (round_reachable hw r) p).1 hc)
    cases hst : (w.node p).la.roundStates[r]? with
    | none =>
        simp [roundProjection, Projection.world, LatticeAgreement.view, hst,
          RoundState.erase] at hc
    | some state =>
        refine ⟨state, rfl, ?_, hV⟩
        simpa [roundProjection, Projection.world, LatticeAgreement.view, hst,
          RoundState.erase] using hc

theorem quiet_atRound {w : LAWorld n} {C : Finset (Fin n)} (h : Quiet w C) (r : ℕ) :
    Quiet ((roundProjection n r).world w) C := by
  refine ⟨h.alive, fun m hm hsrc => ?_⟩
  obtain ⟨m', hm', he⟩ := List.mem_filterMap.1 hm
  obtain ⟨body, _, rfl⟩ := Option.map_eq_some_iff.1 he
  exact h.handled m' hm' hsrc

/-- `Marshal` keeps the entry of round `r` when its position is below the 8-bit count. -/
theorem ProposalMessage.isSome_onWire_iff {m : ProposalMessage} {pr : Proposal}
    (h : m.atRound r = some pr) :
    (m.onWire.atRound r).isSome = true ↔ r - m.firstRoundId < m.proposals.length % 2 ^ 8 := by
  simp only [atRound, onWire, entryAt, List.getElem?_take] at h ⊢
  split_ifs at h with hle
  simp [hle, h]

/-- Let a majority be alive with no unhandled message between two of its members. Of the rounds that
a member has proposed in, it has decided exactly those whose position in their `Propose` call is
below the number of proposals of the call modulo 256. -/
theorem lattice_progress {w : LAWorld n} (hw : (latticeProgram n).Reachable w)
    {C : Finset (Fin n)} (hC : majority n ≤ C.card) (hquiet : Quiet w C) {p : Fin n} (hp : p ∈ C)
    {m : ProposalMessage} (hm : .propose m ∈ w.trace p) {pr : Proposal}
    (hr : m.atRound r = some pr) :
    Completed w p r ↔ r - m.firstRoundId < m.proposals.length % 2 ^ 8 := by
  have hround := round_reachable hw r
  have hpropose : .propose pr.proposedValue (m.onWire.atRound r).isSome ∈
      ((roundProjection n r).world w).trace p :=
    List.mem_filterMap.2 ⟨_, hm, by simp [roundProjection, LAOutput.atRound, hr]⟩
  rw [completed_iff_atRound hw, ← ProposalMessage.isSome_onWire_iff hr,
    onWire_iff hround p hpropose]
  constructor
  · intro hc
    obtain ⟨V, hV⟩ := (completed_iff hround p).1 hc
    obtain ⟨k, hk, _⟩ := decision hround hV
    exact ⟨_, hk⟩
  · rintro ⟨pr', hpr'⟩
    exact completed_of_quiet (quiet_atRound hquiet r) hround hC hp hpr'

theorem lattice_progress_concurrent : ∃ w : LAWorld 2, (latticeProgram 2).Reachable w ∧
    Quiet w Finset.univ ∧ (Completed w 1 0 ↔ 0 - 0 < 1 % 2 ^ 8) := by
  obtain ⟨w, hr, halive, hin, hm⟩ : ∃ w, (latticeProgram 2).Reachable w ∧
      (∀ p, w.crashed p = false) ∧ w.inflight = [] ∧ .propose ⟨0, [⟨[2], 0⟩]⟩ ∈ w.trace 1 :=
    TransitionSystem.exists_reachable (concurrentProposals 0 1) (by decide +kernel)
  have hquiet : Quiet w Finset.univ := ⟨fun p _ => halive p, by simp [hin]⟩
  exact ⟨w, hr, hquiet, lattice_progress hr (by decide) hquiet (Finset.mem_univ 1) hm rfl⟩

theorem LatticeAgreement.initializeRoundStates_new (la : LatticeAgreement) (l : List Proposal) :
    ∃ la' futures, la.initializeRoundStates la.roundStates.length l = some (la', futures) ∧
      ∀ state ∈ la'.roundStates, state ∈ la.roundStates ∨ state.completed = false := by
  induction l generalizing la with
  | nil => exact ⟨la, [], rfl, fun state hstate => .inl hstate⟩
  | cons proposal l ih =>
      set opened : LatticeAgreement :=
        ⟨la.roundStates ++ [{ proposedValue := proposal.proposedValue, promise := la.contracts }],
          la.contracts + 1⟩ with hopened
      have hnext : la.initializeNextRoundState la.roundStates.length proposal.proposedValue =
          some (opened, la.contracts) := by
        rw [initializeNextRoundState, List.getElem?_eq_none le_rfl, if_pos rfl]
      have hlength : opened.roundStates.length = la.roundStates.length + 1 := by
        simp [hopened]
      obtain ⟨la', futures, hrest, hstates⟩ := ih opened
      rw [hlength] at hrest
      refine ⟨la', la.contracts :: futures, ?_, ?_⟩
      · rw [initializeRoundStates, hnext]
        simp [hrest]
      · intro state hstate
        obtain hold | hfresh := hstates state hstate
        · obtain hold | hnew := List.mem_append.1 hold
          · exact .inl hold
          · rw [List.mem_singleton.1 hnew]
            exact .inr rfl
        · exact .inr hfresh

theorem handle_only {w : LAWorld 1} {body : LAMessage} {outs : List (LAOutput (Fin 1))}
    (hcrashed : ∀ p, w.crashed p = false) (hinflight : w.inflight = [⟨0, 0, body⟩])
    (hmessage : (latticeProgram 1).onMessage 0 (w.node 0) 0 body = some (w.node 0, outs)) :
    ∃ w', (latticeProgram 1).step w (.handle 0) = some w' ∧ (∀ p, w'.crashed p = false) ∧
      w'.inflight = (latticeProgram 1).packets 0 outs ∧ w'.trace 0 = w.trace 0 ++ outs ∧
      w'.node 0 = w.node 0 := by
  refine ⟨(latticeProgram 1).act
    { w with toHistory := w.receive ⟨0, 0, body⟩, inflight := [] } 0 (w.node 0, outs), ?_,
    hcrashed, rfl, ?_, ?_⟩
  · simp [Program.step, hinflight, hcrashed, hmessage]
  · exact History.act_trace_self ..
  · exact History.act_node_self ..

theorem run_lostBatch {values : List ProposalT} (hcount : values.length % 2 ^ 8 = 0) :
    ∃ w : LAWorld 1, TransitionSystem.run (latticeProgram 1).step (latticeProgram 1).initial
        [.input 0 (0, values), .handle 0, .handle 0] = some w ∧
      (∀ p, w.crashed p = false) ∧ w.inflight = [] ∧
      .propose ⟨0, values.map fun value => { proposedValue := value }⟩ ∈ w.trace 0 ∧
      ∀ state ∈ (w.node 0).la.roundStates, state.completed = false := by
  obtain ⟨la, futures, hinit, hstates⟩ := LatticeAgreement.initializeRoundStates_new {}
    (values.map fun value => { proposedValue := value })
  set batch : ProposalMessage :=
    ⟨0, values.map fun value => { proposedValue := value }⟩ with hbatch
  have hwire : batch.onWire = ⟨0, []⟩ := by
    rw [ProposalMessage.onWire, hbatch, List.length_map, hcount, List.take_zero]
  have hpropose : @LAProcess.proposeBatch (Fin 1) {} 0 values =
      some (⟨la, List.range' 0 values.length⟩, [.propose batch, .broadcast batch]) := by
    rw [LAProcess.proposeBatch, LatticeAgreement.propose]
    exact congrArg (fun result => Option.map _ (Option.map _ result)) hinit
  set w₁ : LAWorld 1 := (latticeProgram 1).act (latticeProgram 1).initial 0
    (⟨la, List.range' 0 values.length⟩, [.propose batch, .broadcast batch])
  have hinput : (latticeProgram 1).step (latticeProgram 1).initial (.input 0 (0, values)) =
      some w₁ := by
    rw [Program.step, if_pos ⟨rfl, by simp [latticeProgram, Program.initial]⟩]
    exact congrArg (Option.map _) hpropose
  have hinflight : w₁.inflight = [⟨0, 0, .proposal ⟨0, []⟩⟩] := by
    rw [← hwire]
    rfl
  obtain ⟨w₂, hstep₂, hcrashed₂, hinflight₂, htrace₂, hnode₂⟩ :=
    @handle_only w₁ _ [.send 0 ⟨0, []⟩] (fun _ => rfl) hinflight rfl
  obtain ⟨w₃, hstep₃, hcrashed₃, hinflight₃, htrace₃, hnode₃⟩ :=
    @handle_only w₂ _ [] hcrashed₂ hinflight₂ rfl
  refine ⟨w₃, ?_, hcrashed₃, hinflight₃, ?_, ?_⟩
  · simp only [TransitionSystem.run, hinput, hstep₂, hstep₃, Option.bind_some]
  · rw [htrace₃, htrace₂]
    simp [w₁, Program.act, hbatch]
  · rw [hnode₃, hnode₂]
    intro state hstate
    exact (hstates state hstate).resolve_left List.not_mem_nil

def fullBatch : List (Label (Fin 1) (ℕ × List ProposalT)) :=
  [.input 0 (0, List.replicate 256 []), .handle 0, .handle 0]

/-- With 256 proposals in one call the only process broadcasts none of them and stays undecided. -/
theorem not_completed_fullBatch : ∃ w : LAWorld 1, (latticeProgram 1).Reachable w ∧
    majority 1 ≤ (Finset.univ : Finset (Fin 1)).card ∧ Quiet w Finset.univ ∧
    [] ∈ initialProposals w 0 0 ∧ ¬ Completed w 0 0 := by
  obtain ⟨w, hrun, halive, hin, hm, hopen⟩ := @run_lostBatch (List.replicate 256 []) (by
    rw [List.length_replicate]
    decide)
  rw [← fullBatch] at hrun
  have hr : (latticeProgram 1).Reachable w := TransitionSystem.reachable_of_run hrun
  refine ⟨w, hr, by decide, ⟨fun p _ => halive p, by simp [hin]⟩, ?_, ?_⟩
  · exact List.mem_filterMap.2 ⟨_, hm, rfl⟩
  · rintro ⟨state, hstate, hcompleted, -⟩
    rw [hopen state (List.mem_of_getElem? hstate)] at hcompleted
    cases hcompleted

end BroadcastService

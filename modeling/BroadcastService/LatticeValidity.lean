import BroadcastService.LatticeNumbering
import BroadcastService.LatticeProjection

/-!
# Validity of lattice agreement

Any property of vectors that the empty vector has and that `vectorSetUnion` keeps is a property of
every value of a round once it is one of the initial proposals (`values`). A decision contains the
proposer's own initial proposal, and with the property "all elements occur in an initial proposal of
the round" nothing else than proposed elements (`lattice_validity`).
-/

namespace BroadcastService
open MessagePassing

variable {n r : ℕ}

def RoundMessage.value : RoundMessage → ProposalT
  | .proposal pr => pr.proposedValue
  | .accept a => a.acceptedValue

def RoundOutput.value {P : Type*} : RoundOutput P → ProposalT
  | .propose v _ => v
  | .broadcast pr => pr.proposedValue
  | .reply _ a => a.acceptedValue
  | .callback v => v

theorem value_of_inflight {w : RoundWorld n} (hw : (roundProgram n r).Reachable w) {p q : Fin n}
    {m : RoundMessage} (hm : ⟨p, q, m⟩ ∈ w.inflight) : ∃ o ∈ w.trace p, o.value = m.value := by
  cases m with
  | proposal pr => exact ⟨_, broadcast_of_inflight hw hm, rfl⟩
  | accept a => exact ⟨_, reply_of_inflight hw hm, rfl⟩

structure Valued (S : ProposalT → Prop) (s : RoundState) (t : List (RoundOutput (Fin n))) :
    Prop where
  proposed : S s.proposedValue
  accepted : S s.acceptedValue
  outputs : ∀ o ∈ t, S o.value

theorem Valued.onPropose {S : ProposalT → Prop} {s : RoundNode} {t : List (RoundOutput (Fin n))}
    (h : Valued S s.state t) {v : ProposalT} (hv : S v) (b : Bool) :
    Valued S (s.onPropose (P := Fin n) (v, b)).1.state (t ++ (s.onPropose (v, b)).2) := by
  refine ⟨hv, h.accepted, fun o ho => ?_⟩
  rcases List.mem_append.1 ho with ho | ho
  · exact h.outputs o ho
  · cases b <;> simp [RoundNode.onPropose] at ho
    · subst ho
      exact hv
    · rcases ho with rfl | rfl <;> exact hv

section Values

variable {S : ProposalT → Prop} (hnil : S [])
  (hunion : ∀ u v, S u → S v → S (vectorSetUnion u v))

include hnil hunion

theorem Valued.react {maj : ℕ} {s s' : RoundState} {t outs : List (RoundOutput (Fin n))}
    {src : Fin n} {m : RoundMessage} (h : Valued S s t) (hr : Reaction maj s src m s' outs)
    (hm : S m.value) : Valued S s' (t ++ outs) := by
  have happ : ∀ o, S o.value → ∀ x ∈ t ++ [o], S x.value := by
    intro o ho x hx
    rcases List.mem_append.1 hx with hx | hx
    · exact h.outputs x hx
    · rw [List.mem_singleton.1 hx]
      exact ho
  have hcount : ∀ a : Accept, S a.acceptedValue → S (s.count a).proposedValue := by
    intro a ha
    unfold RoundState.count
    split
    · exact h.proposed
    · exact hunion _ _ h.proposed ha
  cases hr with
  | ack p hp => exact ⟨h.proposed, hm, happ _ hnil⟩
  | nack p hp =>
      have hacc := hunion _ _ h.accepted hm
      exact ⟨h.proposed, hacc, happ _ hacc⟩
  | stale a hs => exact ⟨h.proposed, h.accepted, by simpa using h.outputs⟩
  | counted a hc hn hacks hsum =>
      exact ⟨hcount a hm, by simpa using h.accepted, by simpa using h.outputs⟩
  | decided a hc hn hacks =>
      exact ⟨hcount a hm, by simpa using h.accepted, happ _ (hcount a hm)⟩
  | moved a hc hn hacks hnacks hsum =>
      exact ⟨hcount a hm, by simpa using h.accepted, happ _ (hcount a hm)⟩

/-- A property of all initial proposals that unions keep holds of every value of the round. -/
theorem values {w : RoundWorld n} (hw : (roundProgram n r).Reachable w)
    (hS : Proposals S w.toHistory) (p : Fin n) : Valued S (w.node p).state (w.trace p) := by
  revert p
  refine round_invariant_of hw hS
    (I := fun h => ∀ p, Valued S (h.node p).state (h.trace p)) ?_ ?_ ?_
  · exact fun p => ⟨hnil, hnil, by simp [Program.initial]⟩
  · intro w p v b _ _ ih _ hv
    exact History.forall_act _ _ _ (Q := fun _ (s : RoundNode) t => Valued S s.state t) ih
      ((ih p).onPropose hv b)
  · intro w src dst m s outs hw _ ih hm hr
    obtain ⟨o, ho, he⟩ := value_of_inflight hw hm
    exact History.forall_act _ _ _ (Q := fun _ (s : RoundNode) t => Valued S s.state t) ih
      (Valued.react hnil hunion (ih dst) hr (he ▸ (ih src).outputs o ho))

end Values

structure Owned (s : RoundNode) (t : List (RoundOutput (Fin n))) : Prop where
  proposed : s.proposed = true ↔ ∃ v b, .propose v b ∈ t
  value : ∀ v b, .propose v b ∈ t → v ⊆ s.state.proposedValue
  broadcast : ∀ v b pr, .propose v b ∈ t → .broadcast pr ∈ t → v ⊆ pr.proposedValue
  decision : ∀ V, .callback V ∈ t → s.proposed = true ∧ ∀ v b, .propose v b ∈ t → v ⊆ V

theorem Owned.onPropose {s : RoundNode} {t : List (RoundOutput (Fin n))} (h : Owned s t)
    (hnum : Numbered s t) (hs : s.proposed = false) (v : ProposalT) (b : Bool) :
    Owned (s.onPropose (P := Fin n) (v, b)).1 (t ++ (s.onPropose (v, b)).2) := by
  have hnone : ∀ u c, .propose u c ∉ t := fun u c hu => by
    have := h.proposed.2 ⟨u, c, hu⟩
    simp [hs] at this
  have hsilent : ∀ pr, .broadcast pr ∉ t := fun pr => by
    simp [← mem_broadcasts, (hnum.unproposed hs).1]
  have hundecided : ∀ V, .callback V ∉ t := fun V hV => by
    have := (h.decision V hV).1
    simp [hs] at this
  have hown : ∀ u c, .propose u c ∈ t ++ (s.onPropose (v, b)).2 → u = v := by
    intro u c hu
    cases b <;> simp [RoundNode.onPropose, hnone] at hu <;> exact hu.1
  refine ⟨⟨fun _ => ⟨v, b, by simp [RoundNode.onPropose]⟩, fun _ => rfl⟩, fun u c hu => ?_,
    fun u c pr hu hpr => ?_, fun V hV => ?_⟩
  · rw [hown u c hu]
    exact fun _ hx => hx
  · rw [hown u c hu]
    cases b <;> simp [RoundNode.onPropose, hsilent] at hpr
    subst hpr
    exact fun _ hx => hx
  · cases b <;> simp [RoundNode.onPropose, hundecided] at hV

theorem Owned.react {maj : ℕ} {s : RoundNode} {t outs : List (RoundOutput (Fin n))}
    {src : Fin n} {m : RoundMessage} {s' : RoundState} (h : Owned s t)
    (hr : Reaction maj s.state src m s' outs) (hs : ∀ a, m = .accept a → s.proposed = true) :
    Owned { s with state := s' } (t ++ outs) := by
  have hown : ∀ a v b, .propose v b ∈ t → v ⊆ (s.state.count a).proposedValue :=
    fun a v b hv => List.Subset.trans (h.value v b hv) (s.state.subset_count a)
  cases hr with
  | decided a hc hn hacks =>
      refine ⟨by simpa using h.proposed, by simpa using hown a, by simpa using h.broadcast,
        fun V hV => ?_⟩
      rcases List.mem_append.1 hV with hV | hV
      · simpa using h.decision V hV
      · obtain rfl : V = (s.state.count a).proposedValue := by simpa using hV
        exact ⟨hs a rfl, by simpa using hown a⟩
  | moved a hc hn hacks hnacks hsum =>
      refine ⟨by simpa using h.proposed, by simpa using hown a, fun v b pr hv hpr => ?_,
        by simpa using h.decision⟩
      have hv' : .propose v b ∈ t := by simpa using hv
      rcases List.mem_append.1 hpr with hpr | hpr
      · exact h.broadcast v b pr hv' hpr
      · obtain rfl : pr = _ := by simpa using hpr
        exact hown a v b hv'
  | counted a hc hn hacks hsum =>
      exact ⟨by simpa using h.proposed, by simpa using hown a, by simpa using h.broadcast,
        by simpa using h.decision⟩
  | _ =>
      exact ⟨by simpa using h.proposed, by simpa using h.value, by simpa using h.broadcast,
        by simpa using h.decision⟩

theorem owned {w : RoundWorld n} (hw : (roundProgram n r).Reachable w) (p : Fin n) :
    Owned (w.node p) (w.trace p) := by
  refine round_local hw ⟨by simp, by simp, by simp, by simp⟩ ?_ ?_ p
  · exact fun w p v b hw ih hp => ih.onPropose ((numbering hw).node p) hp v b
  · intro w src dst m s outs hw ih hm hr
    refine ih.react hr ?_
    rintro a rfl
    obtain ⟨pr, hpr, _⟩ := (numbering hw).answered src dst a (reply_of_inflight hw hm)
    exact ((numbering hw).node dst).proposed hpr

abbrev LAWorld (n : ℕ) := World (Fin n) LAProcess LAMessage (LAOutput (Fin n))

def initialProposals (w : LAWorld n) (p : Fin n) (r : ℕ) : List ProposalT :=
  (w.trace p).filterMap fun o => match o with
    | .propose m => (m.atRound r).map (·.proposedValue)
    | _ => none

theorem mem_initialProposals {w : LAWorld n} {p : Fin n} {v : ProposalT} :
    v ∈ initialProposals w p r ↔
      ∃ b, .propose v b ∈ ((roundProjection n r).world w).trace p := by
  simp only [initialProposals, Projection.world, List.mem_filterMap]
  constructor
  · rintro ⟨o, ho, he⟩
    cases o with
    | propose m =>
        obtain ⟨pr, hpr, rfl⟩ := Option.map_eq_some_iff.1 he
        refine ⟨(m.onWire.atRound r).isSome, _, ho, ?_⟩
        simp [roundProjection, LAOutput.atRound, hpr]
    | _ => simp at he
  · rintro ⟨b, o, ho, he⟩
    cases o with
    | propose m =>
        obtain ⟨pr, hpr, he⟩ := Option.map_eq_some_iff.1 he
        exact ⟨_, ho, by simp [hpr, (RoundOutput.propose.inj he).1]⟩
    | _ => simp [roundProjection, LAOutput.atRound] at he

theorem callback_atRound {w : LAWorld n} {p : Fin n} {V : ProposalT}
    (h : .callback r V ∈ w.trace p) :
    .callback V ∈ ((roundProjection n r).world w).trace p :=
  List.mem_filterMap.2 ⟨_, h, by simp [roundProjection, LAOutput.atRound]⟩

/-- A decision of a round is made by a process that proposed in it, contains its own proposal and
holds nothing but elements of initial proposals of that round. -/
theorem lattice_validity {w : LAWorld n} (hw : (latticeProgram n).Reachable w) {p : Fin n}
    {V : ProposalT} (hV : .callback r V ∈ w.trace p) :
    (∃ v, v ∈ initialProposals w p r) ∧ (∀ v ∈ initialProposals w p r, v ⊆ V) ∧
      ∀ x ∈ V, ∃ q, ∃ v ∈ initialProposals w q r, x ∈ v := by
  have hround := round_reachable hw r
  have hcall := callback_atRound hV
  obtain ⟨hprop, hown⟩ := (owned hround p).decision V hcall
  refine ⟨?_, fun v hv => ?_, ?_⟩
  · obtain ⟨v, b, hv⟩ := (owned hround p).proposed.1 hprop
    exact ⟨v, mem_initialProposals.2 ⟨b, hv⟩⟩
  · obtain ⟨b, hb⟩ := mem_initialProposals.1 hv
    exact hown v b hb
  · refine (values (S := fun V => ∀ x ∈ V, ∃ q, ∃ v ∈ initialProposals w q r, x ∈ v) (by simp) ?_
      hround ?_ p).outputs _ hcall
    · intro u v hu hv x hx
      exact (mem_vectorSetUnion.1 hx).elim (hu x) (hv x)
    · exact fun q v b hv x hx => ⟨q, v, mem_initialProposals.2 ⟨b, hv⟩, hx⟩

/-- Two processes propose `[1]` and `[2]` in round 0 and every message is handled in the order of
sending: the first decides `[1]`, the second is refined to `[2, 1]`. -/
def concurrentProposals {P : Type*} (p q : P) : List (Label P (ℕ × List ProposalT)) :=
  [.input p (0, [[1]]), .input q (0, [[2]])] ++ List.replicate 12 (.handle 0)

theorem lattice_validity_concurrent : ∃ w : LAWorld 2, (latticeProgram 2).Reachable w ∧
    .callback 0 [2, 1] ∈ w.trace 1 ∧ (∃ v, v ∈ initialProposals w 1 0) ∧
    (∀ v ∈ initialProposals w 1 0, v ⊆ [2, 1]) ∧
    ∀ x ∈ [2, 1], ∃ q, ∃ v ∈ initialProposals w q 0, x ∈ v := by
  obtain ⟨w, hr, hV⟩ : ∃ w, (latticeProgram 2).Reachable w ∧ .callback 0 [2, 1] ∈ w.trace 1 :=
    TransitionSystem.exists_reachable (concurrentProposals 0 1) (by decide +kernel)
  exact ⟨w, hr, hV, lattice_validity hr hV⟩

end BroadcastService

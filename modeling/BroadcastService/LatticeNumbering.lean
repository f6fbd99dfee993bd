import BroadcastService.LatticeRoundSteps

/-!
# Proposal numbers of a round

The broadcasts of a proposer are numbered `0, 1, 2, …`, its current number is the last of them, and
every answer answers one of them.
-/

namespace BroadcastService
open MessagePassing

variable {n r : ℕ}

def broadcasts (t : List (RoundOutput (Fin n))) : List Proposal :=
  t.filterMap fun o => match o with
    | .broadcast p => some p
    | _ => none

@[simp] theorem broadcasts_nil : broadcasts ([] : List (RoundOutput (Fin n))) = [] := rfl

@[simp] theorem broadcasts_append (t t' : List (RoundOutput (Fin n))) :
    broadcasts (t ++ t') = broadcasts t ++ broadcasts t' := List.filterMap_append

@[simp] theorem mem_broadcasts {t : List (RoundOutput (Fin n))} {p : Proposal} :
    p ∈ broadcasts t ↔ .broadcast p ∈ t := by
  simp only [broadcasts, List.mem_filterMap]
  constructor
  · rintro ⟨o, ho, h⟩
    cases o <;> simp_all
  · exact fun h => ⟨_, h, rfl⟩

structure Numbered (s : RoundNode) (t : List (RoundOutput (Fin n))) : Prop where
  numbers : (broadcasts t).map (·.activeProposalNumber) = List.range (broadcasts t).length
  current : broadcasts t = [] ∧ s.state.activeProposalNumber = 0 ∨
    s.proposed = true ∧ (broadcasts t).length = s.state.activeProposalNumber + 1

namespace Numbered

variable {s s' : RoundNode} {t t' : List (RoundOutput (Fin n))} {pr pr' : Proposal}

theorem proposed (h : Numbered s t) (hpr : .broadcast pr ∈ t) : s.proposed = true := by
  rcases h.current with ⟨hnil, _⟩ | ⟨hp, _⟩
  · rw [← mem_broadcasts, hnil] at hpr
    cases hpr
  · exact hp

theorem unproposed (h : Numbered s t) (hs : s.proposed = false) :
    broadcasts t = [] ∧ s.state.activeProposalNumber = 0 := by
  rcases h.current with hc | ⟨hp, _⟩
  · exact hc
  · rw [hs] at hp
    cases hp

theorem le_current (h : Numbered s t) (hpr : .broadcast pr ∈ t) :
    pr.activeProposalNumber ≤ s.state.activeProposalNumber := by
  have hmem := mem_broadcasts.2 hpr
  have hnum : pr.activeProposalNumber ∈ List.range (broadcasts t).length := by
    rw [← h.numbers]
    exact List.mem_map_of_mem hmem
  rw [List.mem_range] at hnum
  rcases h.current with ⟨hnil, _⟩ | ⟨_, hlen⟩
  · rw [hnil] at hmem
    cases hmem
  · omega

theorem exists_broadcast (h : Numbered s t) (hpr : .broadcast pr ∈ t) {k : ℕ}
    (hk : k ≤ s.state.activeProposalNumber) : ∃ v, .broadcast ⟨v, k⟩ ∈ t := by
  have hlen : (broadcasts t).length = s.state.activeProposalNumber + 1 := by
    rcases h.current with ⟨hnil, _⟩ | ⟨_, hlen⟩
    · rw [← mem_broadcasts, hnil] at hpr
      cases hpr
    · exact hlen
  have hmem : k ∈ (broadcasts t).map (·.activeProposalNumber) := by
    rw [h.numbers, List.mem_range]
    omega
  obtain ⟨⟨v, _⟩, hv, rfl⟩ := List.mem_map.1 hmem
  exact ⟨v, mem_broadcasts.1 hv⟩

theorem unique (h : Numbered s t) (hpr : .broadcast pr ∈ t) (hpr' : .broadcast pr' ∈ t)
    (he : pr.activeProposalNumber = pr'.activeProposalNumber) : pr = pr' := by
  have hnodup : ((broadcasts t).map (·.activeProposalNumber)).Nodup := by
    rw [h.numbers]
    exact List.nodup_range
  exact List.inj_on_of_nodup_map hnodup (mem_broadcasts.2 hpr) (mem_broadcasts.2 hpr') he

theorem keep (h : Numbered s t) (hb : broadcasts t' = [])
    (hnum : s'.state.activeProposalNumber = s.state.activeProposalNumber)
    (hp : s'.proposed = s.proposed) : Numbered s' (t ++ t') := by
  refine ⟨?_, ?_⟩
  · simpa [hb] using h.numbers
  · simpa [hb, hnum, hp] using h.current

theorem extend (h : Numbered s t) (pr : Proposal) (hb : broadcasts t' = [pr])
    (hpr : pr.activeProposalNumber = (broadcasts t).length)
    (hnum : s'.state.activeProposalNumber = pr.activeProposalNumber)
    (hp : s'.proposed = true) : Numbered s' (t ++ t') := by
  refine ⟨?_, .inr ⟨hp, ?_⟩⟩
  · simp [hb, h.numbers, hpr, List.range_succ]
  · simp [hb, hnum, hpr]

end Numbered

structure Numbering (h : RoundHistory n) : Prop where
  node : ∀ p, Numbered (h.node p) (h.trace p)
  answered : ∀ a p acc, .reply p acc ∈ h.trace a →
    ∃ pr, .broadcast pr ∈ h.trace p ∧ pr.activeProposalNumber = acc.proposalNumber

theorem Numbered.onPropose {s : RoundNode} {t : List (RoundOutput (Fin n))} (h : Numbered s t)
    (hs : s.proposed = false) (v : ProposalT) (b : Bool) :
    Numbered (s.onPropose (P := Fin n) (v, b)).1 (t ++ (s.onPropose (v, b)).2) := by
  obtain ⟨ht, hnum⟩ := h.unproposed hs
  cases b with
  | false =>
      have hnil : broadcasts (t ++ (s.onPropose (v, false)).2) = [] := by
        rw [broadcasts_append, ht]
        rfl
      exact ⟨by rw [hnil]; rfl, .inl ⟨hnil, hnum⟩⟩
  | true =>
      refine h.extend ⟨v, 0⟩ rfl ?_ hnum rfl
      rw [ht]
      rfl

theorem Numbered.react {maj : ℕ} {s : RoundNode} {t outs : List (RoundOutput (Fin n))}
    {src : Fin n} {m : RoundMessage} {s' : RoundState} (h : Numbered s t)
    (hr : Reaction maj s.state src m s' outs)
    (ha : ∀ a, m = .accept a →
      ∃ pr, .broadcast pr ∈ t ∧ pr.activeProposalNumber = a.proposalNumber) :
    Numbered { s with state := s' } (t ++ outs) := by
  cases hr with
  | ack p hp => exact h.keep rfl rfl rfl
  | nack p hp => exact h.keep rfl rfl rfl
  | stale a hs => exact h.keep rfl rfl rfl
  | counted a hc hn hacks hsum => exact h.keep rfl (by simp) rfl
  | decided a hc hn hacks => exact h.keep rfl (by simp) rfl
  | moved a hc hn hacks hnacks hsum =>
      obtain ⟨pr, hpr, _⟩ := ha a rfl
      refine h.extend ⟨_, s.state.activeProposalNumber + 1⟩ rfl ?_ rfl (h.proposed hpr)
      rcases h.current with ⟨hnil, _⟩ | ⟨_, hlen⟩
      · rw [← mem_broadcasts, hnil] at hpr
        cases hpr
      · exact hlen.symm

theorem numbering {w : RoundWorld n} (hw : (roundProgram n r).Reachable w) :
    Numbering w.toHistory := by
  refine round_invariant hw ⟨fun p => ⟨rfl, .inl ⟨rfl, rfl⟩⟩, fun a p acc h => by cases h⟩ ?_ ?_
  · intro w p v b _ ih hp
    refine ⟨History.forall_act _ _ _ (Q := fun _ => Numbered) ih.node
      ((ih.node p).onPropose hp v b), ?_⟩
    intro a q acc hacc
    rcases (History.mem_act_trace ..).1 hacc with h | ⟨_, h⟩
    · obtain ⟨pr, hpr, he⟩ := ih.answered a q acc h
      exact ⟨pr, History.trace_subset_act _ _ _ _ hpr, he⟩
    · cases b <;> simp [RoundNode.onPropose] at h
  · intro w src dst m s outs hw ih hm hr
    refine ⟨History.forall_act _ _ _ (Q := fun _ => Numbered) ih.node
      ((ih.node dst).react hr ?_), ?_⟩
    · rintro a rfl
      exact ih.answered src dst a (reply_of_inflight hw hm)
    · intro a q acc hacc
      have hold := RoundHistory.subset_react w.toHistory src dst m s outs q
      rcases (RoundHistory.mem_react_trace ..).1 hacc with h | ⟨_, h⟩
      · obtain ⟨pr, hpr, he⟩ := ih.answered a q acc h
        exact ⟨pr, hold hpr, he⟩
      · cases hr <;> simp at h
        all_goals
          obtain ⟨rfl, rfl⟩ := h
          exact ⟨_, hold (broadcast_of_inflight hw hm), rfl⟩

end BroadcastService

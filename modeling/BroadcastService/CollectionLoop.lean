import BroadcastService.UniformReliableBroadcast

/-!
# Termination of the garbage collection

The loop of `DeliveredGarbageCollection` counts up to a bound of its own type, so it ends for every
bound but the largest `MessageID`, where the counter wraps instead of passing the bound. Where it
ends, it has erased the identifiers of its segment and no others, also when the start of the segment
has wrapped to zero.
-/

namespace BroadcastService.UniformReliableBroadcast

variable {P : Type*} [DecidableEq P]

/-- `segment_to_clean_start`. -/
def segmentStart (urb : UniformReliableBroadcast P) (peer : P) : ℕ :=
  (urb.deliveredPrefixCleaned peer).elim 0 fun c => (c + 1) % idSpace

/-- The collection returns `g`: its loop ends after some number of iterations, and of `delivered_`
exactly the identifiers of the peer in the segment are gone. -/
structure Erases (urb : UniformReliableBroadcast P) (peer : P) (segmentEnd : ℕ)
    (g : UniformReliableBroadcast P) : Prop where
  loop : ∃ fuel, eraseSegment peer segmentEnd fuel (urb.segmentStart peer) urb.delivered =
    some g.delivered
  mem_delivered : ∀ x, x ∈ g.delivered ↔ x ∈ urb.delivered ∧
    ¬(x.peer = peer ∧ urb.segmentStart peer ≤ x.urbId ∧ x.urbId ≤ segmentEnd)
  returns : urb.deliveredGarbageCollection peer = some g

omit [DecidableEq P] in
theorem segmentStart_lt (urb : UniformReliableBroadcast P) (peer : P) :
    urb.segmentStart peer < idSpace := by
  rw [segmentStart]
  cases urb.deliveredPrefixCleaned peer with
  | none => exact Nat.two_pow_pos 32
  | some c => exact Nat.mod_lt _ (Nat.two_pow_pos 32)

/-- What the collection returns when its loop ends. -/
theorem deliveredGarbageCollection_eq {urb : UniformReliableBroadcast P} {peer : P}
    {segmentEnd : ℕ} {delivered : Finset (URBIdentifier P)}
    (htoClean : urb.deliveredPrefixToClean peer = some segmentEnd)
    (hloop : eraseSegment peer segmentEnd (idSpace + 1) (urb.segmentStart peer) urb.delivered =
      some delivered) :
    ∃ g, urb.deliveredGarbageCollection peer = some g ∧ g.delivered = delivered := by
  rw [segmentStart] at hloop
  simp only [deliveredGarbageCollection, htoClean, hloop, Option.map_some]
  refine ⟨_, rfl, ?_⟩
  split_ifs <;> rfl

theorem exists_erases {urb : UniformReliableBroadcast P} {peer : P} {segmentEnd : ℕ}
    (htoClean : urb.deliveredPrefixToClean peer = some segmentEnd)
    (hend : segmentEnd + 1 < idSpace) : ∃ g, urb.Erases peer segmentEnd g := by
  have hfuel : segmentEnd + 1 - urb.segmentStart peer < idSpace + 1 := by omega
  obtain ⟨delivered, hloop⟩ :=
    Option.isSome_iff_exists.1 (eraseSegment_isSome hend hfuel urb.delivered)
  obtain ⟨g, hreturns, rfl⟩ := deliveredGarbageCollection_eq htoClean hloop
  exact ⟨g, ⟨_, hloop⟩, mem_of_eraseSegment (urb.segmentStart_lt peer) hloop, hreturns⟩

/-- The loop ends, with exactly its segment erased, for every recorded prefix but the largest. -/
theorem collection_terminates_iff (urb : UniformReliableBroadcast P) (peer : P)
    (messagePrefix : UInt32) :
    (∃ g, (urb.cleanDeliveredPrefix peer messagePrefix.toNat).Erases peer messagePrefix.toNat g) ↔
      messagePrefix ≠ 4294967295 := by
  have htoClean : (urb.cleanDeliveredPrefix peer messagePrefix.toNat).deliveredPrefixToClean peer =
      some messagePrefix.toNat := Function.update_self ..
  constructor
  · rintro ⟨g, ⟨fuel, hloop⟩, -, -⟩ rfl
    have hlast : idSpace ≤ (4294967295 : UInt32).toNat + 1 := le_of_eq rfl
    rw [eraseSegment_last hlast fuel (segmentStart_lt _ peer)] at hloop
    cases hloop
  · intro hne
    have hlt := messagePrefix.toNat_lt
    have hne' : messagePrefix.toNat ≠ 4294967295 := fun heq => hne (UInt32.toNat_inj.1 heq)
    refine exists_erases htoClean ?_
    change messagePrefix.toNat + 1 < 2 ^ 32
    omega

/-- A process that has nothing to erase: the loop outlives every number of iterations. -/
theorem collection_of_last_prefix :
    (({} : UniformReliableBroadcast UInt8).cleanDeliveredPrefix 1
        4294967295).deliveredGarbageCollection 1 = none ∧
      (∀ fuel, eraseSegment (1 : UInt8) 4294967295 fuel 0 ∅ = none) ∧
      ¬∃ g, (({} : UniformReliableBroadcast UInt8).cleanDeliveredPrefix 1 4294967295).Erases 1
        4294967295 g := by
  have hloop : ∀ fuel, eraseSegment (1 : UInt8) 4294967295 fuel 0 ∅ = none := by
    intro fuel
    exact eraseSegment_last (le_of_eq rfl) fuel (Nat.two_pow_pos 32) ∅
  have hnone : (({} : UniformReliableBroadcast UInt8).cleanDeliveredPrefix 1
      4294967295).deliveredGarbageCollection 1 = none := by
    have htoClean : (({} : UniformReliableBroadcast UInt8).cleanDeliveredPrefix 1
        4294967295).deliveredPrefixToClean 1 = some 4294967295 := rfl
    rw [deliveredGarbageCollection, htoClean]
    exact congrArg (Option.map _) (hloop (idSpace + 1))
  refine ⟨hnone, hloop, ?_⟩
  rintro ⟨g, h⟩
  cases hnone.symm.trans h.returns

end BroadcastService.UniformReliableBroadcast

import BroadcastService.FifoDrain

/-!
# One event of the FIFO layer

A URB delivery of a new identifier keeps `FifoInv`: a message is FIFO-delivered as soon as it and
all earlier ones of its source were URB-delivered (`onURBDelivery_spec`). A local broadcast keeps it
too.
-/

namespace BroadcastService

variable {P : Type*} [DecidableEq P]

theorem onURBDelivery_direct {localID : P} {fifo : FIFOBroadcast P} {x : URBIdentifier P}
    {message : Bytes} (hnext : fifo.nextIds x.peer = x.urbId) (fifo' : FIFOBroadcast P)
    (hfifo : fifo' = { fifo with
      nextIds := Function.update fifo.nextIds x.peer ((fifo.nextIds x.peer + 1) % idSpace) }) :
    fifo.onURBDelivery localID x message =
      (((fifo'.deliver localID x.peer x.urbId message).1.drain localID x.peer
          ((fifo'.deliver localID x.peer x.urbId message).1.pendings x.peer)).1,
        .deliver (fifo'.deliver localID x.peer x.urbId message).2 ::
          ((fifo'.deliver localID x.peer x.urbId message).1.drain localID x.peer
            ((fifo'.deliver localID x.peer x.urbId message).1.pendings x.peer)).2) := by
  rw [FIFOBroadcast.onURBDelivery, if_pos hnext, hfifo]
  rfl

theorem onURBDelivery_emplace {localID : P} {fifo : FIFOBroadcast P} {x : URBIdentifier P}
    {message : Bytes} (hnext : fifo.nextIds x.peer ≠ x.urbId) (fifo' : FIFOBroadcast P)
    (hfifo : fifo' = { fifo with
      pendings := Function.update fifo.pendings x.peer
        (emplace x.urbId message (fifo.pendings x.peer)) }) :
    fifo.onURBDelivery localID x message =
      fifo'.drain localID x.peer (fifo'.pendings x.peer) := by
  rw [FIFOBroadcast.onURBDelivery, if_neg hnext, hfifo]
  rfl

theorem FifoCore.mono {A : Prop} {localID : P} {fifo : FIFOBroadcast P}
    {D D' : List (URBIdentifier P × Bytes)} {F : List (FIFODelivery P)} {K : P → ℕ}
    (h : FifoCore A localID fifo D F K) (hsub : D ⊆ D') : FifoCore A localID fifo D' F K := by
  refine ⟨fun s i hi => ?_, h.next, h.order, fun d hd => hsub (h.payload d hd), h.fulfilled,
    h.entries⟩
  obtain ⟨m, hm⟩ := h.below s i hi
  exact ⟨m, hsub hm⟩

/-- Both layers agree on the deliveries of a process, and no pending message is ready. -/
structure FifoInv (A : Prop) (localID : P) (fifo : FIFOBroadcast P)
    (D : List (URBIdentifier P × Bytes)) (F : List (FIFODelivery P)) (K : P → ℕ) : Prop where
  core : FifoCore A localID fifo D F K
  pending : FifoPending fifo D K
  stop : ∀ s m, (⟨s, K s⟩, m) ∉ D

section Delivery

variable {A : Prop} {localID : P} {fifo : FIFOBroadcast P} {D : List (URBIdentifier P × Bytes)}
  {F : List (FIFODelivery P)} {K : P → ℕ} {x : URBIdentifier P} {message : Bytes}
  (h : FifoInv A localID fifo D F K)
  (hD : Deliverable A localID fifo.contracts (D ++ [(x, message)]))

include hD

omit [DecidableEq P] in
theorem Deliverable.new (m : Bytes) : (x, m) ∉ D := by
  intro hm
  have hdistinct := hD.distinct
  rw [List.map_append, List.nodup_append] at hdistinct
  exact hdistinct.2.2 x (List.mem_map.2 ⟨_, hm, rfl⟩) x (by simp) rfl

include h

/-- A new identifier is not below the next one, and is the next one if the code takes it for it. -/
theorem FifoInv.new_id :
    K x.peer ≤ x.urbId ∧ (fifo.nextIds x.peer = x.urbId ↔ x.urbId = K x.peer) := by
  have hle : K x.peer ≤ x.urbId := by
    by_contra hlt
    obtain ⟨m, hm⟩ := h.core.below x.peer x.urbId (by omega)
    exact hD.new m hm
  have hspace : x.urbId < idSpace := hD.space (x, message) (by simp)
  rw [h.core.next, Nat.mod_eq_of_lt (by omega)]
  exact ⟨hle, eq_comm⟩

omit hD in
theorem FifoInv.pending_direct (message : Bytes) (hx : x.urbId = K x.peer) (fifo' : FIFOBroadcast P)
    (hfifo : fifo'.pendings = fifo.pendings) :
    FifoPending fifo' (D ++ [(x, message)]) (Function.update K x.peer (K x.peer + 1)) := by
  constructor
  · rw [hfifo]
    exact h.pending.sorted
  · intro q i m
    rw [hfifo, h.pending.mem q i m, List.mem_append, List.mem_singleton]
    by_cases hq : q = x.peer
    · subst hq
      rw [Function.update_self]
      constructor
      · rintro ⟨hi, hm⟩
        refine ⟨?_, .inl hm⟩
        have hne : i ≠ K x.peer := by
          rintro rfl
          exact h.stop x.peer m hm
        omega
      · rintro ⟨hi, hm | hm⟩
        · exact ⟨by omega, hm⟩
        · have := congrArg (fun e => e.1.urbId) hm
          simp only at this
          omega
    · rw [Function.update_of_ne hq]
      have hne : (⟨q, i⟩, m) ≠ (x, message) := fun he => hq (congrArg (fun e => e.1.peer) he)
      simp [hne]

theorem FifoInv.pending_emplace :
    FifoPending { fifo with
      pendings := Function.update fifo.pendings x.peer
        (emplace x.urbId message (fifo.pendings x.peer)) } (D ++ [(x, message)]) K := by
  have hnew : ∀ e ∈ fifo.pendings x.peer, e.1 ≠ x.urbId := by
    intro e he hid
    have hmem := ((h.pending.mem x.peer e.1 e.2).1 he).2
    rw [hid] at hmem
    exact hD.new e.2 hmem
  constructor
  · intro q
    change List.Pairwise _ (Function.update fifo.pendings x.peer _ q)
    by_cases hq : q = x.peer
    · rw [hq, Function.update_self]
      exact sorted_emplace hnew (h.pending.sorted x.peer)
    · rw [Function.update_of_ne hq]
      exact h.pending.sorted q
  · intro q i m
    change (i, m) ∈ Function.update fifo.pendings x.peer _ q ↔ _
    rw [List.mem_append, List.mem_singleton]
    by_cases hq : q = x.peer
    · subst hq
      rw [Function.update_self, mem_emplace hnew, h.pending.mem x.peer i m]
      have hle := (h.new_id hD).1
      have hid : (i, m) = (x.urbId, message) ↔ (⟨x.peer, i⟩, m) = (x, message) := by
        rw [Prod.mk.injEq, Prod.mk.injEq, URBIdentifier.ext_iff]
        simp
      rw [hid]
      constructor
      · rintro (he | ⟨hi, hm⟩)
        · have := congrArg (fun e => e.1.urbId) he
          simp only at this
          exact ⟨by omega, .inr he⟩
        · exact ⟨hi, .inl hm⟩
      · rintro ⟨hi, hm | he⟩
        · exact .inr ⟨hi, hm⟩
        · exact .inl he
    · rw [Function.update_of_ne hq, h.pending.mem q i m]
      have hne : (⟨q, i⟩, m) ≠ (x, message) := fun he => hq (congrArg (fun e => e.1.peer) he)
      simp [hne]

theorem onURBDelivery_spec :
    ∃ K', FifoInv A localID (fifo.onURBDelivery localID x message).1 (D ++ [(x, message)])
        (F ++ deliveries (fifo.onURBDelivery localID x message).2) K' ∧
      (fifo.onURBDelivery localID x message).1.contracts = fifo.contracts := by
  have hcore := h.core.mono (List.subset_append_left D [(x, message)])
  have hmem : (x, message) ∈ D ++ [(x, message)] := by simp
  -- The loop leaves the other sources alone, and the new message is not theirs.
  have hother : ∀ K' : P → ℕ, (∀ m, (⟨x.peer, K' x.peer⟩, m) ∉ D ++ [(x, message)]) →
      (∀ q, q ≠ x.peer → K' q = K q) → ∀ q m, (⟨q, K' q⟩, m) ∉ D ++ [(x, message)] := by
    intro K' hstop hsame q m hm
    by_cases hq : q = x.peer
    · subst hq
      exact hstop m hm
    · rw [hsame q hq] at hm
      rcases List.mem_append.1 hm with hm | hm
      · exact h.stop q m hm
      · exact hq (congrArg (fun e => e.1.peer) (List.mem_singleton.1 hm))
  by_cases hnext : fifo.nextIds x.peer = x.urbId
  · have hx := (h.new_id hD).2.1 hnext
    rw [onURBDelivery_direct hnext _ rfl]
    generalize hfifo : { fifo with
      nextIds := Function.update fifo.nextIds x.peer ((fifo.nextIds x.peer + 1) % idSpace) } = fifo'
    have hcontracts : (fifo'.deliver localID x.peer x.urbId message).1.contracts =
        fifo.contracts := by rw [FIFOBroadcast.deliver_contracts, ← hfifo]
    have hadvance := hcore.advance fifo' (s := x.peer) (m := message) (hx ▸ hmem)
      (fun hA hs => hD.afterBroadcast hA _ message (by rw [← hx, ← hs]; exact hmem))
      (by rw [← hfifo]) (by rw [← hfifo]) (by rw [← hfifo])
    rw [← hx] at hadvance
    have hpending := h.pending_direct message hx
      (fifo'.deliver localID x.peer x.urbId message).1
      (by rw [FIFOBroadcast.deliver_pendings, ← hfifo])
    rw [← hx] at hpending
    obtain ⟨K', hcore', hpending', hstop, hsame, hcount⟩ :=
      drain_spec x.peer _ rfl (hcontracts ▸ hD) hadvance hpending
    refine ⟨K', ⟨?_, hpending', hother K' hstop fun q hq => ?_⟩, hcount.trans hcontracts⟩
    · simpa [deliveries] using hcore'
    · rw [hsame q hq, Function.update_of_ne hq]
  · rw [onURBDelivery_emplace hnext _ rfl]
    generalize hfifo : { fifo with
      pendings := Function.update fifo.pendings x.peer
        (emplace x.urbId message (fifo.pendings x.peer)) } = fifo'
    have hcontracts : fifo'.contracts = fifo.contracts := by rw [← hfifo]
    have hkeep : FifoCore A localID fifo' (D ++ [(x, message)]) F K := by
      rw [← hfifo]
      exact ⟨hcore.below, hcore.next, hcore.order, hcore.payload, hcore.fulfilled, hcore.entries⟩
    have hpending := h.pending_emplace hD
    rw [hfifo] at hpending
    obtain ⟨K', hcore', hpending', hstop, hsame, hcount⟩ :=
      drain_spec x.peer _ rfl (hcontracts ▸ hD) hkeep hpending
    exact ⟨K', ⟨hcore', hpending', hother K' hstop hsame⟩, hcount.trans hcontracts⟩

end Delivery

theorem FifoInv.broadcast {A : Prop} {localID : P} {fifo : FIFOBroadcast P}
    {D : List (URBIdentifier P × Bytes)} {F : List (FIFODelivery P)} {K : P → ℕ}
    (h : FifoInv A localID fifo D F K)
    (hafter : A → ∀ i m, (⟨localID, i⟩, m) ∈ D → i < fifo.contracts)
    (hids : A → fifo.urb.ids = fifo.contracts) (hlt : A → fifo.contracts < idSpace)
    (message : Bytes) : FifoInv A localID (fifo.broadcast localID message).1 D F K := by
  refine ⟨⟨h.core.below, h.core.next, h.core.order, h.core.payload, h.core.fulfilled,
    fun hA i => ?_⟩, ⟨h.pending.sorted, h.pending.mem⟩, h.stop⟩
  have hK : K localID ≤ fifo.contracts := by
    by_contra hgt
    obtain ⟨m, hm⟩ := h.core.below localID fifo.contracts (by omega)
    exact lt_irrefl _ (hafter hA _ m hm)
  change (fifo.broadcastMessageEntries.set (fifo.urb.ids % idSpace) fifo.contracts).get i =
    if K localID ≤ i ∧ i < fifo.contracts + 1 then some i else none
  rw [hids hA, Nat.mod_eq_of_lt (hlt hA), MRMWUnorderedMap.get_set, h.core.entries hA,
    h.core.entries hA]
  by_cases hi : i = fifo.contracts
  · simp [hi, hK]
  · have hiff : i < fifo.contracts + 1 ↔ i < fifo.contracts := by omega
    simp [hi, hiff]

/-- What the calls of `Deliver` do to the URB layer. -/
def UniformReliableBroadcast.cleanAll (urb : UniformReliableBroadcast P)
    (ds : List (FIFODelivery P)) : UniformReliableBroadcast P :=
  ds.foldl (fun urb d => urb.cleanDeliveredPrefix d.peer d.id) urb

theorem UniformReliableBroadcast.cleanAll_ids (urb : UniformReliableBroadcast P)
    (ds : List (FIFODelivery P)) : (urb.cleanAll ds).ids = urb.ids := by
  induction ds generalizing urb with
  | nil => rfl
  | cons d ds ih => exact ih (urb.cleanDeliveredPrefix d.peer d.id)

theorem drain_urb (localID s : P) (l : List (ℕ × Bytes)) (fifo : FIFOBroadcast P) :
    (fifo.drain localID s l).1.urb =
      fifo.urb.cleanAll (deliveries (fifo.drain localID s l).2) := by
  induction l generalizing fifo with
  | nil => rfl
  | cons e l ih =>
      by_cases he : fifo.nextIds s = e.1
      · rw [drain_cons l he _ rfl, ih, FIFOBroadcast.deliver_urb, FIFOBroadcast.deliver_snd]
        rfl
      · rw [FIFOBroadcast.drain, if_neg he]
        rfl

theorem onURBDelivery_urb (localID : P) (fifo : FIFOBroadcast P) (x : URBIdentifier P)
    (message : Bytes) : (fifo.onURBDelivery localID x message).1.urb =
      fifo.urb.cleanAll (deliveries (fifo.onURBDelivery localID x message).2) := by
  by_cases hnext : fifo.nextIds x.peer = x.urbId
  · rw [onURBDelivery_direct hnext _ rfl, drain_urb, FIFOBroadcast.deliver_urb,
      FIFOBroadcast.deliver_snd]
    rfl
  · rw [onURBDelivery_emplace hnext _ rfl, drain_urb]

/-- The callback only calls `Deliver` and, at its end, may read past the pending messages. -/
def FIFOOutput.ofCallback : FIFOOutput P → Bool
  | .deliver _ => true
  | .readEnd _ => true
  | _ => false

theorem drain_ofCallback (localID s : P) (l : List (ℕ × Bytes)) (fifo : FIFOBroadcast P) :
    ∀ o ∈ (fifo.drain localID s l).2, o.ofCallback = true := by
  induction l generalizing fifo with
  | nil => simp [FIFOBroadcast.drain, FIFOOutput.ofCallback]
  | cons e l ih =>
      by_cases he : fifo.nextIds s = e.1
      · rw [drain_cons l he _ rfl]
        intro o ho
        rcases List.mem_cons.1 ho with rfl | ho
        · rfl
        · exact ih _ o ho
      · rw [FIFOBroadcast.drain, if_neg he]
        simp

theorem onURBDelivery_ofCallback (localID : P) (fifo : FIFOBroadcast P) (x : URBIdentifier P)
    (message : Bytes) :
    ∀ o ∈ (fifo.onURBDelivery localID x message).2, o.ofCallback = true := by
  by_cases hnext : fifo.nextIds x.peer = x.urbId
  · rw [onURBDelivery_direct hnext _ rfl]
    intro o ho
    rcases List.mem_cons.1 ho with rfl | ho
    · rfl
    · exact drain_ofCallback _ _ _ _ o ho
  · rw [onURBDelivery_emplace hnext _ rfl]
    exact drain_ofCallback _ _ _ _

end BroadcastService

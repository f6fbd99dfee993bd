import BroadcastService.FifoDelivery

/-!
# FIFO order

The FIFO layer of one process, driven by local broadcasts and URB deliveries. The state and the
calls of `Deliver` after any sequence of events with distinct identifiers are determined by the set
of URB deliveries (`fifo_order`).
-/

namespace BroadcastService

variable {P : Type*} [DecidableEq P]

inductive FIFOEvent (P : Type*)
  | broadcast (message : Bytes)
  | urbDeliver (x : URBIdentifier P) (message : Bytes)

namespace FIFOBroadcast

def step (localID : P) (fifo : FIFOBroadcast P) :
    FIFOEvent P → FIFOBroadcast P × List (FIFOOutput P)
  | .broadcast message => fifo.broadcast localID message
  | .urbDeliver x message => fifo.onURBDelivery localID x message

def run (localID : P) :
    FIFOBroadcast P → List (FIFOEvent P) → FIFOBroadcast P × List (FIFOOutput P)
  | fifo, [] => (fifo, [])
  | fifo, e :: events =>
      let (fifo, outs) := fifo.step localID e
      let (fifo, outs') := run localID fifo events
      (fifo, outs ++ outs')

theorem run_append_singleton (localID : P) (fifo : FIFOBroadcast P) (events : List (FIFOEvent P))
    (e : FIFOEvent P) :
    fifo.run localID (events ++ [e]) =
      (((fifo.run localID events).1.step localID e).1,
        (fifo.run localID events).2 ++ ((fifo.run localID events).1.step localID e).2) := by
  induction events generalizing fifo with
  | nil => simp [run]
  | cons e' events ih => simp [run, ih, List.append_assoc]

end FIFOBroadcast

def urbDeliveries (events : List (FIFOEvent P)) : List (URBIdentifier P × Bytes) :=
  events.filterMap fun e => match e with
    | .urbDeliver x message => some (x, message)
    | .broadcast _ => none

def broadcastCount (events : List (FIFOEvent P)) : ℕ :=
  events.countP fun e => match e with
    | .urbDeliver _ _ => false
    | .broadcast _ => true

/-- Every identifier is a 32-bit number and is URB-delivered at most once. -/
structure Admissible (events : List (FIFOEvent P)) : Prop where
  distinct : ((urbDeliveries events).map (·.1)).Nodup
  space : ∀ e ∈ urbDeliveries events, e.1.urbId < idSpace

/-- Identifiers do not wrap, and a local one is URB-delivered only after its `Broadcast`. -/
structure LocalAfterBroadcast (localID : P) (events : List (FIFOEvent P)) : Prop where
  budget : broadcastCount events ≤ idSpace
  afterBroadcast : ∀ before after i message,
    events = before ++ .urbDeliver ⟨localID, i⟩ message :: after → i < broadcastCount before

omit [DecidableEq P] in
theorem Admissible.init {events : List (FIFOEvent P)} {e : FIFOEvent P}
    (h : Admissible (events ++ [e])) : Admissible events := by
  have hsub : (urbDeliveries events).Sublist (urbDeliveries (events ++ [e])) :=
    (List.sublist_append_left events [e]).filterMap _
  exact ⟨h.distinct.sublist (hsub.map _), fun x hx => h.space x (hsub.subset hx)⟩

omit [DecidableEq P] in
theorem LocalAfterBroadcast.init {localID : P} {events : List (FIFOEvent P)} {e : FIFOEvent P}
    (h : LocalAfterBroadcast localID (events ++ [e])) : LocalAfterBroadcast localID events := by
  constructor
  · exact ((List.sublist_append_left events [e]).countP_le).trans h.budget
  · intro before after i message he
    exact h.afterBroadcast before (after ++ [e]) i message (by simp [he])

omit [DecidableEq P] in
theorem Admissible.deliverable {A : Prop} {localID : P} {events : List (FIFOEvent P)}
    (h : Admissible events) (hA : A → LocalAfterBroadcast localID events) :
    Deliverable A localID (broadcastCount events) (urbDeliveries events) := by
  refine ⟨h.space, h.distinct, fun ha i m hm => ?_⟩
  obtain ⟨e, he, hx⟩ := List.mem_filterMap.1 hm
  cases e with
  | broadcast message => cases hx
  | urbDeliver x message =>
      obtain ⟨rfl, rfl⟩ := Prod.mk.inj (Option.some.inj hx)
      obtain ⟨before, after, hsplit⟩ := List.append_of_mem he
      apply lt_of_lt_of_le ((hA ha).afterBroadcast before after i message hsplit)
      rw [hsplit]
      exact (List.sublist_append_left before _).countP_le

/-- The state after a run: `FifoInv` for the URB deliveries of the run, and one contract for every
broadcast. -/
structure FifoRun (A : Prop) (localID : P) (events : List (FIFOEvent P)) (fifo : FIFOBroadcast P)
    (outs : List (FIFOOutput P)) (K : P → ℕ) : Prop where
  inv : FifoInv A localID fifo (urbDeliveries events) (deliveries outs) K
  contracts : fifo.contracts = broadcastCount events
  ids : fifo.urb.ids = fifo.contracts
  future : A → ∀ c i, .future c i ∈ outs → c = i

section Runs

variable {A : Prop} {localID : P} {events : List (FIFOEvent P)} {fifo : FIFOBroadcast P}
  {outs : List (FIFOOutput P)} {K : P → ℕ}

theorem FifoRun.broadcast (h : FifoRun A localID events fifo outs K) {message : Bytes}
    (hadm : Admissible (events ++ [.broadcast message]))
    (hA : A → LocalAfterBroadcast localID (events ++ [.broadcast message])) :
    FifoRun A localID (events ++ [.broadcast message]) (fifo.broadcast localID message).1
      (outs ++ (fifo.broadcast localID message).2) K := by
  have hcount : broadcastCount (events ++ [.broadcast message]) = broadcastCount events + 1 := by
    simp [broadcastCount]
  have hlt : A → fifo.contracts < idSpace := by
    intro ha
    have := (hA ha).budget
    rw [hcount] at this
    rw [h.contracts]
    omega
  have hD : Deliverable A localID fifo.contracts (urbDeliveries events) :=
    h.contracts ▸ hadm.init.deliverable fun ha => (hA ha).init
  constructor
  · have hinv := h.inv.broadcast hD.afterBroadcast (fun _ => h.ids) hlt message
    simpa [urbDeliveries, deliveries, FIFOBroadcast.broadcast, UniformReliableBroadcast.broadcast]
      using hinv
  · rw [hcount, ← h.contracts]
    rfl
  · change fifo.urb.ids + 1 = fifo.contracts + 1
    rw [h.ids]
  · intro ha c i hc
    rcases List.mem_append.1 hc with hc | hc
    · exact h.future ha c i hc
    · simp only [FIFOBroadcast.broadcast, List.mem_cons, FIFOOutput.future.injEq, List.mem_map,
        reduceCtorEq, and_false, exists_false, or_false] at hc
      obtain ⟨rfl, rfl⟩ := hc
      change fifo.contracts = fifo.urb.ids % idSpace
      rw [h.ids, Nat.mod_eq_of_lt (hlt ha)]

theorem FifoRun.urbDeliver (h : FifoRun A localID events fifo outs K) {x : URBIdentifier P}
    {message : Bytes} (hadm : Admissible (events ++ [.urbDeliver x message]))
    (hA : A → LocalAfterBroadcast localID (events ++ [.urbDeliver x message])) :
    ∃ K', FifoRun A localID (events ++ [.urbDeliver x message])
      (fifo.onURBDelivery localID x message).1
      (outs ++ (fifo.onURBDelivery localID x message).2) K' := by
  have hcount : broadcastCount (events ++ [.urbDeliver x message]) = broadcastCount events := by
    simp [broadcastCount]
  have hdel : urbDeliveries (events ++ [.urbDeliver x message]) =
      urbDeliveries events ++ [(x, message)] := by simp [urbDeliveries]
  have hD := hadm.deliverable hA
  rw [hcount, ← h.contracts, hdel] at hD
  obtain ⟨K', hinv, hsame⟩ := onURBDelivery_spec h.inv hD
  refine ⟨K', ?_, ?_, ?_, fun ha c i hc => ?_⟩
  · rw [hdel, deliveries_append]
    exact hinv
  · rw [hcount, hsame]
    exact h.contracts
  · rw [hsame, onURBDelivery_urb, UniformReliableBroadcast.cleanAll_ids]
    exact h.ids
  · rcases List.mem_append.1 hc with hc | hc
    · exact h.future ha c i hc
    · have := onURBDelivery_ofCallback localID fifo x message _ hc
      simp [FIFOOutput.ofCallback] at this

theorem fifoRun (localID : P) (h : Admissible events)
    (hA : A → LocalAfterBroadcast localID events) :
    ∃ K, FifoRun A localID events (FIFOBroadcast.run localID {} events).1
      (FIFOBroadcast.run localID {} events).2 K := by
  induction events using List.reverseRecOn with
  | nil =>
      refine ⟨fun _ => 0, ⟨⟨?_, ?_, ?_, ?_, ?_, ?_⟩, ⟨?_, ?_⟩, ?_⟩, rfl, rfl, ?_⟩ <;>
        simp [FIFOBroadcast.run, urbDeliveries, deliveries]
  | append_singleton events e ih =>
      obtain ⟨K, hK⟩ := ih h.init fun ha => (hA ha).init
      rw [FIFOBroadcast.run_append_singleton]
      cases e with
      | broadcast message => exact ⟨K, hK.broadcast h hA⟩
      | urbDeliver x message => exact hK.urbDeliver h hA

end Runs

def deliveriesOf (s : P) (outs : List (FIFOOutput P)) : List (FIFODelivery P) :=
  (deliveries outs).filter fun d => d.peer = s

/-- After any admissible sequence of events, `k s` is the first identifier of `s` that was not
URB-delivered, exactly the messages `0, …, k s - 1` of `s` were FIFO-delivered in this order, the
URB-delivered messages above `k s` are pending, and the future of a local broadcast was fulfilled
once, by the FIFO delivery of its identifier, if that is below `k localID`. -/
theorem fifo_order (localID : P) {events : List (FIFOEvent P)} (h : Admissible events)
    {fifo : FIFOBroadcast P} {outs : List (FIFOOutput P)}
    (hrun : FIFOBroadcast.run localID {} events = (fifo, outs)) :
    ∃ k : P → ℕ,
      (∀ s, (∀ i < k s, ⟨s, i⟩ ∈ (urbDeliveries events).map (·.1)) ∧
        ⟨s, k s⟩ ∉ (urbDeliveries events).map (·.1) ∧
        (deliveriesOf s outs).map (·.id) = List.range (k s) ∧
        (∀ d ∈ deliveriesOf s outs, (⟨s, d.id⟩, d.message) ∈ urbDeliveries events) ∧
        k s ≤ idSpace ∧ fifo.nextIds s = k s % idSpace ∧
        (fifo.pendings s).Pairwise (fun a b => a.1 < b.1) ∧
        ∀ i m, (i, m) ∈ fifo.pendings s ↔ k s < i ∧ (⟨s, i⟩, m) ∈ urbDeliveries events) ∧
      (LocalAfterBroadcast localID events → ∀ c i, .future c i ∈ outs →
        (deliveries outs).filter (fun d => d.fulfilled = some c) =
          (deliveriesOf localID outs).filter (fun d => d.id = i) ∧
        (deliveries outs).countP (fun d => d.fulfilled = some c) =
          if i < k localID then 1 else 0) := by
  obtain ⟨K, hK⟩ := fifoRun localID h id
  rw [hrun] at hK
  obtain ⟨⟨hcore, hpending, hstop⟩, _, _, hfuture⟩ := hK
  have hmem : ∀ s i, ⟨s, i⟩ ∈ (urbDeliveries events).map (·.1) ↔
      ∃ m, (⟨s, i⟩, m) ∈ urbDeliveries events := by simp
  refine ⟨K, fun s => ⟨?_, ?_, hcore.order s, fun d hd => ?_, ?_, hcore.next s,
    hpending.sorted s, fun i m => ?_⟩, fun ha c i hc => ?_⟩
  · exact fun i hi => (hmem s i).2 (hcore.below s i hi)
  · exact fun hin => ((hmem s (K s)).1 hin).elim (hstop s)
  · obtain ⟨hin, hs⟩ := List.mem_filter.1 hd
    obtain rfl := of_decide_eq_true hs
    exact hcore.payload d hin
  · by_contra hgt
    obtain ⟨m, hm⟩ := hcore.below s idSpace (by omega)
    exact lt_irrefl _ (h.space _ hm)
  · rw [hpending.mem s i m]
    constructor
    · rintro ⟨hle, hm⟩
      have hne : K s ≠ i := fun he => hstop s m (he ▸ hm)
      exact ⟨by omega, hm⟩
    · exact fun ⟨hlt, hm⟩ => ⟨hlt.le, hm⟩
  · obtain rfl := hfuture ha c i hc
    have hfilter : (deliveries outs).filter (fun d => d.fulfilled = some c) =
        (deliveriesOf localID outs).filter (fun d => d.id = c) := by
      rw [deliveriesOf, List.filter_filter]
      apply List.filter_congr
      intro d hd
      rw [hcore.fulfilled ha d hd]
      by_cases hp : d.peer = localID <;> simp [hp]
    refine ⟨hfilter, ?_⟩
    rw [List.countP_eq_length_filter, hfilter, ← List.countP_eq_length_filter]
    have hcount : (deliveriesOf localID outs).countP (fun d => d.id = c) =
        ((deliveriesOf localID outs).map (·.id)).count c := by
      rw [List.count, List.countP_map]
      apply List.countP_congr
      simp
    rw [hcount, deliveriesOf, hcore.order localID]
    split_ifs with hlt
    · exact List.count_eq_one_of_mem List.nodup_range (List.mem_range.2 hlt)
    · exact List.count_eq_zero.2 fun hin => hlt (List.mem_range.1 hin)

/-- A local message and two messages of a peer that are URB-delivered out of order. -/
def outOfOrder : List (FIFOEvent (Fin 2)) :=
  [.broadcast [1], .urbDeliver ⟨1, 1⟩ [9], .urbDeliver ⟨0, 0⟩ [1], .urbDeliver ⟨1, 0⟩ [8]]

theorem localAfterBroadcast_outOfOrder : LocalAfterBroadcast 0 outOfOrder := by
  refine ⟨by decide, fun before after i message he => ?_⟩
  rcases before with _ | ⟨e₁, _ | ⟨e₂, _ | ⟨e₃, _ | ⟨e₄, before⟩⟩⟩⟩ <;> simp [outOfOrder] at he
  obtain ⟨rfl, rfl, ⟨rfl, _⟩, _⟩ := he
  decide

theorem fifo_order_outOfOrder : ∃ fifo outs, FIFOBroadcast.run 0 {} outOfOrder = (fifo, outs) ∧
    (deliveriesOf 1 outs).map (·.message) = [[8], [9]] ∧
    ∃ k : Fin 2 → ℕ,
      (∀ s, (∀ i < k s, ⟨s, i⟩ ∈ (urbDeliveries outOfOrder).map (·.1)) ∧
        ⟨s, k s⟩ ∉ (urbDeliveries outOfOrder).map (·.1) ∧
        (deliveriesOf s outs).map (·.id) = List.range (k s) ∧
        (∀ d ∈ deliveriesOf s outs, (⟨s, d.id⟩, d.message) ∈ urbDeliveries outOfOrder) ∧
        k s ≤ idSpace ∧ fifo.nextIds s = k s % idSpace ∧
        (fifo.pendings s).Pairwise (fun a b => a.1 < b.1) ∧
        ∀ i m, (i, m) ∈ fifo.pendings s ↔ k s < i ∧ (⟨s, i⟩, m) ∈ urbDeliveries outOfOrder) ∧
      ∀ c i, .future c i ∈ outs →
        (deliveries outs).filter (fun d => d.fulfilled = some c) =
          (deliveriesOf 0 outs).filter (fun d => d.id = i) ∧
        (deliveries outs).countP (fun d => d.fulfilled = some c) =
          if i < k 0 then 1 else 0 := by
  have hadm : Admissible outOfOrder := ⟨by decide, by decide⟩
  obtain ⟨k, hk, hfuture⟩ := fifo_order 0 hadm rfl
  exact ⟨_, _, rfl, by decide, k, hk, hfuture localAfterBroadcast_outOfOrder⟩

end BroadcastService

import BroadcastService.FifoStack

/-!
# Garbage collection of delivered identifiers

The stack of one process, and next to it the variant in which `CleanDeliveredPrefix` and
`DeliveredGarbageCollection` do nothing (`Keeping`). On the same receptions and local broadcasts
both return and both do the same: the same callbacks of the URB layer, the same best-effort
broadcasts, the same callbacks of the FIFO layer and the same futures.

The two states differ in the URB layer only, and there only in the containers of delivered
identifiers. `Alike` says so, with the `Ledger` of both: each remembers the identifiers of the
common trace.
-/

namespace BroadcastService
open MessagePassing

variable {P : Type*} [DecidableEq P]

namespace Keeping

/-- `Deliver` without the cleaning request. -/
def deliver (localID : P) (fifo : FIFOBroadcast P) (peer : P) (id : ℕ) (message : Bytes) :
    FIFOBroadcast P × FIFODelivery P :=
  if peer = localID then
    let (entry, entries) := fifo.broadcastMessageEntries.take id
    ({ fifo with broadcastMessageEntries := entries }, ⟨peer, id, message, entry⟩)
  else (fifo, ⟨peer, id, message, none⟩)

def drain (localID peer : P) :
    List (ℕ × Bytes) → FIFOBroadcast P → FIFOBroadcast P × List (FIFOOutput P)
  | [], fifo => (fifo, [.readEnd peer])
  | (id, message) :: rest, fifo =>
      if fifo.nextIds peer = id then
        let fifo :=
          { fifo with
            nextIds := Function.update fifo.nextIds peer ((fifo.nextIds peer + 1) % idSpace)
            pendings := Function.update fifo.pendings peer rest }
        let (fifo, delivery) := deliver localID fifo peer id message
        let (fifo, outs) := drain localID peer rest fifo
        (fifo, .deliver delivery :: outs)
      else (fifo, [])

def onURBDelivery (localID : P) (fifo : FIFOBroadcast P) (x : URBIdentifier P) (message : Bytes) :
    FIFOBroadcast P × List (FIFOOutput P) :=
  let (fifo, outs) :=
    if fifo.nextIds x.peer = x.urbId then
      let fifo :=
        { fifo with
          nextIds := Function.update fifo.nextIds x.peer ((fifo.nextIds x.peer + 1) % idSpace) }
      let (fifo, delivery) := deliver localID fifo x.peer x.urbId message
      (fifo, [.deliver delivery])
    else
      ({ fifo with
          pendings := Function.update fifo.pendings x.peer
            (emplace x.urbId message (fifo.pendings x.peer)) }, [])
  let (fifo, outs') := drain localID x.peer (fifo.pendings x.peer) fifo
  (fifo, outs ++ outs')

def onURBOutputs (localID : P) :
    List (URBOutput P) → FIFOBroadcast P → FIFOBroadcast P × List (FIFOOutput P)
  | [], fifo => (fifo, [])
  | .deliver x message :: urbOuts, fifo =>
      let (fifo, outs) := onURBDelivery localID fifo x message
      let (fifo, outs') := onURBOutputs localID urbOuts fifo
      (fifo, .urb (.deliver x message) :: outs ++ outs')
  | o :: urbOuts, fifo =>
      let (fifo, outs) := onURBOutputs localID urbOuts fifo
      (fifo, .urb o :: outs)

/-- `GetBestEffortBroadcastCallback` without the garbage collection. -/
def onReception (networkSize : ℕ) (urb : UniformReliableBroadcast P) (m : URBMessage P) :
    UniformReliableBroadcast P × List (URBOutput P) :=
  if urb.wasDelivered m.identifier then (urb, []) else urb.receive networkSize m

def onMessage (networkSize : ℕ) (localID : P) (fifo : FIFOBroadcast P) (m : URBMessage P) :
    FIFOBroadcast P × List (FIFOOutput P) :=
  let (urb, outs) := onReception networkSize fifo.urb m
  onURBOutputs localID outs { fifo with urb }

end Keeping

inductive StackEvent (P : Type*)
  | receive (message : URBMessage P)
  | broadcast (message : Bytes)
  deriving DecidableEq

def FIFOBroadcast.onEvent (networkSize : ℕ) (localID : P) (fifo : FIFOBroadcast P) :
    StackEvent P → Option (FIFOBroadcast P × List (FIFOOutput P))
  | .receive m => fifo.onMessage networkSize localID m
  | .broadcast message => some (fifo.broadcast localID message)

def Keeping.onEvent (networkSize : ℕ) (localID : P) (fifo : FIFOBroadcast P) :
    StackEvent P → Option (FIFOBroadcast P × List (FIFOOutput P))
  | .receive m => some (Keeping.onMessage networkSize localID fifo m)
  | .broadcast message => some (fifo.broadcast localID message)

/-- A step that appends what it does to the trace. -/
def traced
    (onEvent : FIFOBroadcast P → StackEvent P → Option (FIFOBroadcast P × List (FIFOOutput P)))
    (s : FIFOBroadcast P × List (FIFOOutput P)) (e : StackEvent P) :
    Option (FIFOBroadcast P × List (FIFOOutput P)) :=
  (onEvent s.1 e).map fun r => (r.1, s.2 ++ r.2)

def FIFOBroadcast.withURB (fifo : FIFOBroadcast P) (urb : UniformReliableBroadcast P) :
    FIFOBroadcast P := { fifo with urb }

section Callback
variable (localID : P) (fifo : FIFOBroadcast P) (urb : UniformReliableBroadcast P)

/-- The URB layer is only told what to clean, never asked. -/
theorem Keeping.deliver_withURB (peer : P) (id : ℕ) (message : Bytes) :
    Keeping.deliver localID (fifo.withURB urb) peer id message =
      ((fifo.deliver localID peer id message).1.withURB urb,
        (fifo.deliver localID peer id message).2) := by
  unfold Keeping.deliver FIFOBroadcast.deliver
  split <;> rfl

theorem Keeping.drain_cons {s : P} {id : ℕ} {message : Bytes} (l : List (ℕ × Bytes))
    (he : fifo.nextIds s = id) (fifo' : FIFOBroadcast P)
    (hfifo : fifo' = { fifo with
      nextIds := Function.update fifo.nextIds s ((fifo.nextIds s + 1) % idSpace)
      pendings := Function.update fifo.pendings s l }) :
    Keeping.drain localID s ((id, message) :: l) fifo =
      ((Keeping.drain localID s l (Keeping.deliver localID fifo' s id message).1).1,
        .deliver (Keeping.deliver localID fifo' s id message).2 ::
          (Keeping.drain localID s l (Keeping.deliver localID fifo' s id message).1).2) := by
  rw [Keeping.drain, if_pos he, hfifo]

theorem Keeping.drain_withURB (peer : P) (l : List (ℕ × Bytes)) :
    Keeping.drain localID peer l (fifo.withURB urb) =
      ((fifo.drain localID peer l).1.withURB urb, (fifo.drain localID peer l).2) := by
  induction l generalizing fifo with
  | nil => rfl
  | cons e l ih =>
      have hnext : (fifo.withURB urb).nextIds peer = fifo.nextIds peer := rfl
      by_cases he : fifo.nextIds peer = e.1
      · generalize hfifo : { fifo with
          nextIds := Function.update fifo.nextIds peer ((fifo.nextIds peer + 1) % idSpace)
          pendings := Function.update fifo.pendings peer l } = fifo'
        have hkept : fifo'.withURB urb = { fifo.withURB urb with
            nextIds := Function.update fifo.nextIds peer ((fifo.nextIds peer + 1) % idSpace)
            pendings := Function.update fifo.pendings peer l } := by
          rw [← hfifo]
          rfl
        rw [BroadcastService.drain_cons l he fifo' hfifo.symm,
          Keeping.drain_cons localID (fifo.withURB urb) l he (fifo'.withURB urb) hkept,
          Keeping.deliver_withURB, ih]
      · rw [FIFOBroadcast.drain, if_neg he, Keeping.drain, hnext, if_neg he]

theorem Keeping.onURBDelivery_direct {x : URBIdentifier P} {message : Bytes}
    (hnext : fifo.nextIds x.peer = x.urbId) (fifo' : FIFOBroadcast P)
    (hfifo : fifo' = { fifo with
      nextIds := Function.update fifo.nextIds x.peer ((fifo.nextIds x.peer + 1) % idSpace) }) :
    Keeping.onURBDelivery localID fifo x message =
      let delivered := Keeping.deliver localID fifo' x.peer x.urbId message
      let drained := Keeping.drain localID x.peer (delivered.1.pendings x.peer) delivered.1
      (drained.1, .deliver delivered.2 :: drained.2) := by
  rw [Keeping.onURBDelivery, if_pos hnext, hfifo]
  rfl

theorem Keeping.onURBDelivery_emplace {x : URBIdentifier P} {message : Bytes}
    (hnext : fifo.nextIds x.peer ≠ x.urbId) (fifo' : FIFOBroadcast P)
    (hfifo : fifo' = { fifo with
      pendings := Function.update fifo.pendings x.peer
        (emplace x.urbId message (fifo.pendings x.peer)) }) :
    Keeping.onURBDelivery localID fifo x message =
      Keeping.drain localID x.peer (fifo'.pendings x.peer) fifo' := by
  rw [Keeping.onURBDelivery, if_neg hnext, hfifo]
  rfl

theorem Keeping.onURBDelivery_withURB (x : URBIdentifier P) (message : Bytes) :
    Keeping.onURBDelivery localID (fifo.withURB urb) x message =
      ((fifo.onURBDelivery localID x message).1.withURB urb,
        (fifo.onURBDelivery localID x message).2) := by
  by_cases hnext : fifo.nextIds x.peer = x.urbId
  · generalize hfifo : { fifo with
      nextIds := Function.update fifo.nextIds x.peer ((fifo.nextIds x.peer + 1) % idSpace) } = fifo'
    have hkept : fifo'.withURB urb = { fifo.withURB urb with
        nextIds := Function.update fifo.nextIds x.peer ((fifo.nextIds x.peer + 1) % idSpace) } := by
      rw [← hfifo]
      rfl
    rw [BroadcastService.onURBDelivery_direct hnext fifo' hfifo.symm,
      Keeping.onURBDelivery_direct localID (fifo.withURB urb) hnext (fifo'.withURB urb) hkept,
      Keeping.deliver_withURB]
    dsimp only
    rw [Keeping.drain_withURB]
    rfl
  · generalize hfifo : { fifo with
      pendings := Function.update fifo.pendings x.peer
        (emplace x.urbId message (fifo.pendings x.peer)) } = fifo'
    have hkept : fifo'.withURB urb = { fifo.withURB urb with
        pendings := Function.update fifo.pendings x.peer
          (emplace x.urbId message (fifo.pendings x.peer)) } := by
      rw [← hfifo]
      rfl
    rw [BroadcastService.onURBDelivery_emplace hnext fifo' hfifo.symm,
      Keeping.onURBDelivery_emplace localID (fifo.withURB urb) hnext (fifo'.withURB urb) hkept,
      Keeping.drain_withURB]
    rfl

end Callback

/-- What the handler does depends on the trace, `pending_` and `acks_` only. -/
theorem Handling.agree {n : ℕ} {urb urb' kept kept' : UniformReliableBroadcast P}
    {t outs outs' : List (URBOutput P)} {m : URBMessage P} (h : Handling n urb t m urb' outs)
    (h' : Handling n kept t m kept' outs') (hids : kept.ids = urb.ids)
    (hpending : kept.pending = urb.pending) (hacks : kept.acks = urb.acks) :
    outs' = outs ∧ kept'.ids = urb'.ids ∧ kept'.pending = urb'.pending ∧
      kept'.acks = urb'.acks := by
  cases h with
  | ignored hx =>
      cases h' with
      | ignored => exact ⟨rfl, hids, hpending, hacks⟩
      | relayed _ _ hx' => exact absurd hx hx'
      | delivered _ _ hx' => exact absurd hx hx'
      | counted _ _ hx' => exact absurd hx hx'
  | relayed g hg hx hp =>
      cases h' with
      | ignored hx' => exact absurd hx' hx
      | relayed g' hg' => simp [hg.ids, hg.pending, hg.acks, hg'.ids, hg'.pending, hg'.acks, *]
      | delivered g' hg' _ message hp' => simp [hpending, hp] at hp'
      | counted g' hg' _ message hp' => simp [hpending, hp] at hp'
  | delivered g hg hx message hp ha =>
      cases h' with
      | ignored hx' => exact absurd hx' hx
      | relayed g' hg' _ hp' => simp [hpending, hp] at hp'
      | delivered g' hg' _ message' hp' =>
          have hmessage : message' = message := by simpa [hpending, hp] using hp'.symm
          simp [hg.ids, hg.pending, hg.acks, hg'.ids, hg'.pending, hg'.acks, *]
      | counted g' hg' _ message' hp' ha' =>
          rw [hacks] at ha'
          omega
  | counted g hg hx message hp ha =>
      cases h' with
      | ignored hx' => exact absurd hx' hx
      | relayed g' hg' _ hp' => simp [hpending, hp] at hp'
      | delivered g' hg' _ message' hp' ha' =>
          rw [hacks] at ha'
          omega
      | counted g' hg' => simp [hg.ids, hg.pending, hg.acks, hg'.ids, hg'.pending, hg'.acks, *]

theorem Handling.outputs {n : ℕ} {urb urb' : UniformReliableBroadcast P}
    {t outs : List (URBOutput P)} {m : URBMessage P} (h : Handling n urb t m urb' outs) :
    outs = [] ∨ outs = [.beb m] ∨
      ∃ message, outs = [.deliver m.identifier message] ∧ m.identifier ∉ deliveredIds t := by
  cases h with
  | ignored hx => exact .inl rfl
  | relayed g hg hx hp => exact .inr (.inl rfl)
  | delivered g hg hx message hp ha => exact .inr (.inr ⟨message, rfl, hx⟩)
  | counted g hg hx message hp ha => exact .inl rfl

theorem Keeping.onReception_eq {urb : UniformReliableBroadcast P}
    (h : ∀ peer, urb.deliveredPrefixToClean peer = none) (n : ℕ) (m : URBMessage P) :
    urb.onMessage n m = some (Keeping.onReception n urb m) := by
  rw [UniformReliableBroadcast.onMessage, Keeping.onReception,
    UniformReliableBroadcast.deliveredGarbageCollection, h m.source]
  split <;> rfl

theorem Keeping.onReception_toClean (urb : UniformReliableBroadcast P) (n : ℕ) (m : URBMessage P) :
    (Keeping.onReception n urb m).1.deliveredPrefixToClean = urb.deliveredPrefixToClean := by
  unfold Keeping.onReception UniformReliableBroadcast.receive
  split_ifs with hdelivered
  · rfl
  · dsimp only
    split
    · rfl
    · split_ifs <;> rfl

theorem UniformReliableBroadcast.cleanAll_frame (urb : UniformReliableBroadcast P)
    (ds : List (FIFODelivery P)) :
    (urb.cleanAll ds).pending = urb.pending ∧ (urb.cleanAll ds).acks = urb.acks := by
  induction ds generalizing urb with
  | nil => exact ⟨rfl, rfl⟩
  | cons d ds ih => exact ih (urb.cleanDeliveredPrefix d.peer d.id)

theorem Ledger.cleanAll {urb : UniformReliableBroadcast P} {t : List (URBOutput P)}
    (h : Ledger urb t) (ds : List (FIFODelivery P))
    (hds : ∀ d ∈ ds, d.id < idSpace ∧ ∀ i ≤ d.id, ⟨d.peer, i⟩ ∈ deliveredIds t) :
    Ledger (urb.cleanAll ds) t := by
  induction ds generalizing urb with
  | nil => exact h
  | cons d ds ih =>
      obtain ⟨hid, hbelow⟩ := hds d List.mem_cons_self
      exact ih (h.clean hid hbelow) fun d' hd' => hds d' (List.mem_cons_of_mem d hd')

/-- States of the two variants with the common trace `t`. -/
structure Alike (localID : P) (fifo kept : FIFOBroadcast P) (t : List (FIFOOutput P)) : Prop where
  layer : kept = fifo.withURB kept.urb
  ids : kept.urb.ids = fifo.urb.ids
  pending : kept.urb.pending = fifo.urb.pending
  acks : kept.urb.acks = fifo.urb.acks
  ledger : Ledger fifo.urb (urbTrace t)
  keptLedger : Ledger kept.urb (urbTrace t)
  toClean : ∀ peer, kept.urb.deliveredPrefixToClean peer = none
  distinct : (deliveredIds (urbTrace t)).Nodup
  space : ∀ y ∈ deliveredIds (urbTrace t), y.urbId + 1 < idSpace
  delivered : ∃ K, FifoInv False localID fifo (urbDelivered t) (deliveries t) K

theorem Alike.initial (localID : P) : Alike localID ({} : FIFOBroadcast P) {} [] := by
  have hledger : Ledger ({} : UniformReliableBroadcast P) [] := by
    refine ⟨?_, ?_, ?_⟩
    · simp [UniformReliableBroadcast.wasDelivered, deliveredIds]
    · intro q c hc
      cases hc
    · intro q k hk
      cases hk
  refine ⟨rfl, rfl, rfl, rfl, hledger, hledger, fun _ => rfl, List.nodup_nil, ?_, fun _ => 0,
    ⟨⟨?_, fun _ => rfl, fun _ => rfl, ?_, False.elim, False.elim⟩, ⟨?_, ?_⟩, ?_⟩⟩
  all_goals simp [urbDelivered, urbTrace, deliveries, deliveredIds]

theorem Alike.silent {localID : P} {fifo kept : FIFOBroadcast P} {t outs : List (FIFOOutput P)}
    (h : Alike localID fifo kept t) {urb urb' : UniformReliableBroadcast P}
    (hids : urb'.ids = urb.ids) (hpending : urb'.pending = urb.pending)
    (hacks : urb'.acks = urb.acks) (hledger : Ledger urb (urbTrace t ++ urbTrace outs))
    (hledger' : Ledger urb' (urbTrace t ++ urbTrace outs))
    (htoClean : ∀ peer, urb'.deliveredPrefixToClean peer = none)
    (houts : deliveredIds (urbTrace outs) = []) (hdeliver : deliveries outs = []) :
    Alike localID (fifo.withURB urb) (kept.withURB urb') (t ++ outs) := by
  have hids' : deliveredIds (urbTrace (t ++ outs)) = deliveredIds (urbTrace t) := by
    rw [urbTrace_append, deliveredIds_append, houts, List.append_nil]
  have hurb : urbDelivered outs = [] := by
    rw [← List.map_eq_nil_iff (f := (·.1)), map_urbDelivered, houts]
  obtain ⟨K, hK⟩ := h.delivered
  refine ⟨?_, hids, hpending, hacks, ?_, ?_, htoClean, ?_, ?_, K, ?_⟩
  · rw [h.layer]
    rfl
  · rw [urbTrace_append]
    exact hledger
  · rw [urbTrace_append]
    exact hledger'
  · rw [hids']
    exact h.distinct
  · rw [hids']
    exact h.space
  · rw [urbDelivered_append, hurb, deliveries_append, hdeliver, List.append_nil, List.append_nil]
    exact hK.of_urb urb

theorem Alike.broadcast {localID : P} {fifo kept : FIFOBroadcast P} {t : List (FIFOOutput P)}
    (h : Alike localID fifo kept t) (message : Bytes) :
    (kept.broadcast localID message).2 = (fifo.broadcast localID message).2 ∧
      Alike localID (fifo.broadcast localID message).1 (kept.broadcast localID message).1
        (t ++ (fifo.broadcast localID message).2) := by
  obtain ⟨urb, rfl⟩ : ∃ urb, kept = fifo.withURB urb := ⟨_, h.layer⟩
  have hids : urb.ids = fifo.urb.ids := h.ids
  have hpending : urb.pending = fifo.urb.pending := h.pending
  have htrace : urbTrace (t ++ (fifo.broadcast localID message).2) = urbTrace t ++
      [.broadcast (fifo.urb.ids % idSpace) message,
        .beb ⟨localID, fifo.urb.ids % idSpace, message⟩] := by
    rw [urbTrace_append]
    rfl
  have hdelivered : deliveredIds (urbTrace (t ++ (fifo.broadcast localID message).2)) =
      deliveredIds (urbTrace t) := by
    rw [htrace, deliveredIds_append]
    exact List.append_nil _
  have hledger : Ledger fifo.urb (urbTrace t ++ [.broadcast (fifo.urb.ids % idSpace) message,
      .beb ⟨localID, fifo.urb.ids % idSpace, message⟩]) := h.ledger.append rfl
  have hkept : Ledger urb (urbTrace t ++ [.broadcast (fifo.urb.ids % idSpace) message,
      .beb ⟨localID, fifo.urb.ids % idSpace, message⟩]) := h.keptLedger.append rfl
  obtain ⟨K, hK⟩ := h.delivered
  refine ⟨?_, ?_, ?_, ?_, h.acks, ?_, ?_, h.toClean, ?_, ?_, K, ?_⟩
  · simp [FIFOBroadcast.broadcast, FIFOBroadcast.withURB, UniformReliableBroadcast.broadcast,
      UniformReliableBroadcast.getNextID, hids]
  · simp [FIFOBroadcast.broadcast, FIFOBroadcast.withURB, UniformReliableBroadcast.broadcast,
      UniformReliableBroadcast.getNextID, hids]
  · change urb.ids + 1 = fifo.urb.ids + 1
    rw [hids]
  · change urb.pending.set ⟨localID, urb.ids % idSpace⟩ message =
      fifo.urb.pending.set ⟨localID, fifo.urb.ids % idSpace⟩ message
    rw [hids, hpending]
  · rw [htrace]
    exact ⟨hledger.delivered, hledger.cleaned, hledger.toClean⟩
  · rw [htrace]
    exact ⟨hkept.delivered, hkept.cleaned, hkept.toClean⟩
  · rw [hdelivered]
    exact h.distinct
  · rw [hdelivered]
    exact h.space
  · have hdeliver : deliveries (fifo.broadcast localID message).2 = [] := rfl
    have hurb : urbDelivered (fifo.broadcast localID message).2 = [] := rfl
    rw [urbDelivered_append, hurb, deliveries_append, hdeliver, List.append_nil, List.append_nil]
    exact hK.broadcast False.elim False.elim False.elim message

theorem Alike.deliver {localID : P} {fifo kept : FIFOBroadcast P} {t : List (FIFOOutput P)}
    (h : Alike localID fifo kept t) {urb urb' : UniformReliableBroadcast P} (x : URBIdentifier P)
    (message : Bytes) (hx : x ∉ deliveredIds (urbTrace t)) (hlast : x.urbId + 1 < idSpace)
    (hids : urb'.ids = urb.ids) (hpending : urb'.pending = urb.pending)
    (hacks : urb'.acks = urb.acks) (hledger : Ledger urb (urbTrace t ++ [.deliver x message]))
    (hledger' : Ledger urb' (urbTrace t ++ [.deliver x message]))
    (htoClean : ∀ peer, urb'.deliveredPrefixToClean peer = none) :
    (Keeping.onURBOutputs localID [.deliver x message] (kept.withURB urb')).2 =
        ((fifo.withURB urb).onURBOutputs localID [.deliver x message]).2 ∧
      Alike localID ((fifo.withURB urb).onURBOutputs localID [.deliver x message]).1
        (Keeping.onURBOutputs localID [.deliver x message] (kept.withURB urb')).1
        (t ++ ((fifo.withURB urb).onURBOutputs localID [.deliver x message]).2) := by
  have hkept : kept.withURB urb' = (fifo.withURB urb).withURB urb' := by
    rw [h.layer]
    rfl
  have houts : Keeping.onURBOutputs localID [.deliver x message] (kept.withURB urb') =
      (((fifo.withURB urb).onURBDelivery localID x message).1.withURB urb',
        .urb (.deliver x message) :: ((fifo.withURB urb).onURBDelivery localID x message).2) := by
    rw [hkept, Keeping.onURBOutputs, Keeping.onURBDelivery_withURB]
    simp [Keeping.onURBOutputs]
  have htrace : urbTrace (t ++ .urb (.deliver x message) ::
      ((fifo.withURB urb).onURBDelivery localID x message).2) =
      urbTrace t ++ [.deliver x message] := by
    rw [urbTrace_append, urbTrace_onURBDelivery]
  have hdelivered : deliveredIds (urbTrace t ++ [.deliver x message]) =
      deliveredIds (urbTrace t) ++ [x] := by
    rw [deliveredIds_append]
    rfl
  have hspace : ∀ y ∈ deliveredIds (urbTrace t ++ [.deliver x message]),
      y.urbId + 1 < idSpace := by
    intro y hy
    rw [hdelivered, List.mem_append, List.mem_singleton] at hy
    obtain hy | rfl := hy
    · exact h.space y hy
    · exact hlast
  have hdistinct : (deliveredIds (urbTrace t ++ [.deliver x message])).Nodup := by
    rw [hdelivered]
    exact h.distinct.append (List.nodup_singleton x) (by simpa using hx)
  have hurb : urbDelivered (.urb (.deliver x message) ::
      ((fifo.withURB urb).onURBDelivery localID x message).2) = [(x, message)] := by
    rw [urbDelivered, urbTrace_onURBDelivery]
    rfl
  have hmap : (urbDelivered t ++ [(x, message)]).map (·.1) =
      deliveredIds (urbTrace t ++ [.deliver x message]) := by
    rw [List.map_append, map_urbDelivered, hdelivered]
    rfl
  obtain ⟨K, hK⟩ := h.delivered
  have hD : Deliverable False localID (fifo.withURB urb).contracts
      (urbDelivered t ++ [(x, message)]) := by
    refine ⟨fun e he => ?_, hmap ▸ hdistinct, False.elim⟩
    have hy := hspace e.1 (hmap ▸ List.mem_map.2 ⟨e, he, rfl⟩)
    omega
  obtain ⟨K', hK', -⟩ := onURBDelivery_spec (hK.of_urb urb) hD
  have hclean : Ledger ((fifo.withURB urb).onURBDelivery localID x message).1.urb
      (urbTrace t ++ [.deliver x message]) := by
    rw [onURBDelivery_urb]
    apply hledger.cleanAll
    intro d hd
    have hbelow := hK'.below_delivery (List.mem_append_right _ hd)
    rw [hmap] at hbelow
    have hid := hspace _ (hbelow d.id le_rfl)
    simp only at hid
    exact ⟨by omega, hbelow⟩
  obtain ⟨hp, ha⟩ := urb.cleanAll_frame
    (deliveries ((fifo.withURB urb).onURBDelivery localID x message).2)
  rw [houts, onURBOutputs_deliver]
  refine ⟨rfl, rfl, ?_, ?_, ?_, ?_, ?_, htoClean, ?_, ?_, K', ?_⟩
  · rw [onURBDelivery_urb, UniformReliableBroadcast.cleanAll_ids]
    exact hids
  · rw [onURBDelivery_urb]
    exact hpending.trans hp.symm
  · rw [onURBDelivery_urb]
    exact hacks.trans ha.symm
  · rw [htrace]
    exact hclean
  · rw [htrace]
    exact hledger'
  · rw [htrace]
    exact hdistinct
  · rw [htrace]
    exact hspace
  · rw [urbDelivered_append, hurb, deliveries_append]
    exact hK'

theorem Alike.receive {localID : P} {fifo kept : FIFOBroadcast P} {t : List (FIFOOutput P)}
    (h : Alike localID fifo kept t) (n : ℕ) {m : URBMessage P} (hlast : m.urbId + 1 < idSpace) :
    ∃ fifo' outs, fifo.onMessage n localID m = some (fifo', outs) ∧
      (Keeping.onMessage n localID kept m).2 = outs ∧
      Alike localID fifo' (Keeping.onMessage n localID kept m).1 (t ++ outs) := by
  have hunused : ⟨m.source, idSpace - 1⟩ ∉ deliveredIds (urbTrace t) := by
    intro hx
    have hid := h.space _ hx
    simp only at hid
    omega
  obtain ⟨⟨urb, outs⟩, hurb⟩ := Option.isSome_iff_exists.1 (h.ledger.onMessage_isSome hunused n)
  have hkept := Keeping.onReception_eq h.toClean n m
  have htoClean := Keeping.onReception_toClean kept.urb n m
  have hmessage : Keeping.onMessage n localID kept m =
      Keeping.onURBOutputs localID (Keeping.onReception n kept.urb m).2
        (kept.withURB (Keeping.onReception n kept.urb m).1) := rfl
  generalize Keeping.onReception n kept.urb m = received at hkept htoClean hmessage
  obtain ⟨urb', outs'⟩ := received
  have hh := onMessage_handling h.ledger hurb
  have hh' := onMessage_handling h.keptLedger hkept
  obtain ⟨rfl, hids, hpending, hacks⟩ := hh.agree hh' h.ids h.pending h.acks
  have hclean : ∀ peer, urb'.deliveredPrefixToClean peer = none := by
    intro peer
    exact (congrFun htoClean peer).trans (h.toClean peer)
  have hledger := hh.ledger h.ledger
  have hledger' := hh'.ledger h.keptLedger
  refine ⟨_, _, Option.map_eq_some_iff.2 ⟨_, hurb, rfl⟩, ?_⟩
  rw [hmessage]
  obtain rfl | rfl | ⟨message, rfl, hx⟩ := hh.outputs
  · exact ⟨rfl, h.silent hids hpending hacks hledger hledger' hclean rfl rfl⟩
  · exact ⟨rfl, h.silent hids hpending hacks hledger hledger' hclean rfl rfl⟩
  · exact h.deliver m.identifier message hx hlast hids hpending hacks hledger hledger' hclean

/-- Every event whose identifier is not the last one returns in both variants and does the same. -/
theorem Alike.step {localID : P} {fifo kept : FIFOBroadcast P} {t : List (FIFOOutput P)}
    (h : Alike localID fifo kept t) (n : ℕ) (e : StackEvent P)
    (hlast : ∀ m, e = .receive m → m.urbId + 1 < idSpace) :
    ∃ fifo' kept' t', traced (FIFOBroadcast.onEvent n localID) (fifo, t) e = some (fifo', t') ∧
      traced (Keeping.onEvent n localID) (kept, t) e = some (kept', t') ∧
      Alike localID fifo' kept' t' := by
  cases e with
  | receive m =>
      obtain ⟨fifo', outs, hfifo, hkept, halike⟩ := h.receive n (hlast m rfl)
      refine ⟨fifo', (Keeping.onMessage n localID kept m).1, t ++ outs, ?_, ?_, halike⟩
      · rw [traced, FIFOBroadcast.onEvent, hfifo]
        rfl
      · rw [traced, Keeping.onEvent, Option.map_some, hkept]
  | broadcast message =>
      obtain ⟨hkept, halike⟩ := h.broadcast message
      refine ⟨(fifo.broadcast localID message).1, (kept.broadcast localID message).1,
        t ++ (fifo.broadcast localID message).2, rfl, ?_, halike⟩
      rw [traced, Keeping.onEvent, Option.map_some, hkept]

theorem Alike.run {localID : P} {n : ℕ} {events : List (StackEvent P)}
    {fifo kept : FIFOBroadcast P} {t : List (FIFOOutput P)} (h : Alike localID fifo kept t)
    (hlast : ∀ m, .receive m ∈ events → m.urbId + 1 < idSpace) :
    ∃ fifo' kept' t',
      TransitionSystem.run (traced (FIFOBroadcast.onEvent n localID)) (fifo, t) events =
        some (fifo', t') ∧
      TransitionSystem.run (traced (Keeping.onEvent n localID)) (kept, t) events =
        some (kept', t') ∧
      Alike localID fifo' kept' t' := by
  induction events generalizing fifo kept t with
  | nil => exact ⟨fifo, kept, t, rfl, rfl, h⟩
  | cons e events ih =>
      have he : ∀ m, e = .receive m → m.urbId + 1 < idSpace := by
        rintro m rfl
        exact hlast m List.mem_cons_self
      obtain ⟨fifo₁, kept₁, t₁, hfifo, hkept, h₁⟩ := h.step n e he
      obtain ⟨fifo', kept', t', hrun, hrun', h'⟩ :=
        ih h₁ fun m hm => hlast m (List.mem_cons_of_mem e hm)
      refine ⟨fifo', kept', t', ?_, ?_, h'⟩
      · rw [TransitionSystem.run, hfifo]
        exact hrun
      · rw [TransitionSystem.run, hkept]
        exact hrun'

/-- On the same events the stack with the garbage collection and the one without it have the same
trace. -/
theorem garbage_collection_invisible (networkSize : ℕ) (localID : P) (events : List (StackEvent P))
    (hlast : ∀ m, .receive m ∈ events → m.urbId + 1 < idSpace) :
    ∃ fifo kept t,
      TransitionSystem.run (traced (FIFOBroadcast.onEvent networkSize localID)) ({}, []) events =
        some (fifo, t) ∧
      TransitionSystem.run (traced (Keeping.onEvent networkSize localID)) ({}, []) events =
        some (kept, t) := by
  obtain ⟨fifo, kept, t, hrun, hrun', -⟩ := (Alike.initial localID).run hlast
  exact ⟨fifo, kept, t, hrun, hrun'⟩

/-- Three messages of a peer, each received twice; the last reception is late. -/
def lateReception {P : Type*} (q : P) : List (StackEvent P) :=
  [.receive ⟨q, 0, [7]⟩, .receive ⟨q, 0, [7]⟩, .receive ⟨q, 1, [8]⟩, .receive ⟨q, 1, [8]⟩,
    .receive ⟨q, 2, [9]⟩, .receive ⟨q, 0, [7]⟩]

/-- The late reception finds its identifier in the cleaned prefix only. -/
theorem garbage_collection_invisible_late : ∃ fifo kept : FIFOBroadcast Bool, ∃ t,
    TransitionSystem.run (traced (FIFOBroadcast.onEvent 2 false)) ({}, []) (lateReception true) =
      some (fifo, t) ∧
    TransitionSystem.run (traced (Keeping.onEvent 2 false)) ({}, []) (lateReception true) =
      some (kept, t) ∧
    ⟨true, 0⟩ ∉ fifo.urb.delivered ∧ deliveredIds (urbTrace t) = [⟨true, 0⟩, ⟨true, 1⟩] := by
  have hlast : ∀ m, .receive m ∈ lateReception true → m.urbId + 1 < idSpace := by
    simp [lateReception, idSpace]
  obtain ⟨s, hs, hcleaned, hdelivered⟩ : ∃ s,
      TransitionSystem.run (traced (FIFOBroadcast.onEvent 2 false)) ({}, []) (lateReception true) =
        some s ∧ ⟨true, 0⟩ ∉ s.1.urb.delivered ∧
        deliveredIds (urbTrace s.2) = [⟨true, 0⟩, ⟨true, 1⟩] :=
    ⟨_, rfl, by decide +kernel, by decide +kernel⟩
  obtain ⟨fifo, kept, t, hrun, hrun'⟩ :=
    garbage_collection_invisible 2 false (lateReception true) hlast
  obtain rfl : s = (fifo, t) := Option.some.inj (hs.symm.trans hrun)
  exact ⟨fifo, kept, t, hrun, hrun', hcleaned, hdelivered⟩

end BroadcastService

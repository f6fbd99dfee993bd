import BroadcastService.FifoDelivery
import BroadcastService.UrbIntegrity
import BroadcastService.WorldSimulation

/-!
# FIFO broadcast over uniform reliable broadcast

The FIFO layer cleans a prefix of a peer's identifiers only after the URB layer has delivered all of
it. Hence the URB layer of every reachable world of `fifoProgram n` is a reachable world of
`urbProgram n` (`fifo_urb_reachable`), and the results about uniform reliable broadcast hold for the
stack.
-/

namespace BroadcastService
open MessagePassing

variable {n : ℕ}

abbrev FifoWorld (n : ℕ) :=
  World (Fin n) (FIFOBroadcast (Fin n)) (URBMessage (Fin n)) (FIFOOutput (Fin n))

def FIFOOutput.urb? {P : Type*} : FIFOOutput P → Option (URBOutput P)
  | .urb o => some o
  | _ => none

def urbTrace {P : Type*} (t : List (FIFOOutput P)) : List (URBOutput P) :=
  t.filterMap FIFOOutput.urb?

def fifoProjection (n : ℕ) : Projection (Fin n) (FIFOBroadcast (Fin n)) (URBMessage (Fin n))
    (FIFOOutput (Fin n)) (UniformReliableBroadcast (Fin n)) (URBMessage (Fin n))
    (URBOutput (Fin n)) where
  node _ fifo := fifo.urb
  body := some
  out := FIFOOutput.urb?

theorem fifoProjection_emitCompatible (n : ℕ) :
    (fifoProjection n).EmitCompatible (fifoProgram n) (urbProgram n) := by
  intro p o
  cases o with
  | urb o => simp [fifoProjection, fifoProgram, urbProgram, fifoEmit, FIFOOutput.urb?]
  | _ => rfl

def urbDelivered {P : Type*} (t : List (FIFOOutput P)) : List (URBIdentifier P × Bytes) :=
  (urbTrace t).filterMap fun o => match o with
    | .deliver x message => some (x, message)
    | _ => none

theorem urbTrace_append {P : Type*} (t t' : List (FIFOOutput P)) :
    urbTrace (t ++ t') = urbTrace t ++ urbTrace t' := List.filterMap_append

theorem urbDelivered_append {P : Type*} (t t' : List (FIFOOutput P)) :
    urbDelivered (t ++ t') = urbDelivered t ++ urbDelivered t' := by
  rw [urbDelivered, urbTrace_append, List.filterMap_append]
  rfl

theorem map_urbDelivered {P : Type*} (t : List (FIFOOutput P)) :
    (urbDelivered t).map (·.1) = deliveredIds (urbTrace t) := by
  rw [urbDelivered, deliveredIds, List.map_filterMap]
  apply List.filterMap_congr
  intro o _
  cases o <;> rfl

theorem urbTrace_of_ofCallback {P : Type*} {t : List (FIFOOutput P)}
    (h : ∀ o ∈ t, o.ofCallback = true) : urbTrace t = [] := by
  apply List.filterMap_eq_nil_iff.2
  intro o ho
  have := h o ho
  cases o <;> simp_all [FIFOOutput.ofCallback, FIFOOutput.urb?]

theorem urbTrace_onURBDelivery {P : Type*} [DecidableEq P] (p : P) (fifo : FIFOBroadcast P)
    (x : URBIdentifier P) (message : Bytes) :
    urbTrace (.urb (.deliver x message) :: (fifo.onURBDelivery p x message).2) =
      [.deliver x message] := by
  rw [urbTrace, List.filterMap_cons, ← urbTrace,
    urbTrace_of_ofCallback (onURBDelivery_ofCallback p fifo x message)]
  rfl

theorem onURBOutputs_deliver {P : Type*} [DecidableEq P] (p : P) (fifo : FIFOBroadcast P)
    (x : URBIdentifier P) (message : Bytes) :
    fifo.onURBOutputs p [.deliver x message] =
      ((fifo.onURBDelivery p x message).1,
        .urb (.deliver x message) :: (fifo.onURBDelivery p x message).2) := by
  simp [FIFOBroadcast.onURBOutputs]

/-- What `Deliver` was called for and everything before it was URB-delivered. -/
theorem FifoInv.below_delivery {P : Type*} [DecidableEq P] {A : Prop} {localID : P}
    {fifo : FIFOBroadcast P} {D : List (URBIdentifier P × Bytes)} {F : List (FIFODelivery P)}
    {K : P → ℕ} (h : FifoInv A localID fifo D F K) {d : FIFODelivery P} (hd : d ∈ F) :
    ∀ i ≤ d.id, ⟨d.peer, i⟩ ∈ D.map (·.1) := by
  intro i hi
  have hlt : d.id < K d.peer := by
    rw [← List.mem_range, ← h.core.order d.peer]
    apply List.mem_map.2
    exact ⟨d, by simp [hd], rfl⟩
  obtain ⟨m, hm⟩ := h.core.below d.peer i (by omega)
  exact List.mem_map.2 ⟨_, hm, rfl⟩

theorem inputs_clean {p : Fin n} {t : List (URBOutput (Fin n))} (ds : List (FIFODelivery (Fin n)))
    {urb : UniformReliableBroadcast (Fin n)}
    (hds : ∀ d ∈ ds, d.id < idSpace ∧ ∀ i ≤ d.id, ⟨d.peer, i⟩ ∈ deliveredIds t) :
    (urbProgram n).inputs p (urb, t) (ds.map fun d => .cleanDeliveredPrefix d.peer d.id) =
      some (urb.cleanAll ds, t) := by
  induction ds generalizing urb with
  | nil => rfl
  | cons d ds ih =>
      obtain ⟨hid, hbelow⟩ := hds d (by simp)
      have henabled : (URBInput.cleanDeliveredPrefix d.peer d.id).enabled urb t = true := by
        simp only [URBInput.enabled, hid, decide_true, Bool.true_and, decide_eq_true_eq]
        exact hbelow
      simp only [List.map_cons, Program.inputs, urbProgram, henabled, if_true, Option.bind_some,
        UniformReliableBroadcast.onInput, List.append_nil]
      exact ih fun d hd => hds d (by simp [hd])

theorem UrbOrigin.urbId_lt {h : UrbHistory n} (ho : UrbOrigin h) {p : Fin n}
    {x : URBIdentifier (Fin n)} (hx : x ∈ bebIds (h.trace p)) : x.urbId < idSpace := by
  by_contra hge
  have hspace := (ho.drawn x.peer).space
  exact ho.fresh x.peer p (by omega) hx

/-- The FIFO layer of a process in terms of the URB deliveries in its trace. -/
def FifoLocal (p : Fin n) (fifo : FIFOBroadcast (Fin n)) (t : List (FIFOOutput (Fin n))) : Prop :=
  ∃ K, FifoInv False p fifo (urbDelivered t) (deliveries t) K

theorem FifoInv.of_urb {P : Type*} [DecidableEq P] {A : Prop} {localID : P} {fifo : FIFOBroadcast P}
    {D : List (URBIdentifier P × Bytes)} {F : List (FIFODelivery P)} {K : P → ℕ}
    (h : FifoInv A localID fifo D F K) (urb : UniformReliableBroadcast P) :
    FifoInv A localID { fifo with urb } D F K :=
  ⟨⟨h.core.below, h.core.next, h.core.order, h.core.payload, h.core.fulfilled, h.core.entries⟩,
    ⟨h.pending.sorted, h.pending.mem⟩, h.stop⟩

theorem FifoLocal.initial (p : Fin n) : FifoLocal p {} [] := by
  refine ⟨fun _ => 0, ⟨⟨?_, fun _ => rfl, fun _ => rfl, ?_, False.elim, False.elim⟩, ⟨?_, ?_⟩, ?_⟩⟩
  all_goals simp [urbDelivered, urbTrace, deliveries]

theorem FifoLocal.silent {p : Fin n} {fifo : FIFOBroadcast (Fin n)}
    {t outs : List (FIFOOutput (Fin n))} (h : FifoLocal p fifo t)
    (urb : UniformReliableBroadcast (Fin n)) (hurb : urbDelivered outs = [])
    (hdeliver : deliveries outs = []) :
    FifoLocal p { fifo with urb } (t ++ outs) := by
  obtain ⟨K, hK⟩ := h
  refine ⟨K, ?_⟩
  rw [urbDelivered_append, hurb, deliveries_append, hdeliver, List.append_nil, List.append_nil]
  exact hK.of_urb urb

theorem FifoLocal.broadcast {p : Fin n} {fifo : FIFOBroadcast (Fin n)}
    {t : List (FIFOOutput (Fin n))} (h : FifoLocal p fifo t) (message : Bytes) :
    FifoLocal p (fifo.broadcast p message).1 (t ++ (fifo.broadcast p message).2) := by
  obtain ⟨K, hK⟩ := h
  refine ⟨K, ?_⟩
  have hurb : urbDelivered (fifo.broadcast p message).2 = [] := rfl
  have hdeliver : deliveries (fifo.broadcast p message).2 = [] := rfl
  rw [urbDelivered_append, hurb, deliveries_append, hdeliver, List.append_nil, List.append_nil]
  exact hK.broadcast False.elim False.elim False.elim message

/-- The callback of the FIFO layer on a delivery of the URB layer: it keeps `FifoLocal`, and on the
URB layer it acts as cleaning requests for delivered prefixes. -/
theorem FifoLocal.deliver {p : Fin n} {fifo : FIFOBroadcast (Fin n)}
    {t : List (FIFOOutput (Fin n))} (h : FifoLocal p fifo t) (x : URBIdentifier (Fin n))
    (message : Bytes) (hdistinct : (deliveredIds (urbTrace t ++ [.deliver x message])).Nodup)
    (hspace : ∀ y ∈ deliveredIds (urbTrace t ++ [.deliver x message]), y.urbId < idSpace) :
    FifoLocal p (fifo.onURBDelivery p x message).1
        (t ++ .urb (.deliver x message) :: (fifo.onURBDelivery p x message).2) ∧
      ∃ ys, (urbProgram n).inputs p (fifo.urb, urbTrace t ++ [.deliver x message]) ys =
        some ((fifo.onURBDelivery p x message).1.urb, urbTrace t ++ [.deliver x message]) := by
  obtain ⟨K, hK⟩ := h
  have hids : (urbDelivered t ++ [(x, message)]).map (·.1) =
      deliveredIds (urbTrace t ++ [.deliver x message]) := by
    rw [List.map_append, map_urbDelivered, deliveredIds_append]
    rfl
  have hmem : ∀ y m, (y, m) ∈ urbDelivered t ++ [(x, message)] →
      y ∈ deliveredIds (urbTrace t ++ [.deliver x message]) := by
    intro y m hy
    rw [← hids]
    exact List.mem_map.2 ⟨_, hy, rfl⟩
  have hD : Deliverable False p fifo.contracts (urbDelivered t ++ [(x, message)]) :=
    ⟨fun e he => hspace e.1 (hmem e.1 e.2 he), hids ▸ hdistinct, False.elim⟩
  obtain ⟨K', hK', _⟩ := onURBDelivery_spec hK hD
  constructor
  · refine ⟨K', ?_⟩
    have hurb : urbDelivered (.urb (.deliver x message) :: (fifo.onURBDelivery p x message).2) =
        [(x, message)] := by
      rw [urbDelivered, urbTrace_onURBDelivery]
      rfl
    rw [urbDelivered_append, hurb, deliveries_append]
    exact hK'
  · refine ⟨_, (inputs_clean (deliveries (fifo.onURBDelivery p x message).2) fun d hd => ?_).trans
      (by rw [onURBDelivery_urb])⟩
    have hbelow : ∀ i ≤ d.id,
        ⟨d.peer, i⟩ ∈ deliveredIds (urbTrace t ++ [.deliver x message]) := by
      intro i hi
      rw [← hids]
      exact hK'.below_delivery (List.mem_append_right _ hd) i hi
    exact ⟨hspace _ (hbelow d.id le_rfl), hbelow⟩

theorem UrbOrigin.urbId_lt_of_handling {h : UrbHistory n} (ho : UrbOrigin h) {src p : Fin n}
    {m : URBMessage (Fin n)} {urb' : UniformReliableBroadcast (Fin n)}
    {outs : List (URBOutput (Fin n))} (hm : .beb m ∈ h.trace src)
    (hh : Handling n (h.node p) (h.trace p) m urb' outs) :
    ∀ y ∈ deliveredIds (h.trace p ++ outs), y.urbId < idSpace := by
  intro y hy
  have hbeb := ((ho.node p).handle hh).delivered_beb hy
  rw [bebIds_append] at hbeb
  rcases List.mem_append.1 hbeb with hbeb | hbeb
  · exact ho.urbId_lt hbeb
  · obtain ⟨message, hmem⟩ := mem_bebIds.1 hbeb
    rw [← hh.ids.2.2 _ hmem] at hm
    exact ho.urbId_lt (mem_bebIds.2 ⟨message, hm⟩)

theorem FifoLocal.outputs {p : Fin n} {fifo : FIFOBroadcast (Fin n)}
    {t : List (FIFOOutput (Fin n))} (h : FifoLocal p fifo t) {m : URBMessage (Fin n)}
    {urb urb' : UniformReliableBroadcast (Fin n)} {outs : List (URBOutput (Fin n))}
    (hh : Handling n urb (urbTrace t) m urb' outs)
    (hdistinct : (deliveredIds (urbTrace t ++ outs)).Nodup)
    (hspace : ∀ y ∈ deliveredIds (urbTrace t ++ outs), y.urbId < idSpace) :
    FifoLocal p ({ fifo with urb := urb' }.onURBOutputs p outs).1
        (t ++ ({ fifo with urb := urb' }.onURBOutputs p outs).2) ∧
      ∃ ys, (urbProgram n).inputs p (urb', urbTrace t ++ outs) ys =
        some (({ fifo with urb := urb' }.onURBOutputs p outs).1.urb,
          urbTrace t ++ urbTrace ({ fifo with urb := urb' }.onURBOutputs p outs).2) := by
  cases hh with
  | ignored hx => exact ⟨h.silent _ rfl rfl, [], rfl⟩
  | relayed g hg hx hp => exact ⟨h.silent _ rfl rfl, [], rfl⟩
  | counted g hg hx message hp ha => exact ⟨h.silent _ rfl rfl, [], rfl⟩
  | delivered g hg hx message hp ha =>
      generalize { g with
        delivered := insert m.identifier g.delivered
        pending := (g.pending.take m.identifier).2
        acks := Function.update g.acks m.identifier 0 } = urb'
      have h' : FifoLocal p { fifo with urb := urb' } t := by
        have hsilent := h.silent urb' (rfl : urbDelivered [] = []) rfl
        rwa [List.append_nil] at hsilent
      obtain ⟨hJ, ys, hys⟩ := h'.deliver m.identifier message hdistinct hspace
      generalize hfifo : { fifo with urb := urb' } = fifo' at hJ hys ⊢
      have hurb : fifo'.urb = urb' := by rw [← hfifo]
      rw [onURBOutputs_deliver, urbTrace_onURBDelivery, ← hurb]
      exact ⟨hJ, ys, hys⟩

theorem fifo_urb_reachable {w : FifoWorld n} (hw : (fifoProgram n).Reachable w) :
    (urbProgram n).Reachable ((fifoProjection n).world w) ∧
      ∀ p, FifoLocal p (w.node p) (w.trace p) := by
  apply Projection.project_reachable hw (fun _ => rfl) (fifoProjection_emitCompatible n)
    FifoLocal.initial
  · intro w p message r _ hB hJ he hr
    obtain rfl := Option.some.inj hr
    refine ⟨hJ.broadcast message, [.broadcast message], ?_⟩
    have henabled : (urbProgram n).enabled p ((fifoProjection n).world w |>.node p)
        ((fifoProjection n).world w |>.trace p) (.broadcast message) = true := he
    rw [Program.inputs, if_pos henabled]
    rfl
  · rintro w ⟨src, p, m⟩ r _ hB hJ hm hr
    obtain ⟨⟨urb', outs⟩, hurb, rfl⟩ := Option.map_eq_some_iff.1 hr
    have ho := urbOrigin hB
    have hh := onMessage_handling (ho.node p).ledger hurb
    have hlocal := (ho.node p).handle hh
    have hbeb : .beb m ∈ ((fifoProjection n).world w).trace src := by
      apply beb_of_inflight hB (q := p)
      exact List.mem_filterMap.2 ⟨_, hm, rfl⟩
    have hspace := ho.urbId_lt_of_handling hbeb hh
    have hdistinct := ((ho.node p).handle hh).deliver_nodup
    obtain ⟨hJ', ys, hys⟩ := hJ.outputs hh hdistinct hspace
    exact ⟨hJ', (urb', outs), ys, hurb, hys⟩

theorem mem_urbTrace {P : Type*} {t : List (FIFOOutput P)} {o : URBOutput P} :
    o ∈ urbTrace t ↔ .urb o ∈ t := by
  rw [urbTrace, List.mem_filterMap]
  constructor
  · rintro ⟨o', ho', he⟩
    cases o' with
    | urb o' => exact Option.some.inj he ▸ ho'
    | _ => simp [FIFOOutput.urb?] at he
  · exact fun h => ⟨_, h, rfl⟩

/-- The callback of the URB layer is invoked at most once for an identifier, and with what the
source passed to `Broadcast` under that identifier. -/
theorem urb_integrity {w : FifoWorld n} (hw : (fifoProgram n).Reachable w) (p : Fin n)
    (x : URBIdentifier (Fin n)) :
    (deliveredIds (urbTrace (w.trace p))).count x ≤ 1 ∧
      ∀ message, .urb (.deliver x message) ∈ w.trace p →
        ∀ message', .urb (.broadcast x.urbId message') ∈ w.trace x.peer ↔ message' = message := by
  have ho := urbOrigin (fifo_urb_reachable hw).1
  refine ⟨List.nodup_iff_count_le_one.1 (ho.node p).deliver_nodup x, fun message hm message' => ?_⟩
  have hsource : .broadcast x.urbId message ∈ urbTrace (w.trace x.peer) :=
    ho.source p _ ((ho.node p).payload x message (mem_urbTrace.2 hm))
  rw [← mem_urbTrace]
  constructor
  · intro hm'
    have hbeb := (ho.drawn x.peer).sent _ _ hsource
    have hbeb' := (ho.drawn x.peer).sent _ _ hm'
    exact congrArg URBMessage.message ((ho.node x.peer).beb_unique hbeb' hbeb rfl)
  · rintro rfl
    exact hsource

/-- One of two processes broadcasts twice, and every message is handled in the order of sending. The
second delivery of a process finds the first identifier cleaned. -/
def cleanedBroadcasts {P : Type*} (p : P) : List (Label P Bytes) :=
  [.input p [7], .input p [8]] ++ List.replicate 8 (.handle 0)

theorem urb_integrity_cleaned : ∃ w : FifoWorld 2, (fifoProgram 2).Reachable w ∧
    .urb (.deliver ⟨0, 0⟩ [7]) ∈ w.trace 1 ∧ ⟨0, 0⟩ ∉ (w.node 1).urb.delivered ∧
    (deliveredIds (urbTrace (w.trace 1))).count ⟨0, 0⟩ ≤ 1 ∧
    ∀ message, .urb (.deliver ⟨0, 0⟩ message) ∈ w.trace 1 →
      ∀ message', .urb (.broadcast 0 message') ∈ w.trace 0 ↔ message' = message := by
  obtain ⟨w, hr, hd, hc⟩ : ∃ w, (fifoProgram 2).Reachable w ∧
      .urb (.deliver ⟨0, 0⟩ [7]) ∈ w.trace 1 ∧ ⟨0, 0⟩ ∉ (w.node 1).urb.delivered :=
    TransitionSystem.exists_reachable (cleanedBroadcasts 0) (by decide +kernel)
  exact ⟨w, hr, hd, hc, urb_integrity hr 1 ⟨0, 0⟩⟩

end BroadcastService

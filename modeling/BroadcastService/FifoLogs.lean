import BroadcastService.FifoApplication
import BroadcastService.FifoDeployment

/-!
# The logs of the FIFO application

`applications/fifo.hpp` on top of all layers below it. The broadcaster writes the lines of a message
to the log and broadcasts it afterwards, and the callback may run in between. When the broadcaster
goes on is left open here: that it waits for futures and for the rate limiter only rules out runs.

Whatever the network does, the log of a process has for every source the lines `1, …, k` in this
order, each once, and `k` lines of the source about its broadcasts were in the log of the source
before (`fifo_logs_over_datagrams`).
-/

namespace BroadcastService.Applications
open MessagePassing Transport TransitionSystem
open UrbWire.URBMessage (encode decode decode_encode)

variable {n : ℕ}

/-- `prepared` is a message that was logged and has yet to be broadcast. -/
structure FIFO (P : Type*) where
  fifo : FIFOBroadcast P := {}
  broadcaster : Broadcaster := {}
  prepared : Option Bytes := none
  output : List LogLine := []

inductive FIFOInput
  | prepare
  | broadcast

namespace FIFO

def onInput (numMessages : UInt32) (me : Fin n) (app : FIFO (Fin n)) :
    FIFOInput → Option (FIFO (Fin n) × List (FIFOOutput (Fin n)))
  | .prepare =>
      if app.prepared = none ∧ app.broadcaster.currentPayload ≤ numMessages then
        some ({ app with
          broadcaster := app.broadcaster.broadcastNext numMessages
          prepared := some (app.broadcaster.nextMessage numMessages).marshal
          output := app.output ++ (app.broadcaster.nextPayloads numMessages).map .b }, [])
      else none
  | .broadcast => app.prepared.map fun message =>
      let (fifo, outs) := app.fifo.broadcast me message
      ({ app with fifo, prepared := none }, outs)

/-- The callback of the application runs for each delivery. -/
def onMessage (ids : PeerIds (Fin n)) (me : Fin n) (app : FIFO (Fin n)) (m : URBMessage (Fin n)) :
    Option (FIFO (Fin n) × List (FIFOOutput (Fin n))) :=
  (app.fifo.onMessage n me m).bind fun (fifo, outs) =>
    (deliveredOutput ((deliveries outs).map fun d => (ids.peerId d.peer, d.message))).map
      fun lines => ({ app with fifo, output := app.output ++ lines }, outs)

end FIFO

def fifoApplication (n : ℕ) (ids : PeerIds (Fin n)) (numMessages : Fin n → UInt32) :
    Program (Fin n) (FIFO (Fin n)) (URBMessage (Fin n)) FIFOInput (FIFOOutput (Fin n)) where
  start _ := {}
  enabled _ app _ _ := decide (app.fifo.urb.ids < idSpace)
  onInput me app x := app.onInput (numMessages me) me x
  onMessage me app _ m := app.onMessage ids me m
  emit := fifoEmit

open Broadcaster in
/-- What the log has to do with what was broadcast and delivered. -/
structure FIFO.Logged (ids : PeerIds (Fin n)) (numMessages : UInt32) (app : FIFO (Fin n))
    (t : List (FIFOOutput (Fin n))) : Prop where
  broadcaster : ∃ count, count ≤ messages numMessages ∧ app.broadcaster = after numMessages count
  broadcasts : (broadcastMessages t).map (·.2) ++ app.prepared.toList = app.broadcaster.broadcasts
  logged : app.output.filterMap LogLine.broadcastPayload =
    app.broadcaster.output.filterMap LogLine.broadcastPayload
  delivered : ∀ s, app.output.filterMap (LogLine.deliveredFrom (ids.peerId s)) =
    ((deliveredFrom s t).map (·.2)).flatMap payloadsOf

section Logged

variable {ids : PeerIds (Fin n)} {numMessages : UInt32} {app app' : FIFO (Fin n)} {p : Fin n}
  {t outs : List (FIFOOutput (Fin n))}

theorem broadcastMessages_append {P : Type*} (t t' : List (FIFOOutput P)) :
    broadcastMessages (t ++ t') = broadcastMessages t ++ broadcastMessages t' := by
  rw [broadcastMessages, urbTrace_append, List.filterMap_append]
  rfl

theorem deliveredFrom_append {P : Type*} [DecidableEq P] (s : P) (t t' : List (FIFOOutput P)) :
    deliveredFrom s (t ++ t') = deliveredFrom s t ++ deliveredFrom s t' := by
  rw [deliveredFrom, deliveries_append, List.filter_append, List.map_append]
  rfl

theorem FIFO.Logged.input (h : app.Logged ids numMessages t)
    (hm : numMessages.toNat + 7 < 2 ^ 32) {x : FIFOInput}
    (hs : app.onInput numMessages p x = some (app', outs)) :
    app'.Logged ids numMessages (t ++ outs) := by
  cases x with
  | prepare =>
      obtain ⟨⟨hprepared, hle⟩, he⟩ := Option.ite_none_right_eq_some.1 hs
      obtain ⟨rfl, rfl⟩ := Prod.mk.inj (Option.some.inj he)
      obtain ⟨count, hcount, hafter⟩ := h.broadcaster
      rw [List.append_nil]
      refine ⟨⟨count + 1, ?_, ?_⟩, ?_, ?_, fun s => ?_⟩
      · rw [hafter, Broadcaster.currentPayload_le_iff hm hcount] at hle
        exact hle
      · rw [Broadcaster.after_succ, hafter]
      · have hold := h.broadcasts
        rw [hprepared, Option.toList_none, List.append_nil] at hold
        rw [hold]
        rfl
      · rw [Broadcaster.broadcastNext, List.filterMap_append, List.filterMap_append, h.logged]
      · rw [List.filterMap_append, deliveredFrom_map_b, List.append_nil]
        exact h.delivered s
  | broadcast =>
      obtain ⟨message, hprepared, he⟩ := Option.map_eq_some_iff.1 hs
      obtain ⟨rfl, rfl⟩ := Prod.mk.inj he
      refine ⟨h.broadcaster, ?_, h.logged, fun s => ?_⟩
      · rw [← h.broadcasts, hprepared, broadcastMessages_append, List.map_append, List.append_assoc]
        rfl
      · rw [deliveredFrom_append, h.delivered]
        exact congrArg _ (congrArg _ (List.append_nil _).symm)

theorem urbTrace_onURBOutputs (p : Fin n) (urbOuts : List (URBOutput (Fin n)))
    (fifo : FIFOBroadcast (Fin n)) : urbTrace (fifo.onURBOutputs p urbOuts).2 = urbOuts := by
  induction urbOuts generalizing fifo with
  | nil => rfl
  | cons o urbOuts ih =>
      cases o with
      | deliver x message =>
          simp only [FIFOBroadcast.onURBOutputs, urbTrace_append, ih]
          rw [urbTrace_onURBDelivery]
          rfl
      | _ => exact congrArg (_ :: ·) (ih fifo)

theorem broadcastIds_onMessage {urb urb' : UniformReliableBroadcast (Fin n)}
    {m : URBMessage (Fin n)} {urbOuts : List (URBOutput (Fin n))}
    (hs : urb.onMessage n m = some (urb', urbOuts)) : broadcastIds urbOuts = [] := by
  unfold UniformReliableBroadcast.onMessage at hs
  split_ifs at hs with hdelivered
  · obtain ⟨-, rfl⟩ := Prod.mk.inj (Option.some.inj hs)
    rfl
  · obtain ⟨g, -, hs⟩ := Option.map_eq_some_iff.1 hs
    simp only [UniformReliableBroadcast.receive] at hs
    split at hs
    · obtain ⟨-, rfl⟩ := Prod.mk.inj hs
      rfl
    · split_ifs at hs
      · obtain ⟨-, rfl⟩ := Prod.mk.inj hs
        rfl
      · obtain ⟨-, rfl⟩ := Prod.mk.inj hs
        rfl

theorem broadcastMessages_onMessage {fifo fifo' : FIFOBroadcast (Fin n)} {m : URBMessage (Fin n)}
    (hs : fifo.onMessage n p m = some (fifo', outs)) : broadcastMessages outs = [] := by
  obtain ⟨⟨urb, urbOuts⟩, hurb, he⟩ := Option.map_eq_some_iff.1 hs
  obtain rfl := congrArg Prod.snd he
  have hids : (broadcastMessages ({ fifo with urb }.onURBOutputs p urbOuts).2).map (·.1) = [] := by
    rw [map_broadcastMessages, urbTrace_onURBOutputs]
    exact broadcastIds_onMessage hurb
  exact List.map_eq_nil_iff.1 hids

theorem FIFO.Logged.message (h : app.Logged ids numMessages t) {m : URBMessage (Fin n)}
    (hs : app.onMessage ids p m = some (app', outs)) : app'.Logged ids numMessages (t ++ outs) := by
  obtain ⟨⟨fifo, outs'⟩, hfifo, hs⟩ := Option.bind_eq_some_iff.1 hs
  obtain ⟨lines, hlines, he⟩ := Option.map_eq_some_iff.1 hs
  obtain ⟨rfl, rfl⟩ := Prod.mk.inj he
  refine ⟨h.broadcaster, ?_, ?_, fun s => ?_⟩
  · rw [broadcastMessages_append, broadcastMessages_onMessage hfifo, List.append_nil]
    exact h.broadcasts
  · rw [List.filterMap_append, h.logged,
      List.filterMap_eq_nil_iff.2 (broadcastPayload_deliveredOutput hlines), List.append_nil]
  · rw [List.filterMap_append, h.delivered, deliveredFrom_deliveredOutput hlines,
      deliveredFrom_append, List.map_append, List.flatMap_append]
    congr 2
    rw [List.filter_map, List.map_map, deliveredFrom, List.map_map]
    apply congrArg
    apply List.filter_congr
    intro d _
    simp [ids.peerId_inj]

end Logged

def applicationProjection (n : ℕ) : Projection (Fin n) (FIFO (Fin n)) (URBMessage (Fin n))
    (FIFOOutput (Fin n)) (FIFOBroadcast (Fin n)) (URBMessage (Fin n)) (FIFOOutput (Fin n)) where
  node _ app := app.fifo
  body := some
  out := some

section Worlds

variable {ids : PeerIds (Fin n)} {numMessages : Fin n → UInt32}
  (hm : ∀ p, (numMessages p).toNat + 7 < 2 ^ 32)
include hm

theorem application_reachable
    {w : World (Fin n) (FIFO (Fin n)) (URBMessage (Fin n)) (FIFOOutput (Fin n))}
    (hw : (fifoApplication n ids numMessages).Reachable w) :
    (fifoProgram n).Reachable ((applicationProjection n).world w) ∧
      ∀ p, (w.node p).Logged ids (numMessages p) (w.trace p) := by
  apply Projection.project_reachable (J := fun p app t => app.Logged ids (numMessages p) t) hw
    (fun _ => rfl)
  · intro p o
    simp [applicationProjection, fifoApplication, fifoProgram]
  · exact fun p => ⟨⟨0, Nat.zero_le _, rfl⟩, rfl, rfl, fun _ => rfl⟩
  · intro w p x r _ _ hlogged henabled hx
    refine ⟨hlogged.input (hm p) hx, ?_⟩
    cases x with
    | prepare =>
        obtain ⟨-, he⟩ := Option.ite_none_right_eq_some.1 hx
        obtain rfl := Option.some.inj he
        exact ⟨[], by simp [Program.inputs, applicationProjection, Projection.world]⟩
    | broadcast =>
        obtain ⟨message, -, rfl⟩ := Option.map_eq_some_iff.1 hx
        refine ⟨[message], ?_⟩
        have henabled' : (fifoProgram n).enabled p (((applicationProjection n).world w).node p)
            (((applicationProjection n).world w).trace p) message = true := henabled
        have hout : (applicationProjection n).out = some := rfl
        rw [Program.inputs, if_pos henabled', hout, List.filterMap_some]
        rfl
  · rintro w ⟨src, p, m⟩ r _ _ hlogged _ hx
    refine ⟨hlogged.message hx, ?_⟩
    obtain ⟨⟨fifo, outs⟩, hfifo, hx⟩ := Option.bind_eq_some_iff.1 hx
    obtain ⟨lines, -, rfl⟩ := Option.map_eq_some_iff.1 hx
    exact ⟨(fifo, outs), [], hfifo, by simp [Program.inputs, applicationProjection]⟩

/-- The lines of a process about a source are `1, …, k` in this order, and the source has logged at
least as many broadcasts. -/
theorem logs_of_application
    {w : World (Fin n) (FIFO (Fin n)) (URBMessage (Fin n)) (FIFOOutput (Fin n))}
    (hw : (fifoApplication n ids numMessages).Reachable w) (p s : Fin n) :
    ∃ k k', k ≤ k' ∧ k' ≤ (numMessages s).toNat ∧
      (w.node p).output.filterMap (LogLine.deliveredFrom (ids.peerId s)) =
        (List.range' 1 k).map UInt32.ofNat ∧
      (w.node s).output.filterMap LogLine.broadcastPayload =
        (List.range' 1 k').map UInt32.ofNat := by
  obtain ⟨hfifo, hlogged⟩ := application_reachable hm hw
  obtain ⟨count, hcount, hafter⟩ := (hlogged s).broadcaster
  have hprefix : (deliveredFrom s (w.trace p)).map (·.2) <+:
      (Broadcaster.after (numMessages s) count).broadcasts := by
    have hdelivered := delivered_isPrefix hfifo p s
    simp only [applicationProjection, Projection.world, List.filterMap_some] at hdelivered
    rw [← hafter, ← (hlogged s).broadcasts]
    exact (hdelivered.map _).trans (List.prefix_append _ _)
  obtain ⟨j, hj, htake⟩ : ∃ j ≤ count, (deliveredFrom s (w.trace p)).map (·.2) =
      (Broadcaster.after (numMessages s) j).broadcasts := by
    have hlength := hprefix.length_le
    rw [Broadcaster.length_broadcasts_after] at hlength
    refine ⟨_, hlength, ?_⟩
    rw [← Broadcaster.take_broadcasts_after hlength]
    exact List.prefix_iff_eq_take.1 hprefix
  refine ⟨min (8 * j) (numMessages s).toNat, min (8 * count) (numMessages s).toNat, by omega,
    by omega, ?_, ?_⟩
  · rw [(hlogged p).delivered, htake]
    exact Broadcaster.payloadsOf_broadcasts_after (hm s) (by omega)
  · rw [(hlogged s).logged, hafter, Broadcaster.output_after (hm s) hcount, filterMap_map_b]

/-- Over datagrams that may be lost, duplicated and reordered, but are read on the channels of their
senders, the lines of a process about a source are at every moment `1, …, k` in this order, and the
source has logged its broadcasts `1, …, k'` with `k ≤ k'`. -/
theorem fifo_logs_over_datagrams {config : UInt8 → TransportConfig}
    {route : UInt8 → UInt8 → UInt8}
    {h : StackHistory (Fin n) (FIFO (Fin n)) (FIFOOutput (Fin n))}
    (hr : ReachableIn (stackProgram ((fifoApplication n ids numMessages).encoded (encode ids)
        (decode ids)) ids config route).step (fun _ => StackRouted ids route)
      (stackProgram ((fifoApplication n ids numMessages).encoded (encode ids)
        (decode ids)) ids config route).initial h) (p s : Fin n) :
    ∃ k k', k ≤ k' ∧ k' ≤ (numMessages s).toNat ∧
      (h.node p).user.output.filterMap (LogLine.deliveredFrom (ids.peerId s)) =
        (List.range' 1 k).map UInt32.ofNat ∧
      (h.node s).user.output.filterMap LogLine.broadcastPayload =
        (List.range' 1 k').map UInt32.ofNat := by
  obtain ⟨w, hw, hlinks⟩ := links_of_stack hr
  obtain ⟨v, hv, rfl⟩ := Program.reachable_of_encoded hw fun v hv m hmem => by
    apply decode_encode ids
    apply urbId_lt_of_inflight (application_reachable hm hv).1
    exact List.mem_filterMap.2 ⟨m, hmem, rfl⟩
  rw [← hlinks.node, ← hlinks.node]
  exact logs_of_application hm hv p s

end Worlds

def threePayloads : Bytes :=
  let payloads : FIFOMessage := ⟨[1, 2, 3, 0, 0, 0, 0, 0], rfl⟩
  let message : UrbWire.URBMessage := ⟨1, 0, payloads.marshal⟩
  let packet : Transport.Packet :=
    ⟨.payloadMessage, 0, 1, message.marshal (List.replicate message.size 0)⟩
  packet.datagram

/-- The only message arrives twice; the other process relays it and delivers it with its own
copy. -/
def deliveredTwice {P : Type*} (p q : P) : List (P × Transport.StackEvent P FIFOInput) :=
  [(p, .input .prepare), (p, .input .broadcast), (p, .send 0)] ++
    List.replicate 3 (p, .internal 2 (.write .writeReady .ok 0)) ++
    [(q, .read p threePayloads .ok), (q, .read p threePayloads .ok), (q, .callback 0),
      (q, .deliver), (q, .send 1), (q, .deliver)]

theorem fifo_logs_over_datagrams_twice : ∃ h, ReachableIn
    (stackProgram ((fifoApplication 2 twoIds fun _ => 3).encoded (encode twoIds) (decode twoIds))
      twoIds threeHosts fun _ q => q).step (fun _ => StackRouted twoIds fun _ q => q)
    (stackProgram ((fifoApplication 2 twoIds fun _ => 3).encoded (encode twoIds) (decode twoIds))
      twoIds threeHosts fun _ q => q).initial h ∧
    (h.node 1).user.output = [.d 1 1, .d 1 2, .d 1 3] ∧
    ∃ k k', k ≤ k' ∧ k' ≤ (3 : UInt32).toNat ∧
      (h.node 1).user.output.filterMap (LogLine.deliveredFrom (twoIds.peerId 0)) =
        (List.range' 1 k).map UInt32.ofNat ∧
      (h.node 0).user.output.filterMap LogLine.broadcastPayload =
        (List.range' 1 k').map UInt32.ofNat := by
  obtain ⟨h, hr, houtput⟩ : ∃ h, ReachableIn
      (stackProgram ((fifoApplication 2 twoIds fun _ => 3).encoded (encode twoIds) (decode twoIds))
        twoIds threeHosts fun _ q => q).step (fun _ => StackRouted twoIds fun _ q => q)
      (stackProgram ((fifoApplication 2 twoIds fun _ => 3).encoded (encode twoIds) (decode twoIds))
        twoIds threeHosts fun _ q => q).initial h ∧
      (h.node 1).user.output = [.d 1 1, .d 1 2, .d 1 3] :=
    exists_reachableIn (deliveredTwice 0 1) (by decide +kernel)
  exact ⟨h, hr, houtput, fifo_logs_over_datagrams (fun _ => by decide) hr 1 0⟩

end BroadcastService.Applications

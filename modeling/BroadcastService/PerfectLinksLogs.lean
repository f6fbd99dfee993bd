import BroadcastService.FifoApplication
import BroadcastService.TransportStack

/-!
# The logs of the perfect links application

`applications/perfect_links.hpp` over the reliable transport. As for the FIFO application it is left
open when a sender goes on. The lines of the receiver about a sender are some of the numbers that
the sender has logged, each at most once, in any order (`perfect_links_logs`).
-/

namespace BroadcastService.Applications
open MessagePassing Transport TransitionSystem

structure PerfectLinks where
  sender : Sender := {}
  output : List LogLine := []

/-- The receiver sends nothing, and a sender does not care about incoming messages. The outputs are
the calls of `Send`. -/
def perfectLinksApplication (config : RunConfig) :
    Program UInt8 PerfectLinks Bytes Unit (UInt8 × Bytes) where
  start _ := {}
  enabled p app _ _ :=
    decide (config.receiverProcess ≠ p.toUInt32 ∧ app.sender.currentPayload ≤ config.numMessages)
  onInput _ app _ := some
    ({ sender := app.sender.sendNext config
       output := app.output ++ app.sender.nextMessage.sequenceNumber.map .b },
      [(config.receiverProcess.toUInt8, app.sender.nextMessage.marshal)])
  onMessage p app src bytes :=
    if config.receiverProcess = p.toUInt32 then
      (receive src bytes).map fun lines => ({ app with output := app.output ++ lines }, [])
    else some (app, [])
  emit _ send := [send]

abbrev PerfectLinksHistory := History UInt8 PerfectLinks Bytes (UInt8 × Bytes)

section Worlds

variable {config : RunConfig} {w : World UInt8 PerfectLinks Bytes (UInt8 × Bytes)}

/-- What a sender has logged and sent. -/
structure PerfectLinks.Sent (config : RunConfig) (app : PerfectLinks) (t : List (UInt8 × Bytes)) :
    Prop where
  sender : ∃ count, count ≤ Sender.messages config ∧ app.sender = Sender.after config count
  sent : t = app.sender.sent
  logged : app.output.filterMap LogLine.broadcastPayload =
    app.sender.output.filterMap LogLine.broadcastPayload

theorem broadcastPayload_receive {src : UInt8} {bytes : Bytes} {lines : List LogLine}
    (h : receive src bytes = some lines) : lines.filterMap LogLine.broadcastPayload = [] := by
  obtain ⟨message, -, rfl⟩ := Option.map_eq_some_iff.1 h
  rw [List.filterMap_map]
  exact List.filterMap_eq_nil_iff.2 fun _ _ => rfl

theorem sent_of_application (hm : config.numMessages.toNat + 8 < 2 ^ 32)
    (hw : (perfectLinksApplication config).Reachable w) (p : UInt8) :
    (w.node p).Sent config (w.trace p) := by
  apply Program.history_invariant (I := fun h : PerfectLinksHistory =>
    ∀ p, (h.node p).Sent config (h.trace p)) hw
  · exact fun p => ⟨⟨0, Nat.zero_le _, rfl⟩, rfl, rfl⟩
  · intro w p x r _ ih henabled hx
    obtain rfl := Option.some.inj hx
    apply History.forall_act _ _ _ (Q := fun _ => PerfectLinks.Sent config) ih
    obtain ⟨-, hle⟩ := of_decide_eq_true henabled
    obtain ⟨count, hcount, hafter⟩ := (ih p).sender
    rw [hafter, Sender.currentPayload_le_iff hm hcount] at hle
    refine ⟨⟨count + 1, hle, ?_⟩, ?_, ?_⟩
    · rw [Sender.after_succ, hafter]
    · rw [(ih p).sent]
      rfl
    · rw [Sender.sendNext, List.filterMap_append, List.filterMap_append, (ih p).logged]
  · rintro w ⟨src, p, bytes⟩ r _ ih _ hx
    apply History.forall_act _ _ _ (Q := fun _ => PerfectLinks.Sent config) ih
    simp only [perfectLinksApplication] at hx
    split_ifs at hx with hreceiver
    · obtain ⟨lines, hlines, rfl⟩ := Option.map_eq_some_iff.1 hx
      refine ⟨(ih p).sender, by rw [List.append_nil]; exact (ih p).sent, ?_⟩
      rw [List.filterMap_append, broadcastPayload_receive hlines, List.append_nil]
      exact (ih p).logged
    · obtain rfl := Option.some.inj hx
      rw [List.append_nil]
      exact ih p

theorem received_sublist (hw : (perfectLinksApplication config).Reachable w) (p src : UInt8) :
    ((w.node p).output.filterMap (LogLine.deliveredFrom src)).Sublist
      ((w.handled.filter fun m => m.src = src ∧ m.dst = p).flatMap fun m =>
        Sender.numbers m.body) := by
  apply Program.history_invariant (I := fun h : PerfectLinksHistory => ∀ p,
    ((h.node p).output.filterMap (LogLine.deliveredFrom src)).Sublist
      ((h.handled.filter fun m => m.src = src ∧ m.dst = p).flatMap fun m =>
        Sender.numbers m.body)) hw
  · exact fun p => List.Sublist.refl _
  · intro w p x r _ ih henabled hx q
    obtain rfl := Option.some.inj hx
    rw [History.act_handled]
    by_cases hq : q = p
    · subst hq
      rw [History.act_node_self, List.filterMap_append, deliveredFrom_map_b, List.append_nil]
      exact ih q
    · rw [History.act_node_ne _ _ _ _ hq]
      exact ih q
  · rintro w ⟨sender, p, bytes⟩ r _ ih _ hx q
    rw [History.act_handled, History.receive_handled, List.filter_append, List.flatMap_append]
    by_cases hq : q = p
    · subst hq
      rw [History.act_node_self]
      simp only [perfectLinksApplication] at hx
      split_ifs at hx with hreceiver
      · obtain ⟨lines, hlines, rfl⟩ := Option.map_eq_some_iff.1 hx
        rw [List.filterMap_append, deliveredFrom_receive hlines]
        apply (ih q).append
        by_cases hsrc : sender = src
        · simp [hsrc]
        · simp [hsrc]
      · obtain rfl := Option.some.inj hx
        exact (ih q).trans (List.sublist_append_left _ _)
    · rw [History.act_node_ne _ _ _ _ hq]
      exact (ih q).trans (List.sublist_append_left _ _)

theorem map_body_packets (p : UInt8) (t : List (UInt8 × Bytes)) :
    ((perfectLinksApplication config).packets p t).map (·.body) = t.map Prod.snd := by
  induction t with
  | nil => rfl
  | cons send t ih => exact congrArg (_ :: ·) ih

/-- The lines of a process about a sender are numbers that the sender has logged before, each as
often at most. -/
theorem logs_of_perfectLinks (hm : config.numMessages.toNat + 8 < 2 ^ 32)
    (hw : (perfectLinksApplication config).Reachable w) (p src : UInt8) :
    ∃ count, count ≤ Sender.messages config ∧
      (w.node src).output.filterMap LogLine.broadcastPayload =
        (List.range' 1 (8 * count)).map UInt32.ofNat ∧
      ((w.node p).output.filterMap (LogLine.deliveredFrom src)).Subperm
        ((w.node src).output.filterMap LogLine.broadcastPayload) := by
  have hsent := sent_of_application hm hw src
  obtain ⟨count, hcount, hafter⟩ := hsent.sender
  have hlogged : (w.node src).output.filterMap LogLine.broadcastPayload =
      (List.range' 1 (8 * count)).map UInt32.ofNat := by
    rw [hsent.logged, hafter, Sender.output_after, filterMap_map_b]
  refine ⟨count, hcount, hlogged, ?_⟩
  have hnumbers : (((perfectLinksApplication config).packets src (w.trace src)).flatMap fun m =>
      Sender.numbers m.body) = (List.range' 1 (8 * count)).map UInt32.ofNat := by
    rw [← List.flatMap_map, map_body_packets, hsent.sent, hafter, Sender.numbers_sent_after]
  rw [hlogged, ← hnumbers]
  refine (received_sublist hw p src).subperm.trans ?_
  -- Every message that was handled was sent, each copy once.
  have hperm := Program.sent_perm hw src
  apply List.Subperm.trans _ (hperm.flatMap_right _).symm.subperm
  apply List.Sublist.subperm
  apply List.Sublist.flatMap
  rw [List.filter_append, List.filter_append]
  apply List.Sublist.trans _ (List.sublist_append_right _ _)
  apply List.Sublist.trans _ (List.sublist_append_left _ _)
  apply List.monotone_filter_right
  intro m hm
  exact decide_eq_true (of_decide_eq_true hm).1

/-- Over datagrams that may be lost, duplicated and reordered, but are read on the channels of their
senders, the lines of a process about a sender are at every moment some of the numbers `1, …, 8 k`
that the sender has logged, none of them twice. -/
theorem perfect_links_logs (hm : config.numMessages.toNat + 8 < 2 ^ 32)
    {transports : UInt8 → TransportConfig} {route : UInt8 → UInt8 → UInt8}
    {h : StackHistory UInt8 PerfectLinks (UInt8 × Bytes)}
    (hr : ReachableIn (stackProgram (perfectLinksApplication config) .self transports route).step
      (fun _ => StackRouted .self route)
      (stackProgram (perfectLinksApplication config) .self transports route).initial h)
    (p src : UInt8) :
    ∃ k, k ≤ (config.numMessages.toNat + 7) / 8 ∧
      (h.node src).user.output.filterMap LogLine.broadcastPayload =
        (List.range' 1 (8 * k)).map UInt32.ofNat ∧
      (∀ number ∈ (h.node p).user.output.filterMap (LogLine.deliveredFrom src),
        number ∈ (h.node src).user.output.filterMap LogLine.broadcastPayload) ∧
      ((h.node p).user.output.filterMap (LogLine.deliveredFrom src)).Nodup := by
  obtain ⟨w, hw, hlinks⟩ := links_of_stack hr
  rw [← hlinks.node, ← hlinks.node]
  obtain ⟨count, hcount, hlogged, hsub⟩ := logs_of_perfectLinks hm hw p src
  refine ⟨count, hcount, hlogged, hsub.subset, ?_⟩
  have hnodup : ((List.range' 1 (8 * count)).map UInt32.ofNat).Nodup := by
    apply List.Nodup.map_on _ List.nodup_range'
    intro i hi j hj he
    rw [List.mem_range'_1] at hi hj
    rw [Sender.messages] at hcount
    have he := congrArg UInt32.toNat he
    rwa [UInt32.toNat_ofNat_of_lt' (by change i < 2 ^ 32; omega),
      UInt32.toNat_ofNat_of_lt' (by change j < 2 ^ 32; omega)] at he
  rw [hlogged] at hsub
  obtain ⟨l, hperm, hsublist⟩ := hsub
  exact hperm.nodup_iff.1 (hnodup.sublist hsublist)

end Worlds

def firstEight : Bytes :=
  let message : PerfectLinksMessage := ⟨[1, 2, 3, 4, 5, 6, 7, 8], rfl⟩
  let packet : Transport.Packet := ⟨.payloadMessage, 0, 1, message.marshal⟩
  packet.datagram

def receivedTwice : List (UInt8 × Transport.StackEvent UInt8 Unit) :=
  [(1, .input ()), (1, .send 0)] ++
    List.replicate 3 (1, .internal 2 (.write .writeReady .ok 0)) ++
    [(2, .read 1 firstEight .ok), (2, .read 1 firstEight .ok), (2, .callback 0), (2, .deliver)]

theorem perfect_links_logs_twice : ∃ h, ReachableIn
    (stackProgram (perfectLinksApplication ⟨3, 2⟩) .self threeHosts fun _ q => q).step
    (fun _ => StackRouted .self fun _ q => q)
    (stackProgram (perfectLinksApplication ⟨3, 2⟩) .self threeHosts fun _ q => q).initial h ∧
    (h.node 2).user.output = ([1, 2, 3, 4, 5, 6, 7, 8] : List UInt32).map (.d 1) ∧
    ∃ k, k ≤ ((3 : UInt32).toNat + 7) / 8 ∧
      (h.node 1).user.output.filterMap LogLine.broadcastPayload =
        (List.range' 1 (8 * k)).map UInt32.ofNat ∧
      (∀ number ∈ (h.node 2).user.output.filterMap (LogLine.deliveredFrom 1),
        number ∈ (h.node 1).user.output.filterMap LogLine.broadcastPayload) ∧
      ((h.node 2).user.output.filterMap (LogLine.deliveredFrom 1)).Nodup := by
  obtain ⟨h, hr, houtput⟩ : ∃ h, ReachableIn
      (stackProgram (perfectLinksApplication ⟨3, 2⟩) .self threeHosts fun _ q => q).step
      (fun _ => StackRouted .self fun _ q => q)
      (stackProgram (perfectLinksApplication ⟨3, 2⟩) .self threeHosts fun _ q => q).initial h ∧
      (h.node 2).user.output = ([1, 2, 3, 4, 5, 6, 7, 8] : List UInt32).map (.d 1) :=
    exists_reachableIn receivedTwice (by decide +kernel)
  exact ⟨h, hr, houtput, perfect_links_logs (by decide) hr 2 1⟩

end BroadcastService.Applications

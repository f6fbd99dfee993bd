import BroadcastService.TransportDelivery

/-!
# Programs over the reliable transport

A program whose messages are byte strings, run on the reliable transport: a process calls `Send` for
every message that it emits, the packet batcher calls the program back for every packet that it got,
in their order, and in between the channels exchange datagrams over a lossy network. Calls of `Send`
that a process has yet to make are in its `outbox`; they may come in any order and between them
anything else may happen, as in the source several threads run the callback and the user.

If every datagram is read on the channel of its sender, then whatever the network loses, duplicates
or reorders, the program behaves as over perfect links (`links_of_stack`).
-/

namespace BroadcastService.Transport
open MessagePassing TransitionSystem

/-- The identifiers of the processes in the `HostsTable`. -/
structure PeerIds (P : Type*) where
  peerId : P → UInt8
  host : UInt8 → Option P
  host_iff : ∀ {x p}, host x = some p ↔ peerId p = x

theorem PeerIds.host_peerId {P : Type*} (ids : PeerIds P) (p : P) :
    ids.host (ids.peerId p) = some p := ids.host_iff.2 rfl

theorem PeerIds.peerId_inj {P : Type*} (ids : PeerIds P) {p q : P} :
    ids.peerId p = ids.peerId q ↔ p = q := by
  constructor
  · intro h
    have hp := ids.host_peerId p
    rw [h, ids.host_peerId] at hp
    exact (Option.some.inj hp).symm
  · rintro rfl
    rfl

/-- `outputs` are the outputs of the program so far, and `batch` the packets in the batcher. -/
structure Process (P σ ω : Type*) where
  user : σ
  outputs : List ω := []
  transport : ReliableTransport
  outbox : List (P × Bytes) := []
  batch : List Packet := []

inductive StackEvent (P ι : Type*)
  | input (x : ι)
  | send (index : ℕ)
  | read (sender : P) (datagram : Bytes) (status : WriteStatus)
  | callback (index : ℕ)
  | internal (peer : UInt8) (event : ChannelEvent)
  | deliver

inductive StackOutput
  | transport (output : TransportOutput)
  | deliver (packet : Packet)
  deriving DecidableEq

variable {P σ ι ω : Type*}

namespace Process

variable (A : Program P σ Bytes ι ω) (ids : PeerIds P) (p : P) (process : Process P σ ω)

def react (r : σ × List ω) : Process P σ ω :=
  { process with
    user := r.1
    outputs := process.outputs ++ r.2
    outbox := process.outbox ++ r.2.flatMap (A.emit p) }

def onTransport (route : UInt8 → UInt8) (event : TransportEvent) :
    Option (Process P σ ω × List StackOutput) :=
  (process.transport.onEvent route event).map fun (transport, outs) =>
    ({ process with transport, batch := process.batch ++ addedPackets outs },
      outs.map .transport)

def onEvent (route : UInt8 → UInt8) :
    StackEvent P ι → Option (Process P σ ω × List StackOutput)
  | .input x =>
      if A.enabled p process.user process.outputs x then
        (A.onInput p process.user x).map fun r => (process.react A p r, [])
      else none
  | .send index => process.outbox[index]?.bind fun d =>
      { process with outbox := process.outbox.eraseIdx index }.onTransport route
        (.send (ids.peerId d.1) d.2)
  | .read sender datagram status =>
      process.onTransport route (.read (ids.peerId sender) datagram status)
  | .callback index => process.onTransport route (.callback index)
  | .internal peer event => process.onTransport route (.internal peer event)
  | .deliver => match process.batch with
      | [] => none
      | packet :: batch => (ids.host packet.source).bind fun q =>
          (A.onMessage p process.user q packet.message).map fun r =>
            ({ process with batch }.react A p r, [.deliver packet])

end Process

def stackProgram (A : Program P σ Bytes ι ω) (ids : PeerIds P) (config : UInt8 → TransportConfig)
    (route : UInt8 → UInt8 → UInt8) :
    DatagramProgram P (Process P σ ω) Bytes (StackEvent P ι) StackOutput where
  start p :=
    { user := A.start p
      transport := (config (ids.peerId p)).start (ids.peerId p) }
  onEvent p process event := process.onEvent A ids p (route (ids.peerId p)) event
  read
    | _, .read sender datagram _ => some (sender, datagram)
    | _, _ => none
  written
    | _, .transport (.channel peer (.write datagram)) =>
        ((ids.host peer).map fun q => (q, datagram)).toList
    | _, _ => []

abbrev StackHistory (P σ ω : Type*) := History P (Process P σ ω) Bytes StackOutput

/-- Every datagram is read on the channel of its sender. -/
def StackRouted (ids : PeerIds P) (route : UInt8 → UInt8 → UInt8) : P × StackEvent P ι → Prop
  | (p, .read sender _ _) => route (ids.peerId p) (ids.peerId sender) = ids.peerId sender
  | _ => True

namespace Process

variable {A : Program P σ Bytes ι ω} {ids : PeerIds P} {p : P} {process : Process P σ ω}

/-- The event of the transport in an event of the process, the calls of `Send` that are left over
once it is made, and the condition under which it can be. -/
inductive Step (A : Program P σ Bytes ι ω) (ids : PeerIds P) (p : P) (route : UInt8 → UInt8)
    (process : Process P σ ω) :
    StackEvent P ι → Process P σ ω → List StackOutput → Prop
  | input {x : ι} {r : σ × List ω} (henabled : A.enabled p process.user process.outputs x = true)
      (h : A.onInput p process.user x = some r) :
      Step A ids p route process (.input x) (process.react A p r) []
  | transport {event : StackEvent P ι} {transportEvent : TransportEvent}
      {transport' : ReliableTransport} {outs : List TransportOutput} {outbox : List (P × Bytes)}
      (hread : ∀ x datagram status, transportEvent = .read x datagram status →
        ∃ sender, event = .read sender datagram status ∧ x = ids.peerId sender)
      (hsent : (process.outbox.map fun d => (ids.peerId d.1, d.2)).Perm
        ((outbox.map fun d => (ids.peerId d.1, d.2)) ++ transportEvent.sends))
      (h : process.transport.onEvent route transportEvent = some (transport', outs)) :
      Step A ids p route process event
        { process with
          transport := transport'
          outbox
          batch := process.batch ++ addedPackets outs }
        (outs.map .transport)
  | deliver {packet : Packet} {batch : List Packet} {q : P} {r : σ × List ω}
      (hbatch : process.batch = packet :: batch) (hsource : ids.peerId q = packet.source)
      (h : A.onMessage p process.user q packet.message = some r) :
      Step A ids p route process .deliver ({ process with batch }.react A p r) [.deliver packet]

theorem onEvent_step {route : UInt8 → UInt8} {event : StackEvent P ι} {process' : Process P σ ω}
    {outs : List StackOutput}
    (hs : process.onEvent A ids p route event = some (process', outs)) :
    Step A ids p route process event process' outs := by
  -- An event of the transport alone.
  have hidle : ∀ transportEvent : TransportEvent, transportEvent.sends = [] →
      (∀ x datagram status, transportEvent = .read x datagram status →
        ∃ sender, event = .read sender datagram status ∧ x = ids.peerId sender) →
      process.onTransport route transportEvent = some (process', outs) →
      Step A ids p route process event process' outs := by
    intro transportEvent hsends hread hs
    obtain ⟨⟨transport', outs'⟩, htransport, he⟩ := Option.map_eq_some_iff.1 hs
    obtain ⟨rfl, rfl⟩ := Prod.mk.inj he
    exact .transport hread (by rw [hsends, List.append_nil]) htransport
  cases event with
  | input x =>
      obtain ⟨henabled, hs⟩ := Option.ite_none_right_eq_some.1 hs
      obtain ⟨r, hr, he⟩ := Option.map_eq_some_iff.1 hs
      obtain ⟨rfl, rfl⟩ := Prod.mk.inj he
      exact .input henabled hr
  | send index =>
      obtain ⟨d, hd, hs⟩ := Option.bind_eq_some_iff.1 hs
      obtain ⟨⟨transport', outs'⟩, htransport, he⟩ := Option.map_eq_some_iff.1 hs
      obtain ⟨rfl, rfl⟩ := Prod.mk.inj he
      refine .transport (by simp) ?_ htransport
      refine ((Program.perm_cons_eraseIdx hd).map _).trans ?_
      exact (List.perm_append_singleton _ _).symm
  | read sender datagram status =>
      refine hidle _ rfl ?_ hs
      intro x datagram' status' he
      obtain ⟨rfl, rfl, rfl⟩ := TransportEvent.read.inj he
      exact ⟨sender, rfl, rfl⟩
  | callback index => exact hidle _ rfl (by simp) hs
  | internal peer event => exact hidle _ rfl (by simp) hs
  | deliver =>
      simp only [onEvent] at hs
      split at hs
      · cases hs
      · rename_i packet batch hbatch
        obtain ⟨q, hq, hs⟩ := Option.bind_eq_some_iff.1 hs
        obtain ⟨r, hr, he⟩ := Option.map_eq_some_iff.1 hs
        obtain ⟨rfl, rfl⟩ := Prod.mk.inj he
        exact .deliver hbatch (ids.host_iff.1 hq) hr

end Process

def transportTrace (t : List StackOutput) : List TransportOutput :=
  t.filterMap fun o => match o with
    | .transport output => some output
    | _ => none

def deliveredPackets (t : List StackOutput) : List Packet :=
  t.filterMap fun o => match o with
    | .deliver packet => some packet
    | _ => none

@[simp] theorem transportTrace_append (t t' : List StackOutput) :
    transportTrace (t ++ t') = transportTrace t ++ transportTrace t' := List.filterMap_append

@[simp] theorem deliveredPackets_append (t t' : List StackOutput) :
    deliveredPackets (t ++ t') = deliveredPackets t ++ deliveredPackets t' := List.filterMap_append

@[simp] theorem transportTrace_map (outs : List TransportOutput) :
    transportTrace (outs.map .transport) = outs := by
  rw [transportTrace, List.filterMap_map]
  exact List.filterMap_some

@[simp] theorem deliveredPackets_map (outs : List TransportOutput) :
    deliveredPackets (outs.map .transport) = [] := by
  simp [deliveredPackets]

variable (A : Program P σ Bytes ι ω) (ids : PeerIds P)

/-- What the program emitted was sent or is in the outbox, and what the batcher got was passed on,
in the same order, or is in the batch. -/
structure ProcessLocal (p : P) (process : Process P σ ω) (t : List StackOutput) : Prop where
  batch : deliveredPackets t ++ process.batch = addedPackets (transportTrace t)
  sent : ((process.outputs.flatMap (A.emit p)).map fun d => (ids.peerId d.1, d.2)).Perm
    ((process.outbox.map fun d => (ids.peerId d.1, d.2)) ++ sentMessages (transportTrace t))

variable {A ids}

theorem ProcessLocal.react {p : P} {process : Process P σ ω} {t : List StackOutput}
    (h : ProcessLocal A ids p process t) (r : σ × List ω) :
    ProcessLocal A ids p (process.react A p r) t := by
  refine ⟨h.batch, ?_⟩
  simp only [Process.react, List.flatMap_append, List.map_append]
  refine (h.sent.append_right _).trans ?_
  simp only [List.append_assoc]
  exact List.perm_append_comm.append_left _

theorem ProcessLocal.step {p : P} {route : UInt8 → UInt8} {process process' : Process P σ ω}
    {event : StackEvent P ι} {t outs : List StackOutput} (h : ProcessLocal A ids p process t)
    (hs : Process.Step A ids p route process event process' outs) :
    ProcessLocal A ids p process' (t ++ outs) := by
  cases hs with
  | input henabled hr =>
      rw [List.append_nil]
      exact h.react _
  | @transport _ transportEvent transport' outs' outbox _ hsent hs =>
      constructor
      · rw [deliveredPackets_append, transportTrace_append, deliveredPackets_map,
          transportTrace_map, addedPackets_append, List.append_nil, ← h.batch, List.append_assoc]
      · rw [transportTrace_append, transportTrace_map, sentMessages_append,
          sentMessages_onEvent hs]
        refine h.sent.trans ((hsent.append_right _).trans ?_)
        simp only [List.append_assoc]
        exact List.perm_append_comm.append_left _
  | @deliver packet batch q r hbatch _ hr =>
      apply ProcessLocal.react
      have htransport : transportTrace (t ++ [.deliver packet]) = transportTrace t := by
        rw [transportTrace_append]
        exact List.append_nil _
      refine ⟨?_, ?_⟩
      · rw [htransport, ← h.batch, deliveredPackets_append, hbatch, List.append_assoc]
        rfl
      · rw [htransport]
        exact h.sent

variable [DecidableEq P]

/-- The transports of the processes, as a run of their own. -/
structure TransportView (ids : PeerIds P) (h : StackHistory P σ ω) (below : TransportHistory) :
    Prop where
  node : ∀ p, below.node (ids.peerId p) = (h.node p).transport
  trace : ∀ p, below.trace (ids.peerId p) = transportTrace (h.trace p)

/-- A world in which the program has done the same over perfect links. -/
structure LinksView (ids : PeerIds P) (h : StackHistory P σ ω) (w : World P σ Bytes ω) : Prop where
  node : ∀ p, w.node p = (h.node p).user
  trace : ∀ p, w.trace p = (h.node p).outputs
  alive : ∀ p, w.crashed p = false
  lost : w.lost = []
  handled : ∀ p q message, w.handled.count ⟨q, p, message⟩ =
    (deliveredPackets (h.trace p)).countP fun packet =>
      packet.source = ids.peerId q ∧ packet.message = message

section Steps

variable {config : UInt8 → TransportConfig} {route : UInt8 → UInt8 → UInt8}
  {h h' : StackHistory P σ ω} {below : TransportHistory} {w : World P σ Bytes ω}

theorem TransportView.idle (hview : TransportView ids h below) {p : P}
    {r : Process P σ ω × List StackOutput} (hnode : h'.node = (h.act p r).node)
    (htrace : h'.trace = (h.act p r).trace) (htransport : r.1.transport = (h.node p).transport)
    (hnone : transportTrace r.2 = []) : TransportView ids h' below := by
  refine ⟨fun q => ?_, fun q => ?_⟩
  · rw [hnode, hview.node]
    by_cases hq : q = p
    · rw [hq, History.act_node_self, htransport]
    · rw [History.act_node_ne _ _ _ _ hq]
  · rw [htrace, hview.trace]
    by_cases hq : q = p
    · rw [hq, History.act_trace_self, transportTrace_append, hnone, List.append_nil]
    · rw [History.act_trace_ne _ _ _ _ hq]

theorem transport_step (hview : TransportView ids h below)
    (hr : ReachableIn (transportProgram config route).step (fun _ => RoutedToSender route)
      (transportProgram config route).initial below) {p : P} {event : StackEvent P ι}
    (hok : StackRouted ids route (p, event))
    (hs : (stackProgram A ids config route).step h (p, event) = some h') :
    ∃ below', ReachableIn (transportProgram config route).step (fun _ => RoutedToSender route)
      (transportProgram config route).initial below' ∧ TransportView ids h' below' := by
  obtain ⟨⟨process', outs⟩, hevent, hread, hnode, htrace⟩ := DatagramProgram.step_cases hs
  cases Process.onEvent_step hevent with
  | input henabled hx => exact ⟨below, hr, hview.idle hnode htrace rfl rfl⟩
  | deliver hbatch hsource hx => exact ⟨below, hr, hview.idle hnode htrace rfl rfl⟩
  | @transport _ transportEvent transport' outs' outbox hreads hsent hx =>
      have hevent' : (transportProgram config route).onEvent (ids.peerId p)
          (below.node (ids.peerId p)) transportEvent = some (transport', outs') := by
        rw [hview.node]
        exact hx
      obtain ⟨below', hstep, hnode', htrace'⟩ := DatagramProgram.exists_step hevent' (by
        intro x datagram hx
        cases transportEvent with
        | read x' datagram' status =>
            obtain ⟨rfl, rfl⟩ := Prod.mk.inj (Option.some.inj hx)
            obtain ⟨sender, rfl, rfl⟩ := hreads x' datagram' status rfl
            obtain ⟨o, ho, hd⟩ := hread sender datagram' rfl
            cases o with
            | transport output =>
                refine ⟨output, ?_, ?_⟩
                · rw [hview.trace]
                  exact List.mem_filterMap.2 ⟨_, ho, rfl⟩
                · cases output with
                  | channel peer o =>
                      cases o with
                      | write d =>
                          obtain ⟨q, hq, he⟩ := Option.map_eq_some_iff.1 (Option.mem_toList.1 hd)
                          obtain ⟨rfl, rfl⟩ := Prod.mk.inj he
                          rw [← ids.host_iff.1 hq]
                          exact List.mem_singleton_self _
                      | _ => cases hd
                  | _ => cases hd
            | deliver packet => cases hd
        | _ => cases hx)
      refine ⟨below', hr.tail ?_ hstep, fun q => ?_, fun q => ?_⟩
      · cases transportEvent with
        | read x datagram status =>
            obtain ⟨sender, rfl, rfl⟩ := hreads x datagram status rfl
            exact hok
        | _ => trivial
      · rw [hnode', hnode]
        by_cases hq : q = p
        · rw [hq, History.act_node_self, History.act_node_self]
        · rw [History.act_node_ne _ _ _ _ hq, History.act_node_ne, hview.node]
          exact fun he => hq (ids.peerId_inj.1 he)
      · rw [htrace', htrace]
        by_cases hq : q = p
        · rw [hq, History.act_trace_self, History.act_trace_self, transportTrace_append,
            transportTrace_map, hview.trace]
        · rw [History.act_trace_ne _ _ _ _ hq, History.act_trace_ne, hview.trace]
          exact fun he => hq (ids.peerId_inj.1 he)

theorem LinksView.emitted (hlinks : LinksView ids h w) (hw : A.Reachable w) (p q : P)
    (message : Bytes) : (((h.node q).outputs.flatMap (A.emit q)).map fun d =>
      (ids.peerId d.1, d.2)).count (ids.peerId p, message) =
      w.inflight.count ⟨q, p, message⟩ + w.handled.count ⟨q, p, message⟩ := by
  have hcode : Function.Injective fun d : P × Bytes => (ids.peerId d.1, d.2) := by
    rintro ⟨x, b⟩ ⟨y, c⟩ he
    obtain ⟨hx, hb⟩ := Prod.mk.inj he
    exact Prod.ext (ids.peerId_inj.1 hx) hb
  have hpacket : Function.Injective fun d : P × Bytes =>
      (⟨q, d.1, d.2⟩ : MessagePassing.Packet P Bytes) := by
    rintro ⟨x, b⟩ ⟨y, c⟩ he
    obtain ⟨-, rfl, rfl⟩ := MessagePassing.Packet.mk.inj he
    rfl
  have hsent := Program.countP_sent hw q (fun m => m == ⟨q, p, message⟩) (by
    intro m hm
    rw [eq_of_beq hm])
  rw [hlinks.lost, List.countP_nil, Nat.add_zero, hlinks.trace, Program.packets,
    ← List.map_flatMap] at hsent
  rw [List.count_map_of_injective _ _ hcode (p, message),
    ← List.count_map_of_injective _ _ hpacket (p, message)]
  exact hsent

/-- A packet in the batcher is a message in flight. -/
theorem LinksView.inflight (hlinks : LinksView ids h w) (hw : A.Reachable w)
    (hview : TransportView ids h below)
    (hr : ReachableIn (transportProgram config route).step (fun _ => RoutedToSender route)
      (transportProgram config route).initial below)
    (hlocal : ∀ p, ProcessLocal A ids p (h.node p) (h.trace p)) {p q : P} {packet : Packet}
    {batch : List Packet} (hbatch : (h.node p).batch = packet :: batch)
    (hsource : ids.peerId q = packet.source) : ⟨q, p, packet.message⟩ ∈ w.inflight := by
  have hadded := countP_added_le hr (ids.peerId p) (ids.peerId q) packet.message
  rw [hview.trace, hview.trace, ← (hlocal p).batch, hbatch, List.countP_append,
    List.countP_cons_of_pos (by simp [hsource]), ← hlinks.handled] at hadded
  have hemitted := hlinks.emitted hw p q packet.message
  rw [(hlocal q).sent.count_eq, List.count_append] at hemitted
  apply List.count_pos_iff.1
  omega

theorem LinksView.act (hlinks : LinksView ids h w) {p : P} {process : Process P σ ω}
    {outs : List StackOutput} (hnode : h'.node = (h.act p (process, outs)).node)
    {v : World P σ Bytes ω} {r : σ × List ω}
    (hv : v.node = w.node ∧ v.trace = w.trace ∧ v.crashed = w.crashed ∧ v.lost = w.lost)
    (huser : process.user = r.1) (houtputs : process.outputs = (h.node p).outputs ++ r.2)
    (hhandled : ∀ x q message, v.handled.count ⟨q, x, message⟩ =
      (deliveredPackets (h'.trace x)).countP fun packet =>
        packet.source = ids.peerId q ∧ packet.message = message) :
    LinksView ids h' (A.act v p r) := by
  obtain ⟨hvnode, hvtrace, hvcrashed, hvlost⟩ := hv
  refine ⟨fun q => ?_, fun q => ?_, fun q => ?_, hvlost.trans hlinks.lost, hhandled⟩
  · rw [hnode]
    by_cases hq : q = p
    · rw [hq, History.act_node_self]
      exact (History.act_node_self ..).trans huser.symm
    · rw [History.act_node_ne _ _ _ _ hq, ← hlinks.node, ← hvnode]
      exact History.act_node_ne _ _ _ _ hq
  · rw [hnode]
    by_cases hq : q = p
    · rw [hq, History.act_node_self, houtputs, ← hlinks.trace, ← hvtrace]
      exact History.act_trace_self ..
    · rw [History.act_node_ne _ _ _ _ hq, ← hlinks.trace, ← hvtrace]
      exact History.act_trace_ne _ _ _ _ hq
  · exact (congrFun hvcrashed q).trans (hlinks.alive q)

/-- An event of the stack is a step of the program over perfect links or no step of it. -/
theorem links_step (hlinks : LinksView ids h w) (hw : A.Reachable w)
    (hview : TransportView ids h below)
    (hr : ReachableIn (transportProgram config route).step (fun _ => RoutedToSender route)
      (transportProgram config route).initial below)
    (hlocal : ∀ p, ProcessLocal A ids p (h.node p) (h.trace p)) {p : P} {event : StackEvent P ι}
    (hs : (stackProgram A ids config route).step h (p, event) = some h') :
    ∃ w', A.Reachable w' ∧ LinksView ids h' w' := by
  obtain ⟨⟨process', outs⟩, hevent, _, hnode, htrace⟩ := DatagramProgram.step_cases hs
  -- The packets that the batcher has passed on are the same ones.
  have hkeep : deliveredPackets outs = [] → ∀ x, deliveredPackets (h'.trace x) =
      deliveredPackets (h.trace x) := by
    intro hnone x
    rw [htrace]
    by_cases hx : x = p
    · rw [hx, History.act_trace_self, deliveredPackets_append, hnone, List.append_nil]
    · rw [History.act_trace_ne _ _ _ _ hx]
  cases Process.onEvent_step hevent with
  | @input x r henabled hx =>
      have hstep : A.step w (.input p x) = some (A.act w p r) := by
        rw [Program.step, if_pos ⟨hlinks.alive p, by
          rw [hlinks.node, hlinks.trace]; exact henabled⟩, hlinks.node, hx]
        rfl
      refine ⟨_, hw.tail trivial hstep, hlinks.act hnode ⟨rfl, rfl, rfl, rfl⟩ rfl rfl ?_⟩
      intro x q message
      rw [hkeep rfl]
      exact hlinks.handled x q message
  | @transport _ transportEvent transport' outs' outbox hreads hsent hx =>
      refine ⟨w, hw, fun q => ?_, fun q => ?_, hlinks.alive, hlinks.lost, fun x q message => ?_⟩
      · rw [hlinks.node, hnode]
        by_cases hq : q = p
        · rw [hq, History.act_node_self]
        · rw [History.act_node_ne _ _ _ _ hq]
      · rw [hlinks.trace, hnode]
        by_cases hq : q = p
        · rw [hq, History.act_node_self]
        · rw [History.act_node_ne _ _ _ _ hq]
      · rw [hkeep (deliveredPackets_map outs')]
        exact hlinks.handled x q message
  | @deliver packet batch q r hbatch hsource hx =>
      obtain ⟨i, hi⟩ := List.mem_iff_getElem?.1
        (hlinks.inflight hw hview hr hlocal hbatch hsource)
      have hmessage : A.onMessage p (w.node p) q packet.message = some r := by
        rw [hlinks.node]
        exact hx
      have hstep : A.step w (.handle i) = some (A.act { w with
          toHistory := w.receive ⟨q, p, packet.message⟩
          inflight := w.inflight.eraseIdx i } p r) := by
        simp only [Program.step, hi, Option.bind_some, hlinks.alive p, if_true, hmessage,
          Option.map_some]
      refine ⟨_, hw.tail trivial hstep, hlinks.act hnode ⟨rfl, rfl, rfl, rfl⟩ rfl rfl ?_⟩
      intro x q' message
      change (w.handled ++ [_]).count _ = _
      rw [List.count_append, hlinks.handled, htrace]
      by_cases hx : x = p
      · subst hx
        rw [History.act_trace_self, deliveredPackets_append, List.countP_append]
        congr 1
        change List.count _ [_] = List.countP _ [packet]
        rw [List.count_singleton, List.countP_singleton, ← hsource]
        simp only [beq_iff_eq, MessagePassing.Packet.mk.injEq, true_and, decide_eq_true_eq,
          ids.peerId_inj]
      · rw [History.act_trace_ne _ _ _ _ hx, List.count_singleton, if_neg, Nat.add_zero]
        simp only [beq_iff_eq, MessagePassing.Packet.mk.injEq, not_and]
        exact fun _ he => absurd he.symm hx

end Steps

section Runs

variable {config : UInt8 → TransportConfig} {route : UInt8 → UInt8 → UInt8}
  {h : StackHistory P σ ω}

theorem process_local {ok : StackHistory P σ ω → P × StackEvent P ι → Prop}
    (hr : ReachableIn (stackProgram A ids config route).step ok
      (stackProgram A ids config route).initial h) (p : P) :
    ProcessLocal A ids p (h.node p) (h.trace p) := by
  apply hr.invariant (I := fun h : StackHistory P σ ω =>
    ∀ p, ProcessLocal A ids p (h.node p) (h.trace p))
  · exact fun p => ⟨rfl, .refl _⟩
  · rintro h ⟨x, event⟩ h' _ ih _ hs
    obtain ⟨⟨process', outs⟩, hevent, _, hnode, htrace⟩ := DatagramProgram.step_cases hs
    rw [hnode, htrace]
    exact History.forall_act h x (process', outs) (Q := ProcessLocal A ids) ih
      ((ih x).step (Process.onEvent_step hevent))

/-- The transports below are those of a run of their own, and above them the program behaves as
over perfect links. -/
theorem links_of_stack
    (hr : ReachableIn (stackProgram A ids config route).step (fun _ => StackRouted ids route)
      (stackProgram A ids config route).initial h) :
    ∃ w, A.Reachable w ∧ LinksView ids h w := by
  suffices ∃ below w, ReachableIn (transportProgram config route).step
      (fun _ => RoutedToSender route) (transportProgram config route).initial below ∧
      TransportView ids h below ∧ A.Reachable w ∧ LinksView ids h w by
    obtain ⟨_, w, _, _, hw, hlinks⟩ := this
    exact ⟨w, hw, hlinks⟩
  apply hr.invariant (I := fun h => ∃ below w, ReachableIn (transportProgram config route).step
    (fun _ => RoutedToSender route) (transportProgram config route).initial below ∧
    TransportView ids h below ∧ A.Reachable w ∧ LinksView ids h w)
  · exact ⟨_, _, .refl, ⟨fun _ => rfl, fun _ => rfl⟩, .refl,
      ⟨fun _ => rfl, fun _ => rfl, fun _ => rfl, rfl, fun _ _ _ => rfl⟩⟩
  · rintro h ⟨p, event⟩ h' hr ⟨below, w, hbelow, hview, hw, hlinks⟩ hok hs
    obtain ⟨below', hbelow', hview'⟩ := transport_step hview hbelow hok hs
    obtain ⟨w', hw', hlinks'⟩ := links_step hlinks hw hview hbelow (process_local hr) hs
    exact ⟨below', w', hbelow', hview', hw', hlinks'⟩

/-- Whatever the network does to the datagrams, a program over the reliable transport is in a state
and has produced outputs that it has in a run over perfect links, without crashes and losses, in
which the handled messages are those that the batchers have passed on. -/
theorem stack_refines_links
    (hr : ReachableIn (stackProgram A ids config route).step (fun _ => StackRouted ids route)
      (stackProgram A ids config route).initial h) :
    ∃ w, A.Reachable w ∧ w.lost = [] ∧
      (∀ p, w.crashed p = false ∧ w.node p = (h.node p).user ∧
        w.trace p = (h.node p).outputs) ∧
      ∀ p q message, w.handled.count ⟨q, p, message⟩ =
        (deliveredPackets (h.trace p)).countP fun packet =>
          packet.source = ids.peerId q ∧ packet.message = message := by
  obtain ⟨w, hw, hlinks⟩ := links_of_stack hr
  exact ⟨w, hw, hlinks.lost, fun p => ⟨hlinks.alive p, hlinks.node p, hlinks.trace p⟩,
    hlinks.handled⟩

end Runs

/-- The processes are the identifiers of the `HostsTable`. -/
def PeerIds.self : PeerIds UInt8 where
  peerId := id
  host := some
  host_iff := by simp [eq_comm]

def forwarding : Program UInt8 Unit Bytes (UInt8 × Bytes) (UInt8 × Bytes ⊕ UInt8 × Bytes) where
  start _ := ()
  enabled _ _ _ _ := true
  onInput _ _ d := some ((), [.inl d])
  onMessage _ _ q message := some ((), [.inr (q, message)])
  emit
    | _, .inl d => [d]
    | _, .inr _ => []

def forwardedTwice : List (UInt8 × StackEvent UInt8 (UInt8 × Bytes)) :=
  [(1, .input (2, [7])), (1, .send 0)] ++
    List.replicate 3 (1, .internal 2 (.write .writeReady .ok 0)) ++
    [(2, .read 1 (firstPacket 1 7).datagram .ok), (2, .read 1 (firstPacket 1 7).datagram .ok),
      (2, .callback 0), (2, .deliver)]

instance {P ι : Type*} (ids : PeerIds P) (route : UInt8 → UInt8 → UInt8) :
    (label : P × StackEvent P ι) → Decidable (StackRouted ids route label)
  | (_, .read _ _ _) => inferInstanceAs (Decidable (_ = _))
  | (_, .input _) | (_, .send _) | (_, .callback _) | (_, .internal _ _) | (_, .deliver) =>
      inferInstanceAs (Decidable True)

theorem stack_refines_links_twice : ∃ h, ReachableIn
    (stackProgram forwarding .self threeHosts fun _ q => q).step
    (fun _ => StackRouted .self fun _ q => q)
    (stackProgram forwarding .self threeHosts fun _ q => q).initial h ∧
    (h.node 2).outputs = [.inr (1, [7])] ∧
    ∃ w, forwarding.Reachable w ∧ w.lost = [] ∧
      (∀ p, w.crashed p = false ∧ w.node p = (h.node p).user ∧
        w.trace p = (h.node p).outputs) ∧
      ∀ p q message, w.handled.count ⟨q, p, message⟩ =
        (deliveredPackets (h.trace p)).countP fun packet =>
          packet.source = PeerIds.self.peerId q ∧ packet.message = message := by
  obtain ⟨h, hr, houtputs⟩ : ∃ h, ReachableIn
      (stackProgram forwarding .self threeHosts fun _ q => q).step
      (fun _ => StackRouted .self fun _ q => q)
      (stackProgram forwarding .self threeHosts fun _ q => q).initial h ∧
      (h.node 2).outputs = [.inr (1, [7])] :=
    exists_reachableIn forwardedTwice (by decide +kernel)
  exact ⟨h, hr, houtputs, stack_refines_links hr⟩

end BroadcastService.Transport

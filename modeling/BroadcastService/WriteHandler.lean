import BroadcastService.FairLossChannel
import BroadcastService.TransitionSystem

/-!
# The write path of a fair-loss channel, one shared access at a time

`FairLossChannel::Send` and `WriteEventHandler::Handle` cut at every access to something that other
threads use: the budget, the set of outgoing identifiers, the queue, the socket, the timer service
and the event loop. Any number of calls of `Send` are under way at once; there is at most one call
of `Handle`, since the write event is one-shot.

The lock-free queue is its stack, top first. A push and a pop of the whole stack take effect at
their successful compare-and-exchange, so each of them is one step.

The timer service is shared with the other channels. They draw identifiers with `GetID`, add timers
under the identifiers they drew and cancel these. `retryFunction` is the `retry_function_` of this
handler; its `Fire` arms the write event and its `Cancel` does nothing.

`history` is what the channel has done so far, for the statements about it.
-/

namespace BroadcastService.Transport

/-- A packet as a node of its own, named by the number of the call of `Send` that got it. -/
structure PacketLinked where
  serial : ℕ
  packet : Packet
  deriving DecidableEq

structure BatchedLFQueue (α : Type*) where
  stack : List α := []

namespace BatchedLFQueue

variable {α : Type*} (queue : BatchedLFQueue α)

def push (task : α) : BatchedLFQueue α := ⟨task :: queue.stack⟩

def pushList (list : List α) : BatchedLFQueue α := ⟨list.reverse ++ queue.stack⟩

def tryPopAll : List α × BatchedLFQueue α := (queue.stack.reverse, ⟨[]⟩)

end BatchedLFQueue

namespace WriteHandler

inductive WheelTask
  | retryFunction
  | other
  deriving DecidableEq

/-- The policy that a rescheduling uses. -/
inductive RetryReason
  | error
  | emptyWrite
  deriving DecidableEq

/-- Where a call of `Handle` stands: the next access is
* `entered`: `Credit`,
* `credited`: `TryPopAll`,
* `emptyBatch`: `TopUp` of the whole budget,
* `looping`: `PopFront` and the test of the budget,
* `spent`: the write of `next`,
* `wrote`: the deletion of the identifier of `next`,
* `returning`: `Push` of the remaining batch,
* `toppingUp`: `TopUp` of the remaining budget,
* `finishing`: the choice between `Reschedule` and `Rearm`,
* `rescheduling`: `Retry`. -/
inductive HandleStage
  | idle
  | entered
  | credited (budget : ℕ)
  | emptyBatch (budget : ℕ)
  | looping (budget : ℕ) (batch : List PacketLinked) (writeStatus : WriteStatus)
  | spent (budget : ℕ) (next : PacketLinked) (batch : List PacketLinked)
  | wrote (budget : ℕ) (next : PacketLinked) (batch : List PacketLinked)
  | returning (budget : ℕ) (batch : List PacketLinked) (writeStatus : WriteStatus)
  | toppingUp (budget : ℕ) (writeStatus : WriteStatus)
  | finishing (writeStatus : WriteStatus)
  | rescheduling (reason : RetryReason)
  deriving DecidableEq

/-- `taken` is what `Credit` returned to the last call of `Handle` that got that far, and `spent`
the part of it that this call has used for writes. -/
structure History where
  sendCalls : ℕ := 0
  accepted : List PacketLinked := []
  written : List PacketLinked := []
  credits : ℕ := 0
  taken : ℕ := 0
  spent : ℕ := 0

/-- The calls of `Send` under way are in `started` before the test of the cap, in `checked` after
it and in `registered` once their identifier is inserted. `otherIds` are the timer identifiers that
were drawn by others. -/
structure WriteSystem where
  sendBudget : SharedBudget
  errorPolicy : RetryPolicy
  emptyWritePolicy : RetryPolicy
  timerService : TimerService WheelTask
  outgoingPackets : BatchedLFQueue PacketLinked := {}
  outgoingMessageIds : Finset UInt32 := ∅
  armed : Bool := true
  stage : HandleStage := .idle
  started : List PacketLinked := []
  checked : List PacketLinked := []
  registered : List PacketLinked := []
  firedTimers : List (Timer WheelTask) := []
  otherIds : Finset ℕ := ∅
  history : History := {}

def initial (maxBudget : UInt64) (errorPolicy emptyWritePolicy : RetryPolicy) (tickDuration : ℕ) :
    WriteSystem where
  sendBudget := ⟨maxBudget.toNat, maxBudget.toNat⟩
  errorPolicy := errorPolicy
  emptyWritePolicy := emptyWritePolicy
  timerService := { tickDuration }

namespace WriteSystem

variable (s : WriteSystem)

def send (packet : Packet) : WriteSystem :=
  { s with
    started := ⟨s.history.sendCalls, packet⟩ :: s.started
    history.sendCalls := s.history.sendCalls + 1 }

def checkCap (linked : PacketLinked) : Option WriteSystem :=
  if linked ∈ s.started then
    let s := { s with started := s.started.erase linked }
    if outgoingMessageCap ≤ s.outgoingMessageIds.card then some s
    else some { s with checked := linked :: s.checked }
  else none

def insertId (linked : PacketLinked) : Option WriteSystem :=
  if linked ∈ s.checked then
    let s := { s with checked := s.checked.erase linked }
    if linked.packet.id ∈ s.outgoingMessageIds then some s
    else
      some { s with
        outgoingMessageIds := insert linked.packet.id s.outgoingMessageIds
        registered := linked :: s.registered }
  else none

def pushPacket (linked : PacketLinked) : Option WriteSystem :=
  if linked ∈ s.registered then
    some { s with
      registered := s.registered.erase linked
      outgoingPackets := s.outgoingPackets.push linked
      history.accepted := linked :: s.history.accepted }
  else none

def addSendCredits (credits : UInt64) : WriteSystem :=
  { s with
    sendBudget := s.sendBudget.topUp credits.toNat
    history.credits := s.history.credits + credits.toNat }

/-- The event loop delivers the one-shot event. -/
def event (type : EventType) : Option WriteSystem :=
  if s.armed then
    match type with
    | .error => some { s with armed := false, stage := .rescheduling .error }
    | .writeReady => some { s with armed := false, stage := .entered }
  else none

def credit : WriteSystem :=
  let (budget, sendBudget) := s.sendBudget.credit (counterSpace - 1)
  { s with
    sendBudget
    stage := if budget = 0 then .rescheduling .emptyWrite else .credited budget
    history.taken := budget
    history.spent := 0 }

def tryPopAll (budget : ℕ) : WriteSystem :=
  let (batch, outgoingPackets) := s.outgoingPackets.tryPopAll
  if batch = [] then { s with outgoingPackets, stage := .emptyBatch budget }
  else
    { s with
      outgoingPackets
      emptyWritePolicy := s.emptyWritePolicy.reset
      stage := .looping budget batch .connRefused }

def returnBudget (budget : ℕ) : WriteSystem :=
  { s with sendBudget := s.sendBudget.topUp budget, stage := .rescheduling .emptyWrite }

def messageSize : ℕ := 1

/-- The budget is a `size_t` and its difference with the size of a message may wrap. -/
def popFront (budget : ℕ) (batch : List PacketLinked) (writeStatus : WriteStatus) : WriteSystem :=
  match batch with
  | [] => { s with stage := .returning budget [] writeStatus }
  | next :: batch =>
      if next.packet.type = .payloadMessage then
        if budget < messageSize then
          { s with stage := .returning budget (next :: batch) writeStatus }
        else
          { s with
            stage := .spent ((budget + counterSpace - messageSize) % counterSpace) next batch
            history.spent := s.history.spent + messageSize }
      else { s with stage := .spent budget next batch }

def write (budget : ℕ) (next : PacketLinked) (batch : List PacketLinked) (status : WriteStatus) :
    WriteSystem :=
  if status = .ok then
    { s with
      stage := .wrote budget next batch
      history.written := next :: s.history.written }
  else if next.packet.type = .payloadMessage then
    { s with
      stage := .returning ((budget + messageSize) % counterSpace) (next :: batch) status
      history.spent := s.history.spent - messageSize }
  else { s with stage := .returning budget (next :: batch) status }

def deleteId (budget : ℕ) (next : PacketLinked) (batch : List PacketLinked) : WriteSystem :=
  { s with
    outgoingMessageIds := s.outgoingMessageIds.erase next.packet.id
    stage := .looping budget batch .ok }

def pushBatch (budget : ℕ) (batch : List PacketLinked) (writeStatus : WriteStatus) : WriteSystem :=
  { s with
    outgoingPackets := s.outgoingPackets.pushList batch
    stage := .toppingUp budget writeStatus }

def topUp (budget : ℕ) (writeStatus : WriteStatus) : WriteSystem :=
  { s with
    sendBudget := if 0 < budget then s.sendBudget.topUp budget else s.sendBudget
    stage := .finishing writeStatus }

def finish (writeStatus : WriteStatus) : WriteSystem :=
  if writeStatus = .connRefused then { s with stage := .rescheduling .error }
  else { s with errorPolicy := s.errorPolicy.reset, armed := true, stage := .idle }

def policy : RetryReason → RetryPolicy
  | .error => s.errorPolicy
  | .emptyWrite => s.emptyWritePolicy

def setPolicy (policy : RetryPolicy) : RetryReason → WriteSystem
  | .error => { s with errorPolicy := policy }
  | .emptyWrite => { s with emptyWritePolicy := policy }

/-- `Retry`, and with it the end of the call. -/
def reschedule (reason : RetryReason) (draw : ℕ) : WriteSystem :=
  let policy := s.policy reason
  if policy.isValid then
    let s := s.setPolicy (policy.next draw) reason
    let (id, timerService) := s.timerService.getID
    { s with
      timerService := timerService.addTimer .retryFunction id policy.timeoutMs
      stage := .idle }
  else { s with stage := .idle }

/-- The next access of `Handle`; `status` and `draw` are what the socket and the random device
answer. -/
def handle (status : WriteStatus) (draw : ℕ) : Option WriteSystem :=
  match s.stage with
  | .idle => none
  | .entered => some s.credit
  | .credited budget => some (s.tryPopAll budget)
  | .emptyBatch budget => some (s.returnBudget budget)
  | .looping budget batch writeStatus => some (s.popFront budget batch writeStatus)
  | .spent budget next batch => some (s.write budget next batch status)
  | .wrote budget next batch => some (s.deleteId budget next batch)
  | .returning budget batch writeStatus => some (s.pushBatch budget batch writeStatus)
  | .toppingUp budget writeStatus => some (s.topUp budget writeStatus)
  | .finishing writeStatus => some (s.finish writeStatus)
  | .rescheduling reason => some (s.reschedule reason draw)

def getTimerID : WriteSystem :=
  let (id, timerService) := s.timerService.getID
  { s with timerService, otherIds := insert id s.otherIds }

def addTimer (id duration : ℕ) : Option WriteSystem :=
  if id ∈ s.otherIds then
    some { s with timerService := s.timerService.addTimer .other id duration }
  else none

def cancelTimer (id : ℕ) : Option WriteSystem :=
  if id ∈ s.otherIds then some { s with timerService := s.timerService.cancelTimer id } else none

/-- The part of `Tick` under the mutex; the next one begins when all timers were fired. -/
def tick (elapsed : ℕ) : Option WriteSystem :=
  if s.firedTimers = [] then
    let (_, firedTimers, timerService) := s.timerService.collect elapsed
    some { s with firedTimers, timerService }
  else none

def fire : Option WriteSystem :=
  match s.firedTimers with
  | [] => none
  | timer :: firedTimers =>
      match timer.task with
      | .retryFunction => some { s with firedTimers, armed := true }
      | .other => some { s with firedTimers }

end WriteSystem

inductive WriteLabel
  | send (packet : Packet)
  | checkCap (linked : PacketLinked)
  | insertId (linked : PacketLinked)
  | push (linked : PacketLinked)
  | addSendCredits (credits : UInt64)
  | event (type : EventType)
  | handle (status : WriteStatus) (draw : ℕ)
  | getTimerID
  | addTimer (id duration : ℕ)
  | cancelTimer (id : ℕ)
  | tick (elapsed : ℕ)
  | fire
  deriving DecidableEq

def step (s : WriteSystem) : WriteLabel → Option WriteSystem
  | .send packet => some (s.send packet)
  | .checkCap linked => s.checkCap linked
  | .insertId linked => s.insertId linked
  | .push linked => s.pushPacket linked
  | .addSendCredits credits => some (s.addSendCredits credits)
  | .event type => s.event type
  | .handle status draw => s.handle status draw
  | .getTimerID => some s.getTimerID
  | .addTimer id duration => s.addTimer id duration
  | .cancelTimer id => s.cancelTimer id
  | .tick elapsed => s.tick elapsed
  | .fire => s.fire

variable {s s' : WriteSystem} {linked : PacketLinked}

/-- The accesses of `Handle`, each with the stage it belongs to. -/
inductive HandleStep (s : WriteSystem) (status : WriteStatus) (draw : ℕ) : WriteSystem → Prop
  | credit (h : s.stage = .entered) : HandleStep s status draw s.credit
  | tryPopAll (budget : ℕ) (h : s.stage = .credited budget) :
      HandleStep s status draw (s.tryPopAll budget)
  | returnBudget (budget : ℕ) (h : s.stage = .emptyBatch budget) :
      HandleStep s status draw (s.returnBudget budget)
  | popFront (budget : ℕ) (batch : List PacketLinked) (writeStatus : WriteStatus)
      (h : s.stage = .looping budget batch writeStatus) :
      HandleStep s status draw (s.popFront budget batch writeStatus)
  | write (budget : ℕ) (next : PacketLinked) (batch : List PacketLinked)
      (h : s.stage = .spent budget next batch) :
      HandleStep s status draw (s.write budget next batch status)
  | deleteId (budget : ℕ) (next : PacketLinked) (batch : List PacketLinked)
      (h : s.stage = .wrote budget next batch) :
      HandleStep s status draw (s.deleteId budget next batch)
  | pushBatch (budget : ℕ) (batch : List PacketLinked) (writeStatus : WriteStatus)
      (h : s.stage = .returning budget batch writeStatus) :
      HandleStep s status draw (s.pushBatch budget batch writeStatus)
  | topUp (budget : ℕ) (writeStatus : WriteStatus) (h : s.stage = .toppingUp budget writeStatus) :
      HandleStep s status draw (s.topUp budget writeStatus)
  | finish (writeStatus : WriteStatus) (h : s.stage = .finishing writeStatus) :
      HandleStep s status draw (s.finish writeStatus)
  | reschedule (reason : RetryReason) (h : s.stage = .rescheduling reason) :
      HandleStep s status draw (s.reschedule reason draw)

theorem handle_cases {status : WriteStatus} {draw : ℕ} (hs : s.handle status draw = some s') :
    HandleStep s status draw s' := by
  unfold WriteSystem.handle at hs
  split at hs
  · cases hs
  all_goals
    rename_i hstage
    obtain rfl := Option.some.inj hs
  · exact .credit hstage
  · exact .tryPopAll _ hstage
  · exact .returnBudget _ hstage
  · exact .popFront _ _ _ hstage
  · exact .write _ _ _ hstage
  · exact .deleteId _ _ _ hstage
  · exact .pushBatch _ _ _ hstage
  · exact .topUp _ _ hstage
  · exact .finish _ hstage
  · exact .reschedule _ hstage

theorem checkCap_cases (hs : s.checkCap linked = some s') :
    linked ∈ s.started ∧
      (s' = { s with started := s.started.erase linked } ∨
        s' = { s with started := s.started.erase linked, checked := linked :: s.checked }) := by
  unfold WriteSystem.checkCap at hs
  split_ifs at hs with hstarted
  refine ⟨hstarted, ?_⟩
  dsimp only at hs
  split_ifs at hs
  · exact .inl (Option.some.inj hs).symm
  · exact .inr (Option.some.inj hs).symm

theorem insertId_cases (hs : s.insertId linked = some s') :
    linked ∈ s.checked ∧
      (s' = { s with checked := s.checked.erase linked } ∨
        (linked.packet.id ∉ s.outgoingMessageIds ∧
          s' = { s with
            checked := s.checked.erase linked
            outgoingMessageIds := insert linked.packet.id s.outgoingMessageIds
            registered := linked :: s.registered })) := by
  unfold WriteSystem.insertId at hs
  split_ifs at hs with hchecked
  refine ⟨hchecked, ?_⟩
  dsimp only at hs
  split_ifs at hs with hid
  · exact .inl (Option.some.inj hs).symm
  · exact .inr ⟨hid, (Option.some.inj hs).symm⟩

theorem pushPacket_cases (hs : s.pushPacket linked = some s') :
    linked ∈ s.registered ∧
      s' = { s with
        registered := s.registered.erase linked
        outgoingPackets := s.outgoingPackets.push linked
        history.accepted := linked :: s.history.accepted } := by
  unfold WriteSystem.pushPacket at hs
  split_ifs at hs with hregistered
  exact ⟨hregistered, (Option.some.inj hs).symm⟩

theorem event_cases {type : EventType} (hs : s.event type = some s') :
    s.armed = true ∧ (s' = { s with armed := false, stage := .rescheduling .error } ∨
      s' = { s with armed := false, stage := .entered }) := by
  unfold WriteSystem.event at hs
  split_ifs at hs with harmed
  cases type with
  | error => exact ⟨harmed, .inl (Option.some.inj hs).symm⟩
  | writeReady => exact ⟨harmed, .inr (Option.some.inj hs).symm⟩

theorem addTimer_cases {id duration : ℕ} (hs : s.addTimer id duration = some s') :
    id ∈ s.otherIds ∧
      s' = { s with timerService := s.timerService.addTimer .other id duration } := by
  unfold WriteSystem.addTimer at hs
  split_ifs at hs with hid
  exact ⟨hid, (Option.some.inj hs).symm⟩

theorem cancelTimer_cases {id : ℕ} (hs : s.cancelTimer id = some s') :
    id ∈ s.otherIds ∧ s' = { s with timerService := s.timerService.cancelTimer id } := by
  unfold WriteSystem.cancelTimer at hs
  split_ifs at hs with hid
  exact ⟨hid, (Option.some.inj hs).symm⟩

theorem tick_cases {elapsed : ℕ} (hs : s.tick elapsed = some s') :
    s.firedTimers = [] ∧ s' = { s with
      firedTimers := (s.timerService.collect elapsed).2.1
      timerService := (s.timerService.collect elapsed).2.2 } := by
  unfold WriteSystem.tick at hs
  split_ifs at hs with hfired
  exact ⟨hfired, (Option.some.inj hs).symm⟩

end WriteHandler

end BroadcastService.Transport

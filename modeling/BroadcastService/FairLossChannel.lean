import BroadcastService.Payload
import BroadcastService.TimerService

/-!
# The fair-loss channel

`io/transport/fairloss_channel.hpp` with the budget of `concurrency/budget.hpp`. The outgoing queue
is the list of its packets in the order of sending. `WriteEventHandler::Handle` runs beside `Send`,
so it advances one step at a time: taking the budget, taking the queue, one iteration of the loop
for each packet, returning what is left. The environment chooses the type of the event, the status
of a write and what a random device draws. A result of `none` stands for a call that ends the
process.
-/

namespace BroadcastService.Transport

structure SharedBudget where
  counter : ℕ
  maxBudget : ℕ

/-- The number of values of a `CounterT`. -/
def counterSpace : ℕ := 2 ^ 64

namespace SharedBudget

variable (budget : SharedBudget)

def credit (maxCredit : ℕ) : ℕ × SharedBudget :=
  let credit := min budget.counter maxCredit
  (credit, { budget with counter := budget.counter - credit })

def topUp (credit : ℕ) : SharedBudget :=
  { budget with counter := min ((budget.counter + credit) % counterSpace) budget.maxBudget }

end SharedBudget

inductive WriteStatus
  | wouldBlock
  | connRefused
  | ok
  deriving DecidableEq

inductive EventType
  | writeReady
  | error
  deriving DecidableEq

/-- Where a call of `WriteEventHandler::Handle` stands. -/
inductive WritePhase
  | idle
  | credited (budget : ℕ)
  | writing (budget : ℕ) (batch : List Packet) (writeStatus : WriteStatus)
  | returning (budget : ℕ) (batch : List Packet) (writeStatus : WriteStatus)

def WritePhase.batch : WritePhase → List Packet
  | .writing _ batch _ => batch
  | .returning _ batch _ => batch
  | _ => []

/-- `writeArmed` tells whether the event loop waits for the one-shot write event. -/
structure FairLossChannel where
  sendBudget : SharedBudget
  errorPolicy : RetryPolicy
  emptyWritePolicy : RetryPolicy
  outgoingPackets : List Packet := []
  outgoingMessageIds : Finset UInt32 := ∅
  socketOpen : Bool := true
  writeArmed : Bool := true
  phase : WritePhase := .idle

/-- What a step of the handler does outside of the channel. -/
inductive WriteEffect
  | schedule (timeoutMs : ℕ)
  | write (packet : Packet)

def outgoingMessageCap : ℕ := 20000

namespace FairLossChannel

variable (chan : FairLossChannel)

def send (packet : Packet) : FairLossChannel :=
  if outgoingMessageCap ≤ chan.outgoingMessageIds.card then chan
  else if packet.id ∈ chan.outgoingMessageIds then chan
  else
    { chan with
      outgoingMessageIds := insert packet.id chan.outgoingMessageIds
      outgoingPackets := chan.outgoingPackets ++ [packet] }

def addSendCredits (credits : ℕ) : FairLossChannel :=
  { chan with sendBudget := chan.sendBudget.topUp credits }

/-- Closing a socket twice ends the process. -/
def stop : Option FairLossChannel :=
  if chan.socketOpen then some { chan with socketOpen := false, outgoingPackets := [] } else none

def rescheduleError (draw : ℕ) : FairLossChannel × List WriteEffect :=
  if chan.errorPolicy.isValid then
    ({ chan with phase := .idle, errorPolicy := chan.errorPolicy.next draw },
      [.schedule chan.errorPolicy.timeoutMs])
  else ({ chan with phase := .idle }, [])

def rescheduleEmptyWrite (draw : ℕ) : FairLossChannel × List WriteEffect :=
  if chan.emptyWritePolicy.isValid then
    ({ chan with phase := .idle, emptyWritePolicy := chan.emptyWritePolicy.next draw },
      [.schedule chan.emptyWritePolicy.timeoutMs])
  else ({ chan with phase := .idle }, [])

/-- The call up to the test of the budget. -/
def handle (type : EventType) (draw : ℕ) : Option (FairLossChannel × List WriteEffect) :=
  if chan.writeArmed then
    let chan := { chan with writeArmed := false }
    match type with
    | .error => some (chan.rescheduleError draw)
    | .writeReady =>
        let (budget, sendBudget) := chan.sendBudget.credit (counterSpace - 1)
        let chan := { chan with sendBudget }
        if budget = 0 then some (chan.rescheduleEmptyWrite draw)
        else some ({ chan with phase := .credited budget }, [])
  else none

def popBatch (budget draw : ℕ) : FairLossChannel × List WriteEffect :=
  match chan.outgoingPackets with
  | [] => { chan with sendBudget := chan.sendBudget.topUp budget }.rescheduleEmptyWrite draw
  | batch =>
      ({ chan with
          outgoingPackets := []
          emptyWritePolicy := chan.emptyWritePolicy.reset
          phase := .writing budget batch .connRefused }, [])

/-- One iteration of the loop over the batch. Only payload messages spend budget. -/
def writeNext (budget : ℕ) (batch : List Packet) (writeStatus status : WriteStatus) :
    Option (FairLossChannel × List WriteEffect) :=
  match batch with
  | [] => some ({ chan with phase := .returning budget [] writeStatus }, [])
  | packet :: batch =>
      let messageSize := if packet.type = .payloadMessage then 1 else 0
      if budget < messageSize then
        some ({ chan with phase := .returning budget (packet :: batch) writeStatus }, [])
      else if chan.socketOpen then
        match status with
        | .ok =>
            some ({ chan with
                outgoingMessageIds := chan.outgoingMessageIds.erase packet.id
                phase := .writing (budget - messageSize) batch .ok }, [.write packet])
        | status => some ({ chan with phase := .returning budget (packet :: batch) status }, [])
      else none

def returnBatch (budget : ℕ) (batch : List Packet) (writeStatus : WriteStatus) (draw : ℕ) :
    FairLossChannel × List WriteEffect :=
  let chan := { chan with outgoingPackets := chan.outgoingPackets ++ batch }
  let chan := if 0 < budget then { chan with sendBudget := chan.sendBudget.topUp budget } else chan
  if writeStatus = .connRefused then chan.rescheduleError draw
  else
    ({ chan with phase := .idle, errorPolicy := chan.errorPolicy.reset, writeArmed := true }, [])

def advance (type : EventType) (status : WriteStatus) (draw : ℕ) :
    Option (FairLossChannel × List WriteEffect) :=
  match chan.phase with
  | .idle => chan.handle type draw
  | .credited budget => some (chan.popBatch budget draw)
  | .writing budget batch writeStatus => chan.writeNext budget batch writeStatus status
  | .returning budget batch writeStatus =>
      some (chan.returnBatch budget batch writeStatus draw)

def packets : List Packet := chan.outgoingPackets ++ chan.phase.batch

theorem mem_packets_send {packet new : Packet} (h : packet ∈ (chan.send new).packets) :
    packet ∈ chan.packets ∨ packet = new := by
  unfold send at h
  split_ifs at h with hcap hid
  · exact .inl h
  · exact .inl h
  · simp only [packets, List.mem_append, List.mem_singleton] at h ⊢
    tauto

@[simp] theorem send_socketOpen (packet : Packet) :
    (chan.send packet).socketOpen = chan.socketOpen := by
  unfold send
  split_ifs <;> rfl

/-- A step of the handler writes only packets of the channel and adds none to it. -/
structure WriteStep (chan' : FairLossChannel) (effects : List WriteEffect) : Prop where
  packets : chan'.packets ⊆ chan.packets
  written : ∀ packet, .write packet ∈ effects → packet ∈ chan.packets
  socketOpen : chan'.socketOpen = chan.socketOpen

section Steps

variable {chan}

theorem rescheduleError_step {chan' : FairLossChannel}
    (hpackets : chan'.outgoingPackets ⊆ chan.packets) (hopen : chan'.socketOpen = chan.socketOpen)
    (draw : ℕ) :
    chan.WriteStep (chan'.rescheduleError draw).1 (chan'.rescheduleError draw).2 := by
  unfold rescheduleError
  split_ifs
  all_goals exact ⟨by simpa [FairLossChannel.packets, WritePhase.batch], by simp, hopen⟩

theorem rescheduleEmptyWrite_step {chan' : FairLossChannel}
    (hpackets : chan'.outgoingPackets ⊆ chan.packets) (hopen : chan'.socketOpen = chan.socketOpen)
    (draw : ℕ) :
    chan.WriteStep (chan'.rescheduleEmptyWrite draw).1 (chan'.rescheduleEmptyWrite draw).2 := by
  unfold rescheduleEmptyWrite
  split_ifs
  all_goals exact ⟨by simpa [FairLossChannel.packets, WritePhase.batch], by simp, hopen⟩

theorem handle_step {type : EventType} {draw : ℕ} {r : FairLossChannel × List WriteEffect}
    (h : chan.handle type draw = some r) : chan.WriteStep r.1 r.2 := by
  have hqueue : chan.outgoingPackets ⊆ chan.packets := List.subset_append_left _ _
  unfold handle at h
  split_ifs at h with harmed
  cases type with
  | error =>
      obtain rfl := Option.some.inj h
      apply rescheduleError_step
      · exact hqueue
      · rfl
  | writeReady =>
      simp only at h
      split_ifs at h with hzero
      · obtain rfl := Option.some.inj h
        apply rescheduleEmptyWrite_step
        · exact hqueue
        · rfl
      · obtain rfl := Option.some.inj h
        exact ⟨by simp [FairLossChannel.packets, WritePhase.batch], by simp, rfl⟩

theorem popBatch_step (budget draw : ℕ) :
    chan.WriteStep (chan.popBatch budget draw).1 (chan.popBatch budget draw).2 := by
  unfold popBatch
  split
  · apply rescheduleEmptyWrite_step
    · exact List.subset_append_left _ _
    · rfl
  · refine ⟨?_, by simp, rfl⟩
    simp [FairLossChannel.packets, WritePhase.batch]

theorem writeNext_step {budget : ℕ} {batch : List Packet} {writeStatus status : WriteStatus}
    {r : FairLossChannel × List WriteEffect} (hbatch : chan.phase.batch = batch)
    (h : chan.writeNext budget batch writeStatus status = some r) : chan.WriteStep r.1 r.2 := by
  have hkeep : chan.outgoingPackets ++ batch ⊆ chan.packets := by
    rw [FairLossChannel.packets, hbatch]
    exact List.Subset.refl _
  cases batch with
  | nil =>
      obtain rfl := Option.some.inj h
      exact ⟨hkeep, by simp, rfl⟩
  | cons packet batch =>
      have hrest : chan.outgoingPackets ++ batch ⊆ chan.packets := by
        apply List.Subset.trans _ hkeep
        simp
      simp only [writeNext] at h
      generalize (if packet.type = .payloadMessage then 1 else 0) = messageSize at h
      split_ifs at h with hbudget hopen
      · obtain rfl := Option.some.inj h
        exact ⟨hkeep, by simp, rfl⟩
      · cases status with
        | ok =>
            obtain rfl := Option.some.inj h
            refine ⟨hrest, fun written hw => ?_, rfl⟩
            obtain rfl : written = packet := by simpa using hw
            exact hkeep (by simp)
        | _ =>
            obtain rfl := Option.some.inj h
            exact ⟨hkeep, by simp, rfl⟩

theorem returnBatch_step {budget : ℕ} {batch : List Packet} (writeStatus : WriteStatus)
    (hbatch : chan.phase.batch = batch) (draw : ℕ) :
    chan.WriteStep (chan.returnBatch budget batch writeStatus draw).1
      (chan.returnBatch budget batch writeStatus draw).2 := by
  have hkeep : chan.outgoingPackets ++ batch ⊆ chan.packets := by
    rw [FairLossChannel.packets, hbatch]
    exact List.Subset.refl _
  have hreturned : ∀ chan' : FairLossChannel,
      chan'.outgoingPackets = chan.outgoingPackets ++ batch → chan'.socketOpen = chan.socketOpen →
      chan.WriteStep (if writeStatus = .connRefused then chan'.rescheduleError draw
        else ({ chan' with
          phase := .idle, errorPolicy := chan'.errorPolicy.reset, writeArmed := true }, [])).1
        (if writeStatus = .connRefused then chan'.rescheduleError draw
        else ({ chan' with
          phase := .idle, errorPolicy := chan'.errorPolicy.reset, writeArmed := true }, [])).2 := by
    intro chan' hpackets hopen
    split_ifs with hrefused
    · exact rescheduleError_step (hpackets ▸ hkeep) hopen draw
    · exact ⟨by simpa [FairLossChannel.packets, WritePhase.batch, hpackets] using hkeep, by simp,
        hopen⟩
  unfold returnBatch
  by_cases hbudget : 0 < budget
  · simp only [hbudget, if_true]
    exact hreturned _ rfl rfl
  · simp only [hbudget, if_false]
    exact hreturned _ rfl rfl

theorem advance_step {type : EventType} {status : WriteStatus} {draw : ℕ}
    {r : FairLossChannel × List WriteEffect} (h : chan.advance type status draw = some r) :
    chan.WriteStep r.1 r.2 := by
  unfold advance at h
  split at h
  · exact handle_step h
  · obtain rfl := Option.some.inj h
    exact popBatch_step ..
  · rename_i hphase
    exact writeNext_step (by rw [hphase]; rfl) h
  · rename_i hphase
    obtain rfl := Option.some.inj h
    exact returnBatch_step _ (by rw [hphase]; rfl) draw

end Steps

end FairLossChannel

end BroadcastService.Transport
